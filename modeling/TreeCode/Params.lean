import TreeCode.Schema.Match

/-!
# Parameters of host functions

A host function declares its parameters, and its arguments are bound to them before it runs:
positional ones in order, named ones by name. An argument must match its parameter's schema; an
absent one takes the default or is reported. Positional arguments beyond the parameters, and named
ones that no parameter takes, go to the rest parameters, or nowhere.

A check may call a function. Meanwhile the host holds the argument under check, the arguments that
are still to be bound or belong to no parameter, and what has been bound. An argument that a later
parameter of the same name has displaced is held no longer.
-/

namespace TreeCode

/-- **A parameter**: its name, the schema its argument must match, and what stands in for an absent
argument. -/
structure Param where
  name : String
  schema : Value
  default : Option Value := none

/-- **The parameters of a function.** -/
structure Params where
  positional : List Param := []
  rest : Option Param := none
  named : List Param := []
  namedRest : Option Param := none

namespace Param

/-- An argument matches; a mismatch is restated for the parameter. -/
def check (p : Param) (value : Value) : Job Unit :=
  (Schema.validate value p.schema).mapError (·.forArgument p.name)

/-- The value of a parameter, given its argument if there is one. -/
def value (p : Param) : Option Value → Job Value
  | some argument => do
    (p.check argument).holding [argument]
    return argument
  | none =>
    match p.default with
    | some default => return default
    | none => .fail (Mismatch.missingArgument p.name)

end Param

namespace Params

/-- Bind positional parameters; the arguments beyond them are returned as well. -/
def bindPositional : List Param → List Value → Entries Value → Job (Entries Value × List Value)
  | [], args, out => return (out, args)
  | p :: ps, args, out => do
    let value ← (p.value args.head?).holding [.array args.tail, .object out]
    bindPositional ps args.tail (Entries.insert out p.name value)

/-- Bind named parameters; the arguments that none of them takes are returned as well. -/
def bindNamed : List Param → Entries Value → Entries Value → Job (Entries Value × Entries Value)
  | [], named, out => return (out, named)
  | p :: ps, named, out => do
    let others := Entries.erase named p.name
    let value ← (p.value (Entries.get? named p.name)).holding [.object others, .object out]
    bindNamed ps others (Entries.insert out p.name value)

/-- Bind what is left over to a rest parameter, if there is one. -/
def bindRest (rest : Option Param) (items : List Value) (whole : Value) (out : Entries Value) :
    Job (Entries Value) :=
  match rest with
  | some p => do
    (items.forM p.check).holding [whole, .object out]
    return Entries.insert out p.name whole
  | none => return out

/-- Bind the positional arguments; those that belong to no parameter are returned as well. -/
def bindInOrder (params : Params) (args : List Value) : Job (Entries Value × List Value) := do
  let (out, extra) ← bindPositional params.positional args []
  let out ← bindRest params.rest extra (.array extra) out
  return (out, if params.rest.isSome then [] else extra)

/-- Bind the named arguments after others. -/
def bindByName (params : Params) (named out : Entries Value) : Job (Entries Value) := do
  let (out, extra) ← bindNamed params.named named out
  bindRest params.namedRest (Entries.values extra) (.object extra) out

/-- **Bind arguments to parameters**, in the order positional, rest, named, named rest. -/
def bindArguments (params : Params) (args : List Value) (named : Entries Value) :
    Job (Entries Value) := do
  let (out, unclaimed) ← (params.bindInOrder args).holding [.object named]
  (params.bindByName named out).holding [.array unclaimed]

end Params

/-- **A function of the host**: its parameters, and its body on the bound arguments. -/
structure Native where
  params : Params
  body : Entries Value → Job Value

/-- Bind the arguments and run the body, which holds what was bound. -/
def Native.apply (n : Native) (args : List Value) (named : Entries Value) : Job Value := do
  let bindings ← n.params.bindArguments args named
  (n.body bindings).holding [.object bindings]

end TreeCode
