import TreeCode.Proofs.Alone

/-!
# Signatures — parameters that code and the host can both declare

A signature is a list of parameters with a name each: positional ones and named ones, of which some
have defaults, and the two rests. A function of the host can have it (`Signature.native`), and so
can a function literal (`Signature.literal`); both return what they bind as an object.

`Signature.taken` says what the parameters get for some arguments, or what is wrong with them. This
module shows that it is what the host's binder comes to (`Signature.apply_native`).
-/

namespace TreeCode

open Entries Job Param Params

/-- **The parameters of a function**, with the names of its rests. -/
structure Signature where
  positional : List Param := []
  rest : Option String := none
  named : List Param := []
  namedRest : Option String := none

namespace Param

/-- The parameter as a pattern: its name, for values that match its schema. -/
def pattern (p : Param) : Pattern := .checked (.name p.name) p.schema

/-- The parameter in a list of positional ones. -/
def element (p : Param) : ArrayPatternElement :=
  match p.default with
  | none => .required p.pattern
  | some default => .optional p.pattern (.literal default)

lemma element_cases (p : Param) : (p.default = none ∧ p.element = .required p.pattern)
    ∨ ∃ d, p.default = some d ∧ p.element = .optional p.pattern (.literal d) := by
  unfold element
  cases p.default with
  | none => exact .inl ⟨rfl, rfl⟩
  | some d => exact .inr ⟨d, rfl, rfl⟩

/-- The parameter in a list of named ones, under its own name. -/
def property (p : Param) : ObjectPatternElement :=
  .property p.name p.pattern (p.default.map .literal)

/-- A parameter for whatever is left over. -/
def leftover (name : String) : Param := { name, schema := .string "any" }

/-- The schema is plain data, and a default satisfies it. -/
structure Proper (p : Param) : Prop where
  schema : p.schema.isData = true
  default : ∀ d, p.default = some d → (Schema.validate d p.schema).alone = .ok ()

/-- The argument of a parameter, or else its default. -/
def found (p : Param) (a : Option Value) : Except ErrorValue Value :=
  match a.or p.default with
  | some value => .ok value
  | none => .error (Mismatch.missingArgument p.name)

/-- An argument and a default alike are checked, without harm to the default. -/
lemma Proper.alone_value {p : Param} (hp : p.Proper) (a) : (p.value a).alone
      = (p.found a >>= fun value => (p.check value).alone.map fun _ => value) := by
  cases a with
  | some a =>
    rw [value, alone_bind, alone_holding]
    show _ = (p.check a).alone.map fun _ => a
    cases (p.check a).alone <;> rfl
  | none =>
    unfold value found
    cases hdef : p.default with
    | none => rfl
    | some d =>
      show Except.ok d = (p.check d).alone.map fun _ => d
      rw [check, alone_mapError, hp.default d hdef]
      rfl

end Param

namespace Signature

variable (s : Signature)

/-- The parameters that are no rests. -/
def parameters : List Param := s.positional ++ s.named

def defaults : List Value := s.parameters.filterMap (·.default)

/-- **All names**, in the order in which the arguments are bound to them. -/
def names : List String :=
  s.positional.map (·.name) ++ (s.rest.toList ++ (s.named.map (·.name) ++ s.namedRest.toList))

/-- **Code and the host can both declare the signature.** -/
structure Proper : Prop where
  names : s.names.Nodup
  parameters : ∀ p ∈ s.parameters, p.Proper

/-! ## The two functions -/

def elements : List ArrayPatternElement :=
  s.positional.map element ++ (s.rest.map fun n => .rest (.name n)).toList

def entries : List ObjectPatternElement :=
  s.named.map property ++ (s.namedRest.map fun n => .rest (.name n)).toList

/-- An object of variables. -/
def objectOf (names : List String) : Expr :=
  .object (names.map fun n => .entry (.literal (.string n)) (.name n none))

/-- **The function literal** with the signature, which returns its variables. -/
def literal : Expr := .given s.elements s.entries (objectOf s.names)

/-- The parameters of the host's function. -/
def params : Params where
  positional := s.positional
  rest := s.rest.map leftover
  named := s.named
  namedRest := s.namedRest.map leftover

/-- **The host's function** with the signature, which returns its bindings. -/
def native : Native where
  params := s.params
  body bs := return .object bs

/-! ## What the parameters get -/

/-- What positional parameters get. -/
def takeInOrder : List Param → List Value → Except ErrorValue (Entries Value)
  | [], _ => .ok []
  | p :: ps, args => do
    let value ← (p.value args.head?).alone
    let os ← takeInOrder ps args.tail
    return (p.name, value) :: os

/-- What named parameters get, and what they leave over. -/
def takeByName : List Param → Entries Value → Except ErrorValue (Entries Value × Entries Value)
  | [], named => .ok ([], named)
  | p :: ps, named => do
    let value ← (p.value (get? named p.name)).alone
    let (os, left) ← takeByName ps (erase named p.name)
    return ((p.name, value) :: os, left)

/-- What a rest gets. -/
def takeRest (rest : Option String) (whole : Value) : Entries Value :=
  (rest.map fun name => (name, whole)).toList

/-- **What the parameters get**, or what is wrong with the arguments. -/
def taken (args : List Value) (named : Entries Value) : Except ErrorValue (Entries Value) := do
  let first ← takeInOrder s.positional args
  let (second, left) ← takeByName s.named named
  return first ++ (takeRest s.rest (.array (args.drop s.positional.length)) ++ (second
    ++ takeRest s.namedRest (.object left)))

/-- Arguments beyond the parameters do not matter. -/
lemma takeInOrder_take : ∀ ps args, takeInOrder ps (args.take ps.length) = takeInOrder ps args
  | [], args => rfl
  | p :: ps, [] => rfl
  | p :: ps, v :: vs => by
    simp only [takeInOrder, List.length_cons, List.take_succ_cons, List.head?_cons, List.tail_cons,
      takeInOrder_take ps vs]

lemma keys_takeInOrder {first} : ∀ {ps args},
    takeInOrder ps args = .ok first → keys first = ps.map (·.name) := by
  intro ps
  induction ps generalizing first with
  | nil =>
    intro args h
    cases h
    rfl
  | cons p ps ih =>
    intro args h
    rw [takeInOrder] at h
    cases hv : (p.value args.head?).alone with
    | error e => rw [hv] at h; cases h
    | ok value =>
      cases ho : takeInOrder ps args.tail with
      | error e => rw [hv, ho] at h; cases h
      | ok os =>
        rw [hv, ho] at h
        cases h
        exact congrArg (p.name :: ·) (ih ho)

lemma keys_takeByName {second left} : ∀ {ps named},
    takeByName ps named = .ok (second, left) → keys second = ps.map (·.name) := by
  intro ps
  induction ps generalizing second with
  | nil =>
    intro named h
    cases h
    rfl
  | cons p ps ih =>
    intro named h
    rw [takeByName] at h
    cases hv : (p.value (get? named p.name)).alone with
    | error e => rw [hv] at h; cases h
    | ok value =>
      cases ho : takeByName ps (erase named p.name) with
      | error e => rw [hv, ho] at h; cases h
      | ok os =>
        rw [hv, ho] at h
        cases h
        exact congrArg (p.name :: ·) (ih ho)

lemma keys_takeRest (rest : Option String) (whole) :
    keys (takeRest rest whole) = rest.toList := by
  cases rest <;> rfl

/-- **The parameters get a value each.** -/
theorem keys_taken {args named bound}
    (h : s.taken args named = .ok bound) : keys bound = s.names := by
  rw [taken] at h
  cases hf : takeInOrder s.positional args with
  | error e => rw [hf] at h; cases h
  | ok first =>
    cases hsecond : takeByName s.named named with
    | error e => rw [hf, hsecond] at h; cases h
    | ok taken =>
      rw [hf, hsecond] at h
      cases h
      have hr := keys_takeRest s.rest (.array (args.drop s.positional.length))
      have hleft := keys_takeRest s.namedRest (.object taken.2)
      have hf := keys_takeInOrder hf
      have hsecond := keys_takeByName hsecond
      simp only [keys] at hr hleft hf hsecond
      simp only [keys, names, List.map_append, hr, hleft, hf, hsecond]

end Signature

/-! ## The host's binder -/

namespace Schema

/-- Everything matches `any`. -/
lemma validate_any (v) : validate v (.string "any") = pure () := by
  have hread : ofValue (.string "any") = .type .any := by
    rw [ofValue]
    rfl
  rw [validate, bindValue, hread, bindInto]
  rfl

end Schema

lemma Param.check_any (name v) : check { name, schema := .string "any" } v = pure () := by
  rw [check, Schema.validate_any]
  rfl

namespace Params

lemma alone_bindPositional : ∀ ps args out,
    (bindPositional ps args out).alone = (Signature.takeInOrder ps args).map fun first =>
      (merge out first, args.drop ps.length)
  | [], args, out => rfl
  | p :: ps, args, out => by
    rw [bindPositional, alone_bind, alone_holding, Signature.takeInOrder]
    cases (p.value args.head?).alone with
    | error e => rfl
    | ok value =>
      dsimp only
      rw [alone_bindPositional ps args.tail]
      have htail : args.tail.drop ps.length = args.drop (p :: ps).length := by
        rw [List.drop_tail]
        rfl
      cases Signature.takeInOrder ps args.tail with
      | error e => rfl
      | ok os => exact congrArg (fun xs => Except.ok (_, xs)) htail

lemma alone_bindNamed : ∀ ps named out,
    (bindNamed ps named out).alone = (Signature.takeByName ps named).map fun (second, left) =>
      (merge out second, left)
  | [], named, out => rfl
  | p :: ps, named, out => by
    rw [bindNamed, Signature.takeByName]
    dsimp only
    rw [alone_bind, alone_holding]
    cases (p.value (get? named p.name)).alone with
    | error e => rfl
    | ok value =>
      dsimp only
      rw [alone_bindNamed ps]
      cases Signature.takeByName ps (erase named p.name) <;> rfl

lemma bindRest_leftover (rest : Option String) (items whole out) :
    bindRest (rest.map leftover) items whole out
      = pure (merge out (Signature.takeRest rest whole)) := by
  cases rest with
  | none => rfl
  | some name =>
    have hitems : items.forM (leftover name).check = pure () := by
      induction items with
      | nil => rfl
      | cons x xs ih =>
        have hx : (leftover name).check x = pure () := by
          rw [check, leftover, Schema.validate_any]
          rfl
        show ((leftover name).check x >>= fun _ => xs.forM (leftover name).check) = _
        rw [hx, ih]
        rfl
    show ((items.forM (leftover name).check).holding _ >>= fun _ => _) = _
    rw [hitems]
    rfl

/-! ### Checks with schemas that are plain data -/

lemma idle_value {p : Param} (hp : p.schema.isData = true) (a) :
    (p.value a).Idle := by
  cases a with
  | some a => exact (((Schema.idle_validate a hp).mapError _).holding _).bind fun _ => asks_pure _
  | none =>
    unfold value
    cases p.default with
    | some default => exact asks_pure _
    | none => exact asks_fail _

lemma idle_bindPositional : ∀ {ps}, (∀ p ∈ ps, p.schema.isData = true) →
    ∀ args out, (bindPositional ps args out).Idle
  | [], _, args, out => asks_pure _
  | p :: ps, hps, args, out => by
    rw [List.forall_mem_cons] at hps
    rw [bindPositional]
    exact ((idle_value hps.1 _).holding _).bind fun _ => idle_bindPositional hps.2 _ _

lemma idle_bindNamed : ∀ {ps}, (∀ p ∈ ps, p.schema.isData = true) →
    ∀ named out, (bindNamed ps named out).Idle
  | [], _, named, out => asks_pure _
  | p :: ps, hps, named, out => by
    rw [List.forall_mem_cons] at hps
    rw [bindNamed]
    exact ((idle_value hps.1 _).holding _).bind fun _ => idle_bindNamed hps.2 _ _

end Params

namespace Signature

variable {s : Signature}

lemma merge_append (out a b : Entries Value) :
    merge (merge out a) b = merge out (a ++ b) :=
  (List.foldl_append).symm

lemma alone_bindInOrder (args : List Value) : (s.params.bindInOrder args).alone
    = (takeInOrder s.positional args).map fun first =>
      (merge [] (first ++ takeRest s.rest (.array (args.drop s.positional.length))),
        if s.params.rest.isSome then [] else args.drop s.positional.length) := by
  have hpos : s.params.positional = s.positional := rfl
  rw [bindInOrder, alone_bind, hpos, alone_bindPositional]
  cases takeInOrder s.positional args with
  | error e => rfl
  | ok first =>
    dsimp only [Except.map, params]
    rw [bindRest_leftover, ← merge_append]
    rfl

lemma alone_bindByName (named out : Entries Value) : (s.params.bindByName named out).alone
    = (takeByName s.named named).map fun (second, left) =>
      merge out (second ++ takeRest s.namedRest (.object left)) := by
  have hn : s.params.named = s.named := rfl
  rw [bindByName, alone_bind, hn, alone_bindNamed]
  cases takeByName s.named named with
  | error e => rfl
  | ok second =>
    dsimp only [Except.map, params]
    rw [bindRest_leftover, ← merge_append]
    rfl

/-- **What the host's function returns** is an object of what the parameters get. -/
theorem alone_apply_native (hns : s.names.Nodup) (args : List Value) (named : Entries Value) :
    (s.native.apply args named).alone = (s.taken args named).map .object := by
  have hbound : (s.params.bindArguments args named).alone = s.taken args named := by
    rw [bindArguments, alone_bind, alone_holding, alone_bindInOrder]
    cases hf : takeInOrder s.positional args with
    | error e =>
      rw [taken, hf]
      rfl
    | ok first =>
      dsimp only [Except.map]
      rw [alone_holding, alone_bindByName]
      cases hsecond : takeByName s.named named with
      | error e =>
        rw [taken, hf, hsecond]
        rfl
      | ok second =>
        have htaken : s.taken args named = .ok (first
            ++ (takeRest s.rest (.array (args.drop s.positional.length)) ++ (second.1
            ++ takeRest s.namedRest (.object second.2)))) := by
          rw [taken, hf, hsecond]
          rfl
        have hks := keys_taken s htaken
        rw [htaken]
        dsimp only [Except.map]
        rw [merge_append, List.append_assoc]
        exact congrArg Except.ok (ofPairs_of_nodup (hks ▸ hns))
  have hps : s.native.params = s.params := rfl
  rw [Native.apply, alone_bind, hps, hbound]
  cases s.taken args named <;> rfl

lemma idle_apply_native (hschemas : ∀ p ∈ s.parameters, p.schema.isData = true)
    (args named) : (s.native.apply args named).Idle := by
  simp only [parameters, List.mem_append] at hschemas
  have hinOrder : (s.params.bindInOrder args).Idle := by
    refine (idle_bindPositional (fun p hp => hschemas p (.inl hp)) _ _).bind fun x => ?_
    dsimp only [params]
    rw [bindRest_leftover]
    exact asks_pure _
  have hbyName : ∀ out, (s.params.bindByName named out).Idle := by
    intro out
    refine (idle_bindNamed (fun p hp => hschemas p (.inr hp)) _ _).bind fun x => ?_
    dsimp only [params]
    rw [bindRest_leftover]
    exact asks_pure _
  refine ((hinOrder.holding _).bind fun x => (hbyName x.1).holding _).bind fun bs => ?_
  exact asks_pure _

end Signature

end TreeCode
