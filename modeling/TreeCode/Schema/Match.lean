import TreeCode.Job
import TreeCode.Schema
import TreeCode.Schema.Mismatch

/-!
# Matching values against schemas

`Schema.bindValue` matches a value and returns the names that the schema binds, in the order in
which they were bound. The order of the checks decides which mismatch is reported: the type, then
elements, the shape with its rest, keys, values, and last the condition, which the host is asked to
call.

An alternative is tried for every branch, even after one has matched: names of branches that failed
are bound to the failure, so that a match binds all names of the schema.

The failure of a condition is whatever error the condition raised. So the bindings and the outcomes
of branches may hold values of which neither the value nor the schema is made, and they are held
while later conditions are asked.
-/

namespace TreeCode.Schema

/-- The bindings a match adds to. -/
abbrev Bindings := Entries Value

/-- The value passes the type test. -/
def checkType (test : TypeTest) (value : Value) : Job Unit :=
  if test.accepts value then pure ()
  else .fail (Mismatch.notOfType value test.name)

/-- What a branch gave, and the names that it declares. -/
structure BranchOutcome where
  names : List String
  result : Except ErrorValue Bindings

namespace BranchOutcome

def bindings? (o : BranchOutcome) : Option Bindings :=
  match o.result with
  | .ok bindings => some bindings
  | .error _ => none

def error? (o : BranchOutcome) : Option ErrorValue :=
  match o.result with
  | .ok _ => none
  | .error e => some e

/-- What the branch gave, as a value. -/
def toValue (o : BranchOutcome) : Value :=
  match o.result with
  | .ok bindings => .object bindings
  | .error e => e.toValue

/-- What the branch offers for its names: its bindings, or its failure. -/
def offers (o : BranchOutcome) : Bindings :=
  match o.result with
  | .ok bindings => bindings
  | .error e => o.names.map fun name => (name, e.toValue)

end BranchOutcome

/-- Insert the pairs whose names are not bound yet. -/
def addMissing (out : Bindings) (offers : Bindings) : Bindings :=
  offers.foldl (fun acc pair => if Entries.contains acc pair.1 then acc
    else Entries.insert acc pair.1 pair.2) out

/-- The types that failed branches expected; those of nested alternatives stand in place. -/
def expectedTypes (errors : List ErrorValue) : List Value :=
  errors.flatMap fun e =>
    match e.detail? "expectedType" with
    | some (.object nested) =>
      match Entries.get? nested "either" with
      | some (.array types) => types
      | _ => [.object nested]
    | some other => [other]
    | none => []

/-- **The outcome of an alternative.** The first branch that matched has its bindings, the other
branches fill in what is missing. If none matched and all failed on types, the types are
combined. -/
def joinBranches (value : Value) (outcomes : List BranchOutcome) (out : Bindings) :
    Except ErrorValue Bindings :=
  match outcomes.findSome? (·.bindings?) with
  | some bindings =>
    .ok (outcomes.foldl (fun acc o => addMissing acc o.offers) (Entries.merge out bindings))
  | none =>
    let errors := outcomes.filterMap (·.error?)
    if !errors.isEmpty && errors.all (·.kind == "wrongType") then
      .error (Mismatch.wrongType value (.object [("either", .array (expectedTypes errors))]))
    else .error (Mismatch.noAlternative value errors)

/-- A match inside a container, for its own sake; a mismatch is blamed on the place. -/
def within (job : Job Bindings) (blame : ErrorValue → ErrorValue) : Job Unit := do
  let _ ← job.mapError blame
  return ()

/-- Conditions on keys and values are for objects only. -/
def checkObject : Bool → Value → Job Unit
  | false, _ => return ()
  | true, .object _ => return ()
  | true, value => .fail (Mismatch.notOfType value "object")

/-- The condition, a function, returns true for the value. -/
def checkCondition : Option Value → Value → Job Unit
  | none, _ => return ()
  | some condition, value => do
    let answer ← Job.invoke condition [value] []
    if answer.equals (.boolean true) then return ()
    else .fail (Mismatch.conditionFailed value condition)

mutual
/-- Match a value and add the bindings to `out`. -/
def bindInto : Schema → Value → Bindings → Job Bindings
  | .type test, value, out => do
    checkType test value
    return out
  | .either branches, value, out => do
    let outcomes ← (tryBranches branches value []).holding [.object out]
    .ofExcept (joinBranches value outcomes out)
  | .oneOf options, value, out =>
    if options.any (·.equals value) then return out
    else .fail (Mismatch.notAnOption value options)
  | .bind inner name, value, out => do
    let out ← bindInto inner value out
    return Entries.insert out name value
  | .typed source test elements shape keys values condition, value, out => do
    checkType test value
    (checkElements elements value).holding [.object out]
    let out ← bindShape shape source value out
    Job.holding [.object out] do
      checkObject (keys.isSome || values.isSome) value
      checkKeys keys value
      checkValues values value
      checkCondition condition value
    return out
  | .invalid source _, _, _ => .fail (Mismatch.invalidSchema source)

/-- Try every branch after those in `tried`, which are in reverse. A branch that is no schema ends
the attempt. -/
def tryBranches : List Schema → Value → List BranchOutcome → Job (List BranchOutcome)
  | [], _, tried => return tried.reverse
  | s :: rest, value, tried => do
    let result ← ((bindInto s value []).holding (tried.map BranchOutcome.toValue)).attempt
    match result with
    | .error e => if e.kind = "invalidSchema" then .fail e
    | .ok _ => pure ()
    tryBranches rest value (⟨s.names, result⟩ :: tried)

/-- Every element matches. -/
def checkElements : Option Schema → Value → Job Unit
  | none, _ => return ()
  | some s, value =>
    match value with
    | .array elements =>
      (elements.zipIdx 1).forM fun (element, position) =>
        within (bindInto s element []) (Mismatch.badElement value position)
    | _ => .fail (Mismatch.notOfType value "array")

/-- The value has the shape. -/
def bindShape : Shape → Value → Value → Bindings → Job Bindings
  | .absent, _, _, out => return out
  | .malformed, source, _, _ => .fail (Mismatch.invalidSchema source)
  | .tuple entries, source, value, out =>
    match value with
    | .array elements => bindTuple entries source value 1 elements out
    | _ => .fail (Mismatch.notOfType value "array")
  | .record entries, source, value, out =>
    match value with
    | .object properties => do
      let out ← bindRecord entries source value properties false out
      bindRecordRest entries (Entries.keys entries) value properties out
    | _ => .fail (Mismatch.notOfType value "object")

/-- Match the entries of a tuple from a position on with the elements from there on. The rest may
only be the last entry. -/
def bindTuple : List ShapeEntry → Value → Value → Nat → List Value → Bindings → Job Bindings
  | [], _, _, _, _, out => return out
  | .rest s name :: later, source, value, position, elements, out =>
    if later.isEmpty then do
      Job.holding [.object out] <| (elements.zipIdx position).forM fun (element, position) =>
        within (bindInto s element []) (Mismatch.badElement value position)
      match name with
      | some name => return Entries.insert out name (.array elements)
      | none => return out
    else .fail (Mismatch.invalidSchema source)
  | .required s :: later, source, value, position, elements, out =>
    match elements with
    | element :: elements => do
      let out ← (bindInto s element out).mapError (Mismatch.badElement value position)
      bindTuple later source value (position + 1) elements out
    | [] => .fail (Mismatch.missingElement value position)
  | .optional s default :: later, source, value, position, elements, out => do
    let out ← (bindInto s (elements.headD default) out).mapError
      (Mismatch.badElement value position)
    bindTuple later source value (position + 1) elements.tail out

/-- Match the entries of a record, leaving the rest aside; there may be one. -/
def bindRecord : List (String × ShapeEntry) → Value → Value → Entries Value → Bool → Bindings →
    Job Bindings
  | [], _, _, _, _, out => return out
  | (_, .rest _ _) :: later, source, value, properties, restSeen, out =>
    if restSeen then .fail (Mismatch.invalidSchema source)
    else bindRecord later source value properties true out
  | (key, .required s) :: later, source, value, properties, restSeen, out =>
    match Entries.get? properties key with
    | some property => do
      let out ← (bindInto s property out).mapError (Mismatch.badProperty value key)
      bindRecord later source value properties restSeen out
    | none => .fail (Mismatch.missingProperty value key)
  | (key, .optional s default) :: later, source, value, properties, restSeen, out => do
    let property := (Entries.get? properties key).getD default
    let out ← (bindInto s property out).mapError (Mismatch.badProperty value key)
    bindRecord later source value properties restSeen out

/-- Match the properties under keys that the shape does not mention with its rest. -/
def bindRecordRest : List (String × ShapeEntry) → List String → Value → Entries Value → Bindings →
    Job Bindings
  | [], _, _, _, out => return out
  | (_, .rest s name) :: _, mentioned, value, properties, out => do
    let leftover := properties.filter fun (key, _) => !mentioned.contains key
    Job.holding [.object out] <| leftover.forM fun (key, property) =>
      within (bindInto s property []) (Mismatch.badProperty value key)
    match name with
    | some name => return Entries.insert out name (.object leftover)
    | none => return out
  | (_, .required _) :: later, mentioned, value, properties, out =>
    bindRecordRest later mentioned value properties out
  | (_, .optional _ _) :: later, mentioned, value, properties, out =>
    bindRecordRest later mentioned value properties out

/-- Every key of an object matches. -/
def checkKeys : Option Schema → Value → Job Unit
  | some s, .object properties =>
    properties.forM fun (key, _) =>
      within (bindInto s (.string key) []) (Mismatch.badKey (.object properties) key)
  | _, _ => return ()

/-- Every value of an object matches. -/
def checkValues : Option Schema → Value → Job Unit
  | some s, .object properties =>
    properties.forM fun (key, property) =>
      within (bindInto s property []) (Mismatch.badProperty (.object properties) key)
  | _, _ => return ()
end

/-! ## The three ways to match -/

/-- **Match a value and return the bindings.** -/
def bindValue (value schema : Value) : Job Bindings := bindInto (ofValue schema) value []

/-- **Match a value for its own sake.** -/
def validate (value schema : Value) : Job Unit := do
  let _ ← bindValue value schema
  return ()

/-- **Whether a value matches.** Only mismatches count as no; an invalid schema and an error that a
condition raises remain errors. -/
def accepts (value schema : Value) : Job Bool :=
  (bindValue value schema).andThen fun
    | .ok _ => .pure true
    | .error e => if e.isMismatch then .pure false else .fail e

end TreeCode.Schema
