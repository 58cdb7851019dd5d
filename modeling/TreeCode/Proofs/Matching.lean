import TreeCode.Proofs.Alike
import TreeCode.Proofs.Inspection
import TreeCode.Params
import TreeCode.Value.Indexing

/-!
# Matching does not look into functions

Alike values are matched alike against alike schemas (`Schema.bindInto_alike`), and alike values are
read as alike schemas (`Schema.ofValue_alike`). The same holds of the binding of arguments to
parameters and of indexing.
-/

namespace TreeCode

open Entries List Likeness Option

mutual
/-- **Schemas that are the same but for values that are alike**, whose conditions may be called. -/
inductive Schema.Alike (r : Likeness) : Schema → Schema → Prop where
  | type (test) : Schema.Alike r (.type test) (.type test)
  | either {bs cs} (h : Forall₂ (Schema.Alike r) bs cs) :
      Schema.Alike r (.either bs) (.either cs)
  | oneOf {xs ys} (h : r.All xs ys) : Schema.Alike r (.oneOf xs) (.oneOf ys)
  | bind {s t} (h : Schema.Alike r s t) (name) :
      Schema.Alike r (.bind s name) (.bind t name)
  | typed {v w test elements elements' keys keys' values values' shape shape' condition condition'}
      (hsource : v.Alike r w)
      (helements : Rel (Schema.Alike r) elements elements')
      (hshape : Shape.Alike r shape shape') (hkeys : Rel (Schema.Alike r) keys keys')
      (hvalues : Rel (Schema.Alike r) values values')
      (hcondition : Rel (fun c d => c.Alike r d ∧ ∀ v, r.requests (.call c [v] []))
        condition condition') :
      Schema.Alike r (.typed v test elements shape keys values condition)
        (.typed w test elements' shape' keys' values' condition')
  | invalid {v w} (h : v.Alike r w) (names) :
      Schema.Alike r (.invalid v names) (.invalid w names)
/-- Shapes that are the same but for values that are alike. -/
inductive Shape.Alike (r) : Shape → Shape → Prop where
  | absent : Shape.Alike r .absent .absent
  | malformed : Shape.Alike r .malformed .malformed
  | tuple {es fs} (h : Forall₂ (ShapeEntry.Alike r) es fs) :
      Shape.Alike r (.tuple es) (.tuple fs)
  | record {es fs} (h : Shape.AlikeRecord r es fs) :
      Shape.Alike r (.record es) (.record fs)
inductive Shape.AlikeRecord (r) :
    List (String × ShapeEntry) → List (String × ShapeEntry) → Prop where
  | nil : Shape.AlikeRecord r [] []
  | cons {e f es fs} (key)
      (h : ShapeEntry.Alike r e f) (hrest : Shape.AlikeRecord r es fs) :
      Shape.AlikeRecord r ((key, e) :: es) ((key, f) :: fs)
/-- Entries of shapes that are the same but for values that are alike. -/
inductive ShapeEntry.Alike (r) : ShapeEntry → ShapeEntry → Prop where
  | required {s t} (h : Schema.Alike r s t) : ShapeEntry.Alike r (.required s) (.required t)
  | optional {s t v w} (h : Schema.Alike r s t) (hvw : v.Alike r w) :
      ShapeEntry.Alike r (.optional s v) (.optional t w)
  | rest {s t} (h : Schema.Alike r s t) (name) :
      ShapeEntry.Alike r (.rest s name) (.rest t name)
end

variable {r : Likeness}

namespace Schema

variable {q : Likeness}

/-! ## Names -/

mutual
/-- **Alike schemas mention the same names.** -/
theorem mentioned_eq : ∀ (s : Schema) {t}, s.Alike r t → s.mentioned = t.mentioned
  | .either bs, _, .either h => mentionedInAll_eq bs h
  | .bind inner name, _, .bind h _ => congrArg (· ++ [name]) (mentioned_eq inner h)
  | .typed _ _ _ shape _ _ _, _, .typed _ _ h _ _ _ => mentionedInShape_eq shape h
  | .type _, _, .type _ | .oneOf _, _, .oneOf _ | .invalid _ _, _, .invalid _ _ => rfl
lemma mentionedInAll_eq : ∀ bs {cs},
    Forall₂ (Schema.Alike r) bs cs → mentionedInAll bs = mentionedInAll cs
  | [], _, .nil => rfl
  | s :: rest, _, .cons h hr => congrArg₂ (· ++ ·) (mentioned_eq s h) (mentionedInAll_eq rest hr)
lemma mentionedInShape_eq : ∀ (s : Shape) {t}, s.Alike r t →
    mentionedInShape s = mentionedInShape t
  | .tuple es, _, .tuple h => mentionedInTuple_eq es h
  | .record es, _, .record h => mentionedInRecord_eq es h
  | .absent, _, .absent | .malformed, _, .malformed => rfl
lemma mentionedInTuple_eq : ∀ es {fs},
    Forall₂ (ShapeEntry.Alike r) es fs → mentionedInTuple es = mentionedInTuple fs
  | [], _, .nil => rfl
  | e :: rest, _, .cons h hr =>
    congrArg₂ (· ++ ·) (mentionedInEntry_eq e h) (mentionedInTuple_eq rest hr)
lemma mentionedInRecord_eq : ∀ (es)
    {fs}, Shape.AlikeRecord r es fs →
    mentionedInRecord es = mentionedInRecord fs
  | [], _, .nil => rfl
  | (_, e) :: rest, _, .cons _ h hr =>
    congrArg₂ (· ++ ·) (mentionedInEntry_eq e h) (mentionedInRecord_eq rest hr)
lemma mentionedInEntry_eq : ∀ (e : ShapeEntry) {f}, e.Alike r f →
    mentionedInEntry e = mentionedInEntry f
  | .required s, _, .required h => mentioned_eq s h
  | .optional s _, _, .optional h _ => mentioned_eq s h
  | .rest _ _, _, .rest _ _ => rfl
end

lemma names_eq {s t : Schema} (h : s.Alike r t) : s.names = t.names := by
  rw [names, names, mentioned_eq s h]

lemma isSome_eq {x y} (h : Rel (Schema.Alike r) x y) :
    x.isSome = y.isSome := by
  cases h <;> rfl

lemma keys_eq {es fs} (h : Shape.AlikeRecord r es fs) :
    keys es = keys fs := by
  induction es generalizing fs with
  | nil => cases h; rfl
  | cons e es ih => cases h with | cons key _ hr => exact congrArg (key :: ·) (ih hr)

/-! ## Reading -/

/-- What is alike by `q` is alike by `r`, and may be a condition. -/
def Serves (q r : Likeness) : Prop :=
  ∀ {v w : Value}, v.Alike q w → v.Alike r w ∧ ∀ x, r.requests (.call v [x] [])

lemma rel_imp {α β : Type} {R S : α → β → Prop} (h : ∀ a b, R a b → S a b) {x y} (hxy : Rel R x y) :
    Rel S x y := by
  cases hxy with
  | none => exact .none
  | some hab => exact .some (h _ _ hab)

/-- What alike maps have under a key is smaller than they are. -/
lemma get?_alike {fs os} (h : q.Entries fs os) (key) :
    Rel (fun v w => v.Alike q w ∧ sizeOf v < sizeOf fs) (get? fs key) (get? os key) := by
  have hget := h.get? key
  have hlt : ∀ {v}, get? fs key = some v → sizeOf v < sizeOf fs := sizeOf_get?_lt
  generalize get? fs key = x, get? os key = y at hget hlt
  cases hget with
  | none => exact .none
  | some h => exact .some ⟨h, hlt rfl⟩

lemma property_alike {v w : Value} (h : v.Alike q w) (key) :
    Rel (fun a b => a.Alike q b ∧ sizeOf a < sizeOf v) (v.get? key) (w.get? key) := by
  cases h.form with
  | object hall =>
    rename_i xs ys
    show Rel _ (get? xs key) (get? ys key)
    have hget := get?_alike hall key
    generalize get? xs key = x, get? ys key = y at hget
    cases hget with
    | none => exact .none
    | some h => exact .some ⟨h.1, by have := h.2; simp; omega⟩
  | _ => exact .none

section Reading

variable (hq : Serves q r)
include hq

-- The linter does not see a use by way of another member of the block.
set_option linter.unusedSectionVars false in
mutual
/-- **Alike values are read as alike schemas.** -/
theorem ofValue_alike : ∀ (v : Value) {w}, v.Alike q w → (ofValue v).Alike r (ofValue w)
  | .object fs, w, h => by
    have hsrc := (hq h).1
    obtain ⟨os, rfl, hfields⟩ := Value.alike_object.mp h
    have heither := get?_alike hfields "either"
    have honeOf := get?_alike hfields "oneOf"
    have hbind := get?_alike hfields "bind"
    have has := get?_alike hfields "as"
    have hof := get?_alike hfields "of"
    have htype := get?_alike hfields "type"
    have hwhere := get?_alike hfields "where"
    rw [ofValue_object, ofValue_object, ← looseNames_alike fs hfields, ← hfields.contains_eq]
    generalize get? fs "either" = x, get? os "either" = y at heither
    cases heither with
    | some h =>
      have hlt := h.2
      cases h.1.form with
      | @array xs _ hall =>
        have : sizeOf xs < sizeOf fs := by simp at hlt; omega
        exact .either (ofList_alike _ hall)
      | _ => exact .invalid hsrc _
    | none =>
    generalize get? fs "oneOf" = x, get? os "oneOf" = y at honeOf
    cases honeOf with
    | some h =>
      cases h.1.form with
      | array hall => exact .oneOf (hall.imp fun _ _ h => (hq h).1)
      | _ => exact .invalid hsrc _
    | none =>
    generalize get? fs "bind" = x, get? os "bind" = y at hbind
    cases hbind with
    | some h =>
      have hlt := h.2
      generalize get? fs "as" = x, get? os "as" = y at has
      cases has with
      | none => exact .invalid hsrc _
      | some hname =>
        cases hname.1.form with
        | string name => exact .bind (ofValue_alike _ h.1) name
        | _ => exact .invalid hsrc _
    | none =>
    dsimp only
    split
    · generalize get? fs "of" = x, get? os "of" = y at hof
      cases hof with
      | some h =>
        have hlt := h.2
        exact ofValue_alike _ h.1
      | none => exact .invalid hsrc _
    · generalize get? fs "type" = x, get? os "type" = y at htype
      cases htype with
      | none => exact .invalid hsrc _
      | some h =>
        cases h.1.form with
        | string name =>
          dsimp only
          split
          · exact .typed hsrc (field_alike fs hfields _) (shapeOf_alike fs hfields)
              (field_alike fs hfields _) (field_alike fs hfields _)
              (rel_imp (fun _ _ h => hq h.1) hwhere)
          · exact .invalid hsrc _
        | _ => exact .invalid hsrc _
  | .string name, w, h => by
    obtain rfl := Value.alike_string.mp h
    rw [ofValue]
    split
    · exact .type _
    · exact .invalid (hq h).1 []
  | .null, w, h | .boolean _, w, h | .number _, w, h | .array _, w, h | .closure _, w, h
  | .native _, w, h | .error _ _ _, w, h | .stream _, w, h => by
    have hsrc := (hq h).1
    cases h.form
    simp only [ofValue]
    exact .invalid hsrc []
termination_by v => (sizeOf v, 0)

lemma ofList_alike : ∀ vs {ws}, q.All vs ws → Forall₂ (Schema.Alike r) (ofList vs) (ofList ws)
  | [], _, .nil => by simp [ofList]
  | v :: vs, _, .cons h hvs => by
    rw [ofList, ofList]
    exact .cons (ofValue_alike v h) (ofList_alike vs hvs)
termination_by vs => (sizeOf vs, 0)

lemma field_alike (fs : Entries Value) {os} (h : q.Entries fs os) (key : String) :
    Rel (Schema.Alike r) (field fs key) (field os key) := by
  have hget := get?_alike h key
  rw [field_eq, field_eq]
  generalize get? fs key = x, get? os key = y at hget
  cases hget with
  | none => exact .none
  | some h =>
    have := h.2
    exact .some (ofValue_alike _ h.1)
termination_by (sizeOf fs, 1)

lemma shapeOf_alike (fs) {os}
    (h : q.Entries fs os) : (shapeOf fs).Alike r (shapeOf os) := by
  have hget := get?_alike h "shape"
  rw [shapeOf_eq, shapeOf_eq]
  generalize get? fs "shape" = x, get? os "shape" = y at hget
  cases hget with
  | none => exact .absent
  | some h =>
    have hlt := h.2
    cases h.1.form with
    | @array xs _ hall =>
      have : sizeOf xs < sizeOf fs := by simp at hlt; omega
      exact .tuple (tupleOf_alike _ hall)
    | @object xs _ hall =>
      have : sizeOf xs < sizeOf fs := by simp at hlt; omega
      exact .record (recordOf_alike _ hall)
    | _ => exact .malformed
termination_by (sizeOf fs, 1)

lemma tupleOf_alike : ∀ vs {ws}, q.All vs ws →
    Forall₂ (ShapeEntry.Alike r) (tupleOf vs) (tupleOf ws)
  | [], _, .nil => by simp [tupleOf]
  | v :: vs, _, .cons h hvs => by
    rw [tupleOf, tupleOf]
    exact .cons (entryOf_alike v h) (tupleOf_alike vs hvs)
termination_by vs => (sizeOf vs, 0)

lemma recordOf_alike : ∀ es {fs},
    q.Entries es fs → Shape.AlikeRecord r (recordOf es) (recordOf fs)
  | [], _, .nil => by simp only [recordOf]; exact .nil
  | (key, v) :: es, fs, h => by
    obtain ⟨⟨key', w⟩, rest, ⟨hkey, hv⟩, hes, rfl⟩ := forall₂_cons_left_iff.mp h
    cases hkey
    rw [recordOf, recordOf]
    exact .cons key (entryOf_alike v hv) (recordOf_alike es hes)
termination_by es => (sizeOf es, 0)

lemma entryOf_alike (v : Value) {w : Value} (h : v.Alike q w) :
    (entryOf v).Alike r (entryOf w) := by
  have hr := property_alike h "rest"
  have has := property_alike h "as"
  have hdef := property_alike h "default"
  have hof := property_alike h "of"
  have has' : (v.get? "as").bind Value.asString? = (w.get? "as").bind Value.asString? := by
    generalize v.get? "as" = x, w.get? "as" = y at has
    cases has with
    | none => rfl
    | some h => exact h.1.asString?_eq.symm
  rw [entryOf_eq_match, entryOf_eq_match, ← has']
  generalize v.get? "rest" = x, w.get? "rest" = y at hr
  cases hr with
  | some h =>
    have hlt := h.2
    exact .rest (ofValue_alike _ h.1) _
  | none =>
  generalize v.get? "default" = x, w.get? "default" = y at hdef
  cases hdef with
  | none => exact .required (ofValue_alike v h)
  | some hdef =>
  generalize v.get? "of" = x, w.get? "of" = y at hof
  cases hof with
  | none => exact .required (ofValue_alike v h)
  | some hof =>
    have hlt := hof.2
    exact .optional (ofValue_alike _ hof.1) (hq hdef.1).1
termination_by (sizeOf v, 1)

lemma looseNames_alike (fs) {os}
    (h : q.Entries fs os) : looseNames fs = looseNames os := by
  have hshape := mentionedInShape_eq _ (shapeOf_alike fs h)
  have hbind := field_alike fs h "bind"
  have hof := field_alike fs h "of"
  have has := h.get? "as"
  rw [looseNames, looseNames, ← h.contains_eq, ← h.contains_eq, ← h.contains_eq, hshape]
  split
  · rfl
  · split
    · refine congrArg₂ (· ++ ·) ?_ ?_
      · generalize field fs "bind" = x, field os "bind" = y at hbind
        cases hbind with
        | none => rfl
        | some h => exact mentioned_eq _ h
      · generalize get? fs "as" = x, get? os "as" = y at has
        cases has with
        | none => rfl
        | some h => cases h.form <;> rfl
    · split
      · generalize field fs "of" = x, field os "of" = y at hof
        cases hof with
        | none => rfl
        | some h => exact mentioned_eq _ h
      · rfl
termination_by (sizeOf fs, 2)
end

end Reading

/-! ## Matching -/

/-- Branches of the same names that gave alike results. -/
structure OutcomeAlike (r : Likeness) (o p : BranchOutcome) : Prop where
  names : o.names = p.names
  result : r.Result r.Entries o.result p.result

lemma OutcomeAlike.toValue {o p} (h : OutcomeAlike r o p) :
    o.toValue.Alike r p.toValue := by
  obtain ⟨names, x⟩ := o
  obtain ⟨names', y⟩ := p
  obtain ⟨-, hr⟩ := h
  cases hr with
  | ok h => exact .object h
  | error h => exact .toValue h

lemma OutcomeAlike.offers {o p} (h : OutcomeAlike r o p) :
    r.Entries o.offers p.offers := by
  obtain ⟨names, x⟩ := o
  obtain ⟨names', y⟩ := p
  obtain ⟨rfl, hr⟩ := h
  cases hr with
  | ok h => exact h
  | error h =>
    show r.Entries (names.map _) (names.map _)
    induction names with
    | nil => exact .nil
    | cons name names ih => exact .cons (.toValue h) ih

lemma addMissing_alike {out out' offers offers'} (h : r.Entries out out')
    (hoffers : r.Entries offers offers') :
    r.Entries (addMissing out offers) (addMissing out' offers') := by
  rw [addMissing, addMissing]
  induction hoffers generalizing out out' with
  | nil => exact h
  | @cons x y xs ys hxy _ ih =>
    rw [foldl_cons, foldl_cons]
    refine ih ?_
    rw [← hxy.1, ← h.contains_eq]
    split
    · exact h
    · exact h.insert x.1 hxy.2

lemma expectedTypes_alike {es fs} (h : Forall₂ r.Error es fs) :
    r.All (expectedTypes es) (expectedTypes fs) := by
  induction h with
  | nil => exact .nil
  | @cons e f es fs hef _ ih =>
    rw [expectedTypes, expectedTypes, flatMap_cons, flatMap_cons]
    refine rel_append ?_ ih
    have hdetail := hef.details.get? "expectedType"
    rw [ErrorValue.detail?, ErrorValue.detail?]
    generalize get? e.details "expectedType" = x, get? f.details "expectedType" = y at hdetail
    cases hdetail with
    | none => exact .nil
    | @some v w hvw =>
      have hsingle : r.All [v] [w] := .cons hvw .nil
      rcases hvw.object_cases with ⟨nested, nested', rfl, rfl, hnested⟩ | ⟨hv, hw⟩
      · have heither := hnested.get? "either"
        dsimp only
        generalize get? nested "either" = a, get? nested' "either" = b at heither
        cases heither with
        | none => exact hsingle
        | @some v' w' hvw' =>
          rcases hvw'.array_cases with ⟨types, types', rfl, rfl, htypes⟩ | ⟨hv', hw'⟩
          · exact htypes
          · split
            · next heq => exact absurd (some.inj heq) (hv' _)
            · split
              · next heq => exact absurd (some.inj heq) (hw' _)
              · exact hsingle
      · split
        · next heq => exact absurd (some.inj heq) (hv _)
        · next heq => cases heq; exact hsingle
        · next heq => cases heq

lemma joinBranches_alike {v w : Value} (hvw : v.Alike r w) {os ps}
    (h : Forall₂ (OutcomeAlike r) os ps) {out out'} (hout : r.Entries out out') :
    r.Result r.Entries (joinBranches v os out) (joinBranches w ps out') := by
  have hf : Rel r.Entries (os.findSome? (·.bindings?)) (ps.findSome? (·.bindings?)) := by
    induction h with
    | nil => exact .none
    | @cons o p os ps hop _ ih =>
      obtain ⟨names, x⟩ := o
      obtain ⟨names', y⟩ := p
      obtain ⟨-, hr⟩ := hop
      cases hr with
      | ok h => exact .some h
      | error _ => exact ih
  have herrors : Forall₂ r.Error (os.filterMap (·.error?)) (ps.filterMap (·.error?)) := by
    clear hf
    induction h with
    | nil => exact .nil
    | @cons o p os ps hop _ ih =>
      obtain ⟨names, x⟩ := o
      obtain ⟨names', y⟩ := p
      obtain ⟨-, hr⟩ := hop
      cases hr with
      | ok _ => exact ih
      | error h => exact .cons h ih
  have hoffers : ∀ {acc acc'}, r.Entries acc acc' →
      r.Entries (os.foldl (fun acc o => addMissing acc o.offers) acc)
        (ps.foldl (fun acc o => addMissing acc o.offers) acc') := by
    clear hf herrors
    induction h with
    | nil => exact id
    | cons hop _ ih => exact fun hacc => ih (addMissing_alike hacc hop.offers)
  have hkinds : ∀ {es fs}, Forall₂ r.Error es fs →
      (!es.isEmpty && es.all (·.kind == "wrongType")) =
        (!fs.isEmpty && fs.all (·.kind == "wrongType")) := by
    intro es fs hes
    have hall : es.all (·.kind == "wrongType") = fs.all (·.kind == "wrongType") := by
      induction hes with
      | nil => rfl
      | cons hef _ ih => rw [all_cons, all_cons, hef.kind, ih]
    rw [hall]
    cases hes <;> rfl
  rw [joinBranches, joinBranches]
  generalize os.findSome? (·.bindings?) = x, ps.findSome? (·.bindings?) = y at hf
  cases hf with
  | some h => exact .ok (hoffers (hout.merge h))
  | none =>
    dsimp only
    rw [hkinds herrors]
    split
    · exact .error (error_of _ (.cons hvw (.cons
        (.object (.cons (.array (expectedTypes_alike herrors)) .nil)) .nil)))
    · refine .error (error_of _ (.cons hvw (.cons (.array ?_) .nil)))
      rw [All, forall₂_map_left_iff, forall₂_map_right_iff]
      exact herrors.imp fun _ _ h => .toValue h

lemma checkCondition_alike {x y}
    (hxy : Rel (fun c d => c.Alike r d ∧ ∀ v, r.requests (.call c [v] [])) x y) {v w}
    (h : v.Alike r w) :
    Job.Alike r (fun _ _ => True) (checkCondition x v) (checkCondition y w) := by
  cases hxy with
  | none => exact Job.alike_pure trivial
  | some hcd =>
    refine (Job.alike_invoke (hcd.2 v) hcd.1 (.cons h .nil) .nil).bind fun a b hab => ?_
    rw [Value.Alike.equals_eq a hab (Value.alike_boolean.mpr rfl)]
    split
    · exact Job.alike_pure trivial
    · exact Job.alike_fail (error_of _ (.cons h (.cons hcd.1 .nil)))

lemma any_equals_alike {v w} (h : v.Alike r w) {xs ys} (hall : r.All xs ys) :
    xs.any (·.equals v) = ys.any (·.equals w) := by
  induction hall with
  | nil => rfl
  | @cons x y _ _ hxy _ ih => rw [any_cons, any_cons, Value.Alike.equals_eq x hxy h, ih]

/-- **Steps that do the same to alike values.** -/
inductive Step.Alike (r : Likeness) : Step → Step → Prop where
  | refuse {e f} (h : r.Error e f) : Alike r (.refuse e) (.refuse f)
  | check {s t : Schema} {v w : Value} (place) (hs : s.Alike r t) (h : v.Alike r w) :
      Alike r (.check place s v) (.check place t w)
  | bind {s t : Schema} {v w : Value} (place) (hs : s.Alike r t) (h : v.Alike r w) :
      Alike r (.bind place s v) (.bind place t w)
  | keep {v w} (name) (h : v.Alike r w) : Alike r (.keep name v) (.keep name w)
  | ask {c d} (h : c.Alike r d ∧ ∀ v, r.requests (.call c [v] [])) :
      Alike r (.ask c) (.ask d)

section Steps

variable {s t : Schema} {v w src source' : Value}

lemma refuse_alike {e f} (h : r.Error e f) :
    Forall₂ (Step.Alike r) [.refuse e] [.refuse f] :=
  .cons (.refuse h) .nil

lemma keep_alike (name : Option String) (h : v.Alike r w) : Forall₂ (Step.Alike r)
    (name.toList.map (Step.keep · v)) (name.toList.map (Step.keep · w)) := by
  cases name with
  | none => exact .nil
  | some name => exact .cons (.keep name h) .nil

lemma elementChecks_alike (hs : s.Alike r t) {xs ys} (h : r.All xs ys) (first : Nat) :
    Forall₂ (Step.Alike r) (elementChecks s xs first) (elementChecks t ys first) := by
  induction h generalizing first with
  | nil => exact .nil
  | cons hxy _ ih => exact .cons (.check _ hs hxy) (ih (first + 1))

lemma properties_alike {xs ys} (h : r.Entries xs ys) {f g}
    (hfg : ∀ key {x y}, x.Alike r y → (f (key, x)).Alike r (g (key, y))) :
    Forall₂ (Step.Alike r) (xs.map f) (ys.map g) := by
  rw [forall₂_map_left_iff, forall₂_map_right_iff]
  refine h.imp fun x y hxy => ?_
  obtain ⟨key, x⟩ := x
  obtain ⟨_, y⟩ := y
  obtain ⟨rfl, hxy⟩ := hxy
  exact hfg key hxy

lemma tupleSteps_alike {es fs} (hs : Forall₂ (ShapeEntry.Alike r) es fs)
    (hsrc : src.Alike r source') (h : v.Alike r w) (i : Nat) {xs ys}
    (hall : r.All xs ys) : Forall₂ (Step.Alike r) (tupleSteps es src v i xs)
      (tupleSteps fs source' w i ys) := by
  induction hs generalizing i xs ys with
  | nil => exact .nil
  | @cons _ _ later later' he hlater ih =>
    cases he with
    | rest hs name =>
      have hl : later.isEmpty = later'.isEmpty := by cases hlater <;> rfl
      rw [tupleSteps, tupleSteps, hl]
      split
      · exact rel_append (elementChecks_alike hs hall i) (keep_alike name (.array hall))
      · exact refuse_alike (error_invalidSchema hsrc)
    | required hs =>
      cases hall with
      | nil => exact refuse_alike (error_of _ (.cons h (.cons (Value.alike_ofNat _) .nil)))
      | cons hxy hall => exact .cons (.bind _ hs hxy) (ih _ hall)
    | optional hs hdef =>
      cases hall with
      | nil => exact .cons (.bind _ hs hdef) (ih _ .nil)
      | cons hxy hall => exact .cons (.bind _ hs hxy) (ih _ hall)

lemma recordSteps_alike {es fs} (hs : Shape.AlikeRecord r es fs)
    (hsrc : src.Alike r source') (h : v.Alike r w) {xs ys}
    (hall : r.Entries xs ys) (restSeen : Bool) : Forall₂ (Step.Alike r)
      (recordSteps es src v xs restSeen) (recordSteps fs source' w ys restSeen) := by
  induction es generalizing fs restSeen with
  | nil => cases hs; exact .nil
  | cons _ _ ih =>
    cases hs with | cons key he hlater =>
    have hget := hall.get? key
    cases he with
    | rest =>
      rw [recordSteps, recordSteps]
      split
      · exact refuse_alike (error_invalidSchema hsrc)
      · exact ih hlater true
    | required hs =>
      rw [recordSteps, recordSteps]
      generalize get? xs key = x, get? ys key = y at hget
      cases hget with
      | none => exact refuse_alike (error_of _ (.cons h (.cons (by simp) .nil)))
      | some hxy => exact .cons (.bind _ hs hxy) (ih hlater restSeen)
    | optional hs hdef =>
      rw [recordSteps, recordSteps]
      generalize get? xs key = x, get? ys key = y at hget
      cases hget with
      | none => exact .cons (.bind _ hs hdef) (ih hlater restSeen)
      | some hxy => exact .cons (.bind _ hs hxy) (ih hlater restSeen)

lemma restSteps_alike {es fs} (hs : Shape.AlikeRecord r es fs)
    (mentioned : List String) {xs ys} (hall : r.Entries xs ys) :
    Forall₂ (Step.Alike r) (restSteps es mentioned xs) (restSteps fs mentioned ys) := by
  induction es generalizing fs with
  | nil => cases hs; exact .nil
  | cons _ _ ih =>
    cases hs with | cons key he hlater =>
    cases he with
    | rest hs name =>
      have hleft : r.Entries (leftover mentioned xs) (leftover mentioned ys) :=
        hall.filter_keys fun key => !mentioned.contains key
      exact rel_append (properties_alike hleft fun _ => .check _ hs)
        (keep_alike name (.object hleft))
    | required | optional =>
      rw [restSteps, restSteps]
      exact ih hlater

lemma typeSteps_alike (test : TypeTest) (h : v.Alike r w) :
    Forall₂ (Step.Alike r) (typeSteps test v) (typeSteps test w) := by
  have haccepts : test.accepts v = test.accepts w := by
    cases test with
    | any => rfl
    | sequence => exact h.isSequence_eq.symm
    | exactly kind => simp only [TypeTest.accepts, h.kind_eq]
  rw [typeSteps, typeSteps, haccepts]
  split
  · exact .nil
  · exact refuse_alike (error_notOfType h _)

/-- **Alike schemas ask the same of alike values.** -/
theorem steps_alike (hs : s.Alike r t) (h : v.Alike r w) :
    Forall₂ (Step.Alike r) (s.steps v) (t.steps w) := by
  cases hs with
  | typed hsrc hes hshape hks hvs hc =>
    rw [steps, steps, isSome_eq hks, isSome_eq hvs]
    refine rel_append (typeSteps_alike _ h) (rel_append ?_ (rel_append ?_
      (rel_append ?_ (rel_append ?_ (rel_append ?_ ?_)))))
    · cases hes with
      | none => exact .nil
      | some hs =>
        rcases h.array_cases with ⟨xs, ys, rfl, rfl, hall⟩ | ⟨hv, hw⟩
        · exact elementChecks_alike hs hall 1
        · rw [elementSteps, elementSteps]
          · exact refuse_alike (error_notOfType h "array")
          · exact hw
          · exact hv
    · cases hshape with
      | absent => exact .nil
      | malformed => exact refuse_alike (error_invalidSchema hsrc)
      | tuple hs =>
        rcases h.array_cases with ⟨xs, ys, rfl, rfl, hall⟩ | ⟨hv, hw⟩
        · exact tupleSteps_alike hs hsrc h 1 hall
        · rw [shapeSteps, shapeSteps]
          · exact refuse_alike (error_notOfType h "array")
          · exact hw
          · exact hv
      | record hs =>
        rcases h.object_cases with ⟨xs, ys, rfl, rfl, hall⟩ | ⟨hv, hw⟩
        · rw [shapeSteps, shapeSteps, ← keys_eq hs]
          exact rel_append (recordSteps_alike hs hsrc h hall false) (restSteps_alike hs _ hall)
        · rw [shapeSteps, shapeSteps]
          · exact refuse_alike (error_notOfType h "object")
          · exact hw
          · exact hv
    · rw [objectSteps, objectSteps, h.kind_eq]
      split
      · exact refuse_alike (error_notOfType h "object")
      · exact .nil
    · cases hks with
      | none => exact .nil
      | some hs =>
        rcases h.object_cases with ⟨xs, ys, rfl, rfl, hall⟩ | ⟨hv, hw⟩
        · exact properties_alike hall fun key _ _ _ => .check _ hs
            (Value.alike_of_isData (.string key) rfl)
        · rw [keySteps, keySteps]
          · exact .nil
          · exact fun _ _ _ => hw _
          · exact fun _ _ _ => hv _
    · cases hvs with
      | none => exact .nil
      | some hs =>
        rcases h.object_cases with ⟨xs, ys, rfl, rfl, hall⟩ | ⟨hv, hw⟩
        · exact properties_alike hall fun _ => .check _ hs
        · rw [valueSteps, valueSteps]
          · exact .nil
          · exact fun _ _ _ => hw _
          · exact fun _ _ _ => hv _
    · cases hc with
      | none => exact .nil
      | some h => exact .cons (.ask h) .nil
  | _ => exact .nil

/-- Alike values match the schema alike. -/
def Even (r : Likeness) (s : Schema) : Prop :=
  ∀ {t : Schema} {v w : Value} {out out' : Bindings}, s.Alike r t → v.Alike r w →
    r.Entries out out' → Job.Alike r r.Entries (bindInto s v out) (bindInto t w out')

variable {out out' : Bindings}

lemma Place.blame_alike (h : v.Alike r w) (place : Place) (e f) (hef : r.Error e f) :
    r.Error (place.blame v e) (place.blame w f) := by
  cases place with
  | element i => exact error_badElement h i hef
  | property name => exact error_badProperty h name hef
  | key name => exact error_badKey h name hef

lemma Step.Alike.run {step step' : Step} (h : step.Alike r step') (hof : step.Of s v)
    (hs : ∀ place t, s.Holds place t → Even r t) (hvw : v.Alike r w) (hout : r.Entries out out') :
    Job.Alike r r.Entries (step.run v out) (step'.run w out') := by
  cases h with
  | refuse h => exact Job.alike_fail h
  | check place ht h =>
    cases hof with | check hold =>
    exact (((hs _ _ hold ht h .nil).mapError (place.blame_alike hvw)).holding_entries hout).bind
      fun _ _ _ => Job.alike_pure hout
  | bind place ht h =>
    cases hof with | bind hold =>
    exact (hs _ _ hold ht h hout).mapError (place.blame_alike hvw)
  | keep name h => exact Job.alike_pure (hout.insert name h)
  | ask h =>
    exact ((checkCondition_alike (.some h) hvw).holding_entries hout).bind fun _ _ _ =>
      Job.alike_pure hout

lemma runSteps_alike {steps steps'} (h : Forall₂ (Step.Alike r) steps steps')
    (hof : ∀ step ∈ steps, step.Of s v) (hs : ∀ place t, s.Holds place t → Even r t)
    (hvw : v.Alike r w) (hout : r.Entries out out') :
    Job.Alike r r.Entries (runSteps v steps out) (runSteps w steps' out') := by
  induction h generalizing out out' with
  | nil => exact Job.alike_pure hout
  | cons h _ ih =>
    obtain ⟨hf, hr⟩ := forall_mem_cons.mp hof
    exact (h.run hf hs hvw hout).bind fun _ _ => ih hr

lemma tryBranches_alike {bs cs} (hs : Forall₂ (Schema.Alike r) bs cs)
    (heven : ∀ s ∈ bs, Even r s) (h : v.Alike r w) {tried tried' : List BranchOutcome}
    (htried : Forall₂ (OutcomeAlike r) tried tried') : Job.Alike r
      (Forall₂ (OutcomeAlike r)) (tryBranches bs v tried) (tryBranches cs w tried') := by
  induction hs generalizing tried tried' with
  | nil =>
    rw [tryBranches, tryBranches]
    exact Job.alike_pure (rel_reverse htried)
  | @cons s _ _ _ hs _ ih =>
    obtain ⟨hf, hr⟩ := forall_mem_cons.mp heven
    have hheld : r.All (tried.map BranchOutcome.toValue) (tried'.map BranchOutcome.toValue) := by
      rw [All, forall₂_map_left_iff, forall₂_map_right_iff]
      exact htried.imp fun _ _ h => h.toValue
    rw [tryBranches, tryBranches, ← names_eq hs]
    refine ((hf hs h .nil).holding hheld).attempt.bind fun x y hxy => ?_
    have hlater := ih hr (.cons (⟨rfl, hxy⟩ : OutcomeAlike r ⟨s.names, x⟩ ⟨s.names, y⟩) htried)
    cases hxy with
    | ok _ => exact hlater
    | @error e f hef =>
      dsimp only
      rw [← hef.kind]
      split
      · exact Job.alike_fail hef
      · exact hlater

/-- **Alike values match alike schemas alike.** -/
theorem bindInto_alike (s : Schema) : Even r s := by
  induction s using Holds.induction with
  | step s ih =>
  intro t v w out out' hs h hout
  cases hs with
  | type test =>
    have hrun : ∀ v out, bindInto (.type test) v out = runSteps v (typeSteps test v) out := by
      intro v out
      rw [bindInto, checkType, typeSteps]
      split <;> rfl
    rw [hrun, hrun]
    refine runSteps_alike (typeSteps_alike test h) (s := .type test) ?_ ih h hout
    unfold typeSteps
    split
    · exact forall_mem_nil _
    · next h => exact forall_mem_singleton.mpr (.wrongType test (Bool.eq_false_iff.mpr h))
  | either hs =>
    rw [bindInto, bindInto]
    exact ((tryBranches_alike hs (fun s hs => ih none s (.branch hs)) h .nil).holding_entries
      hout).bind fun _ _ hos => .done (joinBranches_alike h hos hout)
  | oneOf hs =>
    rw [bindInto, bindInto, any_equals_alike h hs]
    split
    · exact Job.alike_pure hout
    · exact Job.alike_fail (error_of _ (.cons h (.cons (.array hs) .nil)))
  | bind hs name =>
    rw [bindInto, bindInto]
    exact (ih none _ (.bind _ name) hs h hout).bind fun _ _ hout =>
      Job.alike_pure (hout.insert name h)
  | typed hsrc hes hshape hks hvs hc =>
    rw [bindInto_typed, bindInto_typed]
    exact runSteps_alike (steps_alike (.typed hsrc hes hshape hks hvs hc) h)
      (of_steps _ v) ih h hout
  | invalid hs _ =>
    rw [bindInto, bindInto]
    exact Job.alike_fail (error_invalidSchema hs)

end Steps

variable (hr : ∀ request, r.requests request)
include hr

lemma bindValue_alike {v w schema schema'} (hs : schema.Alike r schema')
    (h : v.Alike r w) : Job.Alike r r.Entries (bindValue v schema) (bindValue w schema') :=
  bindInto_alike _ (ofValue_alike (fun h => ⟨h, fun _ => hr _⟩) schema hs) h .nil

lemma validate_alike {v w schema schema'} (hs : schema.Alike r schema')
    (h : v.Alike r w) :
    Job.Alike r (fun _ _ => True) (validate v schema) (validate w schema') :=
  (bindValue_alike hr hs h).bind fun _ _ _ => Job.alike_pure trivial

end Schema

/-! ## Arguments -/

section Arguments

/-- The values of a parameter are alike to themselves. -/
structure Param.Plain (r : Likeness) (p : Param) : Prop where
  schema : p.schema.Alike r p.schema
  default : ∀ v, p.default = some v → v.Alike r v

/-- The values of every parameter are alike to themselves. -/
structure Params.Plain (r : Likeness) (params : Params) : Prop where
  positional : ∀ p ∈ params.positional, p.Plain r
  rest : ∀ p, params.rest = some p → p.Plain r
  named : ∀ p ∈ params.named, p.Plain r
  namedRest : ∀ p, params.namedRest = some p → p.Plain r

variable (hr : ∀ request, r.requests request)
include hr

lemma Param.check_alike {p : Param} (hp : p.Plain r) {v w} (h : v.Alike r w) :
    Job.Alike r (fun _ _ => True) (p.check v) (p.check w) :=
  (Schema.validate_alike hr hp.schema h).mapError fun _ _ hef => hef.forArgument p.name

lemma Param.value_alike {p : Param} (hp : p.Plain r) {x y}
    (h : Rel (Value.Alike r) x y) :
    Job.Alike r (Value.Alike r) (p.value x) (p.value y) := by
  cases h with
  | some h =>
    exact ((p.check_alike hr hp h).holding (.cons h .nil)).bind fun _ _ _ => Job.alike_pure h
  | none =>
    cases hdef : p.default with
    | some v =>
      simp only [Param.value, hdef]
      exact Job.alike_pure (hp.default v hdef)
    | none =>
      simp only [Param.value, hdef]
      exact Job.alike_fail (error_of _ (.cons (by simp) .nil))

namespace Params

lemma bindPositional_alike : ∀ {ps}, (∀ p ∈ ps, p.Plain r) →
    ∀ {xs ys : List Value}, r.All xs ys → ∀ {out out'}, r.Entries out out' →
    Job.Alike r (fun a b => r.Entries a.1 b.1 ∧ r.All a.2 b.2) (bindPositional ps xs out)
      (bindPositional ps ys out')
  | [], _, xs, ys, hall, out, out', hout => Job.alike_pure ⟨hout, hall⟩
  | p :: ps, hps, xs, ys, hall, out, out', hout => by
    have hhead : Rel (Value.Alike r) xs.head? ys.head? := by
      cases hall with
      | nil => exact .none
      | cons hxy _ => exact .some hxy
    have htail : r.All xs.tail ys.tail := by
      cases hall with
      | nil => exact .nil
      | cons _ hall => exact hall
    exact ((p.value_alike hr (hps p (.head _)) hhead).holding
      (.cons (.array htail) (.cons (.object hout) .nil))).bind fun _ _ h =>
        bindPositional_alike (fun q hq => hps q (.tail _ hq)) htail (hout.insert p.name h)

lemma bindNamed_alike : ∀ {ps}, (∀ p ∈ ps, p.Plain r) →
    ∀ {named os}, r.Entries named os →
    ∀ {out out'}, r.Entries out out' →
    Job.Alike r (fun a b => r.Entries a.1 b.1 ∧ r.Entries a.2 b.2) (bindNamed ps named out)
      (bindNamed ps os out')
  | [], _, _, _, hn, _, _, hout => Job.alike_pure ⟨hout, hn⟩
  | p :: _, hps, _, _, hn, _, _, hout =>
    ((p.value_alike hr (hps p (.head _)) (hn.get? p.name)).holding
      (.cons (.object (hn.erase p.name)) (.cons (.object hout) .nil))).bind fun _ _ h =>
        bindNamed_alike (fun q hq => hps q (.tail _ hq)) (hn.erase p.name)
          (hout.insert p.name h)

lemma bindRest_alike {rest} (hrest : ∀ p, rest = some p → p.Plain r)
    {xs ys} (hall : r.All xs ys) {v w} (h : v.Alike r w)
    {out out'} (hout : r.Entries out out') :
    Job.Alike r r.Entries (bindRest rest xs v out) (bindRest rest ys w out') := by
  cases rest with
  | none => exact Job.alike_pure hout
  | some p =>
    exact ((Job.alike_forM hall fun _ _ => p.check_alike hr (hrest p rfl)).holding
      (.cons h (.cons (.object hout) .nil))).bind fun _ _ _ => Job.alike_pure (hout.insert p.name h)

/-- **Alike arguments are bound alike.** -/
theorem bindArguments_alike {params : Params} (hp : params.Plain r) {xs ys}
    (hall : r.All xs ys) {named os} (hn : r.Entries named os) :
    Job.Alike r r.Entries (params.bindArguments xs named) (params.bindArguments ys os) := by
  have hinOrder : Job.Alike r (fun a b => r.Entries a.1 b.1 ∧ r.All a.2 b.2)
      (params.bindInOrder xs) (params.bindInOrder ys) := by
    refine (bindPositional_alike hr hp.positional hall .nil).bind fun _ _ hbound => ?_
    refine (bindRest_alike hr hp.rest hbound.2 (.array hbound.2) hbound.1).bind fun _ _ hout =>
      Job.alike_pure ⟨hout, ?_⟩
    dsimp only
    split
    · exact .nil
    · exact hbound.2
  refine (hinOrder.holding_entries hn).bind fun _ _ hbound =>
    Job.Alike.holding ?_ (.cons (.array hbound.2) .nil)
  exact (bindNamed_alike hr hp.named hn hbound.1).bind fun _ _ hout =>
    bindRest_alike hr hp.namedRest hout.2.values (.object hout.2) hout.1

end Params

end Arguments

/-! ## Sequences -/

section Sequences

lemma Value.all_characters (s : String) : r.All (characters s) (characters s) :=
  forall₂_same.mpr (by simp [characters])

variable (hr : ∀ request, r.requests request)
include hr

lemma Job.alike_node {id} (h : r.streams) :
    Job.Alike r r.OfNode (Job.node id) (Job.node id) :=
  .ask .nil (hr _) (.force h) fun _ _ h => .done h

lemma Job.alike_elements {id} (h : r.streams) :
    Job.Alike r r.All (Job.elements id) (Job.elements id) :=
  .ask .nil (hr _) (.collect h) fun _ _ h => .done h

lemma Stream.nth?_alike (h : r.streams) : ∀ i id,
    Job.Alike r (Rel (Value.Alike r)) (Stream.nth? i id) (Stream.nth? i id)
  | 0, id => (Job.alike_node hr h).bind fun _ _ hnode => by
    cases hnode with
    | empty => exact Job.alike_pure .none
    | cons hvw _ => exact Job.alike_pure (.some hvw)
  | i + 1, id => by
    have hnext : Job.Alike r Eq (Stream.next? id) (Stream.next? id) :=
      (Job.alike_node hr h).bind fun _ _ hnode => by
        cases hnode with
        | empty => exact Job.alike_pure rfl
        | cons _ _ => exact Job.alike_pure rfl
    refine hnext.bind fun x y hxy => ?_
    subst hxy
    cases x with
    | some tail => exact Stream.nth?_alike h i tail
    | none => exact Job.alike_pure .none

namespace Value

lemma elements_alike {v w : Value} (h : v.Alike r w) :
    Job.Alike r r.All v.elements w.elements := by
  cases h.form with
  | array hall => exact Job.alike_pure hall
  | string s => exact Job.alike_pure (all_characters s)
  | stream id hstreams => exact Job.alike_elements hr hstreams
  | _ => exact Job.alike_fail (error_notOfType h _)

omit hr

lemma position_alike {v w : Value} (h : v.Alike r w) :
    r.Result Eq v.position w.position := by
  rw [position, position, h.asNumber?_eq]
  split
  · exact .ok rfl
  · exact .error (error_notOfType h _)

lemma elementAt_alike {v w key key'} (h : v.Alike r w) (hkey : key.Alike r key')
    {xs ys} (hall : r.All xs ys) :
    r.Result (Alike r) (elementAt v key xs) (elementAt w key' ys) := by
  have hp : ∀ i : Nat, Rel (Alike r) xs[i]? ys[i]? := by
    induction hall with
    | nil => exact fun _ => .none
    | cons hxy _ ih =>
      intro i
      cases i with
      | zero => exact .some hxy
      | succ i => simpa using ih i
  have hpos := position_alike hkey
  rw [elementAt, elementAt]
  generalize key.position = a, key'.position = b at hpos
  cases hpos with
  | error hef => exact .error hef
  | @ok n m hnm =>
    subst hnm
    dsimp only [bind, Except.bind]
    rw [← hall.length_eq]
    have hf : Rel (Alike r) ((placeOf xs.length n).bind (xs[·]?))
        ((placeOf xs.length n).bind (ys[·]?)) := by
      cases placeOf xs.length n with
      | none => exact .none
      | some i => exact hp i
    generalize (placeOf xs.length n).bind (xs[·]?) = x,
      (placeOf xs.length n).bind (ys[·]?) = y at hf
    cases hf with
    | some h => exact .ok h
    | none => exact .error (error_of _ (.cons h (.cons (alike_ofNat _) (.cons hkey .nil))))

lemma propertyAt_alike {v w key key'} (h : v.Alike r w) (hkey : key.Alike r key')
    {f g} (hfg : ∀ name, Rel (Alike r) (f name) (g name)) :
    r.Result (Alike r) (propertyAt v key f) (propertyAt w key' g) := by
  have hname : r.Result Eq key.propertyName key'.propertyName := by
    cases hkey.form with
    | string s => exact .ok rfl
    | _ => exact .error (error_notOfType hkey _)
  rw [propertyAt, propertyAt]
  generalize key.propertyName = a, key'.propertyName = b at hname
  cases hname with
  | error hef => exact .error hef
  | @ok name name' heq =>
    subst heq
    have hf := hfg name
    dsimp only [bind, Except.bind]
    generalize f name = x, g name = y at hf
    cases hf with
    | some h => exact .ok h
    | none => exact .error (error_of _ (.cons h (.cons (by simp) .nil)))

include hr

/-- **Alike collections are indexed alike.** -/
theorem index_alike {v w key key' : Value} (h : v.Alike r w) (hkey : key.Alike r key') :
    Job.Alike r (Alike r) (v.index key) (w.index key') := by
  cases h.form with
  | array hall => exact .done (elementAt_alike h hkey hall)
  | string s => exact .done (elementAt_alike h hkey (all_characters s))
  | object hall => exact .done (propertyAt_alike h hkey hall.get?)
  | error kind trace hall =>
    refine .done (propertyAt_alike h hkey fun name => ?_)
    split
    · exact .some (by simp)
    · exact hall.get? name
  | stream id hstreams =>
    refine Job.Alike.bind (Q := Eq) (.done (position_alike hkey)) fun n m hnm => ?_
    subst hnm
    have hmissing : Job.Alike r (Alike r)
        (do Job.ofExcept (elementAt (.stream id) key (← Job.elements id)))
        (do Job.ofExcept (elementAt (.stream id) key' (← Job.elements id))) :=
      (Job.alike_elements hr hstreams).bind fun _ _ hall => .done (elementAt_alike h hkey hall)
    dsimp only
    split
    · refine (Stream.nth?_alike hr hstreams _ id).bind fun x y hxy => ?_
      cases hxy with
      | some h => exact Job.alike_pure h
      | none => exact hmissing
    · exact hmissing
  | _ =>
    exact Job.alike_fail (error_of _
      (.cons h (.cons (alike_of_isData indexable rfl) .nil)))

end Value

end Sequences

end TreeCode
