import TreeCode.Builtin
import TreeCode.Proofs.Matching

/-!
# Closures that the host handles

`Value.Only P v` says that every closure inside a value has a property; here the same is said of all
else that holds values. A job handles closures with a property if it makes requests with such
closures only and, as long as the answers have no others, ends with no others
(`Job.Handles`). What the machine itself asks of the host handles every property, and a native is
honest if it does: it uses the closures that it was given and no others.
-/

namespace TreeCode

open Entries Value

variable {P : Closure → Prop}

/-! ## Values -/

lemma mem_closuresOfAll {c} : ∀ {xs}, c ∈ closuresOfAll xs ↔ ∃ x ∈ xs, c ∈ x.closures
  | [] => by simp [closuresOfAll]
  | x :: xs => by simp [closuresOfAll, @mem_closuresOfAll c xs]

lemma mem_closuresOfEntries {c} : ∀ {xs}, c ∈ closuresOfEntries xs ↔ ∃ x ∈ xs, c ∈ x.2.closures
  | [] => by simp [closuresOfEntries]
  | (key, x) :: xs => by simp [closuresOfEntries, @mem_closuresOfEntries c xs]

/-- Every closure inside a map has a property. -/
def Entries.Only (P : Closure → Prop) (xs : Entries Value) : Prop := ∀ x ∈ xs, x.2.Only P

/-- Every closure inside an error has a property. -/
def ErrorValue.Only (P : Closure → Prop) (e : ErrorValue) : Prop := Entries.Only P e.details

variable {v : Value}
  {xs details named : Entries Value} {kind key : String} {e : ErrorValue} {cell : StreamCell}
  {γ : Type} {args : List Value}

namespace Value

@[simp]
lemma only_array {xs} : (array xs).Only P ↔ ∀ x ∈ xs, x.Only P := by
  simp only [Only, closures, mem_closuresOfAll]
  exact ⟨fun h x hx c hc => h c ⟨x, hx, hc⟩, fun h c ⟨x, hx, hc⟩ => h x hx c hc⟩

@[simp]
lemma only_object : (object xs).Only P ↔ Entries.Only P xs := by
  simp only [Only, Entries.Only, closures, mem_closuresOfEntries]
  exact ⟨fun h x hx c hc => h c ⟨x, hx, hc⟩, fun h c ⟨x, hx, hc⟩ => h x hx c hc⟩

@[simp]
lemma only_error {trace} : (error kind xs trace).Only P ↔ Entries.Only P xs := by
  simp only [Only, Entries.Only, closures, mem_closuresOfEntries]
  exact ⟨fun h x hx c hc => h c ⟨x, hx, hc⟩, fun h c ⟨x, hx, hc⟩ => h x hx c hc⟩

@[simp]
lemma only_closure {c} : (closure c).Only P ↔ P c := by simp [Only, closures]

@[simp]
lemma only_null : null.Only P := by simp [Only, closures]

@[simp]
lemma only_boolean (b) : (boolean b).Only P := by simp [Only, closures]

@[simp]
lemma only_number (n) : (number n).Only P := by simp [Only, closures]

@[simp]
lemma only_string (s) : (string s).Only P := by simp [Only, closures]

@[simp]
lemma only_native (ref) : (native ref).Only P := by simp [Only, closures]

@[simp]
lemma only_ofNat (n) : (ofNat n).Only P := only_number _

lemma Only.mono {Q} (h : ∀ c, P c → Q c) (hv : v.Only P) : v.Only Q := fun c hc => h c (hv c hc)

lemma only_of_isData (h : v.isData = true) : v.Only P :=
  (alike_diagonal.mp (alike_of_isData v h)).2

end Value

lemma ErrorValue.only_toValue : e.toValue.Only P ↔ e.Only P := only_error

lemma ErrorValue.only_of (h : Entries.Only P details) : (ErrorValue.of kind details).Only P := h

namespace Entries

variable {ys : Entries Value}

lemma only_iff_diagonal : Only P xs ↔ (Likeness.diagonal P).Entries xs xs := by
  rw [entries_diagonal]
  simp only [Only, Only, mem_closuresOfEntries, true_and]
  exact ⟨fun h c ⟨x, hx, hc⟩ => h x hx c hc, fun h x hx c hc => h c ⟨x, hx, hc⟩⟩

@[simp]
lemma only_nil : Only P [] := nofun

@[simp]
lemma only_cons {x} :
    Only P (x :: xs) ↔ x.2.Only P ∧ Only P xs := by
  simp [Only]

variable (h : Only P xs)

include h

lemma Only.insert (key) (hv : v.Only P) :
    Only P (insert xs key v) :=
  only_iff_diagonal.mpr ((only_iff_diagonal.mp h).insert key (alike_diagonal.mpr ⟨rfl, hv⟩))

lemma Only.erase (key) : Only P (erase xs key) :=
  only_iff_diagonal.mpr ((only_iff_diagonal.mp h).erase key)

lemma Only.merge (h' : Only P ys) :
    Only P (merge xs ys) :=
  only_iff_diagonal.mpr ((only_iff_diagonal.mp h).merge (only_iff_diagonal.mp h'))

lemma Only.get? (hv : get? xs key = some v) : v.Only P := by
  have hget := (only_iff_diagonal.mp h).get? key
  rw [hv] at hget
  cases hget with
  | some hvv => exact (alike_diagonal.mp hvv).2

lemma Only.values : ∀ v ∈ values xs, v.Only P := by
  intro v hv
  obtain ⟨x, hx, rfl⟩ := List.mem_map.mp hv
  exact h x hx

end Entries

/-! ## The heap -/

/-- Every closure inside a node has a property. -/
def Node.Only (P : Closure → Prop) : Node → Prop
  | .empty => True
  | .cons head _ => head.Only P

/-- Every closure inside a suspension has a property. -/
def Suspension.Only (P : Closure → Prop) : Suspension → Prop
  | .successors seed next => seed.Only P ∧ next.Only P
  | .mapped _ function => function.Only P
  | .filtered _ c => c.Only P
  | .listed values failure => (∀ v ∈ values, v.Only P) ∧ ∀ e, failure = some e → e.Only P

/-- Every closure inside a stream node has a property, whatever its state. -/
def StreamCell.Only (P : Closure → Prop) : StreamCell → Prop
  | .pending s => s.Only P
  | .forcing => True
  | .failed e => e.Only P
  | .resolved node => node.Only P

/-- Every closure inside a captured variable that is no longer on the stack has a property. -/
def Upvalue.Only (P : Closure → Prop) : Upvalue → Prop
  | .onStack _ => True
  | .closed content => ∀ v, content = some v → v.Only P

/-- Every closure inside a heap has a property. -/
structure Heap.Only (P : Closure → Prop) (h : Heap) : Prop where
  cells : ∀ cell ∈ h.cells, cell.Only P
  streams : ∀ cell ∈ h.streams, cell.Only P

namespace Heap.Only

variable {h : Heap}

lemma empty : ({} : Heap).Only P := ⟨by simp, by simp⟩

variable (hh : h.Only P)

include hh

lemma streamCell (id) : (h.streamCell id).Only P := by
  rw [Heap.streamCell]
  cases hc : h.streams[id]? with
  | none => trivial
  | some cell => exact hh.streams cell (Array.mem_of_getElem? hc)

lemma setStream (id) (hcell : cell.Only P) : (h.setStream id cell).Only P where
  cells := hh.cells
  streams := by
    intro c hc
    rcases Array.mem_or_eq_of_mem_setIfInBounds hc with hc | rfl
    · exact hh.streams c hc
    · exact hcell

lemma addStream (hcell : cell.Only P) : (h.addStream cell).2.Only P where
  cells := hh.cells
  streams := by
    intro c hc
    rcases Array.mem_push.mp hc with hc | rfl
    · exact hh.streams c hc
    · exact hcell

lemma addCell (slot) : (h.addCell (.onStack slot)).2.Only P where
  cells := by
    intro c hc
    rcases Array.mem_push.mp hc with hc | rfl
    · exact hh.cells c hc
    · trivial
  streams := hh.streams

lemma closeCells {contents}
    (hcontents : ∀ x ∈ contents, ∀ v, x.2 = some v → v.Only P) :
      (h.closeCells contents).Only P := by
  rw [Heap.closeCells]
  induction contents generalizing h with
  | nil => exact hh
  | cons x contents ih =>
    obtain ⟨id, content⟩ := x
    refine ih ⟨fun c hc => ?_, hh.streams⟩ fun y hy => hcontents y (List.mem_cons_of_mem _ hy)
    rcases Array.mem_or_eq_of_mem_setIfInBounds hc with hc | rfl
    · exact hh.cells c hc
    · exact hcontents _ List.mem_cons_self

end Heap.Only

/-! ## Jobs -/

/-- Every closure inside a request has a property. -/
def Request.Only (P : Closure → Prop) : Request → Prop
  | .call f args named => f.Only P ∧ (∀ v ∈ args, v.Only P) ∧ Entries.Only P named
  | .force _ | .collect _ => True
  | .settle value | .text value => value.Only P
  | .allocate cell => cell.Only P

/-- A result with a property, or an error whose closures have one. -/
def Except.Only {α : Type} (P : Closure → Prop) (Q : α → Prop) : Except ErrorValue α → Prop
  | .ok a => Q a
  | .error e => e.Only P

/-- Every closure inside an answer has a property. -/
def Request.Gives (P : Closure → Prop) : (r : Request) → r.Response → Prop
  | .call .. => Except.Only P (Value.Only P)
  | .force _ => Except.Only P (Node.Only P)
  | .collect _ => Except.Only P fun es => ∀ v ∈ es, v.Only P
  | .settle _ => Except.Only P fun _ => True
  | .allocate _ | .text _ => fun _ => True

namespace Job

variable {α β : Type} {Q : α → Prop} {R : β → Prop}

/-- **A job that handles closures with a property only**, and whose results have the property
`Q`. -/
inductive Handles (P : Closure → Prop) (Q : α → Prop) : Job α → Prop where
  | done {result} (h : Except.Only P Q result) : Handles P Q (.done result)
  | ask {held request next}
      (only : request.Only P) (h : ∀ x, request.Gives P x → Handles P Q (next x)) :
      Handles P Q (.ask held request next)

lemma handles_pure {a} (h : Q a) : Handles P Q (pure a) := .done h

lemma handles_fail (h : e.Only P) : Handles P Q (Job.fail e) := .done h

variable {j : Job α}

section

variable (hj : j.Handles P Q)

include hj

lemma Handles.andThen {f}
    (hf : ∀ r, Except.Only P Q r → (f r).Handles P R) : (j.andThen f).Handles P R := by
  induction hj with
  | done h => exact hf _ h
  | ask only _ ih => exact .ask only ih

lemma Handles.bind {f}
    (hf : ∀ a, Q a → (f a).Handles P R) : (j >>= f).Handles P R := by
  refine hj.andThen fun r hr => ?_
  cases r with
  | ok a => exact hf a hr
  | error e => exact handles_fail hr

lemma Handles.holding (values) : (j.holding values).Handles P Q := by
  induction hj with
  | done h => exact .done h
  | ask only _ ih => exact .ask only ih

lemma Handles.weaken {S} (h : ∀ a, Q a → S a) :
    j.Handles P S := by
  induction hj with
  | @done r hr =>
    cases r with
    | ok a => exact .done (h a hr)
    | error e => exact .done hr
  | ask only _ ih => exact .ask only ih

end

lemma only_of_result {S : α → γ → Prop} {x y} (h : (Likeness.diagonal P).Result S x y) :
    Except.Only P (fun a => ∃ c, S a c) x := by
  cases h with
  | ok h => exact ⟨_, h⟩
  | @error e f h =>
    obtain ⟨kind, details, trace⟩ := e
    obtain ⟨kind', details', trace'⟩ := f
    obtain ⟨-, hdetails, -⟩ := h
    obtain ⟨rfl, -⟩ := (entries_diagonal _).mp hdetails
    exact Entries.only_iff_diagonal.mpr hdetails

/-- **A job that is alike to another on the diagonal handles the property.** -/
theorem Alike.handles {S : α → γ → Prop} {k}
    (h : Job.Alike (.diagonal P) S j k) : j.Handles P fun a => ∃ c, S a c := by
  induction h with
  | done h => exact .done (only_of_result h)
  | ask _ _ q _ ih =>
    cases q with
    | @call f g xs ys named os fn args entries =>
      obtain ⟨rfl, hf⟩ := Value.alike_diagonal.mp fn
      obtain ⟨rfl, hxs⟩ := (all_diagonal xs).mp args
      obtain ⟨rfl, -⟩ := (entries_diagonal named).mp entries
      refine .ask ⟨hf, fun v hv c hc => hxs c (mem_closuresOfAll.mpr ⟨v, hv, hc⟩),
        Entries.only_iff_diagonal.mpr entries⟩ fun x hx => ih x x ?_
      cases x with
      | ok v => exact .ok (Value.alike_diagonal.mpr ⟨rfl, hx⟩)
      | error e => exact .error ⟨rfl, Entries.only_iff_diagonal.mp hx, rfl⟩
    | force _ =>
      refine .ask trivial fun x hx => ih x x ?_
      cases x with
      | ok node =>
        cases node with
        | empty => exact .ok .empty
        | cons head tail => exact .ok (.cons (Value.alike_diagonal.mpr ⟨rfl, hx⟩) trivial)
      | error e => exact .error ⟨rfl, Entries.only_iff_diagonal.mp hx, rfl⟩
    | collect _ =>
      refine .ask trivial fun x hx => ih x x ?_
      cases x with
      | ok es =>
        refine .ok ((all_diagonal es).mpr ⟨rfl, fun c hc => ?_⟩)
        obtain ⟨v, hv, hc⟩ := mem_closuresOfAll.mp hc
        exact hx v hv c hc
      | error e => exact .error ⟨rfl, Entries.only_iff_diagonal.mp hx, rfl⟩
    | settle hvw =>
      obtain ⟨rfl, hv⟩ := Value.alike_diagonal.mp hvw
      refine .ask hv fun x hx => ih x x ?_
      cases x with
      | ok _ => exact .ok trivial
      | error e => exact .error ⟨rfl, Entries.only_iff_diagonal.mp hx, rfl⟩
    | text hvw =>
      obtain ⟨rfl, hv⟩ := Value.alike_diagonal.mp hvw
      exact .ask hv fun x _ => ih x x rfl

lemma handles_invoke {f}
    (hf : f.Only P) (hargs : ∀ v ∈ args, v.Only P) (hn : Entries.Only P named) :
    (invoke f args named).Handles P (Value.Only P) :=
  .ask ⟨hf, hargs, hn⟩ fun _ h => .done h

lemma handles_node (id) : (Job.node id).Handles P (Node.Only P) := .ask trivial fun _ h => .done h

end Job

/-! ## What the machine asks of the host -/

lemma Schema.validate_handles {schema} (hs : schema.Only P) (hv : v.Only P) :
    (Schema.validate v schema).Handles P fun _ => True :=
  (Schema.validate_alike (fun _ => trivial) (alike_diagonal.mpr ⟨rfl, hs⟩)
    (alike_diagonal.mpr ⟨rfl, hv⟩)).handles.weaken fun _ _ => trivial

lemma Value.elements_handles (hv : v.Only P) :
    v.elements.Handles P fun es => ∀ x ∈ es, x.Only P := by
  refine (elements_alike (fun _ => trivial) (alike_diagonal.mpr ⟨rfl, hv⟩)).handles.weaken ?_
  rintro es ⟨os, h⟩ x hx c hc
  exact ((all_diagonal es).mp h).2 c (mem_closuresOfAll.mpr ⟨x, hx, hc⟩)

lemma Value.index_handles {key} (hv : v.Only P) (hkey : key.Only P) :
    (v.index key).Handles P (Only P) := by
  refine (index_alike (fun _ => trivial) (alike_diagonal.mpr ⟨rfl, hv⟩)
    (alike_diagonal.mpr ⟨rfl, hkey⟩)).handles.weaken ?_
  rintro x ⟨y, h⟩
  exact (alike_diagonal.mp h).2

/-- Every closure in what a step of a suspension gives has a property. -/
def Produced.Only (P : Closure → Prop) : Produced → Prop
  | .node produced => produced.Only P
  | .again rest => rest.Only P

namespace Suspension

lemma consLater_handles {head rest} (hhead : head.Only P)
    (hr : rest.Only P) : (consLater head rest).Handles P (Produced.Only P) :=
  .ask hr fun _ _ => .done hhead

/-- **A step of a suspension handles the closures of the suspension.** -/
theorem produce_handles {s : Suspension} (hs : s.Only P) : s.produce.Handles P
    (Produced.Only P) := by
  cases s with
  | successors seed next =>
    obtain ⟨hseed, hnext⟩ := hs
    refine (Job.Handles.bind (Job.handles_invoke hnext (by simpa using hseed) only_nil)
      fun value hv => ?_).holding _
    exact consLater_handles hv ⟨hv, hnext⟩
  | mapped src function =>
    refine ((Job.handles_node src).bind fun node hnode => ?_).holding _
    cases node with
    | empty => exact Job.handles_pure trivial
    | cons head tail =>
      have hhead : head.Only P := hnode
      exact (Job.handles_invoke hs (by simpa using hhead) only_nil).bind fun value hv =>
        consLater_handles hv hs
  | filtered src c =>
    refine ((Job.handles_node src).bind fun node hnode => ?_).holding _
    cases node with
    | empty => exact Job.handles_pure trivial
    | cons head tail =>
      have hhead : head.Only P := hnode
      refine (Job.handles_invoke hs (by simpa using hhead) only_nil).bind
        fun value hv => ?_
      split
      · exact consLater_handles hhead hs
      · exact Job.handles_pure hs
      · refine Job.handles_fail (ErrorValue.only_of ?_)
        simpa using hv
  | listed values failure =>
    obtain ⟨hvs, hfailure⟩ := hs
    cases values with
    | cons value values =>
      rw [List.forall_mem_cons] at hvs
      exact consLater_handles hvs.1 ⟨hvs.2, hfailure⟩
    | nil =>
      cases failure with
      | none => exact Job.handles_pure trivial
      | some e => exact Job.handles_fail (hfailure e rfl)

end Suspension

/-! ## Natives -/

/-- **A host function that handles only the closures it is given.** The schemas and defaults of its
parameters have no closure, and its body may use those among its arguments and among the answers to
its own requests. -/
structure Native.Honest (n : Native) : Prop where
  params : n.params.Plain (.diagonal fun _ => False)
  body : ∀ (P : Closure → Prop) (bindings : Entries Value), Only P bindings →
    (n.body bindings).Handles P (Value.Only P)

/-- Every function of the host handles only the closures it is given. -/
def Host.Honest (host : Host) : Prop := ∀ code n, host.native? code = some n → n.Honest

lemma Param.Plain.of_none {p : Param} (h : p.Plain (.diagonal fun _ => False)) :
    p.Plain (.diagonal P) where
  schema := alike_diagonal.mpr
    ⟨rfl, (alike_diagonal.mp h.schema).2.mono fun _ => False.elim⟩
  default v hv := alike_diagonal.mpr
    ⟨rfl, (alike_diagonal.mp (h.default v hv)).2.mono fun _ => False.elim⟩

lemma Native.Honest.apply {n : Native} (h : n.Honest)
    (hargs : ∀ v ∈ args, v.Only P) (hn : Only P named) :
    (n.apply args named).Handles P (Value.Only P) := by
  have hps : n.params.Plain (.diagonal P) :=
    ⟨fun p hp => (h.params.positional p hp).of_none, fun p hp => (h.params.rest p hp).of_none,
      fun p hp => (h.params.named p hp).of_none, fun p hp => (h.params.namedRest p hp).of_none⟩
  have hall : (Likeness.diagonal P).All args args := by
    refine (all_diagonal args).mpr ⟨rfl, fun c hc => ?_⟩
    obtain ⟨v, hv, hc⟩ := mem_closuresOfAll.mp hc
    exact hargs v hv c hc
  refine (Params.bindArguments_alike (fun _ => trivial) hps hall
    (only_iff_diagonal.mp hn)).handles.bind fun bs hbindings => ?_
  obtain ⟨os, ho⟩ := hbindings
  obtain ⟨rfl, -⟩ := (entries_diagonal bs).mp ho
  exact (h.body P bs (only_iff_diagonal.mpr ho)).holding _

end TreeCode
