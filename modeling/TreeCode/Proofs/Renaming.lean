import TreeCode.Heap.Retention
import TreeCode.Proofs.Matching

/-!
# Renaming the instances of host functions

Two instances of a host function do the same and have the same name; only equality tells them apart.
So a computation does not depend on which instance it was given, as long as different instances stay
different.

A `Renaming` exchanges instances of each host function. It acts on values and on all that holds
values: errors, the heap, and the work of the host, where it renames what a job asks for and gives
the job the answers in its old names (`Renaming.job`). What follows is that every operation commutes
with it.
-/

namespace TreeCode

open Heap Entries Job

lemma Entries.get?_map {α β : Type} (f : α → β) (xs : Entries α) (key) :
    get? (xs.map fun pair => (pair.1, f pair.2)) key = (get? xs key).map f := by
  induction xs with
  | nil => rfl
  | cons pair xs ih =>
    obtain ⟨k, v⟩ := pair
    rw [List.map_cons, get?, get?, ih]
    split <;> rfl

/-- **An exchange of instances** of each host function, by its code. -/
structure Renaming where
  copy : Nat → Nat → Nat
  involutive : ∀ code n, copy code (copy code n) = n

namespace Renaming

variable (ρ : Renaming)

lemma copy_inj {code a b} : ρ.copy code a = ρ.copy code b ↔ a = b :=
  ⟨fun h => by rw [← ρ.involutive code a, h, ρ.involutive], congrArg _⟩

/-! ## Values -/

def ref (r : NativeRef) : NativeRef := { r with copy := ρ.copy r.code r.copy }

mutual
/-- **A value with its instances renamed.** -/
def value : Value → Value
  | .native r => .native (ρ.ref r)
  | .array es => .array (values es)
  | .object es => .object (entries es)
  | .error kind details trace => .error kind (entries details) trace
  | .null => .null
  | .boolean b => .boolean b
  | .number n => .number n
  | .string s => .string s
  | .closure c => .closure c
  | .stream id => .stream id
def values : List Value → List Value
  | [] => []
  | v :: vs => value v :: values vs
def entries : List (String × Value) → List (String × Value)
  | [] => []
  | (key, v) :: rest => (key, value v) :: entries rest
end

lemma values_eq_map : ∀ vs, ρ.values vs = vs.map ρ.value
  | [] => rfl
  | v :: vs => congrArg (ρ.value v :: ·) (values_eq_map vs)

lemma entries_eq_map : ∀ es : List (String × Value),
    ρ.entries es = es.map fun e => (e.1, ρ.value e.2)
  | [] => rfl
  | (key, v) :: rest => congrArg ((key, ρ.value v) :: ·) (entries_eq_map rest)

section Forms

@[simp]
lemma value_null : ρ.value .null = .null := rfl

@[simp]
lemma value_boolean (b) : ρ.value (.boolean b) = .boolean b := rfl

@[simp]
lemma value_number (n) : ρ.value (.number n) = .number n := rfl

@[simp]
lemma value_string (s) : ρ.value (.string s) = .string s := rfl

@[simp]
lemma value_array (es : List Value) : ρ.value (.array es) = .array (es.map ρ.value) :=
  congrArg Value.array (ρ.values_eq_map es)

@[simp]
lemma value_object (es) : ρ.value (.object es) = .object (ρ.entries es) := rfl

@[simp]
lemma value_closure (c) : ρ.value (.closure c) = .closure c := rfl

@[simp]
lemma value_native (r) : ρ.value (.native r) = .native (ρ.ref r) := rfl

@[simp]
lemma value_error (kind details trace) :
    ρ.value (.error kind details trace) = .error kind (ρ.entries details) trace := rfl

@[simp]
lemma value_stream (id) : ρ.value (.stream id) = .stream id := rfl

@[simp]
lemma entries_nil : ρ.entries [] = [] := rfl

@[simp]
lemma entries_cons (key v rest) :
    ρ.entries ((key, v) :: rest) = (key, ρ.value v) :: ρ.entries rest := rfl

end Forms

mutual
/-- Renaming twice is no renaming. -/
@[simp]
lemma value_value : ∀ v, ρ.value (ρ.value v) = v
  | .native ⟨name, code, n⟩ => by simp [ref, ρ.involutive]
  | .array es => by rw [value, value, values_values es]
  | .object es => by rw [value, value, entries_entries es]
  | .error kind details trace => by rw [value, value, entries_entries details]
  | .null | .boolean _ | .number _ | .string _ | .closure _ | .stream _ => rfl
lemma values_values : ∀ vs, ρ.values (ρ.values vs) = vs
  | [] => rfl
  | v :: vs => by rw [values, values, value_value v, values_values vs]
@[simp]
lemma entries_entries : ∀ es : List (String × Value), ρ.entries (ρ.entries es) = es
  | [] => rfl
  | (key, v) :: rest => by rw [entries, entries, value_value v, entries_entries rest]
end

@[simp]
lemma value_comp_value : ρ.value ∘ ρ.value = id := funext ρ.value_value

mutual
/-- Data has no instances. -/
lemma value_of_isData : ∀ v, v.isData = true → ρ.value v = v
  | .array es, h => by rw [value, values_of_allData es h]
  | .object es, h => by rw [value, entries_of_allData es h]
  | .null, _ | .boolean _, _ | .number _, _ | .string _, _ => rfl
lemma values_of_allData : ∀ vs, Value.allData vs = true → ρ.values vs = vs
  | [], _ => rfl
  | v :: vs, h => by
    obtain ⟨hv, hvs⟩ := Bool.and_eq_true_iff.mp h
    rw [values, value_of_isData v hv, values_of_allData vs hvs]
lemma entries_of_allData : ∀ es : List (String × Value), Value.allEntriesData es = true →
    ρ.entries es = es
  | [], _ => rfl
  | (key, v) :: rest, h => by
    obtain ⟨hv, hr⟩ := Bool.and_eq_true_iff.mp h
    rw [entries, value_of_isData v hv, entries_of_allData rest hr]
end

@[simp]
lemma value_ofNat (n) : ρ.value (.ofNat n) = .ofNat n := rfl

/-! ### Maps -/

section Maps

variable (es : Entries Value) (key : String)

@[simp]
lemma get?_entries : get? (ρ.entries es) key = (get? es key).map ρ.value := by
  rw [entries_eq_map, get?_map]

@[simp]
lemma values_entries : Entries.values (ρ.entries es) = (Entries.values es).map ρ.value := by
  simp [entries_eq_map, Entries.values]

end Maps

/-! ### Views of a value -/

section Views

variable (v : Value)

@[simp]
lemma kind_value : (ρ.value v).kind = v.kind := by cases v <;> rfl

@[simp]
lemma isSequence_value : (ρ.value v).isSequence = v.isSequence := by
  rw [Value.isSequence, kind_value, Value.isSequence]

@[simp]
lemma functionName?_value : (ρ.value v).functionName? = v.functionName? := by cases v <;> rfl

end Views

lemma equals_native (r s) : ((Value.native (ρ.ref r)).equals (.native (ρ.ref s)))
    = (Value.native r).equals (.native s) := by
  show (r.code == s.code && ρ.copy r.code r.copy == ρ.copy s.code s.copy)
    = (r.code == s.code && r.copy == s.copy)
  by_cases hc : r.code = s.code
  · rw [hc, Bool.eq_iff_iff]
    simp [copy_inj]
  · rw [beq_eq_false_iff_ne.mpr hc]
    rfl

/-! ### Values that a renaming relates -/

/-- A value is alike to the renamed one. -/
def likeness : Likeness where
  closures := Eq
  natives a b := b = ρ.ref a
  streams := True
  requests _ := True
  same := by
    rintro c _ rfl
    exact ⟨rfl, rfl⟩
  told := by
    rintro a _ c _ rfl rfl
    exact (ρ.equals_native a c).symm

variable {ρ}

mutual
/-- **A value is alike to the renamed one only.** -/
theorem alike_iff : ∀ {v w}, v.Alike ρ.likeness w ↔ w = ρ.value v
  | .null, _ | .boolean _, _ | .number _, _ | .string _, _ => Iff.rfl
  | .closure c, w => by simp [likeness]
  | .native ref, w => by simp [likeness]
  | .stream id, w => by simp [likeness]
  | .array xs, w => by simp [all_iff xs]
  | .object xs, w => by simp [entries_iff xs]
  | .error kind xs trace, w => by simp [entries_iff xs]
lemma all_iff : ∀ (xs : List Value) {ys}, ρ.likeness.All xs ys ↔ ys = xs.map ρ.value
  | [], ys => List.forall₂_nil_left_iff
  | x :: xs, ys => by
    rw [Likeness.All, List.forall₂_cons_left_iff]
    simp [alike_iff, all_iff xs]
lemma entries_iff : ∀ xs {ys}, ρ.likeness.Entries xs ys ↔ ys = ρ.entries xs
  | [], ys => List.forall₂_nil_left_iff
  | (key, x) :: xs, ys => by
    rw [Likeness.Entries, List.forall₂_cons_left_iff]
    simp [Likeness.Pair, alike_iff, entries_iff xs]
end

lemma alike_value (v : Value) : v.Alike ρ.likeness (ρ.value v) := alike_iff.mpr rfl

lemma all_map (vs : List Value) : ρ.likeness.All vs (vs.map ρ.value) := (all_iff vs).mpr rfl

lemma alike_entries (es) : ρ.likeness.Entries es (ρ.entries es) := (entries_iff es).mpr rfl

variable (ρ)

/-- **Equality does not depend on the names of instances.** -/
@[simp]
lemma equals_value (v w : Value) : (ρ.value v).equals (ρ.value w) = v.equals w :=
  (Value.Alike.equals_eq v (alike_value v) (alike_value w)).symm

section Insertion

variable (es : Entries Value) (key : String)

@[simp]
lemma insert_entries (v) : insert (ρ.entries es) key (ρ.value v)
    = ρ.entries (insert es key v) :=
  (entries_iff _).mp ((alike_entries es).insert key (alike_value v))

@[simp]
lemma erase_entries : erase (ρ.entries es) key = ρ.entries (erase es key) :=
  (entries_iff _).mp ((alike_entries es).erase key)

@[simp]
lemma merge_entries (more) : merge (ρ.entries es) (ρ.entries more)
    = ρ.entries (merge es more) :=
  (entries_iff _).mp ((alike_entries es).merge (alike_entries more))

end Insertion

mutual
/-- The text of a value does not tell instances apart. -/
lemma textWith_value (stream) : ∀ v, (ρ.value v).textWith stream = v.textWith stream
  | .array es => congrArg (fun texts => "[" ++ commaList texts ++ "]") (textsWith_values stream es)
  | .object es =>
    congrArg (fun texts => "\x7b" ++ commaList texts ++ "\x7d") (entryTextsWith_entries stream es)
  | .error kind details trace =>
    congrArg (fun texts => "Error \x7berror: " ++ Text.quoted kind ++ ", details: \x7b"
      ++ commaList texts ++ "\x7d\x7d" ++ traceText trace) (entryTextsWith_entries stream details)
  | .null | .boolean _ | .number _ | .string _ | .closure _ | .native _ | .stream _ => rfl
lemma textsWith_values (stream) : ∀ vs,
    Value.textsWith stream (ρ.values vs) = Value.textsWith stream vs
  | [] => rfl
  | v :: vs => by
    rw [values, Value.textsWith, Value.textsWith, textWith_value stream v,
      textsWith_values stream vs]
lemma entryTextsWith_entries (stream) : ∀ es : List (String × Value),
    Value.entryTextsWith stream (ρ.entries es) = Value.entryTextsWith stream es
  | [] => rfl
  | (key, v) :: rest => by
    rw [entries, Value.entryTextsWith, Value.entryTextsWith, textWith_value stream v,
      entryTextsWith_entries stream rest]
end

mutual
/-- A host function refers to nothing in the heap. -/
lemma addReferences_value : ∀ v found, (ρ.value v).addReferences found = v.addReferences found
  | .array es, found => by
    rw [value, Value.addReferences, Value.addReferences, addReferencesOfAll_values es]
  | .object es, found => by
    rw [value, Value.addReferences, Value.addReferences, addReferencesOfEntries_entries es]
  | .error _ details _, found => by
    rw [value, Value.addReferences, Value.addReferences, addReferencesOfEntries_entries details]
  | .null, _ | .boolean _, _ | .number _, _ | .string _, _ | .closure _, _ | .native _, _
  | .stream _, _ => rfl
lemma addReferencesOfAll_values : ∀ vs found,
    Value.addReferencesOfAll found (ρ.values vs) = Value.addReferencesOfAll found vs
  | [], _ => rfl
  | v :: vs, found => by
    rw [values, Value.addReferencesOfAll, Value.addReferencesOfAll, addReferences_value v,
      addReferencesOfAll_values vs]
lemma addReferencesOfEntries_entries : ∀ es found,
    Value.addReferencesOfEntries found (ρ.entries es) = Value.addReferencesOfEntries found es
  | [], _ => rfl
  | (key, v) :: rest, found => by
    rw [entries, Value.addReferencesOfEntries, Value.addReferencesOfEntries, addReferences_value v,
      addReferencesOfEntries_entries rest]
end

lemma references_value (v : Value) : (ρ.value v).references = v.references :=
  ρ.addReferences_value v []

lemma referencesOfAll_map (vs : List Value) :
    Value.referencesOfAll (vs.map ρ.value) = Value.referencesOfAll vs := by
  rw [← values_eq_map]
  exact ρ.addReferencesOfAll_values vs []

/-! ## Errors -/

def error (e : ErrorValue) : ErrorValue := { e with details := ρ.entries e.details }

/-- A result with its values renamed, by a function for results. -/
def result {α : Type} (f : α → α) : Except ErrorValue α → Except ErrorValue α
  | .ok a => .ok (f a)
  | .error e => .error (ρ.error e)

section Errors

variable (e : ErrorValue)

@[simp]
lemma error_error : ρ.error (ρ.error e) = e := by simp [error]

@[simp]
lemma kind_error : (ρ.error e).kind = e.kind := rfl

@[simp]
lemma toValue_error : (ρ.error e).toValue = ρ.value e.toValue := rfl

lemma error_iff {e f} : ρ.likeness.Error e f ↔ f = ρ.error e := by
  obtain ⟨kind, details, trace⟩ := e
  obtain ⟨kind', details', trace'⟩ := f
  constructor
  · rintro ⟨rfl, hdetails, rfl⟩
    obtain rfl : details' = ρ.entries details := (entries_iff details).mp hdetails
    rfl
  · rintro heq
    cases heq
    exact ⟨rfl, alike_entries details, rfl⟩

@[simp]
lemma forArgument_error (name) :
    (ρ.error e).forArgument name = ρ.error (e.forArgument name) :=
  ρ.error_iff.mp ((ρ.error_iff.mpr rfl).forArgument name)

end Errors

@[simp]
lemma result_result {α : Type} {f} (hf : ∀ a, f (f a) = a) (r : Except ErrorValue α) :
    ρ.result f (ρ.result f r) = r := by
  cases r with
  | ok a => exact congrArg Except.ok (hf a)
  | error e => exact congrArg Except.error (ρ.error_error e)

/-! ## The heap -/

def upvalue : Upvalue → Upvalue
  | .onStack slot => .onStack slot
  | .closed content => .closed (content.map ρ.value)

def node : Node → Node
  | .empty => .empty
  | .cons head tail => .cons (ρ.value head) tail

def suspension : Suspension → Suspension
  | .successors seed next => .successors (ρ.value seed) (ρ.value next)
  | .mapped src function => .mapped src (ρ.value function)
  | .filtered src c => .filtered src (ρ.value c)
  | .listed values failure => .listed (values.map ρ.value) (failure.map ρ.error)

def streamCell : StreamCell → StreamCell
  | .pending suspension => .pending (ρ.suspension suspension)
  | .forcing => .forcing
  | .failed e => .failed (ρ.error e)
  | .resolved node => .resolved (ρ.node node)

/-- **The heap with its values renamed.** -/
def heap (h : Heap) : Heap :=
  { h with cells := h.cells.map ρ.upvalue, streams := h.streams.map ρ.streamCell }

lemma option_map_value (x : Option Value) : (x.map ρ.value).map ρ.value = x := by cases x <;> simp

@[simp]
lemma upvalue_upvalue (u) : ρ.upvalue (ρ.upvalue u) = u := by
  cases u with
  | onStack slot => rfl
  | closed content => exact congrArg Upvalue.closed (ρ.option_map_value content)

@[simp]
lemma node_node (n) : ρ.node (ρ.node n) = n := by cases n <;> simp [node]

@[simp]
lemma suspension_suspension (s) : ρ.suspension (ρ.suspension s) = s := by
  cases s with
  | listed values failure => cases failure <;> simp [suspension]
  | _ => simp [suspension]

@[simp]
lemma streamCell_streamCell (c) : ρ.streamCell (ρ.streamCell c) = c := by
  cases c <;> simp [streamCell]

@[simp]
lemma heap_heap (h : Heap) : ρ.heap (ρ.heap h) = h := by
  have hcells : ρ.upvalue ∘ ρ.upvalue = id := funext ρ.upvalue_upvalue
  have hstreams : ρ.streamCell ∘ ρ.streamCell = id := funext ρ.streamCell_streamCell
  simp [heap, hcells, hstreams]

section Heap

variable (h : Heap)

@[simp]
lemma heap_streamCell (id) :
    (ρ.heap h).streamCell id = ρ.streamCell (h.streamCell id) := by
  simp only [Heap.streamCell, heap, Array.getElem?_map]
  cases h.streams[id]? <;> rfl

@[simp]
lemma heap_cell (id) : (ρ.heap h).cell id = ρ.upvalue (h.cell id) := by
  simp only [cell, heap, Array.getElem?_map]
  cases h.cells[id]? <;> rfl

lemma heap_setStream (id cell) :
    (ρ.heap h).setStream id (ρ.streamCell cell) = ρ.heap (h.setStream id cell) := by
  simp [setStream, heap]

lemma heap_addStream (cell) : (ρ.heap h).addStream (ρ.streamCell cell)
    = ((h.addStream cell).1, ρ.heap (h.addStream cell).2) := by
  simp [addStream, heap]

lemma heap_setCell (id u) :
    (ρ.heap h).setCell id (ρ.upvalue u) = ρ.heap (h.setCell id u) := by
  simp [setCell, heap]

lemma heap_addCell (slot) : (ρ.heap h).addCell (.onStack slot)
    = ((h.addCell (.onStack slot)).1, ρ.heap (h.addCell (.onStack slot)).2) := by
  simp [addCell, heap, upvalue]

lemma heap_closeCells (contents : List (CellId × Option Value)) :
    (ρ.heap h).closeCells (contents.map fun c => (c.1, c.2.map ρ.value))
      = ρ.heap (h.closeCells contents) := by
  induction contents generalizing h with
  | nil => rfl
  | cons c rest ih =>
    obtain ⟨cell, content⟩ := c
    have hset : (ρ.heap h).setCell cell (.closed (content.map ρ.value))
        = ρ.heap (h.setCell cell (.closed content)) := ρ.heap_setCell h cell (.closed content)
    show ((ρ.heap h).setCell cell (.closed (content.map ρ.value))).closeCells _ = _
    rw [hset, ih]
    rfl

/-! ### Text -/

lemma heap_peek? (id) : (ρ.heap h).peek? id = (h.peek? id).map ρ.node := by
  rw [peek?, heap_streamCell, peek?]
  cases h.streamCell id <;> rfl

lemma heap_forcedWithin (k id) : (ρ.heap h).forcedWithin k id
    = ((h.forcedWithin k id).1.map ρ.value, (h.forcedWithin k id).2) := by
  induction k generalizing id with
  | zero => rfl
  | succ k ih =>
    rw [forcedWithin, heap_peek?, forcedWithin]
    cases h.peek? id with
    | none => rfl
    | some n =>
      cases n with
      | empty => rfl
      | cons head tail =>
        show (ρ.value head :: ((ρ.heap h).forcedWithin k tail).1,
          ((ρ.heap h).forcedWithin k tail).2) = _
        rw [ih]
        rfl

lemma heap_streamTextWithin (depth) :
    (ρ.heap h).streamTextWithin depth = h.streamTextWithin depth := by
  induction depth with
  | zero => rfl
  | succ depth ih =>
    funext id
    have hforced : (ρ.heap h).forced id = ((h.forced id).1.map ρ.value, (h.forced id).2) := by
      have hs : (ρ.heap h).streams.size = h.streams.size := Array.size_map
      rw [forced, hs, heap_forcedWithin]
      rfl
    simp only [streamTextWithin, hforced, ih, ← values_eq_map, textsWith_values]

@[simp]
lemma text_value (v : Value) : (ρ.value v).text (ρ.heap h) = v.text h := by
  have hstream : (ρ.heap h).streamText = h.streamText := by
    funext id
    have hs : (ρ.heap h).streams.size = h.streams.size := Array.size_map
    rw [streamText, hs, heap_streamTextWithin, streamText]
  rw [Value.text, hstream, textWith_value, Value.text]

/-! ### Retention -/

lemma references_suspension (s : Suspension) : (ρ.suspension s).references = s.references := by
  cases s with
  | successors seed next => exact ρ.referencesOfAll_map [seed, next]
  | mapped src function => exact ρ.referencesOfAll_map [.stream src, function]
  | filtered src c => exact ρ.referencesOfAll_map [.stream src, c]
  | listed values failure =>
    have hmap : (values ++ (failure.map (·.toValue)).toList).map ρ.value
        = values.map ρ.value ++ ((failure.map ρ.error).map (·.toValue)).toList := by
      cases failure <;> simp
    rw [Suspension.references, ← ρ.referencesOfAll_map, hmap]
    rfl

lemma heap_contents : (ρ.heap h).contents = h.contents := by
  funext p
  cases p with
  | cell id =>
    simp only [contents, heap_cell]
    cases h.cell id with
    | onStack slot => rfl
    | closed content =>
      cases content with
      | none => rfl
      | some v => exact ρ.references_value v
  | stream id =>
    simp only [contents, heap_streamCell]
    cases h.streamCell id with
    | pending s => exact ρ.references_suspension s
    | forcing => rfl
    | failed e => exact ρ.references_value e.toValue
    | resolved n =>
      cases n with
      | empty => rfl
      | cons head tail => exact ρ.referencesOfAll_map [head, .stream tail]

lemma heap_numberOf : (ρ.heap h).numberOf = h.numberOf := by
  funext p
  cases p with
  | cell id => rfl
  | stream id => exact congrArg (· + id) Array.size_map

lemma heap_release (most pending counts) :
    (ρ.heap h).release most pending counts = h.release most pending counts := by
  have huncount : (ρ.heap h).uncount = h.uncount := by
    funext p pending counts
    rw [uncount, heap_numberOf, uncount]
  induction most generalizing pending counts with
  | zero => rfl
  | succ most ih =>
    cases pending with
    | nil => rfl
    | cons p pending => simp only [release, heap_contents, huncount, ih]

@[simp]
lemma heap_retained (outside) :
    (ρ.heap h).retained outside = h.retained outside := by
  have hplaces : (ρ.heap h).places = h.places := by simp [places, heap]
  have hn : (ρ.heap h).count = h.count := by
    funext counts references
    rw [count, heap_numberOf, count]
  simp only [retained, hplaces, hn, heap_contents, heap_numberOf, heap_release]

end Heap

/-! ## Jobs -/

def request : Request → Request
  | .call f args named => .call (ρ.value f) (args.map ρ.value) (ρ.entries named)
  | .force stream => .force stream
  | .collect stream => .collect stream
  | .settle value => .settle (ρ.value value)
  | .allocate cell => .allocate (ρ.streamCell cell)
  | .text value => .text (ρ.value value)

/-- The answer to a request, as the answer to the renamed one. -/
def answer : (r : Request) → r.Response → (ρ.request r).Response
  | .call .., resp => ρ.result ρ.value resp
  | .force _, resp => ρ.result ρ.node resp
  | .collect _, resp => ρ.result (List.map ρ.value) resp
  | .settle _, resp => ρ.result id resp
  | .allocate _, resp => resp
  | .text _, resp => resp

/-- The answer to a renamed request, in the old names. -/
def back : (r : Request) → (ρ.request r).Response → r.Response
  | .call .., resp => ρ.result ρ.value resp
  | .force _, resp => ρ.result ρ.node resp
  | .collect _, resp => ρ.result (List.map ρ.value) resp
  | .settle _, resp => ρ.result id resp
  | .allocate _, resp => resp
  | .text _, resp => resp

lemma back_answer (r : Request) (resp : r.Response) :
    ρ.back r (ρ.answer r resp) = resp := by
  cases r with
  | call => exact ρ.result_result ρ.value_value resp
  | force => exact ρ.result_result ρ.node_node resp
  | collect => exact ρ.result_result (fun vs => by simp) resp
  | settle => exact ρ.result_result (fun _ => rfl) resp
  | allocate => rfl
  | text => rfl

variable {α β γ : Type}

/-- **The work of the host with its values renamed**, its results by a function for results. -/
def job (f : α → α) : Job α → Job α
  | .done r => .done (ρ.result f r)
  | .ask held request next =>
    .ask (held.map ρ.value) (ρ.request request) fun resp => job f (next (ρ.back request resp))

section Jobs

variable {f : α → α} {g : β → β} {ρ}

lemma andThen_job {j j' k k'} (hj : j' = ρ.job f j)
    (hk : ∀ r, k' (ρ.result f r) = ρ.job g (k r)) : j'.andThen k' = ρ.job g (j.andThen k) := by
  subst hj
  induction j with
  | done r => exact hk r
  | ask held request next ih => exact congrArg _ (funext fun resp => ih _)

/-- **Renamed work, continued** with renamed work for every result. -/
theorem bind_job {j j' k k'} (hj : j' = ρ.job f j)
    (hk : ∀ a, k' (f a) = ρ.job g (k a)) : j' >>= k' = ρ.job g (j >>= k) :=
  andThen_job hj fun r => by
    cases r with
    | ok a => exact hk a
    | error e => rfl

lemma holding_job {j j' held held'} (hj : j' = ρ.job f j)
    (hheld : held' = held.map ρ.value) : j'.holding held' = ρ.job f (j.holding held) := by
  subst hj hheld
  induction j with
  | done r => rfl
  | ask os request next ih =>
    show ask (held.map ρ.value ++ os.map ρ.value) _ _ = _
    rw [← List.map_append]
    exact congrArg _ (funext fun resp => ih _)

lemma mapM_job {xs : List γ} {t : γ → γ} {k k'} (hk : ∀ x, k' (t x) = ρ.job f (k x)) :
    (xs.map t).mapM k' = ρ.job (List.map f) (xs.mapM k) := by
  suffices h : ∀ out, List.mapM.loop k' (xs.map t) (out.map f)
      = ρ.job (List.map f) (List.mapM.loop k xs out) from h []
  induction xs with
  | nil =>
    intro out
    show pure (out.map f).reverse = _
    rw [← List.map_reverse]
    rfl
  | cons x xs ih => exact fun out => bind_job (hk x) fun a => ih (a :: out)

end Jobs

/-! ### Requests -/

section Requests

lemma invoke_job (f : Value) (args : List Value) (named : Entries Value) :
    invoke (ρ.value f) (args.map ρ.value) (ρ.entries named)
      = ρ.job ρ.value (invoke f args named) :=
  congrArg _ (funext fun r => congrArg done (ρ.result_result ρ.value_value r).symm)

lemma node_job (stream : StreamId) : Job.node stream = ρ.job ρ.node (Job.node stream) :=
  congrArg _ (funext fun r => congrArg Job.done (ρ.result_result ρ.node_node r).symm)

lemma settle_job (v : Value) : settle (ρ.value v) = ρ.job id (settle v) :=
  congrArg _ (funext fun r => congrArg done (ρ.result_result (fun _ => rfl) r).symm)

lemma suspend_job (s) : suspend (ρ.suspension s) = ρ.job id (suspend s) := rfl

lemma resolved_job (n) : resolved (ρ.node n) = ρ.job id (resolved n) := rfl

lemma text_job (v) : text (ρ.value v) = ρ.job id (text v) := rfl

end Requests

/-! ### Streams -/

def produced : Produced → Produced
  | .node n => .node (ρ.node n)
  | .again s => .again (ρ.suspension s)

section Streams

lemma consLater_job (head : Value) (rest) :
    Suspension.consLater (ρ.value head) (ρ.suspension rest)
      = ρ.job ρ.produced (Suspension.consLater head rest) :=
  bind_job (ρ.suspend_job rest) fun _ => rfl

/-- **One step of a renamed suspension.** -/
theorem produce_job (s : Suspension) : (ρ.suspension s).produce = ρ.job ρ.produced s.produce := by
  cases s with
  | successors seed next =>
    refine holding_job (bind_job (ρ.invoke_job next [seed] []) fun v => ?_) rfl
    exact ρ.consLater_job v (.successors v next)
  | mapped src function =>
    refine holding_job (bind_job (ρ.node_job src) fun n => ?_) rfl
    cases n with
    | empty => rfl
    | cons head tail =>
      exact bind_job (ρ.invoke_job function [head] []) fun v =>
        ρ.consLater_job v (.mapped tail function)
  | filtered src c =>
    refine holding_job (bind_job (ρ.node_job src) fun n => ?_) rfl
    cases n with
    | empty => rfl
    | cons head tail =>
      refine bind_job (ρ.invoke_job c [head] []) fun v => ?_
      cases v with
      | boolean b =>
        cases b with
        | true => exact ρ.consLater_job head (.filtered tail c)
        | false => rfl
      | _ => rfl
  | listed values failure =>
    cases values with
    | cons v vs => exact ρ.consLater_job v (.listed vs failure)
    | nil => cases failure <;> rfl

lemma takeAfter_job : ∀ count stream found,
    Stream.takeAfter (found.map ρ.value) count stream
      = ρ.job (List.map ρ.value) (Stream.takeAfter found count stream)
  | 0, stream, found => congrArg Job.pure List.map_reverse.symm
  | count + 1, stream, found =>
    bind_job (ρ.node_job stream) fun n => by
      cases n with
      | empty => exact congrArg Job.pure List.map_reverse.symm
      | cons head tail => exact takeAfter_job count tail (head :: found)

end Streams

/-! ### Jobs that a renaming relates -/

section Alike

variable {f : α → α} {Q : α → α → Prop}

lemma eq_result (hQ : ∀ a b, Q a b → b = f a) {x y}
    (h : ρ.likeness.Result Q x y) : y = ρ.result f x := by
  cases h with
  | ok h => exact congrArg Except.ok (hQ _ _ h)
  | error h => exact congrArg Except.error (ρ.error_iff.mp h)

lemma result_back {f} (hQ : ∀ a, Q (f a) a) (y) : ρ.likeness.Result Q (ρ.result f y) y := by
  cases y with
  | ok a => exact .ok (hQ a)
  | error e => exact .error (ρ.error_iff.mpr (ρ.error_error e).symm)

/-- Every answer is alike to the answer in the old names. -/
lemma answers_back : ∀ {a b}, ρ.likeness.OfRequest a b → ∃ h : b = ρ.request a,
    ∀ y : (ρ.request a).Response, ρ.likeness.Answers a b (ρ.back a y) (h ▸ y)
  | _, _, .call fn args entries => by
    obtain rfl := alike_iff.mp fn
    obtain rfl := (all_iff _).mp args
    obtain rfl := (entries_iff _).mp entries
    exact ⟨rfl, ρ.result_back fun v => alike_iff.mpr (ρ.value_value v).symm⟩
  | _, _, .force _ => ⟨rfl, ρ.result_back fun n => by
      cases n with
      | empty => exact .empty
      | cons head tail => exact .cons (alike_iff.mpr (ρ.value_value head).symm) trivial⟩
  | _, _, .collect _ => ⟨rfl, ρ.result_back (f := List.map ρ.value) fun vs =>
      (all_iff _).mpr (by simp)⟩
  | _, _, .settle h => by
    obtain rfl := alike_iff.mp h
    exact ⟨rfl, ρ.result_back (f := id) fun _ => trivial⟩
  | _, _, .text h => by
    obtain rfl := alike_iff.mp h
    exact ⟨rfl, fun _ => rfl⟩

/-- **A job that is alike to another is renamed to it.** -/
theorem eq_job (hQ : ∀ a b, Q a b → b = f a) {j k} (h : Alike ρ.likeness Q j k) :
    k = ρ.job f j := by
  induction h with
  | done h => exact congrArg done (ρ.eq_result hQ h)
  | ask values _ request _ ih =>
    obtain rfl := (all_iff _).mp values
    obtain ⟨rfl, hanswers⟩ := ρ.answers_back request
    exact congrArg _ (funext fun y => ih _ y (hanswers y))

lemma elements_value (v : Value) : (ρ.value v).elements = ρ.job (List.map ρ.value) v.elements :=
  ρ.eq_job (fun vs _ => (all_iff vs).mp) (Value.elements_alike (fun _ => trivial) (alike_value v))

end Alike
end Renaming

end TreeCode
