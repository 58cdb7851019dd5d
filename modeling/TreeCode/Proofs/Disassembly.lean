import TreeCode.Proofs.Framing

/-!
# Reading linked code back

Linked code decodes from its start to its end, and what the decoding finds are the items that were
linked, each where it lies (`Code.decodeAll_link`). So a property of every instruction of a program
is a property of every item of its functions, and the tables beside the code fit it: a diagnostic
stands beside the first word of an instruction, and functions that are not empty start one after
another.
-/

namespace TreeCode

open List

namespace Program

/-- **An instruction starts at an offset**, when the code is decoded from its beginning. -/
def Starts (p : Program) (offset : Nat) (i : Instruction) : Prop :=
  .ok (offset, i) ∈ Instruction.decodeAll p.code

/-- No function starts after the one offset and not after the other. -/
def SameFunction (p : Program) (first second : Nat) : Prop :=
  ∀ entry ∈ p.functions, entry.offset ≤ first ↔ entry.offset ≤ second

/-- Items that are all instructions with operands in range pass the check. -/
lemma checkItems_eq {p : Program} :
    ∀ {found},
      (∀ x ∈ found, ∃ offset i, x = .ok (offset, i) ∧ p.checkInstruction offset i = .ok ()) →
      p.checkItems found = .ok ()
  | [], _ => rfl
  | x :: found, h => by
    obtain ⟨offset, i, rfl, hcheck⟩ := h x mem_cons_self
    rw [checkItems, hcheck]
    exact checkItems_eq fun y hy => h y (mem_cons_of_mem _ hy)

end Program

lemma CodeItem.width_instruction (offsets) (item : CodeItem) :
    (item.instruction offsets).width = item.width := by
  cases item <;> rfl

namespace Code

/-! ## Items where they lie -/

/-- **The items of code that lies at `pc`**, each with its own place. -/
def located (pc : Nat) : Code → List (Nat × CodeItem)
  | [] => []
  | item :: code => (pc, item) :: located (pc + item.width) code

@[simp]
lemma located_nil (pc) : located pc [] = [] := rfl

@[simp]
lemma located_cons (pc) (item : CodeItem) (code) :
    located pc (item :: code) = (pc, item) :: located (pc + item.width) code := rfl

lemma located_append (pc) (a b : Code) :
    located pc (a ++ b) = located pc a ++ located (pc + a.width) b := by
  induction a generalizing pc with
  | nil => simp
  | cons item a ih => simp [ih, Nat.add_assoc]

variable {code : Code} {item : CodeItem} {pc : Nat} {fs : List CodeFunction}

lemma mem_located {start} (h : (pc, item) ∈ located start code) :
    ∃ pre after, code = pre ++ (item :: after) ∧ pc = start + pre.width := by
  induction code generalizing start with
  | nil => cases h
  | cons first code ih =>
    rcases mem_cons.mp h with heq | h
    · cases heq
      exact ⟨[], code, rfl, rfl⟩
    · obtain ⟨pre, after, rfl, rfl⟩ := ih h
      exact ⟨first :: pre, after, rfl, by rw [width_cons, Nat.add_assoc]⟩

lemma placed_instructions (offsets) (code : Code) (start) :
    Instruction.placed start (code.map (·.instruction offsets))
      = (located start code).map fun x => (x.1, x.2.instruction offsets) := by
  induction code generalizing start with
  | nil => rfl
  | cons item code ih =>
    rw [map_cons, Instruction.placed, CodeItem.width_instruction, ih]
    rfl

/-- **Linked code decodes to its items.** -/
theorem decodeAll_link (fs) :
    Instruction.decodeAll (link fs).code
      = (located 0 (items fs)).map fun x => .ok (x.1, x.2.instruction (offsetsFrom 0 fs)) := by
  have hread := Instruction.decodeFrom_words
    ((items fs).map (·.instruction (offsetsFrom 0 fs))) [] .finished
  rw [nil_append, append_nil, flatMap_map, length_nil, placed_instructions, map_map,
    map_nil, append_nil] at hread
  exact hread

/-! ## Items of a function -/

/-- **A piece of code lies at `pc` in the function with an index.** -/
def In (fs : List CodeFunction) (index pc : Nat) (code : Code) : Prop :=
  ∃ f pre after, fs[index]? = some f ∧ f.body = pre ++ (code ++ after)
    ∧ offset fs index + pre.width = pc

section In

variable {index : Nat}

lemma In.skip {a b} (h : In fs index pc (a ++ b)) :
    In fs index (pc + a.width) b := by
  obtain ⟨f, pre, after, hf, hbody, rfl⟩ := h
  exact ⟨f, pre ++ a, after, hf, by rw [hbody]; simp only [append_assoc],
    by rw [width_append, Nat.add_assoc]⟩

lemma In.left {a b} (h : In fs index pc (a ++ b)) : In fs index pc a := by
  obtain ⟨f, pre, after, hf, hbody, rfl⟩ := h
  exact ⟨f, pre, b ++ after, hf, by rw [hbody, append_assoc], rfl⟩

lemma In.body {f} (h : fs[index]? = some f) :
    In fs index (offset fs index) f.body :=
  ⟨f, [], [], h, by simp, rfl⟩

lemma In.place (h : In fs index pc code) : At fs pc code := by
  obtain ⟨f, pre, after, hf, hbody, rfl⟩ := h
  have hat := at_offset hf
  rw [hbody] at hat
  exact hat.skip.left

/-- The code lies in the part of the program that is the function's. -/
lemma In.bounds (h : In fs index pc code) :
    offset fs index ≤ pc ∧ pc + code.width ≤ offset fs (index + 1) := by
  obtain ⟨f, pre, after, hf, hbody, rfl⟩ := h
  rw [offset_succ hf, hbody, width_append, width_append]
  omega

end In

/-- Items of the functions after the first ones lie in one of these functions. -/
lemma exists_in_later :
    ∀ later earlier, fs = earlier ++ later →
      (pc, item) ∈ located (items earlier).width (items later) →
      ∃ index f, fs[index]? = some f
        ∧ (pc, item) ∈ located (offset fs index) f.body
  | [], _, _, h => by cases h
  | f :: later, earlier, hsplit, h => by
    have hitems : items (f :: later) = f.body ++ items later := rfl
    rw [hitems, located_append, mem_append] at h
    rcases h with h | h
    · refine ⟨earlier.length, f, by simp [hsplit], ?_⟩
      rwa [offset, hsplit, take_left]
    · refine exists_in_later later (earlier ++ [f]) (by simp [hsplit]) ?_
      have hwidth : (items (earlier ++ [f])).width = (items earlier).width + f.body.width := by
        simp [items]
      rwa [hwidth]

variable {p : Program}

section

variable (hp : p.code = (link fs).code)

include hp

/-- **Every instruction of a program is an item of one of its functions.** -/
theorem item_of_starts {i} (h : p.Starts pc i) :
    ∃ index f item, fs[index]? = some f
      ∧ (pc, item) ∈ located (offset fs index) f.body
      ∧ i = item.instruction (offsetsFrom 0 fs) := by
  rw [Program.Starts, hp, decodeAll_link] at h
  obtain ⟨⟨pc', item⟩, hmem, heq⟩ := mem_map.mp h
  cases heq
  obtain ⟨index, f, hf, hin⟩ := exists_in_later fs [] rfl hmem
  exact ⟨index, f, item, hf, hin, rfl⟩

/-- Linked code passes the check if each of its instructions does. -/
lemma validate_of_starts
    (h : ∀ offset i, p.Starts offset i → p.checkInstruction offset i = .ok ()) :
    p.validate = .ok () := by
  refine Program.checkItems_eq fun x hx => ?_
  have hok := hx
  rw [hp, decodeAll_link] at hok
  obtain ⟨⟨pc, item⟩, -, rfl⟩ := mem_map.mp hok
  exact ⟨_, _, rfl, h _ _ hx⟩

/-- An item starts an instruction where it lies. -/
lemma At.starts (h : At fs pc (item :: code)) :
    p.Starts pc (item.instruction (offsetsFrom 0 fs)) := by
  obtain ⟨pre, after, heq, rfl⟩ := h
  rw [Program.Starts, hp, decodeAll_link, heq, located_append]
  refine mem_map.mpr ⟨(pre.width, item), ?_, rfl⟩
  simp

/-! ## The tables beside the code -/

omit hp in
lemma size_diagnostics (fs) :
    (link fs).diagnostics.size = (link fs).code.size := by
  rw [size_link]
  show ((items fs).flatMap (·.diagnostics)).toArray.size = _
  rw [size_toArray, length_diagnostics]

omit hp in
/-- A diagnostic stands beside the first word of an item. -/
lemma item_of_diagnostic : ∀ {code k d},
    (code.flatMap (·.diagnostics))[k]? = some (some d) →
    ∃ (pre : Code) (item : CodeItem) (after : Code), code = pre ++ (item :: after) ∧ pre.width = k
  | [], _, _, h => by simp at h
  | item :: code, k, d, h => by
    rw [flatMap_cons, getElem?_append] at h
    split at h
    · next hlt =>
      cases k with
      | zero => exact ⟨[], item, code, rfl, rfl⟩
      | succ k =>
        rw [CodeItem.diagnostics, getElem?_cons_succ] at h
        obtain ⟨-, hn⟩ := mem_replicate.mp (mem_of_getElem? h)
        cases hn
    · next hle =>
      rw [CodeItem.length_diagnostics] at h hle
      obtain ⟨pre, item', after, rfl, hwidth⟩ := item_of_diagnostic h
      exact ⟨item :: pre, item', after, rfl, by rw [width_cons, hwidth]; omega⟩

lemma starts_of_diagnostic {d}
    (h : (link fs).diagnostics[pc]? = some (some d)) : ∃ i, p.Starts pc i := by
  have hlist : ((items fs).flatMap (·.diagnostics))[pc]? = some (some d) := by
    simpa [link, items] using h
  obtain ⟨pre, item, after, heq, hwidth⟩ := item_of_diagnostic hlist
  have hpl : At fs pc (item :: after) := ⟨pre, [], by simpa using heq, hwidth⟩
  exact ⟨_, hpl.starts hp⟩

end

/-- An entry of the table is that of a function. -/
lemma function_of_entry (hp : p.functions = (link fs).functions) {entry}
    (h : entry ∈ p.functions) : ∃ index f, fs[index]? = some f
      ∧ entry = { name := f.name, offset := offset fs index } := by
  rw [hp] at h
  obtain ⟨index, hi, rfl⟩ := Array.mem_iff_getElem.mp h
  have hs : (link fs).functions.size = fs.length := by simp [link, length_offsetsFrom]
  obtain ⟨f, hf⟩ : ∃ f, fs[index]? = some f := ⟨_, getElem?_eq_getElem (by omega)⟩
  have heq := getElem?_functions hf
  rw [Array.getElem?_eq_getElem hi] at heq
  exact ⟨index, f, hf, Option.some.inj heq⟩

section Functions

variable (hpos : ∀ f ∈ fs, 0 < f.body.width)

include hpos

lemma offset_strictMono {i j} (hij : i < j) (hj : j ≤ fs.length) :
    offset fs i < offset fs j := by
  obtain ⟨f, hf⟩ : ∃ f, fs[i]? = some f := ⟨_, getElem?_eq_getElem (by omega)⟩
  have hnext := offset_succ hf
  have hwidth := hpos f (mem_of_getElem? hf)
  have hmono := offset_mono fs (show i + 1 ≤ j from hij)
  omega

/-- **Functions that are not empty start one after another.** -/
theorem pairwise_functions :
    (link fs).functions.toList.Pairwise fun f g => f.offset < g.offset := by
  rw [pairwise_iff_getElem]
  intro i j hi hj hij
  have hs : (link fs).functions.toList.length = fs.length := by simp [link, length_offsetsFrom]
  obtain ⟨f, hf⟩ : ∃ f, fs[i]? = some f := ⟨_, getElem?_eq_getElem (by omega)⟩
  obtain ⟨g, hg⟩ : ∃ g, fs[j]? = some g := ⟨_, getElem?_eq_getElem (by omega)⟩
  have hi' := getElem?_functions hf
  have hj' := getElem?_functions hg
  rw [← Array.getElem?_toList, getElem?_eq_getElem hi] at hi'
  rw [← Array.getElem?_toList, getElem?_eq_getElem hj] at hj'
  rw [Option.some.inj hi', Option.some.inj hj']
  exact offset_strictMono hpos hij (by omega)

end Functions

/-- Two places in one function are not separated by the start of another. -/
lemma sameFunction_of_in
    (hp : p.functions = (link fs).functions) {index pc' item'}
    (h : In fs index pc [item]) (h' : In fs index pc' [item']) :
    p.SameFunction pc pc' := by
  intro entry he
  obtain ⟨j, f, hf, rfl⟩ := function_of_entry hp he
  have hbounds := h.bounds
  have hbounds' := h'.bounds
  have hpos := item.width_pos
  have hpos' := item'.width_pos
  rw [width_cons, width_nil] at hbounds hbounds'
  rcases Nat.lt_or_ge index j with hlt | hle
  · have := offset_mono fs (show index + 1 ≤ j from hlt)
    dsimp only
    omega
  · have := offset_mono fs hle
    dsimp only
    omega

end Code

end TreeCode
