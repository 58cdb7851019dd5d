import Mathlib.Data.List.Forall2
import TreeCode.Proofs.Lowered

/-!
# Lowering gives lowered code

A draft only grows: scopes keep their names, tables and lists of captured variables get longer. So
what a piece of code refers to when it is made stays where it is, and `Lowered` holds of the code in
every draft that grows out of the one at hand, the finished one above all.

`Lower.Makes x L` is the rule by which the computations of lowering are followed: whatever `x` gives
has `L` in every later draft. `Lower.makes_expr` and the theorems beside it go through the tree.
-/

namespace TreeCode

open List Code Entries Pattern Draft Option

/-! ## Growth -/

/-- The scope without a note of what is captured. -/
def Block.bare (b : Block) : Block := { b with captured := [] }

variable {library : Bool} {name : String}
  {place : Capture} {d D : Draft} {names : List String} {l : List Bool}
  {elements : List ArrayPatternElement} {arguments : Bool} {Q : Draft → Code → Prop}
  {env : Environment} {p : Program} {P : Value → Prop}

namespace Frame

/-- A frame grows: its scopes have the same names, and more may be captured. -/
structure Grows (f g : Frame) : Prop where
  blocks : f.blocks.map Block.bare = g.blocks.map Block.bare
  captures : f.captures <+: g.captures

lemma Grows.refl (f) : Grows f f := ⟨rfl, prefix_rfl⟩

lemma Grows.trans {f g h} (hfg : Grows f g) (hgh : Grows g h) : Grows f h :=
  ⟨hfg.blocks.trans hgh.blocks, hfg.captures.trans hgh.captures⟩

lemma lookupIn_bare (library name) (blocks : List Block) :
    lookupIn library name (blocks.map Block.bare) = lookupIn library name blocks := by
  induction blocks with
  | nil => rfl
  | cons b blocks ih =>
    rw [map_cons, lookupIn, lookupIn, ih]
    rfl

lemma Grows.lookupIn_eq {f g} (h : Grows f g) (library name) :
    lookupIn library name g.blocks = lookupIn library name f.blocks := by
  rw [← lookupIn_bare, ← h.blocks, lookupIn_bare]

lemma Grows.length_eq {f g} (h : Grows f g) : f.blocks.length = g.blocks.length := by
  simpa using congrArg length h.blocks

/-- A captured variable keeps its index. -/
lemma Grows.entry {f g : Frame} (h : Grows f g) {index : Nat} {place}
    (entry : f.captures[index]? = some place) : g.captures[index]? = some place := by
  obtain ⟨more, hmore⟩ := h.captures
  obtain ⟨hlt, -⟩ := List.getElem?_eq_some_iff.mp entry
  rw [← hmore, List.getElem?_append_left hlt, entry]

lemma lookupIn_bounds {blocks depth slot} (h : lookupIn library name blocks = some (depth, slot)) :
    depth < blocks.length ∧ ∃ b ∈ blocks, get? b.names name = some slot := by
  induction blocks generalizing depth with
  | nil => cases h
  | cons b blocks ih =>
    rcases lookupIn_cons h with ⟨rfl, hs⟩ | ⟨further, rfl, hrec⟩
    · exact ⟨by simp, b, mem_cons_self, hs⟩
    · obtain ⟨hlt, b', hb', hs⟩ := ih hrec
      exact ⟨by simpa using hlt, b', mem_cons_of_mem _ hb', hs⟩

/-- The frames of all functions grow. -/
abbrev GrowAll (fs gs : List Frame) : Prop := Forall₂ Grows fs gs

lemma GrowAll.refl (fs) : GrowAll fs fs := by
  induction fs with
  | nil => exact .nil
  | cons f fs ih => exact .cons (.refl f) ih

variable {fs gs : List Frame}

lemma GrowAll.trans {hs} (h : GrowAll fs gs) (h' : GrowAll gs hs) :
    GrowAll fs hs := by
  induction h generalizing hs with
  | nil => exact h'
  | cons hfg _ ih =>
    cases h' with
    | cons hgh hr => exact .cons (hfg.trans hgh) (ih hr)

/-- A place is still the name's when more has been captured. -/
lemma Resolves.grow (h : Resolves library name fs place) (hg : GrowAll fs gs) :
    Resolves library name gs place := by
  induction h generalizing gs with
  | own found =>
    cases hg with
    | cons hf _ => exact .own (by rw [hf.lookupIn_eq, found])
  | captured absent _ kept ih =>
    cases hg with
    | cons hf hr => exact .captured (by rw [hf.lookupIn_eq, absent]) (ih hr) (hf.entry kept)

lemma Lacks.grow (h : Lacks library name fs) (hg : GrowAll fs gs) : Lacks library name gs := by
  induction hg with
  | nil => exact h
  | cons hf _ ih =>
    have hhead := h _ mem_cons_self
    have htail := ih fun f hf => h f (mem_cons_of_mem _ hf)
    intro g hg
    rcases mem_cons.mp hg with rfl | hg
    · rw [hf.lookupIn_eq, hhead]
    · exact htail g hg

/-- The scope of a captured slot has noted it. -/
def Noted : Capture → List Frame → Prop
  | .variable depth slot, around :: _ => ∃ b, around.blocks[depth]? = some b ∧ slot ∈ b.captured
  | _, _ => True

/-- Every captured variable is one of the functions around, and noted there. -/
def Sound : List Frame → Prop
  | [] => True
  | f :: outer => (∀ place ∈ f.captures,
      (∃ library name, Resolves library name outer place) ∧ Noted place outer) ∧ Sound outer

lemma captureSlot_grows (f : Frame) (depth slot) : Grows f (f.captureSlot depth slot) := by
  refine ⟨?_, prefix_rfl⟩
  simp only [captureSlot]
  induction f.blocks generalizing depth with
  | nil => simp
  | cons b blocks ih =>
    cases depth with
    | zero => simp [Block.bare, Block.capture]
    | succ depth => simpa using ih depth

lemma addCapture_spec (f : Frame) (place) :
    Grows f (f.addCapture place).2 ∧ (f.addCapture place).2.blocks = f.blocks ∧
      (f.addCapture place).2.captures[(f.addCapture place).1]? = some place ∧
      ∀ p ∈ (f.addCapture place).2.captures, p ∈ f.captures ∨ p = place := by
  rw [addCapture]
  split
  next index h =>
    obtain ⟨hlt, heq, -⟩ := findIdx?_eq_some_iff_getElem.mp h
    refine ⟨.refl f, rfl, ?_, fun p hp => .inl hp⟩
    rw [getElem?_eq_getElem hlt, beq_iff_eq.mp heq]
  next =>
    refine ⟨⟨rfl, prefix_append _ _⟩, rfl, by simp, fun p hp => ?_⟩
    simpa using hp

/-- The slot that a function captures is noted in the frame of the function around it. -/
def noteCapture : Capture → List Frame → List Frame
  | .variable depth slot, around :: further => around.captureSlot depth slot :: further
  | _, outer => outer

lemma noteCapture_grows (place fs) :
    GrowAll fs (noteCapture place fs) := by
  rw [noteCapture.eq_def]
  split
  · exact .cons (captureSlot_grows _ _ _) (GrowAll.refl _)
  · exact GrowAll.refl _

lemma Sound.noteCapture (h : Sound fs) (place) : Sound (noteCapture place fs) := by
  rw [noteCapture.eq_def]
  split
  · exact h
  · exact h

lemma mem_capture (b : Block) (slot) {s} (h : s ∈ b.captured ∨ s = slot) :
    s ∈ (b.capture slot).captured := by
  simp only [Block.capture, mem_append, mem_filter, mem_singleton, decide_eq_true_eq]
  grind

/-- A slot is noted beside those that were noted before. -/
lemma captureSlot_notes (f : Frame) (depth slot) {d b}
    (hb : f.blocks[d]? = some b) : ∃ c, (f.captureSlot depth slot).blocks[d]? = some c
      ∧ ∀ s, s ∈ b.captured ∨ depth = d ∧ s = slot → s ∈ c.captured := by
  rw [captureSlot, getElem?_modify, hb]
  refine ⟨_, rfl, fun s hs => ?_⟩
  split
  · exact mem_capture b slot (hs.imp_right And.right)
  · next hne => exact hs.resolve_right fun h => hne h.1

lemma Noted.noteCapture {p} (h : Noted p fs) (place) :
    Noted p (noteCapture place fs) := by
  cases fs with
  | nil => cases place <;> exact h
  | cons f fs =>
    cases place with
    | captured => exact h
    | _ depth slot =>
      cases p with
      | captured => trivial
      | _ =>
        obtain ⟨b, hb, hs⟩ := h
        obtain ⟨c, hc, hnotes⟩ := captureSlot_notes f depth slot hb
        exact ⟨c, hc, hnotes _ (.inl hs)⟩

lemma Resolves.noted (h : Resolves library name fs place) :
    Noted place (Frame.noteCapture place fs) := by
  cases h with
  | @own f _ depth slot found =>
    obtain ⟨c, hc, hnotes⟩ := captureSlot_notes f depth slot
      (getElem?_eq_getElem (lookupIn_bounds found).1)
    exact ⟨c, hc, hnotes slot (.inr ⟨rfl, rfl⟩)⟩
  | captured => trivial

/-- What a search for a name comes to. -/
def Finds (library : Bool) (name : String) (fs : List Frame) : Option Capture → Prop
  | some place => Resolves library name fs place
  | none => Lacks library name fs

/-- **Reaching a name** gives its place in frames that have grown, or no function has it. -/
theorem reach_spec (library name fs) :
    match reach library name fs with
    | some (place, gs) =>
      Resolves library name gs place ∧ GrowAll fs gs ∧ (Sound fs → Sound gs)
        ∧ ∀ p, Noted p fs → Noted p gs
    | none => Lacks library name fs := by
  induction fs with
  | nil => exact fun f hf => absurd hf (by simp)
  | cons f fs ih =>
    cases hl : lookupIn library name f.blocks with
    | some found =>
      simp only [reach, hl]
      exact ⟨.own hl, GrowAll.refl _, id, fun _ => id⟩
    | none =>
      cases hr : reach library name fs with
      | none =>
        rw [hr] at ih
        simp only [reach, hl, hr]
        intro g hg
        rcases mem_cons.mp hg with rfl | hg
        · exact hl
        · exact ih g hg
      | some found =>
        obtain ⟨place, gs⟩ := found
        rw [hr] at ih
        obtain ⟨hres, hgrow, hso, hnotes⟩ := ih
        obtain ⟨hf, hblocks, hi, hmem⟩ := f.addCapture_spec place
        have hreach : reach library name (f :: fs) = some (.captured (f.addCapture place).1,
            (f.addCapture place).2 :: noteCapture place gs) := by
          simp only [reach, hl, hr, noteCapture.eq_def] <;> rfl
        rw [hreach]
        have hfound := hres.grow (noteCapture_grows place gs)
        have hall := hgrow.trans (noteCapture_grows place gs)
        refine ⟨.captured (by rw [hf.lookupIn_eq, hl]) hfound hi, .cons hf hall, ?_, ?_⟩
        · intro h
          refine ⟨fun p hp => ?_, (hso h.2).noteCapture place⟩
          rcases hmem p hp with hp | rfl
          · obtain ⟨⟨library', name', hp⟩, hnoted⟩ := h.1 p hp
            exact ⟨⟨library', name', hp.grow hall⟩, (hnotes p hnoted).noteCapture place⟩
          · exact ⟨⟨library, name, hfound⟩, hres.noted⟩
        · intro p hp
          cases p with
          | captured => trivial
          | _ =>
            obtain ⟨b, hb, hs⟩ := hp
            exact ⟨b, hblocks ▸ hb, hs⟩

end Frame

variable {b : Block}

namespace Draft

/-- **A draft grows.** -/
structure Grows (d D : Draft) : Prop where
  frames : Frame.GrowAll d.frames D.frames
  finished : d.finished.toList <+: D.finished.toList
  constants : d.constants.toList <+: D.constants.toList
  platform : d.platform.toList <+: D.platform.toList

lemma Grows.refl (d) : Grows d d := ⟨Frame.GrowAll.refl _, prefix_rfl, prefix_rfl, prefix_rfl⟩

lemma Grows.trans {c} (h : Grows c d) (h' : Grows d D) : Grows c D :=
  ⟨h.frames.trans h'.frames, h.finished.trans h'.finished, h.constants.trans h'.constants,
    h.platform.trans h'.platform⟩

lemma getElem?_of_prefix {α : Type} {a b : Array α} (h : a.toList <+: b.toList) {i : Nat} {x}
    (hx : a[i]? = some x) : b[i]? = some x := by
  obtain ⟨more, hmore⟩ := h
  rw [← Array.getElem?_toList] at hx ⊢
  obtain ⟨hlt, -⟩ := List.getElem?_eq_some_iff.mp hx
  rw [← hmore, List.getElem?_append_left hlt, hx]

/-- The innermost scope keeps its names. -/
lemma Grows.block_names (h : Grows d D) : D.block.names = d.block.names := by
  have hframes := h.frames
  rw [block, block, frame, frame]
  cases hd : d.frames with
  | nil =>
    rw [hd] at hframes
    rw [forall₂_nil_left_iff.mp hframes]
  | cons f fs =>
    rw [hd] at hframes
    obtain ⟨g, gs, hfg, -, hD⟩ := forall₂_cons_left_iff.mp hframes
    have hhead := congrArg head? hfg.blocks
    simp only [head?_map] at hhead
    simp only [hD, head?_cons, getD_some]
    cases hf : f.blocks.head? <;> cases hg : g.blocks.head? <;> simp_all [Block.bare]

/-- **What lowering keeps of a draft**: captured variables are variables of the functions around,
constants are data, and host values are among those that the host supplies. -/
structure Sound (P : Value → Prop) (d : Draft) : Prop where
  nonempty : d.frames ≠ []
  frames : Frame.Sound d.frames
  constants : ∀ v ∈ d.constants.toList, v.isData = true
  constantCount : d.constants.size < UInt32.size
  platform : ∀ entry ∈ d.platform.toList, P entry.value
  platformCount : d.platform.size < UInt32.size

/-- Outside the innermost scope. -/
def outOfBlock (d : Draft) : Draft :=
  { d with frames := { d.frame with blocks := d.frame.blocks.tail } :: d.frames.tail }

/-- Outside the innermost function. -/
def outOfFunction (d : Draft) : Draft := { d with frames := d.frames.tail }

variable {d' : Draft}

lemma Sound.inBlock (h : Sound P d) (b) : Sound P (d.inBlock b) := by
  obtain ⟨f, fs, hf⟩ := exists_cons_of_ne_nil h.nonempty
  have hframes := h.frames
  rw [hf] at hframes
  refine { h with nonempty := by simp [Draft.inBlock], frames := ?_ }
  simp only [Draft.inBlock, frame, hf, head?_cons, getD_some, tail_cons]
  exact hframes

lemma Sound.outOfBlock (h : Sound P d) : Sound P d.outOfBlock := by
  obtain ⟨f, fs, hf⟩ := exists_cons_of_ne_nil h.nonempty
  have hframes := h.frames
  rw [hf] at hframes
  refine { h with nonempty := by simp [Draft.outOfBlock], frames := ?_ }
  simp only [Draft.outOfBlock, frame, hf, head?_cons, getD_some, tail_cons]
  exact hframes

lemma Sound.inFunction (h : Sound P d) (b) : Sound P (d.inFunction b []) :=
  { h with nonempty := by simp [Draft.inFunction], frames := ⟨by simp, h.frames⟩ }

/-- What grows out of the inside of a scope leaves, outside it, what grows out of the outside. -/
lemma Grows.outOfBlock (hd : d.frames ≠ []) (h : Grows (d.inBlock b) d') :
    Grows d d'.outOfBlock := by
  obtain ⟨f, fs, hf⟩ := exists_cons_of_ne_nil hd
  refine { h with frames := ?_ }
  have hframes := h.frames
  simp only [inBlock, frame, hf, head?_cons, getD_some, tail_cons] at hframes
  obtain ⟨g, gs, hfg, hr, hd'⟩ := forall₂_cons_left_iff.mp hframes
  have hblocks : f.blocks.map Block.bare = g.blocks.tail.map Block.bare := by
    have := congrArg tail hfg.blocks
    simpa only [map_cons, tail_cons, map_tail] using this
  simp only [Draft.outOfBlock, frame, hd', hf, head?_cons, getD_some, tail_cons]
  exact .cons ⟨hblocks, hfg.captures⟩ hr

/-- What the outside grows into gives, inside the scope, what the inside grows into. -/
lemma Grows.inBlock (hd : d.frames ≠ []) (h : Grows (d.inBlock b) d')
    (hD : Grows d'.outOfBlock D) : Grows d' (D.inBlock b) := by
  obtain ⟨f, fs, hf⟩ := exists_cons_of_ne_nil hd
  refine { hD with frames := ?_ }
  have hframes := h.frames
  have hout := hD.frames
  simp only [Draft.inBlock, frame, hf, head?_cons, getD_some, tail_cons] at hframes
  obtain ⟨g, gs, hfg, -, hd'⟩ := forall₂_cons_left_iff.mp hframes
  simp only [Draft.outOfBlock, frame, hd', head?_cons, getD_some, tail_cons] at hout
  obtain ⟨k, ks, hgk, hr, hD'⟩ := forall₂_cons_left_iff.mp hout
  simp only [Draft.inBlock, frame, hd', hD', head?_cons, getD_some, tail_cons]
  refine .cons ⟨?_, hgk.captures⟩ hr
  have hfirst := hfg.blocks
  have ho := hgk.blocks
  cases hg : g.blocks with
  | nil => rw [hg] at hfirst; cases hfirst
  | cons b' bs =>
    rw [hg] at hfirst ho
    simp only [map_cons, cons.injEq, tail_cons] at hfirst ho ⊢
    exact ⟨hfirst.1.symm, ho⟩

lemma Grows.outOfFunction (h : Grows (d.inFunction b []) d') : Grows d d'.outOfFunction := by
  obtain ⟨g, gs, -, hr, hd'⟩ := forall₂_cons_left_iff.mp h.frames
  exact { h with frames := by simpa [Draft.outOfFunction, hd'] using hr }

lemma Grows.inFunction (h : Grows (d.inFunction b []) d') (hD : Grows d'.outOfFunction D) :
    Grows d' (D.inFunction b d'.frame.captures) := by
  obtain ⟨g, gs, hfg, -, hd'⟩ := forall₂_cons_left_iff.mp h.frames
  have hout := hD.frames
  simp only [Draft.outOfFunction, hd', tail_cons] at hout
  refine { hD with frames := hd' ▸ .cons ⟨?_, ?_⟩ hout }
  · simpa using hfg.blocks.symm
  · simp [frame, hd']

lemma Sound.outOfFunction (h : Sound P d') (hd : d.frames ≠ [])
    (hg : Grows (d.inFunction b []) d') : Sound P d'.outOfFunction := by
  obtain ⟨g, gs, -, hr, hd'⟩ := forall₂_cons_left_iff.mp hg.frames
  have hs := h.frames
  rw [hd'] at hs
  refine { h with nonempty := fun hnil => ?_, frames := ?_ }
  · simp only [Draft.outOfFunction, hd', tail_cons] at hnil
    rw [hnil] at hr
    exact hd (forall₂_nil_right_iff.mp hr)
  · simpa [Draft.outOfFunction, hd'] using hs.2

end Draft

/-! ## Operands that are large enough -/

namespace Block

lemma nextSlot_declareAll (b : Block) (names : List String) :
    (b.declareAll names).nextSlot = b.nextSlot + names.length := by
  induction names generalizing b with
  | nil => rfl
  | cons n names ih =>
    rw [declareAll, foldl_cons, ← declareAll, ih, length_cons]
    show b.nextSlot + 1 + names.length = _
    omega

lemma firstSlot_declareAll (b : Block) (names) :
    (b.declareAll names).firstSlot = b.firstSlot := by
  induction names generalizing b with
  | nil => rfl
  | cons n names ih =>
    rw [declareAll, foldl_cons, ← declareAll, ih]
    rfl

lemma isLibrary_declareAll (b : Block) (names) :
    (b.declareAll names).isLibrary = b.isLibrary := by
  induction names generalizing b with
  | nil => rfl
  | cons n names ih =>
    rw [declareAll, foldl_cons, ← declareAll, ih]
    rfl

/-- A declared name has one of the new slots. -/
lemma slot_declareAll {slot} (h : get? (b.declareAll names).names name = some slot) :
    get? b.names name = some slot ∨ (b.nextSlot ≤ slot ∧ slot < b.nextSlot + names.length) := by
  induction names generalizing b with
  | nil => exact .inl h
  | cons n names ih =>
    rw [declareAll, foldl_cons, ← declareAll] at h
    rw [length_cons]
    rcases ih h with hold | ⟨hge, hlt⟩
    · by_cases hn : name = n
      · subst hn
        rw [declare, get?_insert_self] at hold
        cases hold
        exact .inr ⟨Nat.le_refl _, by omega⟩
      · rw [declare, get?_insert_of_ne hn] at hold
        exact .inl hold
    · simp only [declare] at hge hlt
      exact .inr ⟨by omega, by omega⟩

end Block

namespace Draft

/-- **Operands can hold the numbers** that code of a given width mentions in the scopes of a draft:
each scope, slot and captured variable costs the program some words. -/
structure Fit (D : Draft) (width : Nat) : Prop where
  depth : D.frame.blocks.length + width < UInt32.size
  slots : ∀ b ∈ D.frame.blocks, ∀ name slot, get? b.names name = some slot → slot < UInt32.size
  captures : D.frame.captures.length < UInt32.size
  bodies : ∀ f ∈ D.finished.toList, f.body.width + 1 < UInt32.size

variable {width : Nat}

lemma Fit.mono (h : Fit D width) {less} (hle : less ≤ width) : Fit D less :=
  { h with depth := by have := h.depth; omega }

lemma Fit.left {a b : Code} (h : Fit D (a ++ b).width) : Fit D a.width := h.mono (by simp)

lemma Fit.right {a b : Code} (h : Fit D (a ++ b).width) : Fit D b.width := h.mono (by simp)

lemma Fit.inBlock (h : Fit D (width + 1))
    (hb : ∀ name slot, get? b.names name = some slot → slot < UInt32.size) :
    Fit (D.inBlock b) width where
  depth := by
    have := h.depth
    simp only [Draft.inBlock, frame, head?_cons, getD_some, length_cons] at this ⊢
    omega
  slots := by
    intro b' hb'
    simp only [Draft.inBlock, frame, head?_cons, getD_some, mem_cons] at hb'
    rcases hb' with rfl | hb'
    · exact hb
    · exact h.slots b' hb'
  captures := h.captures
  bodies := h.bodies

lemma Fit.inFunction (h : Fit D width) {inner captures}
    (hb : ∀ name slot, get? b.names name = some slot → slot < UInt32.size)
    (hi : inner + 1 < UInt32.size) (hcaptures : captures.length < UInt32.size) :
    Fit (D.inFunction b captures) inner where
  depth := by
    simp only [Draft.inFunction, frame, head?_cons, getD_some, length_singleton]
    omega
  slots := by
    intro b' hb'
    simp only [Draft.inFunction, frame, head?_cons, getD_some, mem_singleton] at hb'
    subst hb'
    exact hb
  captures := hcaptures
  bodies := h.bodies

end Draft

/-- A place where a name is found can be written in operands. -/
lemma Frame.Resolves.small
    {width} (h : Resolves library name D.frames place) (hfit : D.Fit width) :
    place.Small := by
  cases hD : D.frames with
  | nil => rw [hD] at h; cases h
  | cons f fs =>
    have hframe : D.frame = f := by simp [frame, hD]
    rw [hD] at h
    cases h with
    | own found =>
      obtain ⟨hd, b, hb, hs⟩ := lookupIn_bounds found
      have hwidth := hfit.depth
      rw [hframe] at hwidth
      exact ⟨by omega, hfit.slots b (hframe ▸ hb) name _ hs⟩
    | captured _ _ kept =>
      obtain ⟨hlt, -⟩ := List.getElem?_eq_some_iff.mp kept
      have hcaptures := hfit.captures
      rw [hframe] at hcaptures
      exact Nat.lt_trans hlt hcaptures

/-! ## What the host supplies -/

mutual
/-- **The literals of an expression.** -/
def Expr.literals : Expr → List Value
  | .literal value => [value]
  | .name _ _ => []
  | .array elements => literalsOfElements elements
  | .object es => literalsOfEntries es
  | .defining ds r => literalsOfDefinitions ds ++ r.literals
  | .given params nps r => literalsOfParams params ++ literalsOfNamedParams nps ++ r.literals
  | .calling f args namedArgs =>
    f.literals ++ literalsOfElements args ++ literalsOfEntries namedArgs
  | .indexing coll key => coll.literals ++ key.literals
  | .catching inner => inner.literals
def literalsOfElements : List ArrayElement → List Value
  | [] => []
  | .item e :: rest => e.literals ++ literalsOfElements rest
  | .spread e :: rest => e.literals ++ literalsOfElements rest
def literalsOfEntries : List ObjectElement → List Value
  | [] => []
  | .entry key value :: rest => key.literals ++ value.literals ++ literalsOfEntries rest
  | .spread e :: rest => e.literals ++ literalsOfEntries rest
def literalsOfDefinitions : List (Pattern × Expr) → List Value
  | [] => []
  | (p, value) :: rest => value.literals ++ p.literals ++ literalsOfDefinitions rest
/-- The literals in the defaults of a pattern. -/
def Pattern.literals : Pattern → List Value
  | .name _ => []
  | .array elements => literalsOfParams elements
  | .object es => literalsOfNamedParams es
  | .checked p _ => p.literals
def literalsOfParams : List ArrayPatternElement → List Value
  | [] => []
  | .required p :: rest => p.literals ++ literalsOfParams rest
  | .optional p default :: rest => p.literals ++ default.literals ++ literalsOfParams rest
  | .rest p :: rest => p.literals ++ literalsOfParams rest
def literalsOfNamedParams : List ObjectPatternElement → List Value
  | [] => []
  | .property _ p none :: rest => p.literals ++ literalsOfNamedParams rest
  | .property _ p (some default) :: rest =>
    p.literals ++ default.literals ++ literalsOfNamedParams rest
  | .rest p :: rest => p.literals ++ literalsOfNamedParams rest
end

/-- **Every value of an environment has a property.** -/
structure Environment.Gives (P : Value → Prop) (env : Environment) : Prop where
  names : ∀ name value, get? env.names name = some value → P value
  modules : ∀ module exports name value, get? env.modules module = some exports →
    get? exports name = some value → P value
  library : ∀ name value, get? env.library name = some (.value value) → P value
  sources : ∀ name e, (name, .source e) ∈ env.library → ∀ value ∈ e.literals, P value

/-! ## Computations of lowering -/

variable {e : Expr}

namespace Lower

variable {α β : Type} {x : Lower α} {f : α → Lower β}

lemma bind_eq_ok {r} :
    (x >>= f).run d = .ok r ↔ ∃ a d', x.run d = .ok (a, d') ∧ (f a).run d' = .ok r := by
  rw [StateT.run_bind]
  cases hx : x.run d with
  | error e => simp [bind, Except.bind]
  | ok res =>
    obtain ⟨a, d'⟩ := res
    simp [bind, Except.bind]

/-- **What a computation gives has `L` in every later draft.** -/
def Makes (P : Value → Prop) (x : Lower α) (L : Draft → α → Prop) : Prop :=
  ∀ d a d', d.Sound P → x.run d = .ok (a, d') → d'.Sound P ∧ d.Grows d' ∧ ∀ D, d'.Grows D → L D a

variable {L : Draft → α → Prop}

lemma Makes.bind {M : α → Draft → β → Prop} (hx : Makes P x L) (hf : ∀ a, Makes P (f a) (M a)) :
    Makes P (x >>= f) fun D b => ∃ a, L D a ∧ M a D b := by
  intro d b d₂ hd hrun
  obtain ⟨a, d₁, hrun₁, hrun₂⟩ := bind_eq_ok.mp hrun
  obtain ⟨hd₁, hg₁, hL⟩ := hx d a d₁ hd hrun₁
  obtain ⟨hd₂, hg₂, hM⟩ := hf a d₁ b d₂ hd₁ hrun₂
  exact ⟨hd₂, hg₁.trans hg₂, fun D hD => ⟨a, hL D (hg₂.trans hD), hM D hD⟩⟩

lemma Makes.weaken {M} (hx : Makes P x L)
    (h : ∀ D a, L D a → M D a) : Makes P x M := by
  intro d a d' hd hrun
  obtain ⟨hd', hg, hL⟩ := hx d a d' hd hrun
  exact ⟨hd', hg, fun D hD => h D a (hL D hD)⟩

lemma makes_pure (a : α) : Makes P (pure a) fun _ b => b = a := by
  intro d b d' hd hrun
  cases hrun
  exact ⟨hd, .refl d, fun _ _ => rfl⟩

lemma makes_of {a} (h : ∀ D, L D a) : Makes P (pure a) L :=
  (makes_pure a).weaken fun D _ heq => heq ▸ h D

lemma Makes.map {g : α → β} {M : Draft → β → Prop} (hx : Makes P x L)
    (h : ∀ D a, L D a → M D (g a)) : Makes P (x >>= fun a => pure (g a)) M :=
  (hx.bind fun _ => makes_pure _).weaken fun D _ ⟨a, ha, heq⟩ => heq ▸ h D a ha

lemma makes_throw (e) (L : Draft → α → Prop) :
    Makes P (throw e) L := by
  intro d a d' _ hrun
  cases hrun

/-! ### Tables -/

/-- An index that was below the size of a table is the operand for it. -/
lemma toNat_index {index count} (h : index < count) (hn : count < UInt32.size) :
    (UInt32.ofNat index).toNat = index :=
  UInt32.toNat_ofNat_of_lt' (Nat.lt_trans h hn)

lemma run_tableIndex {table count d' k}
    (h : (tableIndex table count).run d = .ok (k, d')) :
    d' = d ∧ k.toNat = count ∧ count + 1 < UInt32.size := by
  unfold tableIndex at h
  split at h
  next hlt =>
    cases h
    have : count + 1 < UInt32.size := by simp only [UInt32.size]; omega
    exact ⟨rfl, UInt32.toNat_ofNat_of_lt' (by omega), this⟩
  next => cases h

variable {value : Value}

lemma makes_constant (hdata : value.isData = true) :
    Makes P (constant value) fun D k => D.HasConstant k value := by
  intro d k d' hd hrun
  obtain ⟨c, d₁, hget, hrun⟩ := bind_eq_ok.mp hrun
  cases hget
  dsimp only at hrun
  split at hrun
  next index hi =>
    cases hrun
    refine ⟨hd, .refl d, fun D hD => ?_⟩
    obtain ⟨s, hs, hfind⟩ := bind_eq_some_iff.mp hi
    obtain ⟨hlt, heq, -⟩ := Array.findIdx?_eq_some_iff_getElem.mp hfind
    have hvalue : d.constants[index]? = some value := by
      rw [Array.getElem?_eq_getElem hlt]
      revert heq hs
      cases d.constants[index] <;> cases value <;> simp_all [Value.asString?]
    rw [HasConstant, toNat_index hlt hd.constantCount]
    exact getElem?_of_prefix hD.constants hvalue
  next =>
    obtain ⟨k', d₁, hi, hadd⟩ := bind_eq_ok.mp hrun
    obtain ⟨rfl, hk, hn⟩ := run_tableIndex hi
    obtain ⟨_, d₂, hpush, hret⟩ := bind_eq_ok.mp hadd
    cases hpush
    cases hret
    refine ⟨{ hd with constants := ?_, constantCount := by simpa using hn }, ?_, ?_⟩
    · intro v hv
      rw [Array.toList_push, mem_append, mem_singleton] at hv
      rcases hv with hv | rfl
      · exact hd.constants v hv
      · exact hdata
    · exact { Grows.refl d₁ with constants := by simp }
    · intro D hD
      refine getElem?_of_prefix hD.constants ?_
      rw [hk]
      simp

lemma makes_platform (name : String) (hP : P value) :
    Makes P (platform name value) fun D k => D.HasPlatform k name value := by
  intro d k d' hd hrun
  obtain ⟨c, d₁, hget, hrun⟩ := bind_eq_ok.mp hrun
  cases hget
  dsimp only at hrun
  split at hrun
  next index hi =>
    cases hrun
    refine ⟨hd, .refl d, fun D hD => ?_⟩
    obtain ⟨hlt, heq, -⟩ := Array.findIdx?_eq_some_iff_getElem.mp hi
    simp only [Bool.and_eq_true, beq_iff_eq] at heq
    refine ⟨d.platform[index], ?_, heq.1, .inr heq.2⟩
    rw [toNat_index hlt hd.platformCount]
    exact getElem?_of_prefix hD.platform (Array.getElem?_eq_getElem hlt)
  next =>
    obtain ⟨k', d₁, hi, hadd⟩ := bind_eq_ok.mp hrun
    obtain ⟨rfl, hk, hn⟩ := run_tableIndex hi
    obtain ⟨_, d₂, hpush, hret⟩ := bind_eq_ok.mp hadd
    cases hpush
    cases hret
    refine ⟨{ hd with platform := ?_, platformCount := by simpa using hn }, ?_, ?_⟩
    · intro entry he
      rw [Array.toList_push, mem_append, mem_singleton] at he
      rcases he with he | rfl
      · exact hd.platform entry he
      · exact hP
    · exact { Grows.refl d₁ with platform := by simp }
    · intro D hD
      refine ⟨{ name, value }, getElem?_of_prefix hD.platform ?_, rfl, .inl rfl⟩
      rw [hk]
      simp

/-! ### Names and literals -/

lemma makes_hostValue (name : String) (hP : P value) :
    Makes P (hostValue name value) fun D => ValueCode D name value := by
  unfold hostValue ValueCode
  split
  next hdata => exact (makes_constant hdata).map fun D k hk => ⟨k, hk, rfl⟩
  next => exact (makes_platform name hP).map fun D k hk => ⟨k, hk, rfl⟩

lemma makes_literal (hP : P value) :
    Makes P (literalCode value) fun D => LiteralCode D value := by
  unfold literalCode LiteralCode ValueCode
  split
  next hdata =>
    exact (makes_constant hdata).map fun D k hk => ⟨"", fun h =>
      absurd (hdata.symm.trans h) (by decide), k, hk, rfl⟩
  next =>
    split
    next name hname =>
      exact (makes_platform name hP).map fun D k hk => ⟨name, fun _ => hname, k, hk, rfl⟩
    next => exact makes_throw _ _

lemma makes_reach (library name) :
    Makes P (reach library name) fun D => Frame.Finds library name D.frames := by
  intro d found d' hd hrun
  obtain ⟨c, d₁, hget, hrun⟩ := bind_eq_ok.mp hrun
  cases hget
  have hspec := Frame.reach_spec library name d.frames
  split at hrun
  next place frames hr =>
    rw [hr] at hspec
    obtain ⟨hres, hgrow, hs, -⟩ := hspec
    cases hrun
    refine ⟨{ hd with nonempty := ?_, frames := hs hd.frames },
      { Grows.refl d with frames := hgrow }, fun D hD => Frame.Resolves.grow hres hD.frames⟩
    intro hnil
    rw [show frames = [] from hnil] at hgrow
    exact hd.nonempty (forall₂_nil_right_iff.mp hgrow)
  next hr =>
    rw [hr] at hspec
    cases hrun
    exact ⟨hd, .refl d, fun D hD => Frame.Lacks.grow hspec hD.frames⟩

lemma makes_libraryName (henv : env.Gives P) (name : String) :
    Makes P (libraryName env name) fun D code => D.Fit code.width →
      Frame.Lacks false name D.frames → get? env.names name = none →
      NameCode env D name code := by
  refine (Makes.bind (makes_reach true name) (M := fun found D code =>
    Frame.Finds true name D.frames found → D.Fit code.width → Frame.Lacks false name D.frames →
      get? env.names name = none → NameCode env D name code) fun found => ?_).weaken ?_
  · cases found with
    | some place =>
      exact makes_of fun D hres hfit hlacks hn => .library hlacks hn hres
        (Frame.Resolves.small hres hfit)
    | none =>
      dsimp only
      split
      next value hv =>
        refine (makes_hostValue name (henv.library name value hv)).weaken ?_
        intro D code hc hlacks' _ hlacks hn
        exact .libraryValue hlacks hn hlacks' hv hc
      next => exact makes_throw _ _
  · rintro D code ⟨found, hf, h⟩
    exact h hf

lemma makes_name (henv : env.Gives P) (name : String) :
    Makes P (nameCode env name) fun D code => D.Fit code.width → NameCode env D name code := by
  refine (Makes.bind (makes_reach false name) (M := fun found D code =>
    Frame.Finds false name D.frames found → D.Fit code.width → NameCode env D name code)
    fun found => ?_).weaken ?_
  · cases found with
    | some place => exact makes_of fun D hres hfit => .inScope hres (Frame.Resolves.small hres hfit)
    | none =>
      dsimp only
      split
      next value hv =>
        refine (makes_hostValue name (henv.names name value hv)).weaken ?_
        intro D code hc hlacks _
        exact .host hlacks hv hc
      next hn =>
        refine (makes_libraryName henv name).weaken ?_
        intro D code h hlacks hfit
        exact h hfit hlacks hn
  · rintro D code ⟨found, hf, h⟩
    exact h hf

lemma makes_moduleName (henv : env.Gives P) (name module : String) :
    Makes P (moduleName env name module) fun D code => ∃ exports value,
      get? env.modules module = some exports ∧ get? exports name = some value
        ∧ ValueCode D name value code := by
  unfold moduleName
  split
  next => exact makes_throw _ _
  next exports hexports =>
    split
    next => exact makes_throw _ _
    next value hv =>
      refine (makes_hostValue name (henv.modules _ _ _ _ hexports hv)).weaken ?_
      intro D code hc
      exact ⟨exports, value, hexports, hv, hc⟩

/-! ### Patterns -/

lemma makes_checkRest (isRest) :
    Makes P (checkRest isRest) fun _ _ => RestLast isRest := by
  unfold checkRest
  split
  next => exact makes_throw _ _
  next h => exact (makes_pure ()).weaken fun _ _ _ => by simpa [RestLast] using h

lemma makes_checkKind (arguments kind) :
    Makes P (checkKind arguments kind) fun D => KindCode D arguments kind := by
  unfold checkKind KindCode
  split
  next => exact makes_pure []
  next => exact (makes_constant rfl).map fun D k hk => ⟨k, hk, rfl⟩

lemma makes_schemaConstant (schema : Value) :
    Makes P (schemaConstant schema) fun D k => D.HasConstant k schema ∧ schema.isData = true := by
  unfold schemaConstant
  split
  next hdata => exact (makes_constant hdata).weaken fun _ _ hk => ⟨hk, hdata⟩
  next => exact makes_throw _ _

lemma makes_slotOf (name) :
    Makes P (slotOf name) fun D k => ∃ slot, get? D.block.names name = some slot
      ∧ k = UInt32.ofNat slot := by
  intro d k d' hd hrun
  obtain ⟨b, d₁, hblock, hrun⟩ := bind_eq_ok.mp hrun
  cases hblock
  split at hrun
  next slot hs =>
    cases hrun
    refine ⟨hd, .refl d, fun D hD => ⟨slot, ?_, rfl⟩⟩
    rw [hD.block_names]
    exact hs
  next => cases hrun

/-- How many elements stand before the rest. -/
def fixedCount : List ArrayPatternElement → Nat
  | [] | .rest _ :: _ => 0
  | _ :: later => 1 + fixedCount later

/-- Words that code for the elements before the rest takes at least. -/
def fixedWidth : List ArrayPatternElement → Nat
  | [] | .rest _ :: _ => 0
  | .required p :: later | .optional p _ :: later => 2 + 3 * p.names.length + fixedWidth later

/-- Words that code for the rest takes at least. -/
def restWidth : List ArrayPatternElement → Nat
  | [] => 0
  | .rest p :: _ => 3 * p.names.length
  | _ :: later => restWidth later

lemma fixedCount_le (elements) :
    2 * fixedCount elements ≤ fixedWidth elements := by
  induction elements with
  | nil => exact Nat.le_refl _
  | cons element later ih => cases element <;> simp only [fixedCount, fixedWidth] <;> omega

lemma RestLast.tail {x y} (h : RestLast (x :: y :: l)) :
    x = false ∧ RestLast (y :: l) := by
  simpa [RestLast] using h

lemma RestLast.of_cons {x} (h : RestLast (x :: l)) : RestLast l := by
  cases l with
  | nil => rfl
  | cons y l => exact (RestLast.tail h).2

lemma elementNames_le (h : RestLast (elements.map (·.isRest))) :
    3 * (elementNames elements).length ≤ restWidth elements + fixedWidth elements := by
  induction elements with
  | nil => exact Nat.zero_le _
  | cons element later ih =>
    have hlater : RestLast (later.map (·.isRest)) ∧ (element.isRest = true → later = []) := by
      cases later with
      | nil => exact ⟨rfl, fun _ => rfl⟩
      | cons next later =>
        obtain ⟨hf, hrest⟩ := RestLast.tail h
        exact ⟨hrest, fun hr => absurd (hr.symm.trans hf) (by decide)⟩
    have := ih hlater.1
    cases element with
    | required p =>
      simp only [elementNames, length_append, restWidth, fixedWidth]
      omega
    | optional p default =>
      simp only [elementNames, length_append, restWidth, fixedWidth]
      omega
    | rest p =>
      rw [hlater.2 rfl]
      simp [elementNames, restWidth]

lemma makes_arrayPattern {rest fixed : Lower Code} {R F : Draft → Code → Prop}
    (hrest : Makes P rest fun D code => restWidth elements ≤ code.width ∧
      (D.Fit code.width → fixedCount elements < UInt32.size → R D code))
    (hfixed : Makes P fixed fun D code => fixedWidth elements ≤ code.width ∧
      (D.Fit code.width → fixedCount elements < UInt32.size → F D code)) :
    Makes P (arrayPattern arguments elements rest fixed) fun D code =>
      3 * (elementNames elements).length ≤ code.width ∧
      (D.Fit code.width → ArrayCode D arguments elements (R D) (F D) code) := by
  unfold arrayPattern
  refine ((makes_checkRest _).bind fun _ => (makes_checkKind arguments "array").bind fun _ =>
    hrest.bind fun _ => hfixed.bind fun _ => makes_pure _).weaken ?_
  rintro D code ⟨_, hl, check, hcheck, r, ⟨hrw, hr⟩, f, ⟨hfw, hf⟩, rfl⟩
  have hns := elementNames_le hl
  have hn := fixedCount_le elements
  refine ⟨by simp only [width_append]; omega, fun hfit => ?_⟩
  have hwidth := hfit.depth
  simp only [width_append] at hwidth
  have hsmall : fixedCount elements < UInt32.size := by omega
  refine ⟨check, r, f, hl, hcheck, hr (hfit.mono ?_) hsmall, hf (hfit.mono ?_) hsmall, ?_⟩
  · simp only [width_append]; omega
  · simp only [width_append]; omega
  · simp only [append_assoc]

lemma makes_objectPattern {es : List ObjectPatternElement} {ps : Lower Code}
    (hps : Makes P ps fun D code =>
      (RestLast (es.map (·.isRest)) → 3 * (entryNames es).length ≤ code.width) ∧
      (D.Fit code.width → Q D code)) :
    Makes P (objectPattern arguments es ps) fun D code =>
      3 * (entryNames es).length ≤ code.width ∧
      (D.Fit code.width → ObjectCode D arguments es (Q D) code) := by
  unfold objectPattern
  refine ((makes_checkRest _).bind fun _ => (makes_checkKind arguments "object").bind fun _ =>
    hps.bind fun _ => makes_pure _).weaken ?_
  rintro D code ⟨_, hl, check, hcheck, ps, ⟨hpw, hp⟩, rfl⟩
  have hns := hpw hl
  refine ⟨by simp only [width_append]; omega, fun hfit => ?_⟩
  refine ⟨check, ps, hl, hcheck, hp (hfit.mono ?_), ?_⟩
  · simp only [width_append]; omega
  · simp only [append_assoc]

/-! ### Scopes -/

/-- What a computation that begins inside a scope, and leaves it, gives has `L` in every later
draft; and what it began with grows into the inside of that. -/
def Leaves (P : Value → Prop) (b : Block) (x : Lower α) (L : Draft → α → Prop) : Prop :=
  ∀ (d d₁ : Draft) (a : α) (d' : Draft), d.Sound P → d₁.Sound P → (d.inBlock b).Grows d₁ →
    x.run d₁ = .ok (a, d') →
    d'.Sound P ∧ d.Grows d' ∧ ∀ D, d'.Grows D → d₁.Grows (D.inBlock b) ∧ L D a

lemma Leaves.after
    {M : α → Draft → β → Prop} (hx : Makes P x L) (hf : ∀ a, Leaves P b (f a) (M a)) :
    Leaves P b (x >>= f) fun D c => ∃ a, L (D.inBlock b) a ∧ M a D c := by
  intro d d₁ c d' hd hd₁ hin hrun
  obtain ⟨a, d₂, hrun₁, hrun₂⟩ := bind_eq_ok.mp hrun
  obtain ⟨hd₂, hg, hL⟩ := hx d₁ a d₂ hd₁ hrun₁
  obtain ⟨hd', hout, hM⟩ := hf a d d₂ c d' hd hd₂ (hin.trans hg) hrun₂
  refine ⟨hd', hout, fun D hD => ?_⟩
  obtain ⟨hback, hc⟩ := hM D hD
  exact ⟨hg.trans hback, a, hL _ hback, hc⟩

lemma leaves_block (f : Code → Code) : Leaves P b (do return f (← leaveBlock)) fun _ code =>
      ∃ captured, code = f (detachSlots { captured } ++ emit .popScope) := by
  intro d d₁ code d' hd hd₁ hin hrun
  obtain ⟨left, d₂, hleave, hret⟩ := bind_eq_ok.mp hrun
  cases hret
  obtain ⟨closed, d₃, hclose, hleft⟩ := bind_eq_ok.mp hleave
  cases hleft
  have hd' : d' = d₁.outOfBlock := by
    cases hclose
    rfl
  subst hd'
  exact ⟨hd₁.outOfBlock, hin.outOfBlock hd.nonempty,
    fun D hD => ⟨hin.inBlock hd.nonempty hD, closed.captured, rfl⟩⟩

lemma Leaves.opened (h : Leaves P b x L) : Makes P (do openBlock b; x) L := by
  intro d a d' hd hrun
  obtain ⟨_, d₁, hopen, hrun⟩ := bind_eq_ok.mp hrun
  have hd₁ : d₁ = d.inBlock b := by
    cases hopen
    rfl
  subst hd₁
  obtain ⟨hd', hg, hL⟩ := h d _ a d' hd (hd.inBlock b) (.refl _) hrun
  exact ⟨hd', hg, fun D hD => (hL D hD).2⟩

/-- The names of a new scope have small slots if there are few of them. -/
lemma slots_small (hb : b.names = []) (k)
    (h : b.nextSlot + names.length ≤ k) (hl : k < UInt32.size) (name slot)
      (hs : get? (b.declareAll names).names name = some slot) :
    slot < UInt32.size := by
  rcases Block.slot_declareAll hs with hold | ⟨_, hlt⟩
  · rw [hb] at hold
    cases hold
  · omega

/-! ### The tree -/

lemma makes_parameters (items : List α) {taken : Lower Code} {names : Nat} {read : Instruction}
    (hnil : items.isEmpty = true → names = 0)
    (h : Makes P taken fun D code => names ≤ code.width ∧ (D.Fit code.width → Q D code)) :
    Makes P (parameters items read taken) fun D code =>
      names ≤ code.width ∧ (D.Fit code.width → if items.isEmpty then code = []
        else ∃ inner, Q D inner ∧ code = emit read ++ inner) := by
  unfold parameters
  split
  next he => exact makes_of fun D => ⟨by rw [hnil he]; exact Nat.zero_le _, fun _ => rfl⟩
  next =>
    refine (h.bind fun _ => makes_pure _).weaken ?_
    rintro D code ⟨inner, ⟨hw, hi⟩, rfl⟩
    refine ⟨by rw [width_append]; omega, fun hfit => ⟨inner, hi hfit.right, rfl⟩⟩

lemma length_le_captures (ks : List Capture) :
    ks.length ≤ width (ks.flatMap captureCode) := by
  induction ks with
  | nil => exact Nat.zero_le _
  | cons place ks ih =>
    have hpos : 0 < width (captureCode place) := by
      cases place <;> exact width_emit _ ▸ Instruction.width_pos _
    rw [flatMap_cons, width_append, length_cons]
    omega

/-- What lowering a function's inside gives becomes the code that makes its closures. -/
lemma makes_function {scope : Block} {label : String} {positional named last : Lower Code}
    {A B C} (hpositional : Makes P positional A) (hn : Makes P named B)
    (hl : Makes P last C) :
    Makes P (do
      openFunction scope
      let positional ← positional
      let named ← named
      let last ← last
      let detach := detachSlots (← block)
      let frame ← closeFunction
      let index ← finish
        { name := label
          body := reserveSlots scope ++ positional ++ named ++ last ++ detach ++ emit .ret
          captures := frame.captures }
      return .makeFunction index :: frame.captures.flatMap captureCode) fun D code =>
        ∃ index f positional named last captured, D.finished[index]? = some f ∧ f.name = label
          ∧ A (D.inFunction scope f.captures) positional ∧ B (D.inFunction scope f.captures) named
          ∧ C (D.inFunction scope f.captures) last
          ∧ f.body = reserveSlots scope ++ (positional ++ (named ++ (last
              ++ (detachSlots { captured } ++ emit .ret))))
          ∧ (∀ place ∈ f.captures, ∃ library name, Frame.Resolves library name D.frames place)
          ∧ code = .makeFunction (index + 1) :: f.captures.flatMap captureCode := by
  intro d code d' hd hrun
  obtain ⟨_, d₀, hopen, hrun₀⟩ := bind_eq_ok.mp hrun
  obtain ⟨pos, d₁, hpos, hrun₁⟩ := bind_eq_ok.mp hrun₀
  obtain ⟨nam, d₂, hnam, hrun₂⟩ := bind_eq_ok.mp hrun₁
  obtain ⟨las, d₃, hlas, hrun₃⟩ := bind_eq_ok.mp hrun₂
  have hd₀ : d₀ = d.inFunction scope [] := by
    cases hopen
    rfl
  subst hd₀
  obtain ⟨hs₁, hg₁, hA⟩ := hpositional _ _ _ (hd.inFunction scope) hpos
  obtain ⟨hs₂, hg₂, hB⟩ := hn _ _ _ hs₁ hnam
  obtain ⟨hs₃, hg₃, hC⟩ := hl _ _ _ hs₂ hlas
  have hin : (d.inFunction scope []).Grows d₃ := (hg₁.trans hg₂).trans hg₃
  have hout := hs₃.outOfFunction hd.nonempty hin
  let f : CodeFunction :=
    { name := label
      body := reserveSlots scope ++ pos ++ nam ++ las ++ detachSlots d₃.block ++ emit .ret
      captures := d₃.frame.captures }
  have hend : d' = { d₃.outOfFunction with finished := d₃.finished.push f } ∧
      code = .makeFunction (d₃.finished.size + 1) :: f.captures.flatMap captureCode := by
    cases hrun₃
    exact ⟨rfl, by simp [f]; rfl⟩
  obtain ⟨rfl, rfl⟩ := hend
  have hpush : d₃.outOfFunction.Grows { d₃.outOfFunction with finished := d₃.finished.push f } :=
    { Draft.Grows.refl _ with finished := by simp [Draft.outOfFunction] }
  refine ⟨{ hout with }, hin.outOfFunction.trans hpush, fun D hD => ?_⟩
  have hinside : d₃.Grows (D.inFunction scope d₃.frame.captures) := hin.inFunction (hpush.trans hD)
  refine ⟨d₃.finished.size, f, pos, nam, las, d₃.block.captured, ?_, rfl,
    hA _ ((hg₂.trans hg₃).trans hinside), hB _ (hg₃.trans hinside), hC _ hinside, ?_, ?_, rfl⟩
  · exact Draft.getElem?_of_prefix hD.finished (by simp)
  · simp only [f, append_assoc]
    rfl
  · intro place hp
    have hs := hs₃.frames
    cases hframes : d₃.frames with
    | nil => exact absurd hframes hs₃.nonempty
    | cons g gs =>
      rw [hframes] at hs
      obtain ⟨⟨library, name, hres⟩, -⟩ := hs.1 place (by simpa [f, Draft.frame, hframes] using hp)
      refine ⟨library, name, hres.grow ?_⟩
      have := (hpush.trans hD).frames
      rwa [Draft.outOfFunction, hframes] at this

section Tree

variable (henv : env.Gives P)

include henv

-- The linter does not see a use by way of another member of the block.
set_option linter.unusedSectionVars false in
open Code in
mutual
/-- **Lowering an expression gives its code.** -/
theorem makes_expr (label : String) : ∀ e, (∀ v ∈ e.literals, P v) →
    Makes P (expr env label e) fun D code => D.Fit code.width → Lowered env D label e code
  | .literal value, h => by
    rw [expr]
    exact (makes_literal (h value (by simp [Expr.literals]))).weaken fun D code hcode _ => by
      rwa [Lowered]
  | .name n (some module), _ => by
    rw [expr]
    exact (makes_moduleName henv n module).weaken fun D code hcode _ => by rwa [Lowered]
  | .name n none, _ => by
    rw [expr]
    exact (makes_name henv n).weaken fun D code hcode hfit => by
      rw [Lowered]
      exact hcode hfit
  | .array elements, h => by
    rw [expr]
    refine ((makes_arrayElements elements (by simpa [Expr.literals] using h)).bind fun _ =>
      makes_pure _).weaken ?_
    rintro D code ⟨items, hitems, rfl⟩ hfit
    rw [Lowered]
    exact ⟨items, hitems hfit.right, rfl⟩
  | .object entries, h => by
    rw [expr]
    refine ((makes_objectElements entries (by simpa [Expr.literals] using h)).bind fun _ =>
      makes_pure _).weaken ?_
    rintro D code ⟨items, hitems, rfl⟩ hfit
    rw [Lowered]
    exact ⟨items, hitems hfit.right, rfl⟩
  | .defining definitions result, h => by
    simp only [Expr.literals, forall_mem_append] at h
    rw [expr]
    refine (Leaves.opened (Leaves.after (makes_defineAll definitions h.1)
      fun body => Leaves.after (makes_expr anonymous result h.2)
      fun last => leaves_block fun left => emit (.pushScope 0) ++ reserveSlots _ ++ body ++ last
        ++ left)).weaken ?_
    rintro D code ⟨body, ⟨hbw, hbody⟩, last, hl, captured, rfl⟩ hfit
    have hwidth := hfit.depth
    have hpush : (Instruction.pushScope 0).width = 2 := rfl
    simp only [width_append, width_emit] at hwidth
    have hin : (D.inBlock (blockScope definitions)).Fit (body ++ last).width :=
      (hfit.mono (by simp only [width_append, width_emit]; omega)).inBlock
        (slots_small rfl body.width (by show 0 + _ ≤ _; omega) (by omega))
    rw [Lowered]
    refine ⟨body, last, captured, hbody hin.left, hl hin.right, ?_, ?_⟩
    · rw [blockScope, Block.reserved, Block.nextSlot_declareAll, Block.firstSlot_declareAll]
      show 0 + _ - 0 < _
      omega
    · simp only [append_assoc]
      rfl
  | .given params namedParams result, h => by
    simp only [Expr.literals, forall_mem_append] at h
    rw [expr]
    refine (makes_function
      (makes_parameters params (fun hnil => ?_) (makes_arrayPattern
        ((makes_arrayRest 0 params h.1.1).weaken fun D code hc =>
          ⟨hc.1, fun hfit hsmall => hc.2 hfit (by omega)⟩)
        ((makes_arrayFixed true 1 params h.1.1).weaken
          fun D code hc => ⟨hc.1, fun hfit hsmall => hc.2 hfit (by omega)⟩)))
      (makes_parameters namedParams (fun hnil => ?_) (makes_objectPattern
        (makes_objectProperties true namedParams h.1.2)))
      (makes_expr anonymous result h.2)).weaken ?_
    · rw [isEmpty_iff.mp hnil]
      rfl
    · rw [isEmpty_iff.mp hnil]
      rfl
    rintro D code ⟨index, f, positional, named, last, captured, hi, hname, ⟨hpw, hpos⟩,
      ⟨hnw, hnam⟩, hl, hbody, hcaptures, rfl⟩ hfit
    have hmem : f ∈ D.finished.toList := by
      rw [← Array.getElem?_toList] at hi
      exact mem_of_getElem? hi
    have hwidth := hfit.bodies f hmem
    have hn : f.captures.length < UInt32.size := by
      have hdepth := hfit.depth
      have := length_le_captures f.captures
      rw [width_cons] at hdepth
      omega
    rw [hbody] at hwidth
    simp only [width_append, width_emit] at hwidth
    have hret : Instruction.ret.width = 1 := rfl
    have hscope : (functionScope params namedParams).nextSlot < UInt32.size := by
      rw [functionScope, Block.nextSlot_declareAll, length_append]
      show 3 + _ < _
      simp only [UInt32.size] at *
      omega
    have hin : (D.inFunction (functionScope params namedParams) f.captures).Fit
        (positional ++ (named ++ last)).width := by
      refine hfit.inFunction (fun name slot hs => ?_) ?_ hn
      · exact slots_small rfl _ (Nat.le_of_eq (Block.nextSlot_declareAll _ _).symm) hscope name slot
          hs
      · simp only [width_append]
        omega
    rw [Lowered]
    refine ⟨index, f, positional, named, last, captured, hi, hname, hpos hin.left,
      hnam hin.right.left, hl hin.right.right, ?_, hbody, ?_, rfl⟩
    · rw [Block.reserved]
      omega
    · intro place hplace
      obtain ⟨library, name, hres⟩ := hcaptures place hplace
      exact ⟨hres.small hfit, library, name, hres⟩
  | .calling callee args namedArgs, h => by
    simp only [Expr.literals, forall_mem_append] at h
    rw [expr]
    refine ((makes_expr anonymous callee h.1.1).bind fun _ =>
      (makes_arrayElements args h.1.2).bind fun _ =>
      (makes_objectElements namedArgs h.2).bind fun _ =>
      makes_pure _).weaken ?_
    rintro D code ⟨function, hfunction, positional, hpositional, named, hnamed, rfl⟩ hfit
    rw [Lowered]
    refine ⟨function, positional, named, hfunction (hfit.mono ?_), hpositional (hfit.mono ?_),
      hnamed (hfit.mono ?_), by simp only [append_assoc]⟩
    · simp only [width_append]; omega
    · simp only [width_append]; omega
    · simp only [width_append]; omega
  | .indexing collection key, h => by
    simp only [Expr.literals, forall_mem_append] at h
    rw [expr]
    refine ((makes_expr anonymous collection h.1).bind fun _ =>
      (makes_expr anonymous key h.2).bind fun _ =>
      makes_pure _).weaken ?_
    rintro D code ⟨first, hfirst, second, hsecond, rfl⟩ hfit
    rw [Lowered]
    exact ⟨first, second, hfirst hfit.left.left, hsecond hfit.left.right,
      by simp only [append_assoc]⟩
  | .catching inner, h => by
    rw [expr]
    refine (Leaves.opened (Leaves.after (makes_expr anonymous inner
      (by simpa [Expr.literals] using h)) fun guarded => leaves_block fun left =>
        emit (.pushScope 0) ++ emit (.enterCatch (distance (guarded ++ emit .leaveCatch)))
          ++ (guarded ++ emit .leaveCatch) ++ left)).weaken ?_
    rintro D code ⟨guarded, hguarded, captured, rfl⟩ hfit
    have hwidth := hfit.depth
    have hpush : (Instruction.pushScope 0).width = 2 := rfl
    simp only [width_append, width_emit] at hwidth
    have hin : (D.inBlock {}).Fit guarded.width :=
      (hfit.mono (by simp only [width_append, width_emit]; omega)).inBlock
        fun name slot hs => by cases hs
    rw [Lowered]
    refine ⟨guarded, captured, hguarded hin, ?_, by simp only [append_assoc]⟩
    simp only [width_append, width_emit]
    omega

lemma makes_arrayElements : ∀ elements,
    (∀ v ∈ literalsOfElements elements, P v) →
    Makes P (arrayElements env elements) fun D code =>
      D.Fit code.width → LoweredElements env D elements code
  | [], _ => by
    rw [arrayElements]
    exact (makes_pure _).weaken fun D code hc _ => by rwa [LoweredElements]
  | .item e :: rest, h | .spread e :: rest, h => by
    simp only [literalsOfElements, forall_mem_append] at h
    rw [arrayElements]
    refine ((makes_expr anonymous e h.1).bind fun _ =>
      (makes_arrayElements rest h.2).bind fun _ => makes_pure _).weaken ?_
    rintro D code ⟨first, hfirst, others, ho, rfl⟩ hfit
    rw [LoweredElements]
    exact ⟨first, others, hfirst hfit.left.left, ho hfit.right, by simp⟩

lemma makes_objectElements : ∀ es, (∀ v ∈ literalsOfEntries es, P v) →
    Makes P (objectElements env es) fun D code => D.Fit code.width → LoweredEntries env D es code
  | [], _ => by
    rw [objectElements]
    exact (makes_pure _).weaken fun D code hc _ => by rwa [LoweredEntries]
  | .entry key value :: rest, h => by
    simp only [literalsOfEntries, forall_mem_append] at h
    rw [objectElements]
    refine ((makes_expr anonymous key h.1.1).bind fun _ =>
      (makes_expr anonymous value h.1.2).bind fun _ =>
      (makes_objectElements rest h.2).bind fun _ => makes_pure _).weaken ?_
    rintro D code ⟨first, hfirst, second, hsecond, others, ho, rfl⟩ hfit
    rw [LoweredEntries]
    exact ⟨first, second, others, hfirst hfit.left.left.left, hsecond hfit.left.left.right,
      ho hfit.right, by simp⟩
  | .spread e :: rest, h => by
    simp only [literalsOfEntries, forall_mem_append] at h
    rw [objectElements]
    refine ((makes_expr anonymous e h.1).bind fun _ =>
      (makes_objectElements rest h.2).bind fun _ => makes_pure _).weaken ?_
    rintro D code ⟨first, hfirst, others, ho, rfl⟩ hfit
    rw [LoweredEntries]
    exact ⟨first, others, hfirst hfit.left.left, ho hfit.right, by simp⟩

lemma makes_defineAll : ∀ ds : List (Pattern × Expr), (∀ v ∈ literalsOfDefinitions ds, P v) →
    Makes P (defineAll env ds) fun D code =>
      3 * (ds.flatMap fun d => d.1.names).length ≤ code.width ∧
      (D.Fit code.width → LoweredDefinitions env D ds code)
  | [], _ => by
    rw [defineAll]
    exact makes_of fun D => ⟨Nat.zero_le _, fun _ => by rw [LoweredDefinitions]⟩
  | (p, value) :: rest, h => by
    simp only [literalsOfDefinitions, forall_mem_append] at h
    rw [defineAll]
    refine ((makes_expr (definedName p) value h.1.1).bind
      fun _ => (makes_destructure none p h.1.2).bind fun _ =>
      (makes_defineAll rest h.2).bind fun _ => makes_pure _).weaken ?_
    rintro D code ⟨first, hf, second, ⟨hsw, hsecond⟩, os, ⟨how, ho⟩, rfl⟩
    refine ⟨?_, fun hfit => ?_⟩
    · simp only [flatMap_cons, length_append, width_append]
      omega
    · rw [LoweredDefinitions]
      exact ⟨first, second, os, hf hfit.left.left, hsecond hfit.left.right, ho hfit.right, by simp⟩

/-- **Lowering a pattern gives code that takes a value apart.** -/
theorem makes_destructure (a) : ∀ p, (∀ v ∈ p.literals, P v) →
    Makes P (destructure env a p) fun D code =>
      3 * p.names.length ≤ code.width ∧ (D.Fit code.width → LoweredPattern env D a p code)
  | .name n, _ => by
    rw [destructure]
    refine ((makes_slotOf n).bind fun _ => makes_pure _).weaken ?_
    rintro D code ⟨k, ⟨slot, hs, rfl⟩, rfl⟩
    refine ⟨Nat.le_refl 3, fun hfit => ?_⟩
    rw [LoweredPattern]
    refine ⟨slot, hs, ?_, rfl⟩
    cases hblocks : D.frame.blocks with
    | nil => simp [Draft.block, hblocks, get?] at hs
    | cons b bs =>
      simp only [Draft.block, hblocks, head?_cons, getD_some] at hs
      exact hfit.slots b (by simp [hblocks]) n slot hs
  | .checked p schema, h => by
    rw [destructure]
    refine ((makes_schemaConstant schema).bind fun _ => (makes_destructure none p
      (by simpa [literals] using h)).bind fun _ => makes_pure _).weaken ?_
    rintro D code ⟨k, ⟨hk, hdata⟩, inner, ⟨hw, hi⟩, rfl⟩
    refine ⟨by simp only [names, width_append]; omega, fun hfit => ?_⟩
    rw [LoweredPattern]
    exact ⟨k, inner, hk, hdata, hi hfit.right, rfl⟩
  | .array elements, h => by
    simp only [literals] at h
    rw [destructure]
    refine (makes_arrayPattern
      ((makes_arrayRest 0 elements h).weaken fun D code hc =>
        ⟨hc.1, fun hfit hsmall => hc.2 hfit (by omega)⟩)
      ((makes_arrayFixed false 1 elements h).weaken fun D code hc =>
        ⟨hc.1, fun hfit hsmall => hc.2 hfit (by omega)⟩)).weaken ?_
    rintro D code ⟨hw, hcode⟩
    exact ⟨hw, fun hfit => by rw [LoweredPattern]; exact hcode hfit⟩
  | .object es, h => by
    simp only [literals] at h
    rw [destructure]
    refine (makes_objectPattern (makes_objectProperties false es h)).weaken ?_
    rintro D code ⟨hw, hcode⟩
    exact ⟨hw, fun hfit => by rw [LoweredPattern]; exact hcode hfit⟩

lemma makes_arrayRest (count) :
    ∀ elements, (∀ v ∈ literalsOfParams elements, P v) →
    Makes P (arrayRest env count elements) fun D code =>
      restWidth elements ≤ code.width ∧
      (D.Fit code.width → count + fixedCount elements < UInt32.size →
        LoweredRest env D count elements code)
  | [], _ => by
    rw [arrayRest]
    exact makes_of fun D => ⟨Nat.zero_le _, fun _ _ => by rw [LoweredRest]⟩
  | .rest p :: later, h => by
    simp only [literalsOfParams, forall_mem_append] at h
    rw [arrayRest]
    refine ((makes_destructure none p h.1).bind fun _ => makes_pure _).weaken ?_
    rintro D code ⟨inner, ⟨hw, hi⟩, rfl⟩
    refine ⟨by simp only [restWidth, width_append]; omega, fun hfit hsmall => ?_⟩
    rw [LoweredRest]
    exact ⟨inner, hi hfit.right, by simpa [fixedCount] using hsmall, rfl⟩
  | .required _ :: later, h | .optional _ _ :: later, h => by
    simp only [literalsOfParams, forall_mem_append] at h
    rw [arrayRest]
    refine (makes_arrayRest (count + 1) later h.2).weaken ?_
    rintro D code ⟨hw, hc⟩
    refine ⟨hw, fun hfit hsmall => ?_⟩
    rw [LoweredRest]
    exact hc hfit (by simp only [fixedCount] at hsmall; omega)

lemma makes_arrayFixed (arguments position) :
    ∀ elements, (∀ v ∈ literalsOfParams elements, P v) →
    Makes P (arrayFixed env arguments position elements) fun D code =>
      fixedWidth elements ≤ code.width ∧
      (D.Fit code.width → position + fixedCount elements ≤ UInt32.size →
        LoweredFixed env D arguments position elements code)
  | [], _ => by
    rw [arrayFixed]
    exact makes_of fun D => ⟨Nat.zero_le _, fun _ _ => by rw [LoweredFixed]⟩
  | .rest _ :: _, _ => by
    rw [arrayFixed]
    exact makes_of fun D => ⟨Nat.zero_le _, fun _ _ => by rw [LoweredFixed]⟩
  | .required pattern :: later, h => by
    simp only [literalsOfParams, forall_mem_append] at h
    rw [arrayFixed]
    refine ((makes_destructure _ pattern h.1).bind fun _ =>
      (makes_arrayFixed arguments (position + 1) later h.2).bind fun _ =>
      makes_pure _).weaken ?_
    rintro D code ⟨inner, ⟨hiw, hinner⟩, others, ⟨how, hothers⟩, rfl⟩
    have htaken : (Instruction.arrayPop (UInt32.ofNat position)).width = 2 := rfl
    refine ⟨?_, fun hfit hsmall => ?_⟩
    · simp only [fixedWidth, width_append, width_emitBinding]
      omega
    · simp only [fixedCount] at hsmall
      rw [LoweredFixed]
      exact ⟨inner, others, hinner hfit.left.right, hothers hfit.right (by omega), by omega,
        by simp⟩
  | .optional pattern default :: later, h => by
    simp only [literalsOfParams, forall_mem_append] at h
    rw [arrayFixed]
    refine ((makes_expr anonymous default h.1.2).bind fun _ =>
      (makes_destructure _ pattern h.1.1).bind fun _ =>
      (makes_arrayFixed arguments (position + 1) later h.2).bind fun _ =>
      makes_pure _).weaken ?_
    rintro D code ⟨absent, habsent, inner, ⟨hiw, hinner⟩, others, ⟨how, hothers⟩, rfl⟩
    have htaken : (Instruction.arrayPopOrDefault (distance absent)).width = 2 := rfl
    refine ⟨?_, fun hfit hsmall => ?_⟩
    · simp only [fixedWidth, width_append, width_emit]
      omega
    · simp only [fixedCount] at hsmall
      have hwidth := hfit.depth
      simp only [width_append] at hwidth
      rw [LoweredFixed]
      exact ⟨absent, inner, others, habsent hfit.left.left.right, hinner hfit.left.right,
        hothers hfit.right (by omega), by omega, by simp⟩

lemma makes_objectProperties (arguments) :
    ∀ es, (∀ v ∈ literalsOfNamedParams es, P v) →
    Makes P (objectProperties env arguments es) fun D code =>
      (RestLast (es.map (·.isRest)) → 3 * (entryNames es).length ≤ code.width) ∧
      (D.Fit code.width → LoweredProperties env D arguments es code)
  | [], _ => by
    rw [objectProperties]
    exact makes_of fun D => ⟨fun _ => Nat.zero_le _, fun _ => by rw [LoweredProperties]⟩
  | .rest p :: later, h => by
    simp only [literalsOfNamedParams, forall_mem_append] at h
    rw [objectProperties]
    refine (makes_destructure none p h.1).weaken ?_
    rintro D code ⟨hw, hc⟩
    refine ⟨fun hl => ?_, fun hfit => by rw [LoweredProperties]; exact hc hfit⟩
    cases later with
    | nil => simpa [entryNames] using hw
    | cons next later => exact absurd (RestLast.tail hl).1 (by simp [ObjectPatternElement.isRest])
  | .property key p none :: later, h => by
    simp only [literalsOfNamedParams, forall_mem_append] at h
    rw [objectProperties]
    refine ((makes_constant rfl).bind fun k =>
      (makes_destructure _ p h.1).bind fun _ =>
      (makes_objectProperties arguments later h.2).bind fun _ =>
      makes_pure _).weaken ?_
    rintro D code ⟨k, hk, inner, ⟨hiw, hinner⟩, others, ⟨how, ho⟩, rfl⟩
    refine ⟨fun hl => ?_, fun hfit => ?_⟩
    · have := how (RestLast.of_cons hl)
      simp only [entryNames, length_append, width_append]
      omega
    · rw [LoweredProperties]
      exact ⟨k, inner, others, hk, hinner hfit.left.right, ho hfit.right, by simp⟩
  | .property key p (some default) :: later, h => by
    simp only [literalsOfNamedParams, forall_mem_append] at h
    rw [objectProperties]
    refine ((makes_constant rfl).bind fun k =>
      (makes_expr anonymous default h.1.2).bind fun _ =>
      (makes_destructure _ p h.1.1).bind fun _ =>
      (makes_objectProperties arguments later h.2).bind fun _ =>
      makes_pure _).weaken ?_
    rintro D code ⟨k, hk, absent, habsent, inner, ⟨hiw, hinner⟩, others, ⟨how, ho⟩, rfl⟩
    refine ⟨fun hl => ?_, fun hfit => ?_⟩
    · have := how (RestLast.of_cons hl)
      simp only [entryNames, length_append, width_append]
      omega
    · have hwidth := hfit.depth
      simp only [width_append] at hwidth
      rw [LoweredProperties]
      exact ⟨k, absent, inner, others, hk, habsent hfit.left.left.right, hinner hfit.left.right,
        ho hfit.right, by omega, by simp⟩
end

end Tree

/-! ### Programs -/

lemma makes_libraryDefinitions (henv : env.Gives P) (slot) (ds : List (String × Expr))
    (h : ∀ name e, (name, e) ∈ ds → ∀ v ∈ e.literals, P v) :
    Makes P (libraryDefinitions env slot ds) fun D code =>
      3 * ds.length ≤ code.width ∧ (D.Fit code.width → slot + ds.length ≤ UInt32.size →
        LoweredLibrary env D slot ds code) := by
  induction ds generalizing slot with
  | nil => exact makes_of fun D => ⟨Nat.zero_le _, fun _ _ => rfl⟩
  | cons definition rest ih =>
    obtain ⟨name, e⟩ := definition
    rw [libraryDefinitions]
    refine ((makes_expr henv name e (h name e mem_cons_self)).bind fun _ =>
      (ih (slot + 1) fun name e hmem => h name e (mem_cons_of_mem _ hmem)).bind fun _ =>
      makes_pure _).weaken ?_
    rintro D code ⟨first, hf, os, ⟨how, ho⟩, rfl⟩
    have hwrite : (Instruction.writeLocal 0 (UInt32.ofNat slot)).width = 3 := rfl
    refine ⟨?_, fun hfit hsmall => ?_⟩
    · simp only [length_cons, width_append, width_emit]
      omega
    · rw [length_cons] at hsmall
      exact ⟨first, os, hf hfit.left.left, ho hfit.right (by omega), by omega, by simp⟩

lemma makes_afterLibrary (henv : env.Gives P) (he : ∀ v ∈ e.literals, P v) :
    Makes P (afterLibrary env (env.retained e) e) fun D code => D.Fit code.width →
      if (env.retained e).isEmpty then Lowered env D anonymous e code
      else LoweredWithLibrary env D (env.retained e) e code := by
  have hretained : ∀ name source, (name, source) ∈ env.retained e → ∀ v ∈ source.literals, P v := by
    intro name source hmem
    have hsource := (mem_filter.mp hmem).1
    obtain ⟨⟨name', definition⟩, hdef, heq⟩ := mem_filterMap.mp hsource
    cases definition with
    | source e' =>
      cases heq
      exact henv.sources _ _ hdef
    | value v => cases heq
  have hlib : env.ofLibrary.Gives P := { henv with names := fun name value h => by cases h }
  unfold afterLibrary
  split
  next => exact makes_expr henv anonymous e he
  next =>
    refine (Leaves.opened (Leaves.after (makes_libraryDefinitions hlib 0 _ hretained)
      fun ds => Leaves.after (makes_expr henv anonymous e he)
      fun last => leaves_block fun left => emit (.pushScope 0) ++ reserveSlots _ ++ ds
        ++ last ++ left)).weaken ?_
    rintro D code ⟨ds, ⟨hdw, hds⟩, last, hl, captured, rfl⟩ hfit
    have hwidth := hfit.depth
    have hpush : (Instruction.pushScope 0).width = 2 := rfl
    simp only [width_append, width_emit] at hwidth
    have hin : (D.inBlock (libraryScope (env.retained e))).Fit (ds ++ last).width :=
      (hfit.mono (by simp only [width_append, width_emit]; omega)).inBlock
        (slots_small rfl ds.width
          (by rw [length_map]; show 0 + _ ≤ _; omega) (by omega))
    refine ⟨ds, last, captured, hds hin.left (by omega), hl hin.right, ?_, ?_⟩
    · rw [libraryScope, Block.reserved, Block.nextSlot_declareAll, Block.firstSlot_declareAll,
        length_map]
      show 0 + _ - 0 < _
      omega
    · simp only [append_assoc]
      rfl

end Lower

/-- The program of a finished draft and the code that it begins with. -/
def Draft.program (D : Draft) (body : Code) : Program :=
  { link ({ name := Lower.main, body } :: D.finished.toList) with
    constants := D.constants
    platform := D.platform }

/-- **What the finished program consists of.** -/
structure Compiled (P : Value → Prop) (env : Environment) (e : Expr) (D : Draft) (body : Code) :
    Prop where
  frames : D.frames = [.ofBlock .ofFunction]
  main : LoweredMain env D e body
  constants : ∀ v ∈ D.constants.toList, v.isData = true
  platform : ∀ entry ∈ D.platform.toList, P entry.value

/-- A program that was lowered is that of the draft which lowering its main code leaves. -/
lemma Expr.lower_eq_ok (h : e.lower env = .ok p) :
    ∃ body d, (Lower.mainCode env e).run { frames := [.ofBlock .ofFunction] } = .ok (body, d)
      ∧ p = d.program body := by
  cases hrun : (Lower.mainCode env e).run { frames := [.ofBlock .ofFunction] } with
  | error err =>
    rw [lower, hrun] at h
    cases h
  | ok r =>
    obtain ⟨body, d⟩ := r
    rw [lower, hrun] at h
    cases h
    exact ⟨body, d, rfl, rfl⟩

/-- What lowering the main code leaves consists of lowered code, if it is not too long for its
operands. -/
lemma Compiled.of_run {code : Code} (henv : env.Gives P) (he : ∀ v ∈ e.literals, P v)
    (hrun : (Lower.mainCode env e).run { frames := [.ofBlock .ofFunction] } = .ok (code, d))
    (hs : (d.program code).code.size < UInt32.size) :
    Compiled P env e { d with frames := [.ofBlock .ofFunction] } code := by
  have hstart : Sound P { frames := [.ofBlock .ofFunction] } :=
    { nonempty := by simp
      frames := ⟨by simp [Frame.ofBlock], trivial⟩
      constants := by simp
      constantCount := by decide
      platform := by simp
      platformCount := by decide }
  have hmakes := (Lower.makes_afterLibrary henv he).bind fun body =>
    Lower.makes_pure (P := P) (body ++ emit .ret)
  obtain ⟨hsound, hgrows, hcode⟩ := hmakes _ _ _ hstart hrun
  have hD : d.Grows { d with frames := [.ofBlock .ofFunction] } :=
    { Grows.refl d with frames := ?_ }
  · obtain ⟨body, hbody, rfl⟩ := hcode _ hD
    refine ⟨rfl, ⟨body, rfl, hbody ?_⟩, hsound.constants, hsound.platform⟩
    have hret : Instruction.ret.width = 1 := rfl
    have htotal : (body ++ emit .ret).width + width (items d.finished.toList)
        < UInt32.size := by
      rw [← width_items_cons { name := Lower.main, body := body ++ emit .ret }, ← size_link]
      exact hs
    rw [width_append, width_emit] at htotal
    exact
      { depth := by show 1 + _ < _; omega
        slots := fun b hb name slot hslot => by
          cases mem_singleton.mp hb
          cases hslot
        captures := (by decide : 0 < UInt32.size)
        bodies := fun f hf => by
          have : f.body.width ≤ width (items d.finished.toList) := width_le_items hf
          omega }
  · have hframes := hgrows.frames
    have hcaptures := hsound.frames
    cases hd : d.frames with
    | nil => exact absurd hd hsound.nonempty
    | cons f fs =>
      rw [hd] at hframes hcaptures
      cases hframes with
      | cons hf hr =>
        rw [forall₂_nil_left_iff.mp hr] at hcaptures ⊢
        refine .cons ⟨hf.blocks.symm, ?_⟩ .nil
        cases hc : f.captures with
        | nil => exact nil_prefix
        | cons place ks =>
          obtain ⟨⟨library, name, hres⟩, -⟩ := hcaptures.1 place (by simp [hc])
          cases hres

/-- **A program that was lowered consists of lowered code**, if it is not too long for its
operands. -/
theorem Expr.lower_compiled
    (henv : env.Gives P) (he : ∀ v ∈ e.literals, P v) (h : e.lower env = .ok p)
    (hs : p.code.size < UInt32.size) :
    ∃ D body, p = D.program body ∧ Compiled P env e D body := by
  obtain ⟨body, d, hrun, rfl⟩ := lower_eq_ok h
  exact ⟨{ d with frames := [.ofBlock .ofFunction] }, body, rfl, .of_run henv he hrun hs⟩

end TreeCode
