import TreeCode.Proofs.Drafting

/-!
# Names are resolved lexically

The scopes around a place of a tree lie in one another, across the functions that the place is in,
and a name means the innermost of them that declares it. The operands of the code of a name tell
where that is as seen from the innermost function: so many scopes out, or under an index of the
variables that the function captures, and then further as seen from the function around it
(`Frame.Denotes`).

The tables of captured variables get longer while a tree is lowered. Since nothing in them is ever
replaced, an index stands for the same variable in the finished program as when it was handed out.
-/

namespace TreeCode

open List Entries Lower

namespace Frame

/-- The scopes around a place, innermost first, over all functions. -/
def scopes (fs : List Frame) : List Block := fs.flatMap (·.blocks)

/-- **The variable that operands stand for**: in the scope so many scopes out, over all functions,
and in which slot. What a function captures is what the entry of its table stands for around it,
where its closures are made. -/
inductive Denotes : List Frame → Capture → Nat → Nat → Prop where
  | own {f outer depth slot} (inside : depth < f.blocks.length) :
      Denotes (f :: outer) (.variable depth slot) depth slot
  | captured {f outer index depth slot place}
      (entry : f.captures[index]? = some place) (around : Denotes outer place depth slot) :
      Denotes (f :: outer) (.captured index) (f.blocks.length + depth) slot

/-- No scope declares the name: not the library's, or none of the others. -/
def Undeclared (library : Bool) (name : String) (scopes : List Block) : Prop :=
  ∀ b ∈ scopes, b.isLibrary = library → get? b.names name = none

/-- **The innermost declaration of a name.** -/
def Declares (library : Bool) (name : String) (scopes : List Block) (depth slot : Nat) : Prop :=
  ∃ inner b outer, scopes = inner ++ b :: outer ∧ inner.length = depth
    ∧ Undeclared library name inner ∧ b.isLibrary = library ∧ get? b.names name = some slot

variable {library : Bool} {name : String} {fs gs : List Frame} {place : Capture} {depth slot : Nat}

/-- An entry stands for one variable. -/
lemma Denotes.unique (h : Denotes fs place depth slot) {depth' slot'}
    (h' : Denotes fs place depth' slot') : depth = depth' ∧ slot = slot' := by
  induction h generalizing depth' with
  | own =>
    cases h'
    exact ⟨rfl, rfl⟩
  | captured entry _ ih =>
    cases h' with
    | captured entry' around' =>
      cases entry.symm.trans entry'
      obtain ⟨rfl, rfl⟩ := ih around'
      exact ⟨rfl, rfl⟩

/-- An entry stands for the same variable when more has been captured. -/
lemma Denotes.grow (h : Denotes fs place depth slot) (hg : GrowAll fs gs) :
    Denotes gs place depth slot := by
  induction h generalizing gs with
  | own inside =>
    cases hg with
    | cons hf _ => exact .own (hf.length_eq ▸ inside)
  | captured entry _ ih =>
    cases hg with
    | cons hf hr => exact hf.length_eq ▸ .captured (hf.entry entry) (ih hr)

/-- The scopes of one function are searched from the innermost on. -/
lemma lookupIn_spec (library name blocks) :
    match lookupIn library name blocks with
    | some (depth, slot) => Declares library name blocks depth slot
    | none => Undeclared library name blocks := by
  induction blocks with
  | nil => exact forall_mem_nil _
  | cons b blocks ih =>
    rw [lookupIn]
    cases hf : (if b.isLibrary == library then get? b.names name else none) with
    | some slot =>
      by_cases hkind : b.isLibrary = library
      · rw [if_pos (beq_iff_eq.mpr hkind)] at hf
        exact ⟨[], b, blocks, rfl, rfl, forall_mem_nil _, hkind, hf⟩
      · rw [if_neg (mt beq_iff_eq.mp hkind)] at hf
        cases hf
    | none =>
      have hhead : b.isLibrary = library → get? b.names name = none := fun hkind => by
        rwa [if_pos (beq_iff_eq.mpr hkind)] at hf
      cases hr : lookupIn library name blocks with
      | none =>
        rw [hr] at ih
        exact forall_mem_cons.mpr ⟨hhead, ih⟩
      | some found =>
        rw [hr] at ih
        obtain ⟨inner, c, outer, rfl, hd, hi, hc⟩ := ih
        exact ⟨b :: inner, c, outer, rfl, congrArg (· + 1) hd, forall_mem_cons.mpr ⟨hhead, hi⟩, hc⟩

lemma Sound.drop (h : Sound fs) (k) : Sound (fs.drop k) := by
  induction k generalizing fs with
  | zero => exact h
  | succ k ih =>
    cases fs with
    | nil => exact h
    | cons f fs => exact ih h.2

/-- **Where a name is found is its innermost declaration.** -/
theorem Resolves.declares (h : Resolves library name fs place) :
    ∃ depth slot, Declares library name (scopes fs) depth slot ∧ Denotes fs place depth slot := by
  induction h with
  | @own f around depth slot found =>
    have hs := lookupIn_spec library name f.blocks
    rw [found] at hs
    obtain ⟨inner, b, outer, hblocks, hd, hb⟩ := hs
    refine ⟨depth, slot, ⟨inner, b, outer ++ scopes around, ?_, hd, hb⟩,
      .own (lookupIn_bounds found).1⟩
    rw [scopes, flatMap_cons, hblocks, append_assoc]
    rfl
  | @captured f around place index absent _ kept ih =>
    have hs := lookupIn_spec library name f.blocks
    rw [absent] at hs
    obtain ⟨depth, slot, ⟨inner, b, outer, hsc, rfl, hi, hb⟩, hdenotes⟩ := ih
    refine ⟨_, slot, ⟨f.blocks ++ inner, b, outer, ?_, length_append, ?_, hb⟩,
      .captured kept hdenotes⟩
    · rw [scopes, flatMap_cons, ← scopes, hsc, append_assoc]
    · exact forall_mem_append.mpr ⟨hs, hi⟩

lemma Lacks.undeclared (h : Lacks library name fs) : Undeclared library name (scopes fs) := by
  intro b hb
  obtain ⟨f, hf, hb⟩ := mem_flatMap.mp hb
  have hs := lookupIn_spec library name f.blocks
  rw [h f hf] at hs
  exact hs b hb

/-- **The scope of a variable that a function captures has noted it**, however many functions lie
between. -/
theorem Sound.noted (h : Sound fs) {index}
    (hdenotes : Denotes fs (.captured index) depth slot) :
    ∃ b, (scopes fs)[depth]? = some b ∧ slot ∈ b.captured := by
  generalize hp : Capture.captured index = place at hdenotes
  induction hdenotes generalizing index with
  | own => cases hp
  | @captured f outer _ depth slot place entry around ih =>
    rw [scopes, flatMap_cons, getElem?_append_right (Nat.le_add_right _ _), Nat.add_sub_cancel_left]
    cases around with
    | captured entry' around' => exact ih h.2 rfl
    | @own g further depth slot inside =>
      obtain ⟨b, hb, hs⟩ := (h.1 _ (mem_of_getElem? entry)).2
      refine ⟨b, ?_, hs⟩
      rw [flatMap_cons, getElem?_append_left inside, hb]

end Frame

open TreeCode.Frame

/-- Code that reads a variable of the scopes around. -/
def ReadsSlot (fs : List Frame) (name : String) (depth slot : Nat) (code : Code) : Prop :=
  ∃ place : Capture, place.Small ∧ code = variableCode name place ∧ Denotes fs place depth slot

/-- **What a name means**: the innermost declaration around it; else what the host gives; else a
definition of the library. -/
def Means (env : Environment) (D : Draft) (name : String) (code : Code) : Prop :=
  (∃ depth slot, Declares false name (scopes D.frames) depth slot
    ∧ ReadsSlot D.frames name depth slot code)
  ∨ Undeclared false name (scopes D.frames) ∧
    ((∃ value, get? env.names name = some value ∧ ValueCode D name value code)
    ∨ get? env.names name = none ∧
      ((∃ depth slot, Declares true name (scopes D.frames) depth slot
        ∧ ReadsSlot D.frames name depth slot code)
      ∨ Undeclared true name (scopes D.frames) ∧ ∃ value,
        get? env.library name = some (.value value) ∧ ValueCode D name value code))

variable {env : Environment} {D : Draft} {name : String} {code : Code} {e : Expr} {p : Program}

lemma NameCode.means (h : NameCode env D name code) : Means env D name code := by
  cases h with
  | inScope found small =>
    obtain ⟨depth, slot, hdeclares, hdenotes⟩ := found.declares
    exact .inl ⟨depth, slot, hdeclares, _, small, rfl, hdenotes⟩
  | host absent given coded => exact .inr ⟨absent.undeclared, .inl ⟨_, given, coded⟩⟩
  | library absent notGiven found small =>
    obtain ⟨depth, slot, hdeclares, hdenotes⟩ := found.declares
    exact .inr ⟨absent.undeclared, .inr ⟨notGiven, .inl ⟨depth, slot, hdeclares, _, small, rfl,
      hdenotes⟩⟩⟩
  | libraryValue absent notGiven undefined defined coded =>
    exact .inr ⟨absent.undeclared, .inr ⟨notGiven, .inr ⟨undefined.undeclared, _, defined, coded⟩⟩⟩

/-- **Names are resolved lexically, at any depth.** The code of a lowered tree is that of its nodes
in the scopes around them, and code of a name reads its innermost declaration. An entry stands for
one variable. While any tree is lowered inside others, the entries of all functions around keep
their meaning, and what they stand for is noted in the scope that declares it. -/
theorem Expr.lower_lexical (h : e.lower env = .ok p) (hsize : p.code.size < UInt32.size) :
    (∃ D body, p = D.program body ∧ D.frames = [.ofBlock .ofFunction] ∧ LoweredMain env D e body)
    ∧ (∀ D name code, NameCode env D name code → Means env D name code)
    ∧ (∀ fs place depth slot depth' slot', Denotes fs place depth slot →
        Denotes fs place depth' slot' → depth = depth' ∧ slot = slot')
    ∧ ∀ d label e code d', d.Sound (fun _ => True) →
        (Lower.expr env label e).run d = .ok (code, d') → d'.Sound (fun _ => True) ∧
        ∀ k place depth slot, (Denotes (d.frames.drop k) place depth slot →
            Denotes (d'.frames.drop k) place depth slot)
          ∧ ∀ index, Denotes (d'.frames.drop k) (.captured index) depth slot →
            ∃ b, (scopes (d'.frames.drop k))[depth]? = some b ∧ slot ∈ b.captured := by
  have henv : env.Gives fun _ => True :=
    ⟨fun _ _ _ => trivial, fun _ _ _ _ _ _ => trivial, fun _ _ _ => trivial, fun _ _ _ _ _ =>
      trivial⟩
  obtain ⟨D, body, hp, hcompiled⟩ := Expr.lower_compiled henv (fun _ _ => trivial) h hsize
  refine ⟨⟨D, body, hp, hcompiled.frames, hcompiled.main⟩, fun _ _ _ => NameCode.means,
    fun _ _ _ _ _ _ h => h.unique, fun d label e code d' hd hrun => ?_⟩
  obtain ⟨hd', hgrows, -⟩ := makes_expr henv label e (fun _ _ => trivial) d code d' hd hrun
  refine ⟨hd', fun k place depth slot => ⟨fun hdenotes => ?_, fun index hdenotes => ?_⟩⟩
  · exact hdenotes.grow (forall₂_drop k hgrows.frames)
  · exact (hd'.frames.drop k).noted hdenotes

/-- A function in a function reads a variable of the scope around both. -/
def twiceNested : Expr :=
  .defining [(.name "x", .literal .null)] (.given [] [] (.given [] [] (.name "x" none)))

/-- A place in two functions, one in the other, inside the scope of a variable. -/
def insideBoth : Draft where
  frames := [.ofBlock .ofFunction, .ofBlock .ofFunction,
    ⟨[{ names := [("x", 0)], nextSlot := 1 }, .ofFunction], []⟩]

/-- There the name of the variable is captured by both functions. It stands for the variable of the
scope around them and for no other, and that scope has noted it. -/
theorem twiceNested_lexical : ∃ p d', twiceNested.lower {} = .ok p ∧ p.code.size < UInt32.size
    ∧ (∃ D body, p = D.program body ∧ D.frames = [.ofBlock .ofFunction]
      ∧ LoweredMain {} D twiceNested body)
    ∧ (Lower.expr {} "" (.name "x" none)).run insideBoth
      = .ok (variableCode "x" (.captured 0), d')
    ∧ (∀ depth slot, Denotes d'.frames (.captured 0) depth slot ↔ depth = 2 ∧ slot = 0)
    ∧ ∃ b, (scopes d'.frames)[2]? = some b ∧ 0 ∈ b.captured := by
  obtain ⟨p, hlower, hsize⟩ : ∃ p, twiceNested.lower {} = .ok p ∧ p.code.size < UInt32.size :=
    ⟨_, rfl, by decide +kernel⟩
  obtain ⟨hmain, -, hunique, hkeeps⟩ := Expr.lower_lexical hlower hsize
  have hsound : insideBoth.Sound fun _ => True :=
    ⟨by simp [insideBoth], by simp [insideBoth, Frame.Sound, Frame.ofBlock], by simp [insideBoth],
      by decide, by simp [insideBoth], by decide⟩
  obtain ⟨d', hrun, hdenotes⟩ : ∃ d', (Lower.expr {} "" (.name "x" none)).run insideBoth
      = .ok (variableCode "x" (.captured 0), d') ∧ Denotes d'.frames (.captured 0) 2 0 :=
    ⟨_, rfl, @Denotes.captured _ _ _ _ _ (.captured 0) rfl
      (@Denotes.captured _ _ _ _ _ (.variable 0 0) rfl (.own (by decide)))⟩
  obtain ⟨-, hkept⟩ := hkeeps _ _ _ _ _ hsound hrun
  refine ⟨p, d', hlower, hsize, hmain, hrun, fun depth slot => ⟨fun h => ?_, ?_⟩,
    (hkept 0 (.captured 0) 2 0).2 0 hdenotes⟩
  · exact hunique _ _ _ _ _ _ h hdenotes
  · rintro ⟨rfl, rfl⟩
    exact hdenotes

end TreeCode
