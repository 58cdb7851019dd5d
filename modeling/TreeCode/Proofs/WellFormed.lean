import TreeCode.Proofs.Disassembly
import TreeCode.Proofs.Growth
import TreeCode.Proofs.Stacks

/-!
# Lowered programs are well formed

Every instruction of a program that was lowered from a tree has operands in range, and those that
refer to code refer to the code they are meant for: an instruction that makes a closure to the
function of a literal of the tree, and a jump over guarded code or over a default to what follows
it.

The parts of a tree are its expressions, each with the name that it gives to a function
(`Expr.parts`). `Parts.Sited` says of an item of code what part of the tree it belongs to, and the
theorems about `Lowered` go through the tree once more to say it of every item.
-/

namespace TreeCode

open Code List CodeItem

open Lower (anonymous definedName)

/-! ## The parts of a tree -/

mutual
/-- **The expressions of a tree**, itself included. Each comes with the name that it gives to a
function. -/
def Expr.parts (label : String) : Expr → List (String × Expr)
  | .literal value => [(label, .literal value)]
  | .name n from? => [(label, .name n from?)]
  | .array elements => (label, .array elements) :: partsOfElements elements
  | .object es => (label, .object es) :: partsOfEntries es
  | .defining ds result =>
    (label, .defining ds result) :: (partsOfDefinitions ds
      ++ result.parts anonymous)
  | .given params namedParams result =>
    (label, .given params namedParams result) :: (partsOfParams params
      ++ (partsOfNamedParams namedParams ++ result.parts anonymous))
  | .calling f args namedArgs =>
    (label, .calling f args namedArgs) :: (f.parts anonymous
      ++ (partsOfElements args ++ partsOfEntries namedArgs))
  | .indexing collection key =>
    (label, .indexing collection key) :: (collection.parts anonymous ++ key.parts anonymous)
  | .catching inner => (label, .catching inner) :: inner.parts anonymous
def partsOfElements : List ArrayElement → List (String × Expr)
  | [] => []
  | .item e :: rest => e.parts anonymous ++ partsOfElements rest
  | .spread e :: rest => e.parts anonymous ++ partsOfElements rest
def partsOfEntries : List ObjectElement → List (String × Expr)
  | [] => []
  | .entry key value :: rest =>
    key.parts anonymous ++ (value.parts anonymous ++ partsOfEntries rest)
  | .spread e :: rest => e.parts anonymous ++ partsOfEntries rest
def partsOfDefinitions : List (Pattern × Expr) → List (String × Expr)
  | [] => []
  | (p, value) :: rest => value.parts (definedName p) ++ (p.parts ++ partsOfDefinitions rest)
/-- The expressions in the defaults of a pattern. -/
def Pattern.parts : Pattern → List (String × Expr)
  | .name _ => []
  | .array elements => partsOfParams elements
  | .object es => partsOfNamedParams es
  | .checked p _ => p.parts
def partsOfParams : List ArrayPatternElement → List (String × Expr)
  | [] => []
  | .required p :: rest => p.parts ++ partsOfParams rest
  | .optional p default :: rest => default.parts anonymous ++ (p.parts ++ partsOfParams rest)
  | .rest p :: rest => p.parts ++ partsOfParams rest
def partsOfNamedParams : List ObjectPatternElement → List (String × Expr)
  | [] => []
  | .property _ p none :: rest => p.parts ++ partsOfNamedParams rest
  | .property _ p (some default) :: rest =>
    default.parts anonymous ++ (p.parts ++ partsOfNamedParams rest)
  | .rest p :: rest => p.parts ++ partsOfNamedParams rest
end

/-- **An expression that a program is lowered from**: a part of the tree, or of a definition of the
library that the tree takes in, which does not see the names of the host. -/
inductive Environment.Lowers (env : Environment) (e : Expr) : Environment → String × Expr →
    Prop where
  | tree {x} (h : x ∈ e.parts anonymous) : Lowers env e env x
  | library {x d} (hd : d ∈ env.retained e) (h : x ∈ d.2.parts d.1) :
      Lowers env e env.ofLibrary x

/-! ## Functions of literals -/

open Lower Code in
/-- **The function of a literal.** -/
def LiteralFunction (env : Environment) (D : Draft) (params : List ArrayPatternElement)
    (namedParams : List ObjectPatternElement) (result : Expr) (f : CodeFunction) : Prop :=
  let scope := functionScope params namedParams
  ∃ positional named last captured, (if params.isEmpty then positional = [] else ∃ taken,
      ArrayCode (D.inFunction scope f.captures) true params
        (LoweredRest env (D.inFunction scope f.captures) 0 params)
        (LoweredFixed env (D.inFunction scope f.captures) true 1 params) taken
      ∧ positional = emit (.readLocal 0 1) ++ taken)
    ∧ (if namedParams.isEmpty then named = [] else ∃ taken,
        ObjectCode (D.inFunction scope f.captures) true namedParams
          (LoweredProperties env (D.inFunction scope f.captures) true namedParams) taken
        ∧ named = emit (.readLocal 0 2) ++ taken)
    ∧ Lowered env (D.inFunction scope f.captures) anonymous result last
    ∧ scope.reserved < UInt32.size
    ∧ f.body = reserveSlots scope ++ (positional ++ (named ++ (last
        ++ (detachSlots { captured } ++ emit .ret))))
    ∧ (∀ place ∈ f.captures, place.Small ∧ ∃ lib name, Frame.Resolves lib name D.frames place)

variable {D : Draft} {namedParams es : List ObjectPatternElement} {code : Code}
  {env : Environment} {params elements : List ArrayPatternElement} {label name kind : String}
  {result default : Expr} {i : Instruction} {value : Value} {k slot n target : Word}
  {arguments : Bool} {index start : Nat}

lemma lowered_given : Lowered env D label (.given params namedParams result) code ↔
      ∃ index f, D.finished[index]? = some f ∧ f.name = label
        ∧ LiteralFunction env D params namedParams result f
        ∧ code = .makeFunction (index + 1) :: f.captures.flatMap Lower.captureCode := by
  rw [Lowered]
  constructor
  · rintro ⟨index, f, pos, named, last, captured, hf, hname, h₁, h₂, h₃, h₄, h₅, h₆, hc⟩
    exact ⟨index, f, hf, hname, ⟨pos, named, last, captured, h₁, h₂, h₃, h₄, h₅, h₆⟩, hc⟩
  · rintro ⟨index, f, hf, hname, ⟨pos, named, last, captured, h₁, h₂, h₃, h₄, h₅, h₆⟩, hc⟩
    exact ⟨index, f, pos, named, last, captured, hf, hname, h₁, h₂, h₃, h₄, h₅, h₆, hc⟩

/-- The item refers to a table or to other code. -/
def CodeItem.refers : CodeItem → Bool
  | .makeFunction _ => true
  | .plain i _ =>
    match i with
    | .value _ | .platform _ | .validate _ | .objectPop _ | .objectPopOrDefault .. | .function _
    | .enterCatch _ | .arrayPopOrDefault _ => true
    | _ => false

namespace Parts

variable (S : Parts)

/-- **Code of an expression lies from `start` to `finish`** in the function with an index. -/
def Spans (env : Environment) (label : String) (e : Expr) (index start finish : Nat) : Prop :=
  ∃ D code, D.tables = S.tables ∧ Lowered env D label e code
    ∧ In S.functions index start code ∧ finish = start + code.width

/-- The function with an index is the function of a literal. -/
def Literal (env : Environment) (label : String) (params : List ArrayPatternElement)
    (namedParams : List ObjectPatternElement) (result : Expr) (index : Nat) : Prop :=
  ∃ D f, D.tables = S.tables ∧ S.functions[index]? = some f ∧ f.name = label
    ∧ LiteralFunction env D params namedParams result f

/-- An item lies at `pc` in the function with an index. -/
def Lands (index pc : Nat) : Prop := ∃ item, In S.functions index pc [item]

variable (Part : Environment → String × Expr → Prop)

/-- From `start` to `landing` lies the code of a default, and more comes after it. -/
def Defaults (index start landing : Nat) : Prop :=
  ∃ env default, Part env (anonymous, default) ∧ S.Spans env anonymous default index start landing
    ∧ S.Lands index landing

/-- From `start` lies the code of a guarded expression; after it the catch is left, and there, at
`landing`, more comes. -/
def Guards (index start landing : Nat) : Prop :=
  ∃ env label inner finish, Part env (label, .catching inner)
    ∧ S.Spans env anonymous inner index start finish
    ∧ In S.functions index finish (emit .leaveCatch)
    ∧ landing = finish + Instruction.leaveCatch.width ∧ S.Lands index landing

/-- **What an item of a function refers to is there**: what it finds in the tables, the function of
a literal of the tree, or the code after guarded code or after a default. -/
def Sited (index pc : Nat) : CodeItem → Prop
  | .makeFunction k => ∃ env label params namedParams result finish,
      (∀ x ∈ (Expr.given params namedParams result).parts label, Part env x)
      ∧ S.Spans env label (.given params namedParams result) index pc finish
      ∧ S.Literal env label params namedParams result k
  | .plain i _ =>
    match i with
    | .value k | .validate k | .objectPop k => k.toNat < S.tables.constants.size
    | .platform k => k.toNat < S.tables.platform.size
    | .function _ => False
    | .enterCatch n => S.Guards Part index (pc + i.width) (pc + i.width + n.toNat)
    | .arrayPopOrDefault n => S.Defaults Part index (pc + i.width) (pc + i.width + n.toNat)
    | .objectPopOrDefault k n => k.toNat < S.tables.constants.size
      ∧ S.Defaults Part index (pc + i.width) (pc + i.width + n.toNat)
    | _ => True

/-- The items of code at `pc` refer to what is there. -/
abbrev AllSited (index pc : Nat) (code : Code) : Prop :=
  ∀ x ∈ located pc code, S.Sited Part index x.1 x.2

/-- **Wherever the code lies, its items refer to what is there.** -/
def Settles (code : Code) : Prop :=
  ∀ index pc, In S.functions index pc code → S.AllSited Part index pc code

/-- Wherever code of a kind is made of parts of the tree, its items refer to what is there. -/
abbrev SettlesAll (env : Environment) (parts : List (String × Expr)) (Made : Draft → Code → Prop) :
    Prop :=
  ∀ {D : Draft} {code : Code}, D.tables = S.tables → (∀ x ∈ parts, Part env x) → Made D code →
    S.Settles Part code

variable {S Part} {pc : Nat} {a b : Code}

lemma Settles.nil : S.Settles Part [] := fun _ _ _ => by simp

lemma Settles.append (ha : S.Settles Part a) (hb : S.Settles Part b) :
    S.Settles Part (a ++ b) := by
  intro index pc hin x hx
  rw [located_append, mem_append] at hx
  exact hx.elim (ha _ _ hin.left x) (hb _ _ hin.skip x)

/-- An item that refers to what comes after it. -/
lemma Settles.cons {item} (h : ∀ {index pc},
      In S.functions index pc ([item] ++ code) → S.Sited Part index pc item)
    (hr : S.Settles Part code) : S.Settles Part ([item] ++ code) := by
  intro index pc hin x hx
  rcases mem_cons.mp hx with rfl | hx
  · exact h hin
  · exact hr _ _ hin.skip x hx

/-- An item that refers to the tables. -/
lemma Settles.item {item} (h : ∀ index pc, S.Sited Part index pc item) :
    S.Settles Part [item] := .cons (fun _ => h _ _) .nil

/-- Items that refer to nothing but the stacks. -/
lemma Settles.of_plain (h : ∀ item ∈ code, item.refers = false) : S.Settles Part code := by
  rintro index pc - ⟨pc', item⟩ hx
  obtain ⟨pre, after, rfl, -⟩ := mem_located hx
  have hitem := h item (by simp)
  cases item with
  | makeFunction k => cases hitem
  | plain i d => cases i <;> simp_all [refers, Sited]

lemma Settles.plain {d}
    (h : (plain i d).refers = false) : S.Settles Part [.plain i d] :=
  .of_plain fun _ hitem => mem_singleton.mp hitem ▸ h

lemma lands_of_in (h : In S.functions index pc code) (hne : code ≠ []) :
    S.Lands index pc := by
  obtain ⟨item, rest, rfl⟩ := exists_cons_of_ne_nil hne
  exact ⟨item, h.left (a := [item])⟩

end Parts

/-! ## Pieces of code -/

lemma refers_reserveSlots (b) : ∀ item ∈ Lower.reserveSlots b, item.refers = false := by
  unfold Lower.reserveSlots
  split
  · simp
  · simp [emit, refers]

lemma refers_detachSlots (b) : ∀ item ∈ Lower.detachSlots b, item.refers = false := by
  intro item hitem
  obtain ⟨slot, -, hs⟩ := mem_flatMap.mp hitem
  rw [mem_singleton.mp hs]
  rfl

lemma refers_variableCode (name place) :
    ∀ item ∈ Lower.variableCode name place, item.refers = false := by
  cases place <;> simp [Lower.variableCode, emitNamed, refers]

lemma refers_captureCode (place) :
    ∀ item ∈ Lower.captureCode place, item.refers = false := by
  cases place <;>
    simp [Lower.captureCode, Lower.captureInstruction, emit, refers]

lemma refers_callCode (f) : ∀ item ∈ Lower.callCode f, item.refers = false := by
  unfold Lower.callCode
  split <;> simp [emitNamed, emit, refers]

section Pieces

variable {S : Parts} {Part : Environment → String × Expr → Prop} (hD : D.tables = S.tables)

include hD

lemma constant_lt (h : D.HasConstant k value) :
    k.toNat < S.tables.constants.size := by
  rw [← hD]
  exact (Array.getElem?_eq_some_iff.mp h).1

lemma settles_valueCode (h : ValueCode D name value code) :
    S.Settles Part code := by
  unfold ValueCode at h
  split at h
  · obtain ⟨k, hk, rfl⟩ := h
    exact .item fun _ _ => constant_lt hD hk
  · obtain ⟨k, ⟨entry, he, -⟩, rfl⟩ := h
    refine .item fun _ _ => ?_
    show k.toNat < _
    rw [← hD]
    exact (Array.getElem?_eq_some_iff.mp he).1

lemma settles_nameCode (h : NameCode env D name code) :
    S.Settles Part code := by
  cases h with
  | inScope => exact .of_plain (refers_variableCode _ _)
  | library => exact .of_plain (refers_variableCode _ _)
  | host _ _ coded => exact settles_valueCode hD coded
  | libraryValue _ _ _ _ coded => exact settles_valueCode hD coded

lemma settles_kindCode (h : KindCode D arguments kind code) :
    S.Settles Part code := by
  unfold KindCode at h
  split at h
  · exact h ▸ .nil
  · obtain ⟨k, hk, rfl⟩ := h
    exact .item fun _ _ => constant_lt hD hk

/-- Code of an array pattern, from that of its rest and of its other elements. -/
lemma settles_arrayCode
    {Rest Fixed} (h : ArrayCode D arguments elements Rest Fixed code)
    (hrest : ∀ {c}, Rest c → S.Settles Part c) (hfixed : ∀ {c}, Fixed c → S.Settles Part c) :
    S.Settles Part code := by
  obtain ⟨check, rest, fixed, -, hcheck, hr, hf, rfl⟩ := h
  exact (settles_kindCode hD hcheck).append (.append (.plain rfl) (.append (hrest hr)
    (.append (.plain rfl) (.append (hfixed hf) (.plain rfl)))))

lemma settles_objectCode
    {Properties} (h : ObjectCode D arguments es Properties code)
    (hps : ∀ {c}, Properties c → S.Settles Part c) : S.Settles Part code := by
  obtain ⟨check, ps, -, hcheck, hp, rfl⟩ := h
  exact (settles_kindCode hD hcheck).append (.append (.plain rfl) (hps hp))

omit hD in
/-- Code that takes arguments apart, if there are parameters for them. -/
lemma settles_parameters {α : Type} {items : List α} {Taken : Code → Prop}
    (h : if items.isEmpty then code = [] else ∃ taken, Taken taken
      ∧ code = emit (.readLocal 0 slot) ++ taken)
    (htaken : ∀ {c}, Taken c → S.Settles Part c) : S.Settles Part code := by
  split at h
  · exact h ▸ .nil
  · obtain ⟨taken, ht, rfl⟩ := h
    exact .append (.plain rfl) (htaken ht)

end Pieces

/-- Code of a pattern is not empty. -/
lemma LoweredPattern.ne_nil {a p} (h : LoweredPattern env D a p code) :
    code ≠ [] := by
  cases p with
  | name n =>
    rw [LoweredPattern] at h
    obtain ⟨slot, -, -, rfl⟩ := h
    simp [emit]
  | checked p schema =>
    rw [LoweredPattern] at h
    obtain ⟨k, inner, -, -, -, rfl⟩ := h
    simp [emitBinding]
  | array elements =>
    rw [LoweredPattern] at h
    obtain ⟨check, rest, fixed, -, -, -, -, rfl⟩ := h
    simp [emit]
  | object es =>
    rw [LoweredPattern] at h
    obtain ⟨check, ps, -, -, -, rfl⟩ := h
    simp [emit]

/-! ## Every item of lowered code -/

section Tree

variable {S : Parts} {Part : Environment → String × Expr → Prop}

/-- A default and what follows it, with the jump over it. -/
lemma defaults_of_in (hD : D.tables = S.tables)
    {absent inner pc} (hp : Part env (anonymous, default))
    (hlowered : Lowered env D anonymous default absent)
    (hin : In S.functions index pc (absent ++ inner)) (hinner : inner ≠ [])
    (hn : n.toNat = absent.width) : S.Defaults Part index pc (pc + n.toNat) := by
  rw [hn]
  exact ⟨env, default, hp, ⟨D, absent, hD, hlowered, hin.left, rfl⟩,
    Parts.lands_of_in hin.skip hinner⟩

lemma toNat_distance (h : code.width < UInt32.size) : (distance code).toNat = code.width :=
  UInt32.toNat_ofNat_of_lt' h

lemma mem_parts_self (label) (e : Expr) : (label, e) ∈ e.parts label := by
  cases e <;> simp [Expr.parts]

mutual
/-- **The items of an expression's code refer to what is there.** -/
theorem Lowered.settles {label} : ∀ e, S.SettlesAll Part env (e.parts label) (Lowered env · label e)
  | .literal value => fun hD _ h => by
    simp only [Lowered] at h
    obtain ⟨name, -, hc⟩ := h
    exact settles_valueCode hD hc
  | .name n (some module) => fun hD _ h => by
    simp only [Lowered] at h
    obtain ⟨exports, value, -, -, hc⟩ := h
    exact settles_valueCode hD hc
  | .name n none => fun hD _ h => by
    simp only [Lowered] at h
    exact settles_nameCode hD h
  | .array elements => fun hD hpart h => by
    simp only [Lowered] at h
    obtain ⟨items, hitems, rfl⟩ := h
    simp only [Expr.parts, forall_mem_cons] at hpart
    exact .append (.plain rfl) (LoweredElements.settles elements hD hpart.2 hitems)
  | .object es => fun hD hpart h => by
    simp only [Lowered] at h
    obtain ⟨items, hitems, rfl⟩ := h
    simp only [Expr.parts, forall_mem_cons] at hpart
    exact .append (.plain rfl) (LoweredEntries.settles es hD hpart.2 hitems)
  | .defining definitions result => fun hD hpart h => by
    simp only [Lowered] at h
    obtain ⟨body, last, captured, hbody, hl, -, rfl⟩ := h
    simp only [Expr.parts, forall_mem_cons, forall_mem_append] at hpart
    refine .append (.plain rfl) (.append (.of_plain (refers_reserveSlots _)) (.append ?_ (.append ?_
      (.append (.of_plain (refers_detachSlots _)) (.plain rfl)))))
    · exact LoweredDefinitions.settles definitions (by exact hD) hpart.2.1 hbody
    · exact Lowered.settles result (by exact hD) hpart.2.2 hl
  | .given params namedParams result => fun hD hpart h => by
    obtain ⟨k, f, hf, hname, hfunction, rfl⟩ := lowered_given.mp h
    refine .cons (fun hin => ⟨env, label, params, namedParams, result, _, hpart,
      ⟨_, _, hD, h, hin, rfl⟩, _, f, hD, ?_, hname, hfunction⟩) (.of_plain fun item hitem => ?_)
    · show ({ name := Lower.main, body := S.body } :: S.tables.finished.toList)[k + 1]? = _
      rw [← hD, getElem?_cons_succ, Array.getElem?_toList]
      exact hf
    · obtain ⟨place, -, hp⟩ := mem_flatMap.mp hitem
      exact refers_captureCode place item hp
  | .calling callee args namedArgs => fun hD hpart h => by
    simp only [Lowered] at h
    obtain ⟨function, pos, named, hfunction, hpos, hn, rfl⟩ := h
    simp only [Expr.parts, forall_mem_cons, forall_mem_append] at hpart
    refine .append ?_ (.append (.plain rfl) (.append ?_ (.append (.plain rfl) (.append ?_
      (.append (.plain rfl) (.append (.of_plain (refers_callCode _)) (.plain rfl)))))))
    · exact Lowered.settles callee hD hpart.2.1 hfunction
    · exact LoweredElements.settles args hD hpart.2.2.1 hpos
    · exact LoweredEntries.settles namedArgs hD hpart.2.2.2 hn
  | .indexing coll key => fun hD hpart h => by
    simp only [Lowered] at h
    obtain ⟨first, second, hfirst, hsecond, rfl⟩ := h
    simp only [Expr.parts, forall_mem_cons, forall_mem_append] at hpart
    exact .append (Lowered.settles coll hD hpart.2.1 hfirst)
      (.append (Lowered.settles key hD hpart.2.2 hsecond) (.plain rfl))
  | .catching inner => fun hD hpart h => by
    simp only [Lowered] at h
    obtain ⟨guarded, captured, hguarded, hwidth, rfl⟩ := h
    simp only [Expr.parts, forall_mem_cons] at hpart
    refine .append (.plain rfl) (.cons (fun hin => ?_) (.append ?_ (.append (.plain rfl)
      (.append (.of_plain (refers_detachSlots _)) (.plain rfl)))))
    · -- the catch goes on behind the instruction that leaves it
      have hguard : In S.functions _ (_ + (Instruction.enterCatch
        (distance (guarded ++ emit .leaveCatch))).width) _ := hin.skip
      refine ⟨env, label, inner, _, hpart.1, ⟨_, guarded, by exact hD, hguarded, hguard.left, rfl⟩,
        hguard.skip.left, ?_, ?_⟩
      · simp only [toNat_distance hwidth, width_append, width_emit, Nat.add_assoc]
      · have hlanding := Parts.lands_of_in hguard.skip.skip (by simp [emit])
        simpa [toNat_distance hwidth, Nat.add_assoc] using hlanding
    · exact Lowered.settles inner (by exact hD) hpart.2 hguarded

lemma LoweredElements.settles : ∀ elements,
    S.SettlesAll Part env (partsOfElements elements) (LoweredElements env · elements)
  | [] => fun _ _ h => by
    simp only [LoweredElements] at h
    exact h ▸ .nil
  | .item e :: rest | .spread e :: rest => fun hD hp h => by
    simp only [LoweredElements] at h
    obtain ⟨first, os, hf, ho, rfl⟩ := h
    simp only [partsOfElements, forall_mem_append] at hp
    exact .append (Lowered.settles e hD hp.1 hf)
      (.append (.plain rfl) (LoweredElements.settles rest hD hp.2 ho))

lemma LoweredEntries.settles : ∀ es,
    S.SettlesAll Part env (partsOfEntries es) (LoweredEntries env · es)
  | [] => fun _ _ h => by
    simp only [LoweredEntries] at h
    exact h ▸ .nil
  | .entry key value :: rest => fun hD hp h => by
    simp only [LoweredEntries] at h
    obtain ⟨first, second, os, hf, hsecond, ho, rfl⟩ := h
    simp only [partsOfEntries, forall_mem_append] at hp
    exact .append (Lowered.settles key hD hp.1 hf)
      (.append (Lowered.settles value hD hp.2.1 hsecond)
        (.append (.plain rfl) (LoweredEntries.settles rest hD hp.2.2 ho)))
  | .spread e :: rest => fun hD hp h => by
    simp only [LoweredEntries] at h
    obtain ⟨first, os, hf, ho, rfl⟩ := h
    simp only [partsOfEntries, forall_mem_append] at hp
    exact .append (Lowered.settles e hD hp.1 hf)
      (.append (.plain rfl) (LoweredEntries.settles rest hD hp.2 ho))

lemma LoweredDefinitions.settles : ∀ ds : List (Pattern × Expr),
    S.SettlesAll Part env (partsOfDefinitions ds) (LoweredDefinitions env · ds)
  | [] => fun _ _ h => by
    simp only [LoweredDefinitions] at h
    exact h ▸ .nil
  | (p, value) :: rest => fun hD hp h => by
    simp only [LoweredDefinitions] at h
    obtain ⟨first, second, os, hf, hsecond, ho, rfl⟩ := h
    simp only [partsOfDefinitions, forall_mem_append] at hp
    exact .append (Lowered.settles value hD hp.1 hf)
      (.append (LoweredPattern.settles p hD hp.2.1 hsecond)
        (LoweredDefinitions.settles rest hD hp.2.2 ho))

lemma LoweredPattern.settles {a} : ∀ p, S.SettlesAll Part env p.parts (LoweredPattern env · a p)
  | .name n => fun _ _ h => by
    simp only [LoweredPattern] at h
    obtain ⟨slot, -, -, rfl⟩ := h
    exact .plain rfl
  | .checked p schema => fun hD hp h => by
    simp only [LoweredPattern] at h
    obtain ⟨k, inner, hk, -, hi, rfl⟩ := h
    simp only [Pattern.parts] at hp
    exact .append (.item fun _ _ => constant_lt hD hk) (LoweredPattern.settles p hD hp hi)
  | .array elements => fun hD hp h => by
    simp only [LoweredPattern] at h
    simp only [Pattern.parts] at hp
    exact settles_arrayCode hD h (LoweredRest.settles elements hD hp)
      (LoweredFixed.settles elements hD hp)
  | .object es => fun hD hp h => by
    simp only [LoweredPattern] at h
    simp only [Pattern.parts] at hp
    exact settles_objectCode hD h (LoweredProperties.settles es hD hp)

lemma LoweredRest.settles {count} : ∀ elements,
    S.SettlesAll Part env (partsOfParams elements) (LoweredRest env · count elements)
  | [] => fun _ _ h => by
    simp only [LoweredRest] at h
    exact h ▸ .nil
  | .rest p :: _ => fun hD hp h => by
    simp only [LoweredRest] at h
    obtain ⟨inner, hi, -, rfl⟩ := h
    simp only [partsOfParams, forall_mem_append] at hp
    exact .append (.plain rfl) (LoweredPattern.settles p hD hp.1 hi)
  | .required _ :: later => fun hD hp h => by
    simp only [LoweredRest] at h
    simp only [partsOfParams, forall_mem_append] at hp
    exact LoweredRest.settles later hD hp.2 h
  | .optional _ _ :: later => fun hD hp h => by
    simp only [LoweredRest] at h
    simp only [partsOfParams, forall_mem_append] at hp
    exact LoweredRest.settles later hD hp.2.2 h

lemma LoweredFixed.settles {arguments i} :
    ∀ elements,
    S.SettlesAll Part env (partsOfParams elements) (LoweredFixed env · arguments i elements)
  | [] | .rest _ :: _ => fun _ _ h => by
    simp only [LoweredFixed] at h
    exact h ▸ .nil
  | .required p :: later => fun hD hp h => by
    simp only [LoweredFixed] at h
    obtain ⟨inner, os, hi, ho, -, rfl⟩ := h
    simp only [partsOfParams, forall_mem_append] at hp
    exact .append (.plain rfl) (.append (LoweredPattern.settles p hD hp.1 hi)
      (LoweredFixed.settles later hD hp.2 ho))
  | .optional p default :: later => fun hD hp h => by
    simp only [LoweredFixed] at h
    obtain ⟨absent, inner, os, habsent, hi, ho, hwidth, rfl⟩ := h
    simp only [partsOfParams, forall_mem_append] at hp
    refine .cons (fun hin => ?_) (.append ?_ (.append ?_ ?_))
    · exact defaults_of_in hD (hp.1 _ (mem_parts_self _ _)) habsent hin.skip
        (by simp [hi.ne_nil]) (toNat_distance hwidth)
    · exact Lowered.settles default hD hp.1 habsent
    · exact LoweredPattern.settles p hD hp.2.1 hi
    · exact LoweredFixed.settles later hD hp.2.2 ho

lemma LoweredProperties.settles {arguments} : ∀ es,
    S.SettlesAll Part env (partsOfNamedParams es) (LoweredProperties env · arguments es)
  | [] => fun _ _ h => by
    simp only [LoweredProperties] at h
    exact h ▸ .plain rfl
  | .rest p :: _ => fun hD hp h => by
    simp only [LoweredProperties] at h
    simp only [partsOfNamedParams, forall_mem_append] at hp
    exact LoweredPattern.settles p hD hp.1 h
  | .property key p none :: later => fun hD hp h => by
    simp only [LoweredProperties] at h
    obtain ⟨k, inner, os, hk, hi, ho, rfl⟩ := h
    simp only [partsOfNamedParams, forall_mem_append] at hp
    exact .append (.item fun _ _ => constant_lt hD hk)
      (.append (LoweredPattern.settles p hD hp.1 hi)
        (LoweredProperties.settles later hD hp.2 ho))
  | .property key p (some default) :: later => fun hD hp h => by
    simp only [LoweredProperties] at h
    obtain ⟨k, absent, inner, os, hk, habsent, hi, ho, hwidth, rfl⟩ := h
    simp only [partsOfNamedParams, forall_mem_append] at hp
    refine .cons (fun hin => ⟨constant_lt hD hk, ?_⟩) (.append ?_ (.append ?_ ?_))
    · exact defaults_of_in hD (hp.1 _ (mem_parts_self _ _)) habsent hin.skip
        (by simp [hi.ne_nil]) (toNat_distance hwidth)
    · exact Lowered.settles default hD hp.1 habsent
    · exact LoweredPattern.settles p hD hp.2.1 hi
    · exact LoweredProperties.settles later hD hp.2.2 ho
end

/-- The items of the function of a literal. -/
lemma LiteralFunction.sited {f : CodeFunction} (hD : D.tables = S.tables)
    (hp : ∀ x ∈ (Expr.given params namedParams result).parts label, Part env x)
    (h : LiteralFunction env D params namedParams result f) (hf : S.functions[index]? = some f) :
    S.AllSited Part index (offset S.functions index) f.body := by
  obtain ⟨pos, named, last, captured, hpos, hn, hl, -, hbody, -⟩ := h
  simp only [Expr.parts, forall_mem_cons, forall_mem_append] at hp
  have hin : (D.inFunction (functionScope params namedParams) f.captures).tables = S.tables := hD
  suffices S.Settles Part f.body from this _ _ (In.body hf)
  rw [hbody]
  refine .append (.of_plain (refers_reserveSlots _)) (.append ?_ (.append ?_ (.append ?_
    (.append (.of_plain (refers_detachSlots _)) (.plain rfl)))))
  · exact settles_parameters hpos fun htaken => settles_arrayCode hin htaken
      (LoweredRest.settles params hin hp.2.1) (LoweredFixed.settles params hin hp.2.1)
  · exact settles_parameters hn fun htaken => settles_objectCode hin htaken
      (LoweredProperties.settles namedParams hin hp.2.2.1)
  · exact Lowered.settles result hin hp.2.2.2 hl

lemma LoweredLibrary.settles (hD : D.tables = S.tables) :
    ∀ {retained slot code},
      (∀ d ∈ retained, ∀ x ∈ d.2.parts d.1, Part env x) → LoweredLibrary env D slot retained code →
      S.Settles Part code
  | [], slot, code, _, h => by
    rw [LoweredLibrary] at h
    exact h ▸ .nil
  | (name, e) :: rest, slot, code, hp, h => by
    rw [LoweredLibrary] at h
    obtain ⟨first, os, hf, ho, -, rfl⟩ := h
    rw [forall_mem_cons] at hp
    exact .append (Lowered.settles e hD hp.1 hf)
      (.append (.plain rfl) (LoweredLibrary.settles hD hp.2 ho))

end Tree

section Programs

variable {S : Parts} {e : Expr}

/-- The items of the program's own code. -/
lemma LoweredMain.sited (hD : D.tables = S.tables) (h : LoweredMain env D e S.body) :
    S.AllSited (env.Lowers e) 0 0 S.body := by
  have hmain : S.functions[0]? = some { name := Lower.main, body := S.body } := rfl
  obtain ⟨body, hbody, hc⟩ := h
  suffices S.Settles (env.Lowers e) S.body from this _ _ (In.body hmain)
  rw [hbody]
  refine .append ?_ (.plain rfl)
  split at hc
  · exact Lowered.settles e hD (fun x hx => .tree hx) hc
  · obtain ⟨ds, last, captured, hds, hl, -, rfl⟩ := hc
    refine .append (.plain rfl) (.append (.of_plain (refers_reserveSlots _)) (.append ?_ (.append ?_
      (.append (.of_plain (refers_detachSlots _)) (.plain rfl)))))
    · exact LoweredLibrary.settles (D := D.inBlock _) hD (fun d hd x hx => .library hd hx) hds
    · exact Lowered.settles e (D := D.inBlock _) hD (fun x hx => .tree hx) hl

lemma Code.exists_located {item} (h : item ∈ code) (start) :
    ∃ pc, (pc, item) ∈ located start code := by
  obtain ⟨pre, after, rfl⟩ := append_of_mem h
  exact ⟨start + width pre, by simp [located_append]⟩

/-- **Every function of the program is that of a literal**, since it is made somewhere. -/
theorem Parts.literals {Part}
    (hmain : S.AllSited Part 0 0 S.body)
    (hmade : ∀ k, k < S.tables.finished.size → makeFunction (k + 1) ∈ S.body ∨
      ∃ j f, k < j ∧ S.tables.finished[j]? = some f ∧ makeFunction (k + 1) ∈ f.body)
    (k) (hk : k < S.tables.finished.size) :
    ∃ env label params namedParams result,
      (∀ x ∈ (Expr.given params namedParams result).parts label, Part env x)
      ∧ S.Literal env label params namedParams result (k + 1) := by
  -- a function is made by the main code or by a later function, so the induction goes downwards
  induction hn : S.tables.finished.size - k using Nat.strongRecOn generalizing k with
  | ind count ih =>
    rcases hmade k hk with hmem | ⟨j, f, hkj, hf, hmem⟩
    · obtain ⟨pc, hpc⟩ := exists_located hmem 0
      obtain ⟨env, label, params, namedParams, result, -, hparts, -, hliteral⟩ := hmain _ hpc
      exact ⟨env, label, params, namedParams, result, hparts, hliteral⟩
    · have hj := (Array.getElem?_eq_some_iff.mp hf).1
      obtain ⟨env, label, params, namedParams, result, hparts, D, g, hD, hg, -, hfunction⟩ :=
        ih (S.tables.finished.size - j) (by omega) j hj rfl
      have hgf : g = f := by
        have hfound : S.functions[j + 1]? = some f := by
          rw [functions, getElem?_cons_succ, Array.getElem?_toList, hf]
        exact Option.some.inj (hg.symm.trans hfound)
      subst hgf
      obtain ⟨pc, hpc⟩ := exists_located hmem (offset S.functions (j + 1))
      obtain ⟨env, label, params, namedParams, result, -, hparts, -, hliteral⟩ :=
        hfunction.sited hD hparts hg _ hpc
      exact ⟨env, label, params, namedParams, result, hparts, hliteral⟩

/-- **Parts of a program that belong to a tree**: every item of every function does, no function is
empty, and the code is not too long for its operands. -/
structure Parts.Belongs (S : Parts) (Part : Environment → String × Expr → Prop) : Prop where
  sited : ∀ index f, S.functions[index]? = some f →
    S.AllSited Part index (offset S.functions index) f.body
  nonempty : ∀ f ∈ S.functions, 0 < f.body.width
  size : S.program.code.size < UInt32.size

namespace Parts.Belongs

variable {Part : Environment → String × Expr → Prop} {offset : Nat}

/-- An instruction is an item that refers to what is there. -/
lemma item (h : S.Belongs Part) (hi : S.program.Starts offset i) :
    ∃ index item, In S.functions index offset [item] ∧ S.Sited Part index offset item
      ∧ i = item.instruction (offsetsFrom 0 S.functions) := by
  obtain ⟨index, f, item, hf, hmem, rfl⟩ := item_of_starts rfl hi
  obtain ⟨pre, after, hbody, rfl⟩ := mem_located hmem
  exact ⟨index, item, ⟨f, pre, after, hf, hbody, rfl⟩, h.sited index f hf _ hmem, rfl⟩

/-- An instruction other than one that makes a closure is a plain item. -/
lemma plain (h : S.Belongs Part) (hi : S.program.Starts offset i)
    (hne : ∀ target, i ≠ .function target) :
    ∃ index d, In S.functions index offset [.plain i d]
      ∧ S.Sited Part index offset (.plain i d) := by
  obtain ⟨index, item, hin, hsited, rfl⟩ := h.item hi
  cases item with
  | makeFunction k => exact absurd rfl (hne _)
  | plain i d => exact ⟨index, d, hin, hsited⟩

/-- An instruction that makes a closure has the offset of a function of the program. -/
lemma made (h : S.Belongs Part) (hi : S.program.Starts offset (.function target)) :
    ∃ index k f, S.functions[k]? = some f ∧ target.toNat = Code.offset S.functions k
      ∧ S.Sited Part index offset (.makeFunction k) := by
  obtain ⟨index, item, hin, hsited, heq⟩ := h.item hi
  cases item with
  | plain i d =>
    cases heq
    exact hsited.elim
  | makeFunction k =>
    obtain ⟨env, label, params, namedParams, result, finish, hparts, hspans, D, f, hD, hf, hr⟩ :=
      hsited
    have ht := Instruction.function.inj heq
    rw [Code.offset_eq hf] at ht
    have hle := (Code.at_offset hf).le_width
    have hs : Code.width (Code.items S.functions) < UInt32.size := Code.size_link _ ▸ h.size
    refine ⟨index, k, f, hf, ?_, env, label, params, namedParams, result, finish, hparts, hspans,
      D, f, hD, hf, hr⟩
    rw [ht]
    exact UInt32.toNat_ofNat_of_lt' (by omega)

/-- What a jump over code leads to is an instruction of the same function. -/
lemma landing {landing item}
    (hin : In S.functions index offset [item]) (hlands : S.Lands index landing) :
    (∃ i, S.program.Starts landing i) ∧ S.program.SameFunction offset landing := by
  obtain ⟨next, hnext⟩ := hlands
  exact ⟨⟨_, hnext.place.starts rfl⟩, sameFunction_of_in rfl hin hnext⟩

lemma checkJump {landing} (hlands : S.Lands index landing)
    (hlanding : landing = start + n.toNat) : S.program.checkJump offset start n = .ok () := by
  obtain ⟨next, hnext⟩ := hlands
  have hle := hnext.place.le_width
  have hs : S.program.code.size = width (items S.functions) := size_link _
  exact if_pos (by omega)

/-- **Parts that belong to a tree make a valid program.** -/
theorem validate (h : S.Belongs Part) : S.program.validate = .ok () := by
  refine Code.validate_of_starts rfl fun offset i hi => ?_
  cases i with
  | function target =>
    obtain ⟨index, k, f, hf, ht, -⟩ := h.made hi
    have hfound := Code.functionAt?_offset (p := S.program) rfl hf
      (h.nonempty f (mem_of_getElem? hf))
    simp only [Program.checkInstruction, ht, hfound, Option.isSome_some, if_pos]
  | value k =>
    obtain ⟨index, d, -, hk⟩ := h.plain hi nofun
    exact if_pos hk
  | validate k =>
    obtain ⟨index, d, -, hk⟩ := h.plain hi nofun
    exact if_pos hk
  | objectPop k =>
    obtain ⟨index, d, -, hk⟩ := h.plain hi nofun
    exact if_pos hk
  | platform k =>
    obtain ⟨index, d, -, hk⟩ := h.plain hi nofun
    exact if_pos hk
  | enterCatch n =>
    obtain ⟨index, d, -, env, label, inner, finish, -, -, -, -, hlands⟩ := h.plain hi nofun
    exact checkJump hlands rfl
  | arrayPopOrDefault n =>
    obtain ⟨index, d, -, env, default, -, -, hlands⟩ := h.plain hi nofun
    exact checkJump hlands rfl
  | objectPopOrDefault k n =>
    obtain ⟨index, d, -, hk, env, default, -, -, hlands⟩ := h.plain hi nofun
    have hoperand : Program.checkOperand offset k S.program.constants.size = .ok () := if_pos hk
    rw [Program.checkInstruction, hoperand]
    exact checkJump hlands rfl
  | _ => rfl

end Parts.Belongs

/-- **A program that was lowered from a tree consists of parts that belong to it.** -/
theorem Expr.lower_belongs {p} (h : e.lower env = .ok p)
    (hs : p.code.size < UInt32.size) :
    ∃ S : Parts, p = S.program ∧ S.Belongs (env.Lowers e)
      ∧ ∀ v ∈ S.tables.constants, v.isData = true := by
  obtain ⟨body, d, hrun, rfl⟩ := Expr.lower_eq_ok h
  have hgives : env.Gives fun _ => True := ⟨by simp, by simp, by simp, by simp⟩
  have hcompiled := Compiled.of_run hgives (fun _ _ => trivial) hrun hs
  have hcited := Draft.cited_of_mainCode hrun
  let S : Parts := ⟨d.tables, body⟩
  have hmain : S.AllSited (env.Lowers e) 0 0 S.body :=
    LoweredMain.sited (D := { d with frames := [.ofBlock .ofFunction] }) rfl hcompiled.main
  have hliterals := S.literals hmain fun k hk => hcited.made k (Nat.zero_le k) hk
  -- a function is the main code or one that lowering has finished
  have hfunction : ∀ index f, S.functions[index]? = some f →
      S.AllSited (env.Lowers e) index (offset S.functions index) f.body
        ∧ 0 < f.body.width := by
    intro index f hf
    cases index with
    | zero =>
      cases hf
      obtain ⟨code, hbody, -⟩ := hcompiled.main
      refine ⟨hmain, ?_⟩
      show 0 < body.width
      rw [hbody, width_append, width_emit]
      exact Nat.lt_of_lt_of_le (Instruction.width_pos _) (Nat.le_add_left _ _)
    | succ k =>
      have hk : k < S.tables.finished.size := by
        rw [Parts.functions, getElem?_cons_succ, Array.getElem?_toList] at hf
        exact (Array.getElem?_eq_some_iff.mp hf).1
      obtain ⟨env', label, params, namedParams, result, hparts, D, g, hD, hg, -, hliteral⟩ :=
        hliterals k hk
      cases hf.symm.trans hg
      refine ⟨hliteral.sited hD hparts hf, ?_⟩
      obtain ⟨pos, named, last, captured, -, -, -, -, hbody, -⟩ := hliteral
      have hret := Instruction.ret.width_pos
      simp only [hbody, width_append, width_emit]
      omega
  refine ⟨S, rfl, ⟨fun index f hf => (hfunction index f hf).1, fun f hf => ?_, hs⟩, fun v hv => ?_⟩
  · obtain ⟨index, hi⟩ := getElem?_of_mem hf
    exact (hfunction index f hi).2
  · exact hcompiled.constants v (Array.mem_toList_iff.mpr hv)

/-! ## Well-formed programs -/

/-- **What lies at a jump's end**: an instruction of the function in which the jump is. -/
def Program.Reaches (p : Program) (offset landing : Nat) : Prop :=
  (∃ i, p.Starts landing i) ∧ p.SameFunction offset landing

/-- **A program is well formed for a tree**: it is valid, its tables fit its code, and what refers
to code refers to the code of a part of the tree. -/
structure Program.WellFormed (p : Program) (S : Parts) (env : Environment) (e : Expr) : Prop where
  valid : p.validate = .ok ()
  diagnostics_size : p.diagnostics.size = p.code.size
  diagnostics : ∀ offset d, p.diagnostics[offset]? = some (some d) → ∃ i, p.Starts offset i
  constants : ∀ v ∈ p.constants, v.isData = true
  main : p.functions[0]? = some { name := Lower.main, offset := 0 }
  ordered : p.functions.toList.Pairwise fun f g => f.offset < g.offset
  functions : ∀ entry ∈ p.functions, ∃ i, p.Starts entry.offset i
  /-- A closure is made of the function of the literal whose code makes it. -/
  made : ∀ offset target, p.Starts offset (.function target) →
    ∃ source label params namedParams result index inside finish,
      env.Lowers e source (label, .given params namedParams result)
      ∧ S.Spans source label (.given params namedParams result) inside offset finish
      ∧ p.functions[index]? = some { name := label, offset := target.toNat }
      ∧ S.Literal source label params namedParams result index
  /-- A catch continues behind the guarded expression and the end of the catch. -/
  guarded : ∀ offset n, p.Starts offset (.enterCatch n) →
    ∃ source label inner index finish, env.Lowers e source (label, .catching inner)
      ∧ S.Spans source anonymous inner index (offset + (Instruction.enterCatch n).width) finish
      ∧ p.Starts finish .leaveCatch
      ∧ offset + (Instruction.enterCatch n).width + n.toNat = finish + Instruction.leaveCatch.width
      ∧ p.Reaches offset (offset + (Instruction.enterCatch n).width + n.toNat)
  /-- An element that is there skips the default. -/
  elements : ∀ offset n, p.Starts offset (.arrayPopOrDefault n) →
    ∃ source default index, env.Lowers e source (anonymous, default)
      ∧ S.Spans source anonymous default index (offset + (Instruction.arrayPopOrDefault n).width)
          (offset + (Instruction.arrayPopOrDefault n).width + n.toNat)
      ∧ p.Reaches offset (offset + (Instruction.arrayPopOrDefault n).width + n.toNat)
  /-- A property that is there skips the default. -/
  properties : ∀ offset k n, p.Starts offset (.objectPopOrDefault k n) →
    ∃ source default index, env.Lowers e source (anonymous, default)
      ∧ S.Spans source anonymous default index (offset + (Instruction.objectPopOrDefault k n).width)
          (offset + (Instruction.objectPopOrDefault k n).width + n.toNat)
      ∧ p.Reaches offset (offset + (Instruction.objectPopOrDefault k n).width + n.toNat)

/-- **Lowering gives a well-formed program**, if it is not too long for its operands. -/
theorem Expr.lower_wellFormed {p : Program} (h : e.lower env = .ok p)
    (hsize : p.code.size < UInt32.size) :
    ∃ S : Parts, p = S.program ∧ p.WellFormed S env e := by
  obtain ⟨S, rfl, hS, hconstants⟩ := Expr.lower_belongs h hsize
  refine ⟨S, rfl, ?_⟩
  constructor
  case valid => exact hS.validate
  case diagnostics_size => exact Code.size_diagnostics _
  case diagnostics => exact fun offset d hd => Code.starts_of_diagnostic rfl hd
  case constants => exact hconstants
  case main => exact Code.getElem?_functions (f := { name := Lower.main, body := S.body }) rfl
  case ordered => exact Code.pairwise_functions hS.nonempty
  case functions =>
    intro entry hentry
    obtain ⟨index, f, hf, rfl⟩ := Code.function_of_entry rfl hentry
    have hpos := hS.nonempty f (List.mem_of_getElem? hf)
    have hplace := Code.at_offset hf
    cases hbody : f.body with
    | nil => simp [hbody] at hpos
    | cons item rest =>
      rw [hbody] at hplace
      exact ⟨_, hplace.starts rfl⟩
  case made =>
    intro offset target hi
    obtain ⟨inside, index, f, hf, htarget, source, label, params, namedParams, result, finish,
      hparts, hspans, D, g, hD, hg, hname, hliteral⟩ := hS.made hi
    cases hf.symm.trans hg
    refine ⟨source, label, params, namedParams, result, index, inside, finish,
      hparts _ (mem_parts_self _ _), hspans, ?_, D, f, hD, hf, hname, hliteral⟩
    rw [htarget, ← hname]
    exact Code.getElem?_functions hf
  case guarded =>
    intro offset n hi
    obtain ⟨index, d, hin, source, label, inner, finish, hpart, hspans, hleave, hlanding, hlands⟩ :=
      hS.plain hi nofun
    exact ⟨source, label, inner, index, finish, hpart, hspans, hleave.place.starts rfl, hlanding,
      Parts.Belongs.landing hin hlands⟩
  case elements =>
    intro offset n hi
    obtain ⟨index, d, hin, source, default, hpart, hspans, hlands⟩ := hS.plain hi nofun
    exact ⟨source, default, index, hpart, hspans, Parts.Belongs.landing hin hlands⟩
  case properties =>
    intro offset k n hi
    obtain ⟨index, d, hin, -, source, default, hpart, hspans, hlands⟩ := hS.plain hi nofun
    exact ⟨source, default, index, hpart, hspans, Parts.Belongs.landing hin hlands⟩

/-- A call, inside a catch, of a function whose parameter has a function as its default. -/
def callingWithDefault : Expr :=
  .catching (.calling
    (.given [.optional (.name "x") (.given [] [] (.name "x" none))] [] (.name "x" none)) [] [])

theorem lower_wellFormed_callingWithDefault : ∃ p S, callingWithDefault.lower {} = .ok p
    ∧ p = Parts.program S ∧ p.WellFormed S {} callingWithDefault := by
  obtain ⟨p, hp, hsize⟩ : ∃ p, callingWithDefault.lower {} = .ok p ∧ p.code.size < UInt32.size :=
    ⟨_, rfl, by decide +kernel⟩
  obtain ⟨S, hS, hformed⟩ := Expr.lower_wellFormed hp hsize
  exact ⟨p, S, hp, hS, hformed⟩

end Programs

end TreeCode
