import TreeCode.Lowering
import TreeCode.Proofs.Placement

/-!
# What lowering gives, said without lowering

Lowering threads a draft through a tree. What it leaves behind can be read off the finished draft
alone: `Lowered env D label e code` says that `code` is code of the expression `e` in the scopes and
tables of `D`, in the words of the tree. Every later argument about code follows the tree by this
relation and never sees how the draft came about.

The captured slots that a scope detaches at its end are left open here, since a machine that leaves
the scope detaches every slot of it anyway.
-/

namespace TreeCode

/-! ## Where names are -/

namespace Capture

/-- The place can be written in operands. -/
def Small : Capture → Prop
  | .variable depth slot => depth < UInt32.size ∧ slot < UInt32.size
  | .captured index => index < UInt32.size

end Capture

namespace Frame

/-- **Where the innermost function finds a name**: among its own variables, or captured from the
place where the function around it finds the name. -/
inductive Resolves (library : Bool) (name : String) : List Frame → Capture → Prop where
  | own {frame outer depth slot}
      (found : lookupIn library name frame.blocks = some (depth, slot)) :
      Resolves library name (frame :: outer) (.variable depth slot)
  | captured {frame outer place index}
      (absent : lookupIn library name frame.blocks = none)
      (around : Resolves library name outer place)
      (kept : frame.captures[index]? = some place) :
      Resolves library name (frame :: outer) (.captured index)

/-- A name is found in the innermost scope or further out. -/
lemma lookupIn_cons {lib name b outer depth slot} (h : lookupIn lib name (b :: outer) = some
    (depth, slot)) :
    (depth = 0 ∧ Entries.get? b.names name = some slot) ∨
      ∃ further, depth = further + 1 ∧ lookupIn lib name outer = some (further, slot) := by
  rw [lookupIn] at h
  split at h
  next found hf =>
    cases h
    split at hf
    · exact .inl ⟨rfl, hf⟩
    · cases hf
  next =>
    obtain ⟨⟨further, found⟩, hrec, heq⟩ := Option.map_eq_some_iff.mp h
    cases heq
    exact .inr ⟨further, rfl, hrec⟩

/-- No function has the name. -/
def Lacks (lib : Bool) (name : String) (frames : List Frame) : Prop :=
  ∀ frame ∈ frames, lookupIn lib name frame.blocks = none

end Frame

/-! ## Drafts as contexts -/

namespace Draft

/-- The current function's frame. -/
def frame (d : Draft) : Frame := (d.frames.head?).getD (.ofBlock {})

/-- The innermost scope. -/
def block (d : Draft) : Block := (d.frame.blocks.head?).getD {}

/-- Inside one more scope. -/
def inBlock (d : Draft) (b : Block) : Draft :=
  { d with frames := { d.frame with blocks := b :: d.frame.blocks } :: d.frames.tail }

/-- Inside one more function. -/
def inFunction (d : Draft) (b : Block) (captures : List Capture) : Draft :=
  { d with frames := { blocks := [b], captures } :: d.frames }

/-- The constant with an index. -/
def HasConstant (d : Draft) (index : Word) (value : Value) : Prop :=
  d.constants[index.toNat]? = some value

/-- The host value with an index: the value that was asked for, or one that equals it. -/
def HasPlatform (d : Draft) (index : Word) (name : String) (value : Value) : Prop :=
  ∃ entry, d.platform[index.toNat]? = some entry ∧ entry.name = name
    ∧ (entry.value = value ∨ entry.value == value)

end Draft

/-! ## Names and literals -/

/-- Code of a value that goes by a name, if it is no data. -/
def ValueCode (D : Draft) (name : String) (value : Value) (code : Code) : Prop :=
  if value.isData then ∃ k, D.HasConstant k value ∧ code = Code.emit (.value k)
  else ∃ k, D.HasPlatform k name value ∧ code = Code.emit (.platform k)

/-- Code of a literal. -/
def LiteralCode (D : Draft) (value : Value) (code : Code) : Prop :=
  ∃ name, (value.isData = false → value.functionName? = some name) ∧ ValueCode D name value code

/-- **Code of a name.** -/
inductive NameCode (env : Environment) (D : Draft) (name : String) : Code → Prop where
  | inScope {place} (found : Frame.Resolves false name D.frames place)
      (small : place.Small) : NameCode env D name (Lower.variableCode name place)
  | host {value code} (absent : Frame.Lacks false name D.frames)
      (given : Entries.get? env.names name = some value) (coded : ValueCode D name value code) :
      NameCode env D name code
  | library {place} (absent : Frame.Lacks false name D.frames)
      (notGiven : Entries.get? env.names name = none)
      (found : Frame.Resolves true name D.frames place) (small : place.Small) :
      NameCode env D name (Lower.variableCode name place)
  | libraryValue {value code} (absent : Frame.Lacks false name D.frames)
      (notGiven : Entries.get? env.names name = none) (undefined : Frame.Lacks true name D.frames)
      (defined : Entries.get? env.library name = some (.value value))
      (coded : ValueCode D name value code) : NameCode env D name code

/-- Code that checks the kind of a value to take apart. -/
def KindCode (D : Draft) (args : Bool) (kind : String) (code : Code) : Prop :=
  if args then code = []
  else ∃ k, D.HasConstant k (.string kind) ∧ code = Code.emit (.validate k)

/-- A rest element is the last one. -/
def RestLast (isRest : List Bool) : Prop := isRest.dropLast.contains true = false

open Code in
/-- Code that takes the array on top apart, given what cuts the rest off and what takes the other
elements. -/
def ArrayCode (D : Draft) (args : Bool) (es : List ArrayPatternElement)
    (Rest Fixed : Code → Prop) (code : Code) : Prop :=
  ∃ check rest fixed, RestLast (es.map (·.isRest)) ∧ KindCode D args "array" check
    ∧ Rest rest ∧ Fixed fixed
    ∧ code = check ++ (emit .arrayCopy ++ (rest ++ (emit .arrayReverse ++ (fixed
        ++ emit .discard))))

open Code in
/-- Code that takes the object on top apart, given what takes its properties. -/
def ObjectCode (D : Draft) (args : Bool) (es : List ObjectPatternElement)
    (Properties : Code → Prop) (code : Code) : Prop :=
  ∃ check ps, RestLast (es.map (·.isRest)) ∧ KindCode D args "object" check
    ∧ Properties ps ∧ code = check ++ (emit .objectCopy ++ ps)

/-- The scope of a block that defines names. -/
def blockScope (ds : List (Pattern × Expr)) : Block :=
  Block.declareAll {} (ds.flatMap fun d => d.1.names)

/-- The outermost scope of a function. -/
def functionScope (params : List ArrayPatternElement) (nps : List ObjectPatternElement) :
    Block :=
  Block.ofFunction.declareAll (Pattern.elementNames params ++ Pattern.entryNames nps)

open Lower Code in
mutual
/-- **`code` is code of an expression.** -/
def Lowered (env : Environment) (D : Draft) (label : String) : Expr → Code → Prop
  | .literal value, code => LiteralCode D value code
  | .name n (some module), code =>
    ∃ exports value, Entries.get? env.modules module = some exports
      ∧ Entries.get? exports n = some value ∧ ValueCode D n value code
  | .name n none, code => NameCode env D n code
  | .array elements, code =>
    ∃ items, LoweredElements env D elements items ∧ code = emit .array ++ items
  | .object entries, code =>
    ∃ items, LoweredEntries env D entries items ∧ code = emit .object ++ items
  | .defining definitions result, code =>
    let scope := blockScope definitions
    ∃ body last captured, LoweredDefinitions env (D.inBlock scope) definitions body
      ∧ Lowered env (D.inBlock scope) anonymous result last
      ∧ scope.reserved < UInt32.size
      ∧ code = emit (.pushScope 0) ++ (reserveSlots scope ++ (body ++ (last
          ++ (detachSlots { captured } ++ emit .popScope))))
  | .given params namedParams result, code =>
    let scope := functionScope params namedParams
    ∃ index f positional named last captured, D.finished[index]? = some f ∧ f.name = label
      ∧ (if params.isEmpty then positional = [] else ∃ taken,
          ArrayCode (D.inFunction scope f.captures) true params
            (LoweredRest env (D.inFunction scope f.captures) 0 params)
            (LoweredFixed env (D.inFunction scope f.captures) true 1 params) taken
          ∧ positional = emit (.readLocal 0 1) ++ taken)
      ∧ (if namedParams.isEmpty then named = [] else ∃ taken,
          ObjectCode (D.inFunction scope f.captures) true namedParams
            (LoweredProperties env (D.inFunction scope f.captures) true namedParams) taken
          ∧ named = emit (.readLocal 0 2) ++ taken)
      ∧ Lowered env (D.inFunction scope f.captures) anonymous result last
      ∧ scope.reserved < UInt32.size
      ∧ f.body = reserveSlots scope ++ (positional ++ (named ++ (last
          ++ (detachSlots { captured } ++ emit .ret))))
      ∧ (∀ place ∈ f.captures, place.Small ∧ ∃ library name,
          Frame.Resolves library name D.frames place)
      ∧ code = .makeFunction (index + 1) :: f.captures.flatMap captureCode
  | .calling callee args namedArgs, code =>
    ∃ function positional named, Lowered env D anonymous callee function
      ∧ LoweredElements env D args positional ∧ LoweredEntries env D namedArgs named
      ∧ code = function ++ (emit .array ++ (positional ++ (emit .object ++ (named
          ++ (emit (.pushScope 3) ++ (callCode callee ++ emit .popScope))))))
  | .indexing collection key, code =>
    ∃ first second, Lowered env D anonymous collection first
      ∧ Lowered env D anonymous key second ∧ code = first ++ (second ++ emit .index)
  | .catching inner, code =>
    ∃ guarded captured, Lowered env (D.inBlock {}) anonymous inner guarded
      ∧ (guarded ++ emit .leaveCatch).width < UInt32.size
      ∧ code = emit (.pushScope 0) ++ (emit (.enterCatch (distance (guarded ++ emit .leaveCatch)))
          ++ (guarded ++ (emit .leaveCatch ++ (detachSlots { captured } ++ emit .popScope))))

/-- Code that puts elements into the array on top. -/
def LoweredElements (env : Environment) (D : Draft) : List ArrayElement → Code → Prop
  | [], code => code = []
  | .item e :: rest, code =>
    ∃ first others, Lowered env D anonymous e first ∧ LoweredElements env D rest others
      ∧ code = first ++ (emit .arrayPush ++ others)
  | .spread e :: rest, code =>
    ∃ first others, Lowered env D anonymous e first ∧ LoweredElements env D rest others
      ∧ code = first ++ (emit .arrayExtend ++ others)

/-- Code that puts entries into the object on top. -/
def LoweredEntries (env : Environment) (D : Draft) : List ObjectElement → Code → Prop
  | [], code => code = []
  | .entry key value :: rest, code =>
    ∃ first second others, Lowered env D anonymous key first ∧ Lowered env D anonymous value second
      ∧ LoweredEntries env D rest others ∧ code = first ++ (second ++ (emit .objectPush ++ others))
  | .spread e :: rest, code =>
    ∃ first others, Lowered env D anonymous e first ∧ LoweredEntries env D rest others
      ∧ code = first ++ (emit .objectMerge ++ others)

/-- Code of the definitions of a block. -/
def LoweredDefinitions (env : Environment) (D : Draft) : List (Pattern × Expr) → Code → Prop
  | [], code => code = []
  | (p, value) :: rest, code =>
    ∃ first second os, Lowered env D (definedName p) value first
      ∧ LoweredPattern env D none p second ∧ LoweredDefinitions env D rest os
      ∧ code = first ++ (second ++ os)

/-- **`code` takes the value on top apart into slots.** -/
def LoweredPattern (env : Environment) (D : Draft) (a : Option String) :
    Pattern → Code → Prop
  | .name n, code =>
    ∃ slot, Entries.get? D.block.names n = some slot ∧ slot < UInt32.size
      ∧ code = emit (.writeLocal 0 (UInt32.ofNat slot))
  | .checked p schema, code =>
    ∃ k inner, D.HasConstant k schema ∧ schema.isData ∧ LoweredPattern env D none p inner
      ∧ code = emitBinding (.validate k) a ++ inner
  | .array es, code =>
    ArrayCode D false es (LoweredRest env D 0 es)
      (LoweredFixed env D false 1 es) code
  | .object xs, code => ObjectCode D false xs (LoweredProperties env D false xs) code

/-- Code that cuts the rest off the array on top. -/
def LoweredRest (env : Environment) (D : Draft) (count : Nat) :
    List ArrayPatternElement → Code → Prop
  | [], code => code = []
  | .rest p :: _, code =>
    ∃ inner, LoweredPattern env D none p inner ∧ count < UInt32.size
      ∧ code = emit (.arrayCut (UInt32.ofNat count)) ++ inner
  | .required _ :: later, code => LoweredRest env D (count + 1) later code
  | .optional _ _ :: later, code => LoweredRest env D (count + 1) later code

/-- Code that takes elements off the end of the reversed array on top. -/
def LoweredFixed (env : Environment) (D : Draft) (arguments : Bool) (position : Nat) :
    List ArrayPatternElement → Code → Prop
  | [], code => code = []
  | .rest _ :: _, code => code = []
  | .required pattern :: later, code =>
    ∃ inner others, LoweredPattern env D (positionLabel arguments position pattern) pattern inner
      ∧ LoweredFixed env D arguments (position + 1) later others ∧ position < UInt32.size
      ∧ code = emitBinding (.arrayPop (UInt32.ofNat position))
          (positionLabel arguments position pattern) ++ (inner ++ others)
  | .optional pattern default :: later, code =>
    ∃ absent inner others, Lowered env D anonymous default absent
      ∧ LoweredPattern env D (positionLabel arguments position pattern) pattern inner
      ∧ LoweredFixed env D arguments (position + 1) later others ∧ absent.width < UInt32.size
      ∧ code = emit (.arrayPopOrDefault (distance absent)) ++ (absent ++ (inner ++ others))

/-- Code that takes properties off the object on top. -/
def LoweredProperties (env : Environment) (D : Draft) (arguments : Bool) :
    List ObjectPatternElement → Code → Prop
  | [], code => code = emit .discard
  | .rest pattern :: _, code => LoweredPattern env D none pattern code
  | .property key pattern none :: later, code =>
    ∃ k inner others, D.HasConstant k (.string key)
      ∧ LoweredPattern env D (keyLabel arguments key pattern) pattern inner
      ∧ LoweredProperties env D arguments later others
      ∧ code = emitBinding (.objectPop k) (keyLabel arguments key pattern) ++ (inner ++ others)
  | .property key pattern (some default) :: later, code =>
    ∃ k absent inner others, D.HasConstant k (.string key) ∧ Lowered env D anonymous default absent
      ∧ LoweredPattern env D (keyLabel arguments key pattern) pattern inner
      ∧ LoweredProperties env D arguments later others ∧ absent.width < UInt32.size
      ∧ code = emit (.objectPopOrDefault k (distance absent)) ++ (absent ++ (inner ++ others))
end

/-! ## Whole programs -/

/-- What library code sees: not the names of the host. -/
def Environment.ofLibrary (env : Environment) : Environment := { env with names := [] }

/-- The scope of library definitions. -/
def libraryScope (retained : List (String × Expr)) : Block :=
  Block.ofLibrary.declareAll (retained.map (·.1))

open Code in
/-- Code of library definitions, in the slots from `slot` on. -/
def LoweredLibrary (env : Environment) (D : Draft) (slot : Nat) :
    List (String × Expr) → Code → Prop
  | [], code => code = []
  | (name, e) :: rest, code =>
    ∃ first os, Lowered env D name e first ∧ LoweredLibrary env D (slot + 1) rest os
      ∧ slot < UInt32.size
      ∧ code = first ++ (emit (.writeLocal 0 (UInt32.ofNat slot)) ++ os)

open Code Lower in
/-- Code of an expression in the scope of library definitions. -/
def LoweredWithLibrary (env : Environment) (D : Draft) (retained : List (String × Expr)) (e : Expr)
    (code : Code) : Prop :=
  ∃ ds last captured,
    LoweredLibrary env.ofLibrary (D.inBlock (libraryScope retained)) 0 retained ds
    ∧ Lowered env (D.inBlock (libraryScope retained)) anonymous e last
    ∧ (libraryScope retained).reserved < UInt32.size
    ∧ code = emit (.pushScope 0) ++ (reserveSlots (libraryScope retained) ++ (ds
        ++ (last ++ (detachSlots { captured } ++ emit .popScope))))

/-- **The program's own code.** -/
def LoweredMain (env : Environment) (D : Draft) (e : Expr) (code : Code) : Prop :=
  ∃ body, code = body ++ Code.emit .ret ∧
    if (env.retained e).isEmpty then Lowered env D Lower.anonymous e body
    else LoweredWithLibrary env D (env.retained e) e body

/-- A program that is tested. -/
lemma Expr.lowers_of_any {e : Expr} {env test}
    (h : (e.lower env).toOption.any test = true) : ∃ p, e.lower env = .ok p ∧ test p = true := by
  cases hp : e.lower env with
  | error e =>
    rw [hp] at h
    cases h
  | ok p =>
    rw [hp] at h
    exact ⟨p, rfl, h⟩

end TreeCode
