import Mathlib.Tactic.Lemma
import TreeCode.Expr.Reader

/-!
# The data form of a tree

`Expr.render` and `Pattern.render` write a tree as data, each node as an object with the key of its
form. The reader looks for these keys in a fixed order, and some of them stand for different things
in different places. Nevertheless it reads every tree back from its data form, so that two trees
never have the same one (`Expr.read_render`).
-/

namespace TreeCode

open TreeCode.Expr

mutual
/-- **The data form of an expression.** -/
def Expr.render : Expr → Value
  | .literal value => .object [("literal", value)]
  | .name n none => .object [("name", .string n)]
  | .name n (some module) => .object [("name", .string n), ("from", .string module)]
  | .array es => .object [("array", .array (renderElements es))]
  | .object xs => .object [("object", .array (renderEntries xs))]
  | .defining ds r => .object [("defining", .array (renderDefinitions ds)), ("result", r.render)]
  | .given params nps r =>
    .object [("given", .object [("params", .array (renderParams params)),
      ("namedParams", .array (renderNamedParams nps))]), ("result", r.render)]
  | .calling f args namedArgs =>
    .object [("calling", f.render), ("args", .array (renderElements args)),
      ("namedArgs", .array (renderEntries namedArgs))]
  | .indexing coll key => .object [("indexing", coll.render), ("at", key.render)]
  | .catching inner => .object [("catching", inner.render)]
def renderElements : List ArrayElement → List Value
  | [] => []
  | .item e :: rest => e.render :: renderElements rest
  | .spread e :: rest => .object [("spread", e.render)] :: renderElements rest
def renderEntries : List ObjectElement → List Value
  | [] => []
  | .entry key value :: rest => .array [key.render, value.render] :: renderEntries rest
  | .spread e :: rest => .object [("spread", e.render)] :: renderEntries rest
def renderDefinitions : List (Pattern × Expr) → List Value
  | [] => []
  | (p, value) :: rest => .array [p.render, value.render] :: renderDefinitions rest
/-- **The data form of a pattern.** -/
def Pattern.render : Pattern → Value
  | .name n => .string n
  | .array es => .object [("arrayPattern", .array (renderParams es))]
  | .object xs => .object [("objectPattern", .array (renderNamedParams xs))]
  | .checked p schema => .object [("checked", p.render), ("schema", schema)]
/-- The data forms of the elements of an array pattern, or of positional parameters. -/
def renderParams : List ArrayPatternElement → List Value
  | [] => []
  | .required p :: rest => p.render :: renderParams rest
  | .optional p default :: rest =>
    .object [("name", p.render), ("defaultValue", default.render)] :: renderParams rest
  | .rest p :: rest => .object [("rest", p.render)] :: renderParams rest
/-- The data forms of the entries of an object pattern, or of named parameters. -/
def renderNamedParams : List ObjectPatternElement → List Value
  | [] => []
  | .property key p none :: rest =>
    .object [("key", .string key), ("name", p.render)] :: renderNamedParams rest
  | .property key p (some default) :: rest =>
    .object [("key", .string key), ("name", p.render), ("defaultValue", default.render)]
      :: renderNamedParams rest
  | .rest p :: rest => .object [("rest", p.render)] :: renderNamedParams rest
end

namespace Reader

/-! ## Reading a form -/

variable {ε α β : Type}

@[local simp]
lemma map_ok (f : α → β) (a) : f <$> (.ok a : Except ε α) = .ok (f a) := rfl

@[local simp]
lemma ok_bind (f : α → Except ε β) (a) : (.ok a : Except ε α) >>= f = f a := rfl

@[local simp]
lemma get?_object (node key) :
    (Value.object node).get? key = Entries.get? node key := rfl

@[local simp]
lemma get?_array (list key) : (Value.array list).get? key = none := rfl

@[local simp]
lemma get?_string (s key) : (Value.string s).get? key = none := rfl

/-- An expression is not taken for a spread. -/
lemma get?_spread_render (e : Expr) : e.render.get? "spread" = none := by
  cases e with
  | name n src => cases src <;> simp [render, Entries.get?]
  | _ => simp [render, Entries.get?]

/-- A pattern is not taken for a rest or for an optional element. -/
lemma get?_element_render (p : Pattern) :
    p.render.get? "rest" = none ∧ p.render.get? "defaultValue" = none := by
  cases p <;> simp [Pattern.render, Entries.get?]

lemma element_render (e : Expr) : element e.render = .item <$> expr e.render := by
  rw [element]
  split
  · next h => cases (get?_spread_render e).symm.trans h
  · rfl

lemma arrayPatternElement_render (p : Pattern) :
    arrayPatternElement p.render = .required <$> pattern p.render := by
  rw [arrayPatternElement]
  split
  · next h => cases (get?_element_render p).1.symm.trans h
  · split
    · next h => cases (get?_element_render p).2.symm.trans h
    · rfl

/-! ## Reading a tree back -/

attribute [local simp] Entries.get? Entries.contains

mutual
/-- **An expression is read back from its data form.** -/
theorem expr_render : ∀ e, expr e.render = .ok e
  | .literal _ => by simp [render, expr]
  | .name _ none | .name _ (some _) => by simp [render, expr, nameOf?]
  | .array es => by simp [render, expr, elements, elementList_render es]
  | .object es => by simp [render, expr, entries, entryList_render es]
  | .defining ds e => by simp [render, expr, result, definitions_render ds, expr_render e]
  | .given ps ns e => by
    simp [render, expr, positionalParams, namedParams, arrayPattern, objectPattern, result,
      arrayPatternList_render ps, objectPatternList_render ns, expr_render e]
  | .calling e es ns => by
    simp [render, expr, positionalArgs, namedArgs, elements, entries, expr_render e,
      elementList_render es, entryList_render ns]
  | .indexing e key => by simp [render, expr, expr_render e, expr_render key]
  | .catching e => by simp [render, expr, expr_render e]
lemma elementList_render : ∀ es, elementList (renderElements es) = .ok es
  | [] => by simp [renderElements, elementList]
  | .item e :: rest => by
    simp [renderElements, elementList, element_render, expr_render e, elementList_render rest]
  | .spread e :: rest => by
    simp [renderElements, elementList, element, expr_render e, elementList_render rest]
lemma entryList_render : ∀ es, entryList (renderEntries es) = .ok es
  | [] => by simp [renderEntries, entryList]
  | .entry key e :: rest => by
    simp [renderEntries, entryList, entry, expr_render key, expr_render e, entryList_render rest]
  | .spread e :: rest => by
    simp [renderEntries, entryList, entry, expr_render e, entryList_render rest]
lemma definitions_render : ∀ ds : List (Pattern × Expr), definitions (renderDefinitions ds) = .ok ds
  | [] => by simp [renderDefinitions, definitions]
  | (p, e) :: rest => by
    simp [renderDefinitions, definitions, definition, pattern_render p, expr_render e,
      definitions_render rest]
/-- **A pattern is read back from its data form.** -/
theorem pattern_render : ∀ p, pattern p.render = .ok p
  | .name _ => by simp [Pattern.render, pattern]
  | .array es => by simp [Pattern.render, pattern, arrayPattern, arrayPatternList_render es]
  | .object es => by simp [Pattern.render, pattern, objectPattern, objectPatternList_render es]
  | .checked p _ => by simp [Pattern.render, pattern, pattern_render p]
lemma arrayPatternList_render : ∀ es, arrayPatternList (renderParams es) = .ok es
  | [] => by simp [renderParams, arrayPatternList]
  | .required p :: rest => by
    simp [renderParams, arrayPatternList, arrayPatternElement_render, pattern_render p,
      arrayPatternList_render rest]
  | .optional p e :: rest => by
    simp [renderParams, arrayPatternList, arrayPatternElement, pattern_render p, expr_render e,
      arrayPatternList_render rest]
  | .rest p :: rest => by
    simp [renderParams, arrayPatternList, arrayPatternElement, pattern_render p,
      arrayPatternList_render rest]
lemma objectPatternList_render : ∀ es, objectPatternList (renderNamedParams es) = .ok es
  | [] => by simp [renderNamedParams, objectPatternList]
  | .property key p none :: rest => by
    simp [renderNamedParams, objectPatternList, objectPatternElement, propertyTarget,
      propertyDefault,
      pattern_render p, objectPatternList_render rest]
  | .property key p (some e) :: rest => by
    simp [renderNamedParams, objectPatternList, objectPatternElement, propertyTarget,
      propertyDefault,
      pattern_render p, expr_render e, objectPatternList_render rest]
  | .rest p :: rest => by
    simp [renderNamedParams, objectPatternList, objectPatternElement, pattern_render p,
      objectPatternList_render rest]
end

end Reader

/-- **Every tree has a data form of its own**: it is read back from it, and so is every pattern, so
that no two trees and no two patterns have the same. -/
theorem Expr.read_render : (∀ e : Expr, Expr.ofValue e.render = .ok e)
    ∧ (∀ p : Pattern, Pattern.ofValue p.render = .ok p)
    ∧ Function.Injective Expr.render ∧ Function.Injective Pattern.render := by
  refine ⟨Reader.expr_render, Reader.pattern_render, fun e e' h => ?_, fun p p' h => ?_⟩
  · exact Except.ok.inj ((Reader.expr_render e).symm.trans (h ▸ Reader.expr_render e'))
  · exact Except.ok.inj ((Reader.pattern_render p).symm.trans (h ▸ Reader.pattern_render p'))

end TreeCode
