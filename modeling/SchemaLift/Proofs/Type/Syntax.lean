import SchemaLift.Type.Expression

/-!
# Type expressions as they are written

`TypeSyntax` is a type expression with every mark and every method call, and `Derives` says which
tokens write it. What an expression says, its name with the methods that stay, the number of its lists
and whether a mark applies outside them, is read off the syntax (`Whole.Means`). Marks inside lists say
nothing (`says_elementsUnmarked`).
-/

namespace SchemaLift

/-- A type expression as it is written, the mark and the proc around the whole apart. -/
inductive TypeSyntax where
  | constant (name : Text)
  /-- `!inner` -/
  | marked (inner : TypeSyntax)
  /-- `[element]` or `types[element]` -/
  | list (element : TypeSyntax)
  /-- `receiver.method` -/
  | call (receiver : TypeSyntax) (method : Text)
  deriving DecidableEq, Repr

namespace TypeSyntax

/-- The method that marks its receiver as non-null. -/
def nonNullMethod : Text := "to_non_null_type".toList

/-- The method that wraps its receiver in a list. -/
def listMethod : Text := "to_list_type".toList

/-! ## What an expression says -/

/-- The constant at the core. -/
def name : TypeSyntax → Text
  | constant name => name
  | marked e | list e | call e _ => e.name

/-- The methods that stay: all but those that mark or wrap. -/
def kept : TypeSyntax → List Text
  | constant _ => []
  | marked e | list e => e.kept
  | call e method => if method = nonNullMethod ∨ method = listMethod then e.kept else e.kept ++ [method]

/-- The number of lists around the constant. -/
def listDepth : TypeSyntax → Nat
  | constant _ => 0
  | marked e => e.listDepth
  | list e => e.listDepth + 1
  | call e method => if method = listMethod then e.listDepth + 1 else e.listDepth

/-- A mark applies outside the outermost list. -/
inductive NonNull : TypeSyntax → Prop
  | marked (e : TypeSyntax) : NonNull (.marked e)
  | method (e : TypeSyntax) : NonNull (.call e nonNullMethod)
  | call {e : TypeSyntax} {method : Text} (hm : method ≠ listMethod) (h : NonNull e) :
      NonNull (.call e method)

/-- The expression without any mark. -/
def unmarked : TypeSyntax → TypeSyntax
  | constant name => constant name
  | marked e => e.unmarked
  | list e => list e.unmarked
  | call e method => if method = nonNullMethod then e.unmarked else call e.unmarked method

/-- The expression without the marks inside its lists. -/
def elementsUnmarked : TypeSyntax → TypeSyntax
  | constant name => constant name
  | marked e => marked e.elementsUnmarked
  | list e => list e.unmarked
  | call e method =>
    if method = listMethod then call e.unmarked method else call e.elementsUnmarked method

theorem not_nonNull_constant (name : Text) : ¬NonNull (constant name) := by
  rintro ⟨⟩

theorem not_nonNull_list (e : TypeSyntax) : ¬NonNull (list e) := by
  rintro ⟨⟩

theorem nonNullMethod_ne_listMethod : nonNullMethod ≠ listMethod := by decide

theorem nonNull_call_iff {e : TypeSyntax} {method : Text} : NonNull (call e method) ↔
    method = nonNullMethod ∨ (method ≠ listMethod ∧ NonNull e) := by
  constructor
  · intro h
    cases h with
    | method => exact .inl rfl
    | call hm h => exact .inr ⟨hm, h⟩
  · rintro (rfl | ⟨hm, h⟩)
    · exact .method e
    · exact .call hm h

theorem name_unmarked (e : TypeSyntax) : e.unmarked.name = e.name := by
  induction e with
  | constant => rfl
  | marked e ih => exact ih
  | list e ih => exact ih
  | call e method ih =>
    rw [unmarked]
    split <;> exact ih

theorem kept_unmarked (e : TypeSyntax) : e.unmarked.kept = e.kept := by
  induction e with
  | constant => rfl
  | marked e ih => exact ih
  | list e ih => exact ih
  | call e method ih =>
    rw [unmarked, kept]
    split
    · rename_i hmethod
      rw [if_pos (.inl hmethod), ih]
    · rw [kept, ih]

theorem listDepth_unmarked (e : TypeSyntax) : e.unmarked.listDepth = e.listDepth := by
  induction e with
  | constant => rfl
  | marked e ih => exact ih
  | list e ih => exact congrArg (· + 1) ih
  | call e method ih =>
    rw [unmarked, listDepth]
    split
    · rename_i hmethod
      rw [if_neg (hmethod ▸ nonNullMethod_ne_listMethod), ih]
    · rw [listDepth, ih]

/-- Marks inside lists say nothing. -/
theorem says_elementsUnmarked (e : TypeSyntax) : e.elementsUnmarked.name = e.name ∧
    e.elementsUnmarked.kept = e.kept ∧ e.elementsUnmarked.listDepth = e.listDepth ∧
      (NonNull e.elementsUnmarked ↔ NonNull e) := by
  induction e with
  | constant => exact ⟨rfl, rfl, rfl, Iff.rfl⟩
  | marked e ih => exact ⟨ih.1, ih.2.1, ih.2.2.1, iff_of_true (.marked _) (.marked _)⟩
  | list e =>
    exact ⟨name_unmarked e, kept_unmarked e, congrArg (· + 1) (listDepth_unmarked e),
      iff_of_false (not_nonNull_list _) (not_nonNull_list _)⟩
  | call e method ih =>
    obtain ⟨hname, hkept, hdepth, hmark⟩ := ih
    rw [elementsUnmarked]
    split
    · rename_i hmethod
      have hnot : ∀ e, ¬NonNull (call e method) := by
        intro e
        rw [nonNull_call_iff, hmethod]
        rintro (h | h)
        · exact nonNullMethod_ne_listMethod h.symm
        · exact h.1 rfl
      refine ⟨name_unmarked e, ?_, ?_, iff_of_false (hnot _) (hnot _)⟩
      · simp only [kept, kept_unmarked]
      · simp only [listDepth, listDepth_unmarked]
    · refine ⟨hname, ?_, ?_, ?_⟩
      · simp only [kept, hkept]
      · simp only [listDepth, hdepth]
      · rw [nonNull_call_iff, nonNull_call_iff, hmark]

/-! ## The grammar -/

/-- The two nonterminals inside an expression. -/
inductive Nonterminal where
  /-- `level = '!' level | operand` -/
  | level
  /-- `operand = 'types'? '[' level ']' | ( 'types' '.' )? constant | operand '.' identifier` -/
  | operand
  deriving DecidableEq, Repr

/-- The tokens that write an expression. -/
inductive Derives : Nonterminal → TypeSyntax → List Token → Prop
  | marked {bang : Token} {e : TypeSyntax} {ts : List Token} (hbang : bang.kind = .bang)
      (h : Derives .level e ts) : Derives .level (.marked e) (bang :: ts)
  | operand {e : TypeSyntax} {ts : List Token} (h : Derives .operand e ts) : Derives .level e ts
  | list {opener closer : Token} {e : TypeSyntax} {ts : List Token} (hopener : opener.kind = .lbracket)
      (h : Derives .level e ts) (hcloser : closer.kind = .rbracket) :
      Derives .operand (.list e) (opener :: (ts ++ [closer]))
  | typesList {types opener closer : Token} {e : TypeSyntax} {ts : List Token}
      (htypes : types.isWord "types" = true) (hopener : opener.kind = .lbracket)
      (h : Derives .level e ts) (hcloser : closer.kind = .rbracket) :
      Derives .operand (.list e) (types :: opener :: (ts ++ [closer]))
  | constant {c : Token} (hc : c.kind = .constant) : Derives .operand (.constant c.text) [c]
  | typesConstant {types dot c : Token} (htypes : types.isWord "types" = true)
      (hdot : dot.kind = .dot) (hc : c.kind = .constant) :
      Derives .operand (.constant c.text) [types, dot, c]
  | call {e : TypeSyntax} {ts : List Token} {dot m : Token} (h : Derives .operand e ts)
      (hdot : dot.kind = .dot) (hm : m.kind = .identifier)
      (hkeep : m.text = nonNullMethod ∨ m.text = listMethod ∨ e.listDepth = 0) :
      Derives .operand (.call e m.text) (ts ++ [dot, m])

/-- A whole expression as it is written. -/
structure Whole where
  /-- Whether a mark stands before the proc or the expression. -/
  marked : Bool
  /-- Whether a proc stands around the expression. -/
  deferred : Bool
  level : TypeSyntax
  deriving DecidableEq, Repr

namespace Whole

/-- `body = ( '->' | 'lambda' | 'proc' ) '{' level '}' | level` -/
inductive Body : Bool → TypeSyntax → List Token → Prop
  | plain {e : TypeSyntax} {ts : List Token} (h : TypeSyntax.Derives .level e ts) : Body false e ts
  | deferred {word opener closer : Token} {e : TypeSyntax} {ts : List Token}
      (hword : word.kind = .arrow ∨ word.isWord "lambda" = true ∨ word.isWord "proc" = true)
      (hopener : opener.kind = .lbrace) (h : TypeSyntax.Derives .level e ts)
      (hcloser : closer.kind = .rbrace) : Body true e (word :: opener :: (ts ++ [closer]))

/-- `outer = '!'? body` -/
inductive Derives : Whole → List Token → Prop
  | unmarked {deferred : Bool} {e : TypeSyntax} {ts : List Token} (h : Body deferred e ts) :
      Derives ⟨false, deferred, e⟩ ts
  | marked {deferred : Bool} {e : TypeSyntax} {bang : Token} {ts : List Token}
      (hbang : bang.kind = .bang) (h : Body deferred e ts) : Derives ⟨true, deferred, e⟩ (bang :: ts)

/-- What a written expression says. -/
structure Means (w : Whole) (t : TypeExpression) : Prop where
  base : t.base = Scalar.canonical w.level.name ++ w.level.kept.flatMap ('.' :: ·)
  listDepth : t.listDepth = w.level.listDepth
  deferred : t.deferred = w.deferred
  nullable : t.nullable = false ↔ w.marked = true ∨ w.level.NonNull

/-- What is said depends on the name, the methods that stay, the lists, the proc and the marks. -/
theorem Means.congr {w w' : Whole} {t : TypeExpression} (h : w.Means t)
    (hname : w'.level.name = w.level.name) (hkept : w'.level.kept = w.level.kept)
    (hdepth : w'.level.listDepth = w.level.listDepth) (hdeferred : w'.deferred = w.deferred)
    (hmark : w'.marked = true ∨ w'.level.NonNull ↔ w.marked = true ∨ w.level.NonNull) : w'.Means t where
  base := by rw [h.base, hname, hkept]
  listDepth := h.listDepth.trans hdepth.symm
  deferred := h.deferred.trans hdeferred.symm
  nullable := h.nullable.trans hmark.symm

theorem Means.unique {w : Whole} {t t' : TypeExpression} (h : w.Means t) (h' : w.Means t') : t = t' := by
  have hbase : t.base = t'.base := h.base.trans h'.base.symm
  have hdepth : t.listDepth = t'.listDepth := h.listDepth.trans h'.listDepth.symm
  have hdeferred : t.deferred = t'.deferred := h.deferred.trans h'.deferred.symm
  have hnullable : t.nullable = t'.nullable := by
    have hiff : t.nullable = false ↔ t'.nullable = false := h.nullable.trans h'.nullable.symm
    cases hn' : t'.nullable with
    | false => exact hiff.2 hn'
    | true =>
      rw [← Bool.not_eq_false]
      intro hn
      rw [hiff.1 hn] at hn'
      cases hn'
  cases t
  cases t'
  simp only at hbase hdepth hdeferred hnullable
  rw [hbase, hdepth, hdeferred, hnullable]

theorem exists_means (w : Whole) : ∃ t, w.Means t := by
  by_cases hmark : w.marked = true ∨ w.level.NonNull
  · exact ⟨⟨_, false, _, _⟩, rfl, rfl, rfl, iff_of_true rfl hmark⟩
  · exact ⟨⟨_, true, _, _⟩, rfl, rfl, rfl, iff_of_false (fun h => Bool.noConfusion h) hmark⟩

end Whole

end TypeSyntax

end SchemaLift
