import SchemaLift.Proofs.Call.Parts
import SchemaLift.Proofs.Text.Indent

/-!
# The head of a rendered call

A parsed signature starts with spaces and tabs and an identifier (`parse_headed`), and so does every
call that is rendered from such a signature: its line is not blank, and its first code token is the
keyword (`Headed.tokenizeCode_render`).
-/

namespace SchemaLift

/-- Indentation reaches to the first word. -/
theorem Text.indentation_append {indent : Text} (h : IsIndent indent) {c : Char}
    (hc : Scan.isWordStart c = true) (rest : Text) : indentation (indent ++ c :: rest) = indent := by
  have hneg : ¬(c == ' ' || c == '\t') = true := by
    intro hblank
    rcases Bool.or_eq_true_iff.1 hblank with hb | hb <;>
    · rw [beq_iff_eq.1 hb] at hc
      revert hc
      decide
  have hword : indentation (c :: rest) = [] :=
    List.takeWhile_cons_of_neg (p := fun c => c == ' ' || c == '\t') hneg
  rw [indentation_indent_append h, hword, List.append_nil]

namespace Argument

/-- The text of an argument that is positional. -/
def positional? : Argument → Option Text
  | .positional text => some text
  | .keyword _ => none

/-- The keyword argument that an argument is. -/
def keyword? : Argument → Option KeywordArgument
  | .positional _ => none
  | .keyword a => some a

/-- An argument as it is rendered. -/
def text : Argument → Text
  | .positional text => text
  | .keyword a => a.render

end Argument

namespace Signature

/-- What stands first in the call: indentation, and a word that is read as one identifier. -/
structure Headed (s : Signature) : Prop where
  indent : Text.IsIndent s.indent
  keyword : Scan.Identifier s.keyword

/-! ## Parsed signatures -/

/-- Arguments change nothing but the name, the further positional arguments and the keyword arguments:
all positional ones and all keyword arguments stand there in their order. -/
theorem foldl_addArgument (s : Signature) (arguments : List Argument) :
    ∃ name positional, arguments.foldl addArgument s =
        { s with
          name, positional, keywords := s.keywords ++ arguments.filterMap Argument.keyword? } ∧
      name.toList ++ positional =
        s.name.toList ++ s.positional ++ arguments.filterMap Argument.positional? := by
  induction arguments generalizing s with
  | nil => exact ⟨s.name, s.positional, by simp, by simp⟩
  | cons a rest ih =>
    obtain ⟨name, positional, hfold, horder⟩ := ih (s.addArgument a)
    refine ⟨name, positional, ?_, ?_⟩
    · rw [List.foldl_cons, hfold]
      cases a with
      | keyword a => simp [addArgument, Argument.keyword?]
      | positional text =>
        rw [addArgument]
        split <;> simp [List.filterMap_cons, Argument.keyword?]
    · rw [horder]
      cases a with
      | keyword a => rfl
      | positional text =>
        rw [addArgument]
        split
        · rename_i hfirst
          obtain ⟨⟨hname, hpositional⟩, -⟩ : (s.name = none ∧ s.positional = []) ∧ s.keywords = [] := by
            simpa using hfirst
          simp [hname, hpositional, Argument.positional?]
        · simp [Argument.positional?]

/-- What a signature has of the parts of its text. -/
structure Parts.Yields (p : Parts) (s : Text) (sig : Signature) : Prop where
  cuts : p.Cuts (tokenizeCode s)
  indent : sig.indent = Text.indentation s
  keyword : sig.keyword = p.keyword.text
  positional : sig.name.toList ++ sig.positional = p.argumentList.filterMap Argument.positional?
  keywords : sig.keywords = p.argumentList.filterMap Argument.keyword?
  block : sig.block = if p.block = [] then none else some (Token.spelling p.block)
  comments : sig.comments = ((tokenize s).filter (·.is .comment)).map Token.text

/-- A signature is put together from the parts of its text. -/
theorem exists_parts {s : Text} {sig : Signature} (h : parse s = some sig) :
    ∃ p : Parts, p.Yields s sig := by
  obtain ⟨p, hp, rfl⟩ := parse_eq_some_iff_cuts.1 h
  obtain ⟨name, positional, hfold, horder⟩ := foldl_addArgument
    { p.frame (Text.indentation s) with
      comments := ((tokenize s).filter (·.is .comment)).map Token.text } p.argumentList
  rw [hfold]
  exact ⟨p, hp, rfl, rfl, horder, rfl, rfl, rfl⟩

theorem parse_headed {s : Text} {sig : Signature} (h : parse s = some sig) : sig.Headed := by
  obtain ⟨p, hp⟩ := exists_parts h
  have hmem : p.keyword ∈ tokenizeCode s := by
    rw [hp.cuts.tokens]
    exact List.mem_append_left _ (List.mem_of_mem_head? p.head?_call)
  refine ⟨?_, ?_⟩
  · rw [hp.indent]
    exact Text.isIndent_indentation s
  · rw [hp.keyword]
    exact identifier_of_mem_tokenizeCode hmem hp.cuts.keyword

/-- The items between the commas are stretches of the code. -/
theorem Parts.Cuts.isInfix_of_mem_items {p : Parts} {ts : List Token} (h : p.Cuts ts) {item : List Token}
    (hitem : item ∈ p.items) : item <:+: ts := by
  rw [h.tokens]
  exact (h.items.isInfix item hitem).trans
    (p.arguments_isInfix.trans (List.prefix_append p.call p.block).isInfix)

/-! ## Rendered signatures -/

theorem commaSeparated_cons (a : Text) (rest : List Text) :
    commaSeparated (a :: rest) = a ++ rest.flatMap (", ".toList ++ ·) := by
  induction rest generalizing a with
  | nil => simp [commaSeparated]
  | cons b rest ih =>
    have hcons : commaSeparated (a :: b :: rest) =
        a ++ ", ".toList ++ commaSeparated (b :: rest) := rfl
    rw [hcons, ih, List.flatMap_cons]
    simp only [List.append_assoc]

/-- A call is its indentation, its keyword, and something that does not continue the keyword. -/
theorem render_eq (s : Signature) :
    ∃ rest, Scan.Delimits rest ∧ s.render = s.indent ++ (s.keyword ++ rest) := by
  have hspace : ∀ rest, Scan.Delimits (' ' :: rest) := fun rest =>
    Scan.delimits_cons (by decide) rest
  have hcomments : ∀ cs : List Text, Scan.Delimits (cs.flatMap (' ' :: ·)) := by
    intro cs
    cases cs with
    | nil => exact Scan.delimits_nil
    | cons c cs => exact hspace _
  refine ⟨(if s.parenthesized then '(' :: commaSeparated s.arguments ++ [')']
      else if (commaSeparated s.arguments).isEmpty then []
      else ' ' :: commaSeparated s.arguments) ++
    (s.block.elim [] (' ' :: ·) ++ s.comments.flatMap (' ' :: ·)), ?_, ?_⟩
  · split
    · exact Scan.delimits_cons (by decide) _
    split
    · cases s.block with
      | none => exact hcomments s.comments
      | some opener => exact hspace _
    · exact hspace _
  · unfold render
    cases s.block <;> simp only [Option.elim, List.append_assoc, List.append_nil, List.nil_append]

namespace Headed

variable {s : Signature} (h : s.Headed)
include h

/-- The first code token of the call is its keyword. -/
theorem tokenizeCode_render :
    ∃ rest, tokenizeCode s.render = ⟨s.indent, .identifier, s.keyword⟩ :: rest := by
  obtain ⟨rest, hrest, heq⟩ := s.render_eq
  refine ⟨tokenizeCode rest, ?_⟩
  rw [heq, tokenizeCode_blank_append h.indent.isBlankChar,
    tokenizeCode_identifier_append h.keyword hrest, Token.addGap_cons, List.append_nil]

theorem isBlank_render : Text.isBlank s.render = false := by
  obtain ⟨rest, hrest⟩ := h.tokenizeCode_render
  rw [Bool.eq_false_iff]
  intro hb
  rw [tokenizeCode_of_isBlank hb] at hrest
  cases hrest

end Headed

end Signature

end SchemaLift
