import SchemaLift.Proofs.Call.Signature
import SchemaLift.Proofs.Token.Kind
import SchemaLift.Proofs.Token.Spells

/-!
# Rendered arguments

An argument is rendered from one, two or three stretches of its tokens with single spaces between them
(`text_ofTokens`). So a rendered argument has the tokens of the argument, with other gaps
(`spells_written`), and the same argument is read from them (`ofTokens_written`).
-/

namespace SchemaLift

open Token (addGap bare spelling)

namespace Argument

/-- The stretches of an argument that are rendered as they are: the key, the rocket and the value of a
keyword argument, or the whole argument. -/
def stretches (item : List Token) : List (List Token) :=
  match item with
  | key :: value :: rest =>
    if key.kind = .label then [[key], value :: rest]
    else if key.kind = .symbol ∧ value.kind = .hashRocket ∧ rest ≠ [] ∧
        ¬ [':', '"'] <+: key.text then
      [[key], [value], rest]
    else [item]
  | _ => [item]

/-- An argument is a label with a value, a symbol with a rocket and a value, or positional. -/
theorem ofTokens_cases (item : List Token) :
    (∃ key value, key.kind = .label ∧ value ≠ [] ∧ item = key :: value ∧
        stretches item = [[key], value] ∧
        ofTokens item = .keyword ⟨key.text.dropLast, spelling value, .label⟩) ∨
      (∃ key rocket value, key.kind = .symbol ∧ rocket.kind = .hashRocket ∧ value ≠ [] ∧
        item = key :: rocket :: value ∧ stretches item = [[key], [rocket], value] ∧
        ofTokens item = .keyword ⟨key.text.drop 1, spelling value, .rocket⟩) ∨
      (stretches item = [item] ∧ ofTokens item = .positional (spelling item)) := by
  match item with
  | [] => exact .inr (.inr ⟨rfl, rfl⟩)
  | [t] => exact .inr (.inr ⟨rfl, rfl⟩)
  | key :: value :: rest =>
    by_cases hlabel : key.kind = .label
    · refine .inl ⟨key, value :: rest, hlabel, List.cons_ne_nil _ _, rfl, ?_, ?_⟩
      · rw [stretches, if_pos hlabel]
      · rw [ofTokens, if_pos hlabel]
    by_cases hrocket : key.kind = .symbol ∧ value.kind = .hashRocket ∧ rest ≠ [] ∧
        ¬ [':', '"'] <+: key.text
    · refine .inr (.inl ⟨key, value, rest, hrocket.1, hrocket.2.1, hrocket.2.2.1, rfl, ?_, ?_⟩)
      · rw [stretches, if_neg hlabel, if_pos hrocket]
      · rw [ofTokens, if_neg hlabel, if_pos hrocket]
    · refine .inr (.inr ⟨?_, ?_⟩)
      · rw [stretches, if_neg hlabel, if_neg hrocket]
      · rw [ofTokens, if_neg hlabel, if_neg hrocket]

theorem flatten_stretches (item : List Token) : (stretches item).flatten = item := by
  rcases ofTokens_cases item with ⟨key, value, -, -, hitem, hstretches, -⟩ |
    ⟨key, rocket, value, -, -, -, hitem, hstretches, -⟩ | ⟨hstretches, -⟩ <;>
  · rw [hstretches]
    simp [*]

theorem ne_nil_of_mem_stretches {item : List Token} (h : item ≠ []) :
    ∀ ts ∈ stretches item, ts ≠ [] := by
  rcases ofTokens_cases item with ⟨key, value, -, hvalue, -, hstretches, -⟩ |
    ⟨key, rocket, value, -, -, hvalue, -, hstretches, -⟩ | ⟨hstretches, -⟩ <;>
  · rw [hstretches]
    simp [*]

/-- A stretch of an argument is one of the text that the argument is in. -/
theorem isInfix_of_mem_stretches {item ts : List Token} (h : ts ∈ stretches item) : ts <:+: item := by
  obtain ⟨before, after, hsplit⟩ := List.append_of_mem h
  have hflatten := flatten_stretches item
  rw [hsplit, List.flatten_append, List.flatten_cons] at hflatten
  exact ⟨before.flatten, after.flatten, by rw [List.append_assoc, hflatten]⟩

/-- An argument is rendered with single spaces between its stretches. -/
theorem text_ofTokens {item : List Token} (h : ∀ t ∈ item, t.kind.Writes t.text) :
    (ofTokens item).text = Text.joinWith ' ' ((stretches item).map spelling) := by
  rcases ofTokens_cases item with ⟨key, value, hlabel, -, hitem, hstretches, hargument⟩ |
    ⟨key, rocket, value, hsymbol, hrocket, -, hitem, hstretches, hargument⟩ | ⟨hstretches, hargument⟩
  · have hkey := h key (by simp [hitem])
    rw [hlabel] at hkey
    obtain ⟨name, hname⟩ := hkey
    rw [hstretches, hargument]
    simp [text, KeywordArgument.render, Text.joinWith, spelling, hname]
  · have hkey := h key (by simp [hitem])
    have harrow := h rocket (by simp [hitem])
    rw [hsymbol] at hkey
    rw [hrocket] at harrow
    obtain ⟨name, hname⟩ := hkey
    have harrow : rocket.text = ['=', '>'] := harrow
    rw [hstretches, hargument]
    simp [text, KeywordArgument.render, Text.joinWith, spelling, hname, harrow]
  · rw [hstretches, hargument]
    rfl

/-- The tokens of an argument as it is rendered. -/
def written (item : List Token) : List Token := (Token.spaced [] ((stretches item).map bare)).flatten

theorem map_kind_written (item : List Token) : (written item).map Token.kind = item.map Token.kind := by
  conv_rhs => rw [← flatten_stretches item]
  rw [written, List.map_flatten, Token.map_kind_spaced, List.map_map, List.map_flatten]
  simp only [Function.comp_def, Token.map_kind_bare]

theorem written_ne_nil {item : List Token} (h : item ≠ []) : written item ≠ [] := by
  intro hnil
  have hkinds := map_kind_written item
  rw [hnil] at hkinds
  exact h (List.map_eq_nil_iff.1 hkinds.symm)

theorem ofTokens_addGap (gap : Text) (item : List Token) :
    ofTokens (addGap gap item) = ofTokens item := by
  match item with
  | [] => rfl
  | [t] => rfl
  | key :: value :: rest => rfl

/-- The same argument is read again. -/
theorem ofTokens_written (item : List Token) : ofTokens (written item) = ofTokens item := by
  have hbare : ofTokens (bare item) = ofTokens item := by
    match item with
    | [] => rfl
    | [t] => rfl
    | key :: value :: rest => rfl
  have hone : (Token.spaced [] ([item].map bare)).flatten = bare item := by
    simp [Token.spaced, Token.addGap_nil_left]
  unfold written stretches
  split
  · rename_i key value rest
    split
    · rename_i hlabel
      have hcons : (Token.spaced [] ([[key], value :: rest].map bare)).flatten =
          { key with gap := [] } :: { value with gap := [' '] } :: rest := by
        simp [Token.spaced, bare]
      rw [hcons, ofTokens, ofTokens, if_pos hlabel, if_pos hlabel]
      rfl
    split
    · rename_i hlabel hrocket
      obtain ⟨t, ts, hrest⟩ := List.exists_cons_of_ne_nil hrocket.2.2.1
      have hcons : (Token.spaced [] ([[key], [value], rest].map bare)).flatten =
          { key with gap := [] } :: { value with gap := [' '] } :: { t with gap := [' '] } :: ts := by
        simp [Token.spaced, bare, hrest]
      rw [hcons, ofTokens, ofTokens, if_neg hlabel, if_neg hlabel, if_pos hrocket,
        if_pos ⟨hrocket.1, hrocket.2.1, List.cons_ne_nil _ _, hrocket.2.2.2⟩, hrest]
      rfl
    · rw [hone, hbare]
  · rw [hone, hbare]

/-- An argument is rendered to a text with its tokens. -/
theorem spells_written {s : Text} (hcode : ∀ t ∈ tokenize s, t.kind ≠ .comment)
    (hquotes : QuotesInTokens s) {item : List Token} (hitem : item <:+: tokenize s)
    (hne : item ≠ []) : Spells (ofTokens item).text (written item) := by
  rw [text_ofTokens fun t ht => writes_of_mem_tokenize (hitem.subset ht)]
  exact spells_joinWith fun ts hts => ⟨ne_nil_of_mem_stretches hne ts hts,
    spells_spelling hcode hquotes ((isInfix_of_mem_stretches hts).trans hitem)⟩

end Argument

end SchemaLift
