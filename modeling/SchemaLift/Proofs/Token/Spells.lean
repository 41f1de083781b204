import SchemaLift.Proofs.Token.Slice
import SchemaLift.Text.Lines

/-!
# Texts with known tokens

`Spells text ts` says that a text has the tokens `ts`, whatever follows that continues none of them. It
holds of the source of some tokens (`spells_spelling`), and texts are put together with their tokens.
-/

namespace SchemaLift

namespace Token

/-- Tokens without the text before the first one. -/
def bare : List Token → List Token
  | [] => []
  | t :: ts => { t with gap := [] } :: ts

theorem addGap_nil_left (ts : List Token) : addGap [] ts = ts := by
  cases ts <;> rfl

theorem bare_ne_nil {ts : List Token} (h : ts ≠ []) : bare ts ≠ [] := by
  cases ts with
  | nil => exact h
  | cons t ts => exact List.cons_ne_nil _ _

theorem map_kind_addGap (gap : Text) (ts : List Token) :
    (addGap gap ts).map Token.kind = ts.map Token.kind := by
  cases ts <;> rfl

theorem map_kind_bare (ts : List Token) : (bare ts).map Token.kind = ts.map Token.kind := by
  cases ts <;> rfl

theorem spelling_addGap (gap : Text) (ts : List Token) : spelling (addGap gap ts) = spelling ts := by
  cases ts <;> rfl

theorem spelling_bare (ts : List Token) : spelling (bare ts) = spelling ts := by
  cases ts <;> rfl

end Token

open Token (addGap bare spelling)

/-! ## Texts and their tokens -/

/-- In front of what continues no token, the text has just these tokens. -/
def Spells (text : Text) (ts : List Token) : Prop :=
  ∀ rest, (∀ c ∈ rest.head?, Scan.Stops c) → tokenize (text ++ rest) = ts ++ tokenize rest

namespace Spells

theorem nil : Spells [] [] := fun _ _ => rfl

theorem append {a b : Text} {ts us : List Token} (ha : Spells a ts) (hb : Spells b us)
    (hstart : ∀ c ∈ b.head?, Scan.Stops c) : Spells (a ++ b) (ts ++ us) := by
  intro rest hrest
  have hstop : ∀ c ∈ (b ++ rest).head?, Scan.Stops c := by
    cases b with
    | nil => exact hrest
    | cons c cs => exact hstart
  rw [List.append_assoc, ha _ hstop, hb rest hrest, List.append_assoc]

/-- A space in front goes into the gap of the first token. -/
theorem blank {text : Text} {ts : List Token} (h : Spells text ts) (hne : ts ≠ []) :
    Spells (' ' :: text) (addGap [' '] ts) := by
  have hspace : ∀ c ∈ [' '], Text.isBlankChar c = true := List.all_eq_true.1 (by decide)
  intro rest hrest
  rw [← Token.addGap_append hne, ← h rest hrest]
  exact tokenize_blank_append hspace _

/-- A mark of one character in front is a token of its own. -/
theorem char {c : Char} {kind : TokenKind} {text : Text} {ts : List Token}
    (hc : ∀ rest, Scan.head c rest = (some kind, 0)) (h : Spells text ts) :
    Spells (c :: text) (⟨[], kind, [c]⟩ :: ts) := by
  intro rest hrest
  rw [List.cons_append, tokenize_char kind (hc _), h rest hrest, List.cons_append]

/-- Two texts with a space between them. -/
theorem space {a b : Text} {ts us : List Token} (ha : Spells a ts) (hb : Spells b us) (hne : us ≠ []) :
    Spells (a ++ ' ' :: b) (ts ++ addGap [' '] us) := by
  refine ha.append (hb.blank hne) ?_
  intro c hc
  cases hc
  decide

theorem tokenize_eq {text : Text} {ts : List Token} (h : Spells text ts) : tokenize text = ts := by
  have hnil := h [] (by rintro c ⟨⟩)
  rwa [List.append_nil, show tokenize [] = [] from rfl, List.append_nil] at hnil

end Spells

/-- The source of some tokens has these tokens again, if no quote in it is left open. -/
theorem spells_spelling {s : Text} (hcode : ∀ t ∈ tokenize s, t.kind ≠ .comment)
    (hquotes : QuotesInTokens s) {ts : List Token} (hts : ts <:+: tokenize s) :
    Spells (spelling ts) (bare ts) := by
  cases ts with
  | nil => exact .nil
  | cons t ts =>
    obtain ⟨us, vs, hs⟩ := hts
    have hsplit : tokenize s = us ++ t :: (ts ++ vs) := by
      rw [← hs, List.append_assoc, List.cons_append]
    have htokens : tokenize (spelling (t :: ts)) = { t with gap := [] } :: ts :=
      tokenize_spelling hsplit
    have htail : (TokenStream.ofText (spelling (t :: ts))).tail = [] := by
      have htext := TokenStream.toText_ofText (spelling (t :: ts))
      rw [TokenStream.toText, ← tokenize, htokens] at htext
      exact List.append_right_eq_self.1 htext
    have hmem : ∀ u ∈ ts, u ∈ tokenize s := fun u hu => hs ▸ by simp [hu]
    have hinTokens : QuotesInTokens (spelling (t :: ts)) := by
      rw [QuotesInTokens, htail, htokens]
      exact ⟨List.forall_mem_cons.2 ⟨by simp, fun u hu => hquotes.1 u (hmem u hu)⟩, by simp⟩
    have hnone : ¬∃ u ∈ tokenize (spelling (t :: ts)), u.kind = .comment := by
      rw [htokens]
      rintro ⟨u, hu, hkind⟩
      rcases List.mem_cons.1 hu with rfl | hu
      · exact hcode t (hs ▸ by simp) hkind
      · exact hcode u (hmem u hu) hkind
    intro rest hrest
    rw [tokenize_append hinTokens hrest fun h => absurd h hnone, htail, htokens, Token.addGap_nil_left]
    rfl

/-! ## Stretches with spaces between them -/

/-- Stretches of tokens with `gap` in front of the first one and single spaces in front of the others. -/
def Token.spaced (gap : Text) : List (List Token) → List (List Token)
  | [] => []
  | ts :: rest => addGap gap ts :: rest.map (addGap [' '])

theorem Token.map_kind_spaced (gap : Text) (parts : List (List Token)) :
    (spaced gap parts).map (·.map Token.kind) = parts.map (·.map Token.kind) := by
  cases parts with
  | nil => rfl
  | cons ts rest => simp [spaced, map_kind_addGap, Function.comp_def]

/-- Texts with single spaces between them. -/
theorem spells_joinWith {parts : List (List Token)}
    (h : ∀ ts ∈ parts, ts ≠ [] ∧ Spells (spelling ts) (bare ts)) :
    Spells (Text.joinWith ' ' (parts.map spelling)) (Token.spaced [] (parts.map bare)).flatten := by
  induction parts with
  | nil => exact .nil
  | cons ts rest ih =>
    obtain ⟨⟨-, hts⟩, hrest⟩ := List.forall_mem_cons.1 h
    cases rest with
    | nil => simpa [Text.joinWith, Token.spaced, Token.addGap_nil_left] using hts
    | cons us rest =>
      have hus : us ≠ [] := (hrest us List.mem_cons_self).1
      have hne : bare us ++ ((rest.map bare).map (addGap [' '])).flatten ≠ [] := by
        simp [Token.bare_ne_nil hus]
      have hall := ih hrest
      simp only [List.map_cons, Token.spaced, Token.addGap_nil_left, List.flatten_cons] at hall ⊢
      have hspace := hts.space hall hne
      rwa [Token.addGap_append (Token.bare_ne_nil hus)] at hspace

end SchemaLift
