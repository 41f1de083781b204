import SchemaLift.Declaration.Flatten
import SchemaLift.Proofs.Token.Slice
import SchemaLift.Proofs.Type.Expression

/-!
# The spelling of a type expression

A type expression that stands in a line is read again from its tokens as they are spelled
(`Inline.parse_spelling`): white space around it belongs to none of its tokens.
-/

namespace SchemaLift.TypeExpression

open Scan

/-! ## Tokens of type expressions -/

/-- The tokens of a single character among those of type expressions. -/
def marks : List Char := ['!', '{', '}', '[', ']', '.']

theorem mem_marks_of_punctuation {c : Char} {kind : TokenKind} (h : punctuation c = some kind)
    (hk : kind ∈ tokenKinds) : c ∈ marks := by
  unfold punctuation at h
  split at h <;> first | decide | cases h
  all_goals exact absurd hk (by decide)

theorem afterColon_tokenKinds (cs : Text) : (afterColon cs).1.any tokenKinds.contains = false := by
  have hkinds : ∀ kind ∈ [TokenKind.scope, .symbol, .colon], tokenKinds.contains kind = false := by
    decide
  rcases afterColon_cases cs with ⟨kind, hk, n, h⟩ | ⟨n, rest, -, -, h⟩
  · rw [h]
    exact hkinds kind hk
  · rw [h]
    rfl

theorem afterAt_tokenKinds (cs : Text) : (afterAt cs).1.any tokenKinds.contains = false := by
  rcases afterAt_cases cs with ⟨n, h⟩ | h <;>
  · rw [h]
    rfl

/-- A token of a type expression is a word, an arrow or a mark. -/
theorem head_cases {c : Char} {cs : Text} {kind : TokenKind} (h : (head c cs).1 = some kind)
    (hk : kind ∈ tokenKinds) :
    (kind = .constant ∨ kind = .identifier) ∨
      (c = '-' ∧ cs.head? = some '>' ∧ (head c cs).2 = 1) ∨
      (c ∈ marks ∧ (head c cs).2 = 0) := by
  have hother : ∀ {found : Option TokenKind} {P : Prop}, found.any tokenKinds.contains = false →
      found = some kind → P := by
    rintro found P hfound rfl
    rw [Option.any_some, List.contains_iff_mem.2 hk] at hfound
    cases hfound
  refine Scan.head_cases (P := fun found => found.1 = some kind →
    (kind = .constant ∨ kind = .identifier) ∨ (c = '-' ∧ cs.head? = some '>' ∧ found.2 = 1) ∨
      (c ∈ marks ∧ found.2 = 0)) c cs (fun _ => ?_) (fun _ => ?_)
    (fun _ => hother (afterColon_tokenKinds cs)) (fun _ => hother rfl)
    (fun _ => hother (afterAt_tokenKinds cs)) (fun _ => ?_) (fun _ => hother rfl) (fun _ hword => ?_)
    (fun hc harrow _ => .inr (.inl ⟨hc, harrow, rfl⟩)) (fun _ _ => hother rfl) (fun _ => hother rfl)
    (fun hmark => .inr (.inr ⟨mem_marks_of_punctuation hmark hk, rfl⟩)) h
  · split <;> exact hother rfl
  · split <;> exact hother rfl
  · split <;> exact hother rfl
  · obtain rfl := Option.some.inj hword
    have hkinds : ∀ kind ∈ tokenKinds, kind.isWord = true → kind = .constant ∨ kind = .identifier := by
      decide
    exact .inl (hkinds _ hk (word_isWord c cs))

/-! ## Characters -/

/-- The characters of the tokens in a type expression. -/
def isTokenChar (c : Char) : Bool := isWordChar c || (marks ++ [':', '?', '-', '>']).contains c

theorem isTokenChar_of_isWordChar {c : Char} (h : isWordChar c = true) : isTokenChar c = true := by
  rw [isTokenChar, h, Bool.true_or]

theorem isTokenChar_constantPath {path : Text} (h : ConstantPath path) :
    ∀ d ∈ path, isTokenChar d = true := by
  intro d hd
  rcases h.forall_mem d hd with hw | rfl
  · exact isTokenChar_of_isWordChar hw
  · decide

theorem isTokenChar_identifier {w : Text} (h : Identifier w) : ∀ d ∈ w, isTokenChar d = true := by
  intro d hd
  rcases h.mem hd with hword | rfl | rfl
  · exact isTokenChar_of_isWordChar hword
  · decide
  · decide

theorem isTokenChar_of_mem_pieces {s w : Text} {kind : TokenKind} (h : ⟨some kind, w⟩ ∈ pieces s)
    (hk : kind ∈ tokenKinds) : ∀ d ∈ w, isTokenChar d = true := by
  obtain ⟨c, cs, hkind, rfl⟩ := head_of_mem_pieces h
  rcases head_cases hkind hk with (rfl | rfl) | ⟨rfl, harrow, htwo⟩ | ⟨hc, hone⟩
  · exact isTokenChar_constantPath (constantPath_of_head hkind)
  · exact isTokenChar_identifier (identifier_of_head hkind)
  · rw [htwo, List.take_one, harrow]
    exact List.forall_mem_cons.2 ⟨by decide, List.forall_mem_cons.2 ⟨by decide, by simp⟩⟩
  · rw [hone, List.take_zero]
    intro d hd
    rw [List.mem_singleton.1 hd, isTokenChar, List.contains_iff_mem.2 (List.mem_append_left _ hc),
      Bool.or_true]

/-! ## Reading tokens again -/

/-- The text before the first token is not read. -/
theorem level_gap (gap : Text) (t : Token) (ts : List Token) :
    level ({ t with gap } :: ts) = level (t :: ts) := by
  have hwrappers : wrappers [] ({ t with gap } :: ts) = wrappers [] (t :: ts) ∨
      (wrappers [] ({ t with gap } :: ts) = ([], { t with gap } :: ts) ∧
        wrappers [] (t :: ts) = ([], t :: ts)) := by
    have hword : ({ t with gap } : Token).isWord "types" = t.isWord "types" := rfl
    rw [wrappers.eq_def [] (_ :: ts), wrappers.eq_def [] (t :: ts)]
    simp only [hword]
    split
    · exact .inl rfl
    split
    · exact .inl rfl
    split
    · cases ts with
      | nil => exact .inr ⟨rfl, rfl⟩
      | cons u us =>
        simp only
        split
        · exact .inl rfl
        · exact .inr ⟨rfl, rfl⟩
    · exact .inr ⟨rfl, rfl⟩
  have hnamed : named ({ t with gap } :: ts) = named (t :: ts) := by cases ts <;> rfl
  unfold level
  rcases hwrappers with hsame | ⟨hnew, hold⟩
  · rw [hsame]
  · rw [hnew, hold]
    simp only [hnamed]

theorem ofTokens_addGap (gap : Text) (ts : List Token) :
    ofTokens (Token.addGap gap ts) = ofTokens ts := by
  cases ts with
  | nil => rfl
  | cons t ts =>
    have hlevel := level_gap (gap ++ t.gap) t ts
    have hdeferral : afterDeferral ({ t with gap := gap ++ t.gap } :: ts) =
        afterDeferral (t :: ts) := rfl
    rw [Token.addGap_cons]
    by_cases hbang : (t :: ts).head?.any (·.is .bang) = true
    · have hnew : ({ t with gap := gap ++ t.gap } :: ts).head?.any (·.is .bang) = true := hbang
      unfold ofTokens
      simp only [hnew, hbang, ↓reduceIte, List.tail_cons]
    · have hnew : ¬({ t with gap := gap ++ t.gap } :: ts).head?.any (·.is .bang) = true := hbang
      unfold ofTokens
      simp only [hnew, hbang, hdeferral, hlevel, Bool.false_eq_true, ↓reduceIte]

/-! ## Expressions in a line -/

/-- A text that is read as a type expression, with no comment in it and only spaces outside its
tokens. -/
structure Inline (type : Text) (t : TypeExpression) : Prop where
  parse : TypeExpression.parse type = some t
  code : ∀ u ∈ tokenize type, u.kind ≠ .comment
  gaps : ∀ u ∈ tokenize type, ∀ c ∈ u.gap, c = ' '
  tail : ∀ c ∈ (TokenStream.ofText type).tail, c = ' '

namespace Inline

variable {type : Text} {t : TypeExpression} (h : Inline type t)
include h

theorem tokenizeCode_eq : tokenizeCode type = tokenize type := Token.dropComments_eq_self h.code

theorem ofTokens_eq : ofTokens (tokenize type) = some t := by
  rw [← h.tokenizeCode_eq]
  exact h.parse

theorem stretch : tokenize type ≠ [] ∧ Stretch 0 (tokenize type) 0 :=
  have hspec := ofTokens_spec h.ofTokens_eq
  ⟨hspec.1, hspec.2.1⟩

theorem base : Base t.base :=
  (ofTokens_spec h.ofTokens_eq).2.2 (by rw [← h.tokenizeCode_eq]; exact worded_tokenizeCode type)

theorem isTokenChar_or_space : ∀ d ∈ type, isTokenChar d = true ∨ d = ' ' := by
  intro d hd
  rw [← pieces_text type] at hd
  obtain ⟨⟨kind, text⟩, hp, hd⟩ := List.mem_flatMap.1 hd
  cases kind with
  | none =>
    rcases TokenStream.mem_gap_or_tail (g := []) hp hd with ⟨u, hu, hgap⟩ | htail
    · exact .inr (h.gaps u hu d hgap)
    · exact .inr (h.tail d htail)
  | some kind =>
    obtain ⟨u, hu, rfl, -⟩ := TokenStream.exists_mem_tokens (g := []) hp
    exact .inl (isTokenChar_of_mem_pieces hp (h.stretch.2.kinds u hu) d hd)

/-- The tokens are found again in their spelling. -/
theorem tokenize_spelling : ∃ gap,
    tokenize type = Token.addGap gap (tokenize (Token.spelling (tokenize type))) := by
  obtain ⟨u, us, htokens⟩ := List.exists_cons_of_ne_nil h.stretch.1
  have hwhole : tokenize type = [] ++ u :: (us ++ []) := by simpa using htokens
  have hspelling : tokenize (Token.spelling (u :: us)) = { u with gap := [] } :: us :=
    SchemaLift.tokenize_spelling hwhole
  refine ⟨u.gap, ?_⟩
  rw [htokens, hspelling, Token.addGap_cons, List.append_nil]

theorem kind_of_mem_spelling :
    ∀ u ∈ tokenize (Token.spelling (tokenize type)), u.kind ∈ tokenKinds := by
  intro u hu
  obtain ⟨gap, htokens⟩ := h.tokenize_spelling
  obtain ⟨v, hv, hkind⟩ : ∃ v ∈ Token.addGap gap (tokenize (Token.spelling (tokenize type))),
      v.kind = u.kind := Token.exists_mem_addGap hu
  rw [← htokens] at hv
  rw [← hkind]
  exact h.stretch.2.kinds v hv

/-- The spelling is read as the same expression. -/
theorem parse_spelling : TypeExpression.parse (Token.spelling (tokenize type)) = some t := by
  obtain ⟨gap, htokens⟩ := h.tokenize_spelling
  have hcode : tokenizeCode (Token.spelling (tokenize type)) =
      tokenize (Token.spelling (tokenize type)) := by
    apply Token.dropComments_eq_self
    intro u hu hkind
    have hmem := h.kind_of_mem_spelling u hu
    rw [hkind] at hmem
    revert hmem
    decide
  have hsome := h.ofTokens_eq
  rw [htokens, ofTokens_addGap] at hsome
  rw [TypeExpression.parse, hcode, hsome]

/-- The spelling is no string literal. -/
theorem isStringLiteral_spelling :
    Declaration.isStringLiteral (Token.spelling (tokenize type)) = false := by
  unfold Declaration.isStringLiteral
  split
  · rename_i u hu
    have hkind := h.kind_of_mem_spelling u (by rw [hu]; exact List.mem_cons_self)
    generalize u.kind = kind at hkind
    revert hkind
    cases kind <;> decide
  · rfl

end Inline

end SchemaLift.TypeExpression
