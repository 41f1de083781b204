import SchemaLift.Proofs.Token.Scan
import SchemaLift.Token.Stream

/-!
# Tokens at the head of a text

White space before a text goes into the gap of its first token and changes nothing else
(`tokenizeCode_blank_append`). A word at the head of a text is its first token
(`tokenizeCode_identifier_append`), and each token that the scanner calls an identifier is such a
word (`identifier_of_mem_tokenizeCode`).
-/

namespace SchemaLift

namespace Token

/-- Puts a text before the first token of a list. -/
def addGap (gap : Text) : List Token → List Token
  | [] => []
  | t :: ts => { t with gap := gap ++ t.gap } :: ts

@[simp] theorem addGap_nil (gap : Text) : addGap gap [] = [] := rfl

@[simp] theorem addGap_cons (gap : Text) (t : Token) (ts : List Token) :
    addGap gap (t :: ts) = { t with gap := gap ++ t.gap } :: ts := rfl

theorem addGap_addGap (g g' : Text) (ts : List Token) : addGap g (addGap g' ts) = addGap (g ++ g') ts := by
  cases ts with
  | nil => rfl
  | cons t ts => rw [addGap_cons, addGap_cons, addGap_cons, List.append_assoc]

theorem addGap_append {gap : Text} {ts : List Token} (h : ts ≠ []) (us : List Token) :
    addGap gap (ts ++ us) = addGap gap ts ++ us := by
  cases ts with
  | nil => exact absurd rfl h
  | cons t ts => rfl

theorem exists_mem_addGap {gap : Text} {ts : List Token} {t : Token} (h : t ∈ ts) :
    ∃ u ∈ addGap gap ts, u.kind = t.kind := by
  cases ts with
  | nil => cases h
  | cons v vs =>
    rcases List.mem_cons.1 h with rfl | hmem
    · exact ⟨_, List.mem_cons_self, rfl⟩
    · exact ⟨t, List.mem_cons_of_mem _ hmem, rfl⟩

theorem exists_of_mem_addGap {gap : Text} {ts : List Token} {t : Token} (h : t ∈ addGap gap ts) :
    ∃ u ∈ ts, u.kind = t.kind ∧ u.text = t.text := by
  cases ts with
  | nil => cases h
  | cons v vs =>
    rcases List.mem_cons.1 h with rfl | hmem
    · exact ⟨v, List.mem_cons_self, rfl, rfl⟩
    · exact ⟨t, List.mem_cons_of_mem _ hmem, rfl, rfl⟩

theorem dropComments_append (g₁ g₂ : Text) (ts : List Token) :
    dropComments (g₁ ++ g₂) ts = addGap g₁ (dropComments g₂ ts) := by
  induction ts generalizing g₂ with
  | nil => rfl
  | cons t ts ih =>
    simp only [dropComments]
    split
    · rw [List.append_assoc, ih]
    · rw [addGap_cons, List.append_assoc]

theorem dropComments_addGap (g : Text) (ts : List Token) :
    dropComments [] (addGap g ts) = addGap g (dropComments [] ts) := by
  cases ts with
  | nil => rfl
  | cons t ts =>
    by_cases hk : t.kind = .comment
    · simp only [addGap_cons, dropComments, hk, ↓reduceIte, List.nil_append, full]
      rw [List.append_assoc, dropComments_append]
    · simp only [addGap_cons, dropComments, hk, ↓reduceIte, List.nil_append]

/-- Behind tokens that are no comments the others are left out as before. -/
theorem dropComments_code_append {ts : List Token} (h : ∀ t ∈ ts, t.kind ≠ .comment)
    (us : List Token) : dropComments [] (ts ++ us) = ts ++ dropComments [] us := by
  induction ts with
  | nil => rfl
  | cons t ts ih =>
    obtain ⟨ht, hts⟩ := List.forall_mem_cons.1 h
    rw [List.cons_append, dropComments, if_neg ht, ih hts, List.nil_append, List.cons_append]

/-- Where there is no comment, nothing is left out. -/
theorem dropComments_eq_self {ts : List Token} (h : ∀ t ∈ ts, t.kind ≠ .comment) :
    dropComments [] ts = ts := by
  have hts := dropComments_code_append h []
  rwa [List.append_nil, dropComments, List.append_nil] at hts

/-- Leaving comments out changes gaps only. -/
theorem exists_mem_of_mem_dropComments {g : Text} {ts : List Token} {t : Token}
    (h : t ∈ dropComments g ts) : ∃ u ∈ ts, u.kind = t.kind ∧ u.text = t.text := by
  induction ts generalizing g with
  | nil => cases h
  | cons u us ih =>
    rw [dropComments] at h
    split at h
    · obtain ⟨v, hv, hkt⟩ := ih h
      exact ⟨v, List.mem_cons_of_mem u hv, hkt⟩
    · rcases List.mem_cons.1 h with rfl | h
      · exact ⟨u, List.mem_cons_self, rfl, rfl⟩
      · obtain ⟨v, hv, hkt⟩ := ih h
        exact ⟨v, List.mem_cons_of_mem u hv, hkt⟩

/-- Comments behind the last other token go to what stands behind them. -/
theorem exists_dropComments_append (g : Text) (ts : List Token) : ∃ g', ∀ us,
    dropComments g (ts ++ us) = dropComments g ts ++ addGap g' (dropComments [] us) := by
  induction ts generalizing g with
  | nil =>
    refine ⟨g, fun us => ?_⟩
    have hdrop := dropComments_append g [] us
    rwa [List.append_nil] at hdrop
  | cons t ts ih =>
    by_cases hk : t.kind = .comment
    · obtain ⟨g', hg'⟩ := ih (g ++ t.full)
      refine ⟨g', fun us => ?_⟩
      rw [List.cons_append, dropComments, if_pos hk, dropComments, if_pos hk, hg']
    · obtain ⟨g', hg'⟩ := ih []
      refine ⟨g', fun us => ?_⟩
      rw [List.cons_append, dropComments, if_neg hk, dropComments, if_neg hk, hg', List.cons_append]

theorem exists_flatMap_full_dropComments (g : Text) (ts : List Token) :
    ∃ rest, g ++ ts.flatMap full = (dropComments g ts).flatMap full ++ rest := by
  induction ts generalizing g with
  | nil => exact ⟨g, by simp [dropComments]⟩
  | cons t ts ih =>
    by_cases hk : t.kind = .comment
    · obtain ⟨rest, hrest⟩ := ih (g ++ t.full)
      refine ⟨rest, ?_⟩
      rw [dropComments, if_pos hk, ← hrest, List.flatMap_cons, List.append_assoc]
    · obtain ⟨rest, hrest⟩ := ih []
      refine ⟨rest, ?_⟩
      rw [dropComments, if_neg hk, List.flatMap_cons, List.flatMap_cons, List.append_assoc, ← hrest]
      simp [full]

theorem getElem?_mapNeighbours {α : Type} (f : List Token → Token → List Token → α)
    (before ts : List Token) (t : Token) (after : List Token) :
    (mapNeighbours f before (ts ++ t :: after))[ts.length]? = some (f (ts.reverse ++ before) t after) := by
  induction ts generalizing before with
  | nil => rfl
  | cons u us ih =>
    rw [List.cons_append, mapNeighbours, List.length_cons, List.getElem?_cons_succ, ih,
      List.reverse_cons, List.append_assoc, List.singleton_append]

theorem mapNeighbours_eq_mapIdx {α : Type} (f : List Token → Token → List Token → α)
    (before ts : List Token) : mapNeighbours f before ts =
      ts.mapIdx fun i t => f ((ts.take i).reverse ++ before) t (ts.drop (i + 1)) := by
  induction ts generalizing before with
  | nil => rfl
  | cons t ts ih =>
    rw [mapNeighbours, ih, List.mapIdx_cons]
    simp only [List.take_succ_cons, List.reverse_cons, List.append_assoc, List.singleton_append,
      List.drop_succ_cons, List.take_zero, List.reverse_nil, List.nil_append, List.drop_zero]

theorem mapNeighbours_congr {α : Type} {f g : List Token → Token → List Token → α} {ts : List Token}
    (h : ∀ t ∈ ts, ∀ before after, f before t after = g before t after) (before : List Token) :
    mapNeighbours f before ts = mapNeighbours g before ts := by
  induction ts generalizing before with
  | nil => rfl
  | cons t ts ih =>
    rw [mapNeighbours, mapNeighbours, h t List.mem_cons_self,
      ih fun u hu => h u (List.mem_cons_of_mem t hu)]

end Token

namespace TokenStream

theorem ofPieces_tokens_append (g₁ g₂ : Text) (ps : List Piece) :
    (ofPieces (g₁ ++ g₂) ps).tokens = Token.addGap g₁ (ofPieces g₂ ps).tokens := by
  induction ps generalizing g₂ with
  | nil => rfl
  | cons p ps ih =>
    obtain ⟨kind, text⟩ := p
    cases kind with
    | none => rw [ofPieces, ofPieces, List.append_assoc, ih]
    | some kind => rfl

/-- What is left behind the first pieces goes into the gap of the next token. -/
theorem ofPieces_append (g : Text) (ps qs : List Piece) :
    ofPieces g (ps ++ qs) =
      ⟨(ofPieces g ps).tokens ++ (ofPieces (ofPieces g ps).tail qs).tokens,
        (ofPieces (ofPieces g ps).tail qs).tail⟩ := by
  induction ps generalizing g with
  | nil => rfl
  | cons p ps ih =>
    obtain ⟨kind, text⟩ := p
    cases kind with
    | none => exact ih _
    | some kind => rw [List.cons_append, ofPieces, ih, ofPieces, List.cons_append]

theorem ofPieces_gaps (g ws : Text) (ps : List Piece) :
    ofPieces g (ws.map (fun c => ⟨none, [c]⟩) ++ ps) = ofPieces (g ++ ws) ps := by
  induction ws generalizing g with
  | nil => rw [List.map_nil, List.nil_append, List.append_nil]
  | cons c cs ih =>
    rw [List.map_cons, List.cons_append, ofPieces, ih, List.append_assoc, List.singleton_append]

/-- What belongs to no token is in a gap or in the tail. -/
theorem mem_gap_or_tail {g text : Text} {ps : List Piece} (h : ⟨none, text⟩ ∈ ps) {d : Char}
    (hd : d ∈ text) : (∃ t ∈ (ofPieces g ps).tokens, d ∈ t.gap) ∨ d ∈ (ofPieces g ps).tail := by
  -- what is in the gap already stays there
  have hgap : ∀ (ps : List Piece) (g : Text), d ∈ g →
      (∃ t ∈ (ofPieces g ps).tokens, d ∈ t.gap) ∨ d ∈ (ofPieces g ps).tail := by
    intro ps
    induction ps with
    | nil => exact fun g hg => .inr hg
    | cons p ps ih =>
      intro g hg
      obtain ⟨kind, text⟩ := p
      cases kind with
      | none => exact ih _ (List.mem_append_left _ hg)
      | some kind => exact .inl ⟨_, List.mem_cons_self, hg⟩
  induction ps generalizing g with
  | nil => cases h
  | cons p ps ih =>
    rcases List.mem_cons.1 h with rfl | hmem
    · exact hgap ps _ (List.mem_append_right _ hd)
    obtain ⟨kind, text'⟩ := p
    cases kind with
    | none => exact ih hmem
    | some kind =>
      rcases ih (g := []) hmem with ⟨t, ht, hdt⟩ | htail
      · exact .inl ⟨t, List.mem_cons_of_mem _ ht, hdt⟩
      · exact .inr htail

/-- Every token is a piece of its own. -/
theorem mem_pieces_of_mem_tokens {g : Text} {ps : List Piece} {t : Token}
    (h : t ∈ (ofPieces g ps).tokens) : ⟨some t.kind, t.text⟩ ∈ ps := by
  induction ps generalizing g with
  | nil => cases h
  | cons p ps ih =>
    obtain ⟨kind, text⟩ := p
    cases kind with
    | none => exact List.mem_cons_of_mem _ (ih h)
    | some kind =>
      rcases List.mem_cons.1 h with rfl | h
      · exact List.mem_cons_self
      · exact List.mem_cons_of_mem _ (ih h)

theorem exists_mem_tokens {g w : Text} {ps : List Piece} {kind : TokenKind}
    (h : ⟨some kind, w⟩ ∈ ps) : ∃ t ∈ (ofPieces g ps).tokens, t.kind = kind ∧ t.text = w := by
  induction ps generalizing g with
  | nil => cases h
  | cons p ps ih =>
    rcases List.mem_cons.1 h with rfl | hmem
    · exact ⟨_, List.mem_cons_self, rfl, rfl⟩
    obtain ⟨kind', text⟩ := p
    cases kind' with
    | none => exact ih hmem
    | some kind' =>
      obtain ⟨t, ht, hkt⟩ := ih (g := []) hmem
      exact ⟨t, List.mem_cons_of_mem _ ht, hkt⟩

/-- The text in front of a token starts with what is no token. -/
theorem head?_gap {ps : List Piece} (hnil : ∀ p ∈ ps, p.text ≠ []) {g : Text} {t : Token}
    (h : t ∈ (ofPieces g ps).tokens) : ∀ c ∈ t.gap.head?,
      c ∈ g.head? ∨ ∃ p ∈ ps, p.kind = none ∧ c ∈ p.text.head? := by
  induction ps generalizing g with
  | nil => cases h
  | cons p ps ih =>
    obtain ⟨hp, hps⟩ := List.forall_mem_cons.1 hnil
    obtain ⟨kind, text⟩ := p
    intro c hc
    cases kind with
    | none =>
      rcases ih hps h c hc with hg | ⟨q, hq, hnone⟩
      · rw [List.head?_append] at hg
        cases hgap : g.head? with
        | some d =>
          rw [hgap] at hg
          exact .inl hg
        | none =>
          rw [hgap] at hg
          exact .inr ⟨_, List.mem_cons_self, rfl, hg⟩
      · exact .inr ⟨q, List.mem_cons_of_mem _ hq, hnone⟩
    | some kind =>
      rcases List.mem_cons.1 h with rfl | h
      · exact .inl hc
      · rcases ih hps h c hc with hg | ⟨q, hq, hnone⟩
        · cases hg
        · exact .inr ⟨q, List.mem_cons_of_mem _ hq, hnone⟩

end TokenStream

/-! ## Tokens and gaps -/

/-- A text is what its code tokens are, and something behind the last of them. -/
theorem exists_flatMap_full (s : Text) : ∃ rest, s = (tokenizeCode s).flatMap Token.full ++ rest := by
  obtain ⟨rest, hrest⟩ := Token.exists_flatMap_full_dropComments [] (tokenize s)
  refine ⟨rest ++ (TokenStream.ofText s).tail, ?_⟩
  rw [← List.append_assoc, tokenizeCode, ← hrest, List.nil_append]
  exact (TokenStream.toText_ofText s).symm

theorem notMem_gap {c : Char} {s : Text} (h : c ∉ s) : ∀ t ∈ tokenizeCode s, c ∉ t.gap := by
  obtain ⟨rest, hs⟩ := exists_flatMap_full s
  intro t ht hgap
  refine h ?_
  rw [hs]
  exact List.mem_append_left _ (List.mem_flatMap.2 ⟨t, ht, List.mem_append_left _ hgap⟩)

theorem length_text_le {code : Text} {t : Token} (ht : t ∈ tokenize code) :
    t.text.length ≤ code.length := by
  obtain ⟨front, back, hpieces⟩ := List.append_of_mem (TokenStream.mem_pieces_of_mem_tokens ht)
  have h := congrArg List.length (Scan.pieces_text code)
  rw [hpieces, List.flatMap_append, List.flatMap_cons, List.length_append, List.length_append] at h
  simp only at h
  omega

/-- The first token of a text that no gap stands in front of. -/
theorem head_of_tokenize {c : Char} {cs w : Text} {kind : TokenKind} {ts : List Token}
    (h : tokenize (c :: cs) = ⟨[], kind, w⟩ :: ts) :
    (Scan.head c cs).1 = some kind ∧ w = c :: cs.take (Scan.head c cs).2 := by
  rw [tokenize, TokenStream.ofText, Scan.pieces_cons] at h
  cases hkind : (Scan.head c cs).1 with
  | none =>
    rw [hkind, TokenStream.ofPieces, List.nil_append, ← List.append_nil (c :: _),
      TokenStream.ofPieces_tokens_append] at h
    -- the character would stand in the gap
    cases htokens : (TokenStream.ofPieces [] (Scan.pieces (cs.drop (Scan.head c cs).2))).tokens with
    | nil =>
      rw [htokens] at h
      cases h
    | cons u us =>
      rw [htokens, Token.addGap_cons] at h
      cases h
  | some kind' =>
    rw [hkind, TokenStream.ofPieces] at h
    obtain ⟨heq, -⟩ := List.cons.inj h
    obtain ⟨-, rfl, rfl⟩ := Token.mk.inj heq
    exact ⟨rfl, rfl⟩

/-! ## White space at the head -/

theorem tokenize_blank_append {ws : Text} (h : ∀ c ∈ ws, Text.isBlankChar c = true) (s : Text) :
    tokenize (ws ++ s) = Token.addGap ws (tokenize s) := by
  rw [tokenize, TokenStream.ofText, Scan.pieces_blank_append h, TokenStream.ofPieces_gaps,
    List.nil_append, ← List.append_nil ws, TokenStream.ofPieces_tokens_append, List.append_nil]
  rfl

theorem tokenizeCode_blank_append {ws : Text} (h : ∀ c ∈ ws, Text.isBlankChar c = true)
    (s : Text) : tokenizeCode (ws ++ s) = Token.addGap ws (tokenizeCode s) := by
  rw [tokenizeCode, tokenize_blank_append h, Token.dropComments_addGap, tokenizeCode]

/-- A blank line holds no token. -/
theorem tokenizeCode_of_isBlank {s : Text} (h : Text.isBlank s = true) : tokenizeCode s = [] := by
  have hs : ∀ c ∈ s, Text.isBlankChar c = true := List.all_eq_true.1 h
  rw [← List.append_nil s, tokenizeCode_blank_append hs]
  rfl

/-! ## A word at the head -/

/-- The first token of a text whose first piece is one. -/
theorem tokenize_of_pieces {s rest w : Text} {kind : TokenKind}
    (h : Scan.pieces s = ⟨some kind, w⟩ :: Scan.pieces rest) :
    tokenize s = ⟨[], kind, w⟩ :: tokenize rest := by
  rw [tokenize, TokenStream.ofText, h]
  rfl

theorem tokenizeCode_of_pieces {s rest w : Text} {kind : TokenKind} (hk : kind ≠ .comment)
    (h : Scan.pieces s = ⟨some kind, w⟩ :: Scan.pieces rest) :
    tokenizeCode s = ⟨[], kind, w⟩ :: tokenizeCode rest := by
  rw [tokenizeCode, tokenize_of_pieces h, Token.dropComments, if_neg hk, List.append_nil]
  rfl

theorem tokenize_identifier_append {w : Text} (hw : Scan.Identifier w) {rest : Text}
    (hr : Scan.Delimits rest) : tokenize (w ++ rest) = ⟨[], .identifier, w⟩ :: tokenize rest :=
  tokenize_of_pieces (hw.pieces_append hr)

theorem tokenizeCode_identifier_append {w : Text} (hw : Scan.Identifier w) {rest : Text}
    (hr : Scan.Delimits rest) :
    tokenizeCode (w ++ rest) = ⟨[], .identifier, w⟩ :: tokenizeCode rest :=
  tokenizeCode_of_pieces TokenKind.noConfusion (hw.pieces_append hr)

theorem Scan.plainKind_ne_comment (w : Text) : plainKind w ≠ .comment := by
  unfold plainKind
  split
  · exact TokenKind.noConfusion
  · split <;> exact TokenKind.noConfusion

theorem tokenizeCode_word_append {c : Char} (hc : Scan.isWordStart c = true)
    (hu : c.isUpper = false) {stem : Text} (hs : ∀ d ∈ stem, Scan.isWordChar d = true)
    {rest : Text} (hr : Scan.Delimits rest) :
    tokenizeCode (c :: (stem ++ rest)) =
      ⟨[], Scan.plainKind (c :: stem), c :: stem⟩ :: tokenizeCode rest :=
  tokenizeCode_of_pieces (Scan.plainKind_ne_comment _) (Scan.pieces_word_append hc hu hs hr)

/-- A token of a single character. -/
theorem tokenize_char {c : Char} {rest : Text} (kind : TokenKind)
    (h : Scan.head c rest = (some kind, 0)) : tokenize (c :: rest) = ⟨[], kind, [c]⟩ :: tokenize rest :=
  tokenize_of_pieces (Scan.pieces_of_head (w := []) h)

theorem tokenizeCode_char {c : Char} {rest : Text} {kind : TokenKind} (hk : kind ≠ .comment)
    (h : Scan.head c rest = (some kind, 0)) :
    tokenizeCode (c :: rest) = ⟨[], kind, [c]⟩ :: tokenizeCode rest :=
  tokenizeCode_of_pieces hk (Scan.pieces_of_head (w := []) h)

theorem Scan.pieces_comment {s : Text} (h : '\n' ∉ s) :
    pieces ('#' :: s) = [⟨some .comment, '#' :: s⟩] := by
  have hrun : run (· != '\n') s = s.length :=
    run_eq_length fun d hd => bne_iff_ne.2 fun hn => h (hn ▸ hd)
  have hhead : head '#' (s ++ []) = (some .comment, s.length) := by
    rw [List.append_nil, ← hrun]
    rfl
  have hpieces := pieces_of_head hhead
  rwa [List.append_nil] at hpieces

/-- A comment at the end of a line is no code. -/
theorem tokenizeCode_comment {s : Text} (h : '\n' ∉ s) : tokenizeCode ('#' :: s) = [] := by
  rw [tokenizeCode, tokenize, TokenStream.ofText, Scan.pieces_comment h]
  rfl

/-- The end of a line is no code if it is empty or a comment. -/
theorem tokenizeCode_finalComment {s : Text} (hs : s = [] ∨ ∃ cs, s = '#' :: cs) (h : '\n' ∉ s) :
    tokenizeCode s = [] := by
  rcases hs with rfl | ⟨cs, rfl⟩
  · rfl
  · exact tokenizeCode_comment fun hn => h (List.mem_cons_of_mem _ hn)

/-! ## Identifiers -/

theorem Scan.identifier_of_mem_pieces {s w : Text} (h : ⟨some .identifier, w⟩ ∈ pieces s) :
    Identifier w := by
  obtain ⟨c, cs, hkind, rfl⟩ := head_of_mem_pieces h
  exact identifier_of_head hkind

/-- Every token of code is a piece of its own. -/
theorem mem_pieces_of_mem_tokenizeCode {s : Text} {t : Token} (h : t ∈ tokenizeCode s) :
    ⟨some t.kind, t.text⟩ ∈ Scan.pieces s := by
  obtain ⟨u, hu, hkind, htext⟩ := Token.exists_mem_of_mem_dropComments h
  rw [← hkind, ← htext]
  exact TokenStream.mem_pieces_of_mem_tokens hu

theorem identifier_of_mem_tokenizeCode {s : Text} {t : Token} (h : t ∈ tokenizeCode s)
    (hk : t.kind = .identifier) : Scan.Identifier t.text :=
  Scan.identifier_of_mem_pieces (hk ▸ mem_pieces_of_mem_tokenizeCode h)

end SchemaLift
