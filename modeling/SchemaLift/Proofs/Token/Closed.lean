import SchemaLift.Proofs.Token.Comments
import SchemaLift.Proofs.Token.Spells

/-!
# Texts that another text may follow

A text is closed if it leaves no quote open and does not end in a comment: what stands behind it changes
none of its tokens (`Closed.pieces_append`). Closed texts are put together with their comments
(`Carries.append`). Each stretch of the code of a tidy text is closed (`closed_spelling`), and so is a text
without quotes and comments (`Plain.carries`).
-/

namespace SchemaLift

/-! ## Texts that do not end in a comment -/

/-- What stands behind such a text changes none of its tokens. -/
structure Closed (s : Text) : Prop where
  tidy : Tidy s
  code : ∀ p ∈ (Scan.pieces s).getLast?, p.kind ≠ some .comment

instance (s : Text) : Decidable (Closed s) :=
  decidable_of_iff (Tidy s ∧ ∀ p ∈ (Scan.pieces s).getLast?, p.kind ≠ some .comment)
    ⟨fun h => ⟨h.1, h.2⟩, fun h => ⟨h.tidy, h.code⟩⟩

namespace Closed

theorem of_pieces_eq {s t u : Text} (h : Scan.pieces s = Scan.pieces t ++ Scan.pieces u)
    (ht : Closed t) (hu : Closed u) : Closed s where
  tidy := .of_pieces_eq h ht.tidy hu.tidy
  code := by
    rw [h, List.getLast?_append]
    intro p hp
    cases hlast : (Scan.pieces u).getLast? with
    | none =>
      rw [hlast] at hp
      exact ht.code p hp
    | some q =>
      rw [hlast] at hp
      exact hu.code p (by rw [hlast]; exact hp)

variable {s : Text} (h : Closed s) {rest : Text} (hstop : ∀ c ∈ rest.head?, Scan.Stops c)
include h hstop

theorem pieces_append : Scan.pieces (s ++ rest) = Scan.pieces s ++ Scan.pieces rest :=
  Scan.pieces_append_of_getLast? h.tidy.quotes hstop fun p hp hk => absurd hk (h.code p hp)

theorem noted_append : noted (s ++ rest) = noted s + noted rest :=
  noted_of_pieces_eq (h.pieces_append hstop)

theorem tidy_append (hrest : Tidy rest) : Tidy (s ++ rest) :=
  .of_pieces_eq (h.pieces_append hstop) h.tidy hrest

end Closed

/-- A closed text and the remarks in its comments. -/
structure Carries (s : Text) (m : Multiset Text) : Prop where
  closed : Closed s
  noted_eq : noted s = m

theorem Closed.carries {s : Text} (h : Closed s) : Carries s (noted s) := ⟨h, rfl⟩

/-! ## Comments -/

theorem Scan.word_ne_comment (c : Char) (cs : Text) : (word c cs).1 ≠ .comment := by
  rw [word_eq]
  extract_lets n rest
  split_ifs
  · nofun
  · nofun
  · nofun
  · nofun
  · nofun
  · exact plainKind_ne_comment _

theorem Scan.head_comment {c : Char} {cs : Text} (h : (head c cs).1 = some .comment) :
    c = '#' ∧ (head c cs).2 = run (· != '\n') cs := by
  revert h
  refine head_cases (P := fun found => found.1 = some .comment →
    c = '#' ∧ found.2 = run (· != '\n') cs) c cs (fun _ h => ?_) (fun _ h => ?_) (fun _ h => ?_)
    (fun hc _ => ⟨hc, rfl⟩) (fun _ h => ?_) (fun _ h => ?_) nofun (fun _ h => ?_) (fun _ _ => nofun)
    (fun _ _ => nofun) (fun _ => nofun) (fun h => ?_)
  · split at h <;> cases h
  · split at h <;> cases h
  · rcases afterColon_cases cs with ⟨kind, hk, n, hn⟩ | ⟨n, rest, -, -, hn⟩
    · rw [hn] at h
      obtain rfl := Option.some.inj h
      simp at hk
    · rw [hn] at h
      cases h
  · rcases afterAt_cases cs with ⟨n, hn⟩ | hn <;> rw [hn] at h <;> cases h
  · split at h <;> cases h
  · exact absurd (Option.some.inj h) (word_ne_comment c cs)
  · revert h
    unfold punctuation
    split <;> intro h <;> cases h

/-- A comment reaches from its number sign to the end of the line. -/
def IsComment (c : Text) : Prop := ∃ t, c = '#' :: t ∧ '\n' ∉ t

theorem isComment_of_mem_pieces {s w : Text} (h : ⟨some .comment, w⟩ ∈ Scan.pieces s) :
    IsComment w := by
  obtain ⟨c, cs, hkind, rfl⟩ := Scan.head_of_mem_pieces h
  obtain ⟨rfl, hsize⟩ := Scan.head_comment hkind
  refine ⟨_, rfl, fun hfeed => ?_⟩
  rw [hsize, Scan.take_run] at hfeed
  simpa using List.mem_takeWhile_imp hfeed

theorem isComment_of_mem_comments {s c : Text} (h : c ∈ Text.comments s) : IsComment c := by
  obtain ⟨t, ht, rfl⟩ := List.mem_map.1 h
  obtain ⟨ht, hk⟩ := List.mem_filter.1 ht
  have hpiece := TokenStream.mem_pieces_of_mem_tokens ht
  rw [beq_iff_eq.1 hk] at hpiece
  exact isComment_of_mem_pieces hpiece

/-- Comments that are put one behind the other are one comment with the remarks of all. -/
theorem exists_comment {cs : List Text} (h : ∀ c ∈ cs, IsComment c) (hne : cs ≠ []) :
    ∃ t, cs.flatMap (' ' :: ·) = ' ' :: '#' :: t ∧ '\n' ∉ t ∧
      Text.remarks ('#' :: t) = cs.flatMap Text.remarks := by
  induction cs with
  | nil => exact absurd rfl hne
  | cons c rest ih =>
    obtain ⟨⟨u, rfl, hu⟩, hrest⟩ := List.forall_mem_cons.1 h
    by_cases hnil : rest = []
    · subst hnil
      exact ⟨u, by simp, hu, by simp⟩
    · obtain ⟨t, heq, ht, hremarks⟩ := ih hrest hnil
      refine ⟨u ++ ' ' :: '#' :: t, ?_, ?_, ?_⟩
      · rw [List.flatMap_cons, heq, List.cons_append, List.cons_append]
      · simp [hu, ht]
      · have happend := Text.remarks_append ('#' :: u ++ [' ']) t
        rw [Text.remarks_append_space, hremarks, List.append_assoc] at happend
        rw [List.flatMap_cons, ← happend]
        rfl

/-- Comments behind a closed text end it, and bring their remarks. -/
theorem Carries.commented {s : Text} {m : Multiset Text} (hs : Carries s m) {cs : List Text}
    (h : ∀ c ∈ cs, IsComment c) : Tidy (s ++ cs.flatMap (' ' :: ·)) ∧
      noted (s ++ cs.flatMap (' ' :: ·)) = m + remarksOf cs := by
  by_cases hne : cs = []
  · subst hne
    rw [List.flatMap_nil, List.append_nil, remarksOf_nil, add_zero]
    exact ⟨hs.closed.tidy, hs.noted_eq⟩
  obtain ⟨t, heq, ht, hremarks⟩ := exists_comment h hne
  have hstop := Scan.stops_cons (c := ' ') (by decide) ('#' :: t)
  have hblank : ∀ c ∈ [' '], Text.isBlankChar c = true := List.all_eq_true.1 (by decide)
  have hpieces : Scan.pieces (' ' :: '#' :: t) = [⟨none, [' ']⟩, ⟨some .comment, '#' :: t⟩] := by
    rw [← Scan.pieces_comment ht]
    exact Scan.pieces_blank_append hblank ('#' :: t)
  have htidy : Tidy (' ' :: '#' :: t) := by
    intro p hp
    rw [hpieces] at hp
    simp only [List.mem_cons, List.not_mem_nil, or_false] at hp
    rcases hp with rfl | rfl
    · exact ⟨fun _ => by decide, fun hk => absurd rfl hk⟩
    · exact ⟨nofun, fun _ => by simpa using ht⟩
  have hnoted : noted (' ' :: '#' :: t) = remarksOf cs := by
    rw [noted, Text.comments_eq, hpieces, remarksOf, remarksOf, ← hremarks]
    simp [Piece.comment?]
  rw [heq]
  exact ⟨hs.closed.tidy_append hstop htidy,
    by rw [hs.closed.noted_append hstop, hs.noted_eq, hnoted]⟩

/-! ## Texts without quotes and comments -/

/-- A piece of a line that opens neither a quote nor a comment. -/
def Plain (s : Text) : Prop := ∀ c ∈ s, c ∉ ['"', '\'', '#', '\n']

instance (s : Text) : Decidable (Plain s) :=
  List.decidableBAll (fun c => c ∉ ['"', '\'', '#', '\n']) s

theorem Plain.append {s t : Text} (hs : Plain s) (ht : Plain t) : Plain (s ++ t) := by
  intro c hc
  rcases List.mem_append.1 hc with hc | hc
  · exact hs c hc
  · exact ht c hc

theorem Plain.carries {s : Text} (h : Plain s) : Carries s 0 := by
  have hpiece : ∀ p ∈ Scan.pieces s, Plain p.text := by
    intro p hp c hc
    refine h c ?_
    rw [← Scan.pieces_text s]
    exact List.mem_flatMap.2 ⟨p, hp, hc⟩
  have hcode : ∀ p ∈ Scan.pieces s, p.kind ≠ some .comment := by
    rintro ⟨kind, w⟩ hp rfl
    obtain ⟨t, rfl, -⟩ := isComment_of_mem_pieces hp
    exact hpiece _ hp '#' List.mem_cons_self (by decide)
  refine ⟨⟨fun p hp => ⟨fun _ => ⟨fun hq => ?_, fun hq => ?_⟩, fun _ hfeed => ?_⟩,
    fun p hp => hcode p (List.mem_of_getLast? hp)⟩, ?_⟩
  · exact hpiece p hp _ hq (by decide)
  · exact hpiece p hp _ hq (by decide)
  · exact hpiece p hp _ hfeed (by decide)
  · refine noted_eq_zero fun t ht hk => hcode _ (TokenStream.mem_pieces_of_mem_tokens ht) ?_
    exact congrArg some hk

/-- A text of word characters and marks opens neither. -/
theorem plain_of_forall_mem {s : Text}
    (h : ∀ c ∈ s, Scan.isWordChar c = true ∨ c = '?' ∨ c = '!') : Plain s := by
  have hnot : ∀ c ∈ ['"', '\'', '#', '\n'], (!(Scan.isWordChar c || c == '?' || c == '!')) = true :=
    List.all_eq_true.1 (by decide)
  intro c hc hmem
  have hno := hnot c hmem
  rcases h c hc with hword | rfl | rfl
  · rw [hword] at hno
    cases hno
  · cases hno
  · cases hno

theorem plain_of_identifier {w : Text} (h : Scan.Identifier w) : Plain w :=
  plain_of_forall_mem fun _ => h.mem

/-! ## Putting texts together -/

namespace Carries

variable {s t : Text} {m n : Multiset Text}

theorem nil : Carries [] 0 := Plain.carries (by decide)

theorem append (hs : Carries s m) (ht : Carries t n) (hstop : ∀ c ∈ t.head?, Scan.Stops c) :
    Carries (s ++ t) (m + n) :=
  ⟨.of_pieces_eq (hs.closed.pieces_append hstop) hs.closed ht.closed, by
    rw [hs.closed.noted_append hstop, hs.noted_eq, ht.noted_eq]⟩

/-- A character in front that starts nothing. -/
theorem cons {c : Char} {kind : Option TokenKind} (hc : ∀ rest, Scan.head c rest = (kind, 0))
    (hplain : Plain [c]) (h : Carries s m) : Carries (c :: s) m := by
  have hone : Carries [c] 0 := hplain.carries
  have hpieces : Scan.pieces (c :: s) = Scan.pieces [c] ++ Scan.pieces s := by
    have hsplit := fun rest => Scan.pieces_of_head (w := []) (hc rest)
    exact (hsplit s).trans (congrArg (· ++ Scan.pieces s) (hsplit []).symm)
  refine ⟨.of_pieces_eq hpieces hone.closed h.closed, ?_⟩
  rw [noted_of_pieces_eq hpieces, hone.noted_eq, h.noted_eq, zero_add]

theorem space (h : Carries s m) : Carries (' ' :: s) m :=
  h.cons (Scan.head_of_isBlankChar (by decide)) (by decide)

/-- A text behind a space. -/
theorem append_space (hs : Carries s m) (ht : Carries t n) : Carries (s ++ ' ' :: t) (m + n) :=
  hs.append ht.space (Scan.stops_cons (by decide) t)

end Carries

/-! ## Stretches of code -/

/-- A piece as it is where comments are left out. -/
def Piece.code (p : Piece) : Piece := if p.kind = some .comment then ⟨none, p.text⟩ else p

theorem TokenStream.dropComments_ofPieces (g gap : Text) (ps : List Piece) :
    Token.dropComments g (ofPieces gap ps).tokens = (ofPieces (g ++ gap) (ps.map Piece.code)).tokens := by
  induction ps generalizing g gap with
  | nil => rfl
  | cons p ps ih =>
    obtain ⟨kind, text⟩ := p
    rw [List.map_cons]
    cases kind with
    | none =>
      rw [ofPieces, ih, ← List.append_assoc]
      rfl
    | some kind =>
      by_cases hk : kind = .comment
      · subst hk
        rw [ofPieces, Token.dropComments, if_pos rfl, ih, List.append_nil, Token.full,
          ← List.append_assoc]
        rfl
      · have hcode : Piece.code ⟨some kind, text⟩ = ⟨some kind, text⟩ :=
          if_neg fun h => hk (Option.some.inj h)
        rw [hcode, ofPieces, Token.dropComments, if_neg hk, ih, List.nil_append]
        rfl

/-- The code of a text, read off its pieces. -/
theorem tokenizeCode_eq (s : Text) :
    tokenizeCode s = (TokenStream.ofPieces [] ((Scan.pieces s).map Piece.code)).tokens := by
  have hdrop := TokenStream.dropComments_ofPieces [] [] (Scan.pieces s)
  rwa [List.append_nil] at hdrop

theorem exists_tokenizeCode_append {s t u : Text} (h : Scan.pieces u = Scan.pieces s ++ Scan.pieces t) :
    ∃ g, tokenizeCode u = tokenizeCode s ++ Token.addGap g (tokenizeCode t) := by
  have hgap := TokenStream.ofPieces_tokens_append
    (TokenStream.ofPieces [] ((Scan.pieces s).map Piece.code)).tail [] ((Scan.pieces t).map Piece.code)
  rw [List.append_nil] at hgap
  refine ⟨(TokenStream.ofPieces [] ((Scan.pieces s).map Piece.code)).tail, ?_⟩
  rw [tokenizeCode_eq u, h, List.map_append, TokenStream.ofPieces_append, hgap, ← tokenizeCode_eq,
    ← tokenizeCode_eq]

theorem Piece.eq_of_code {p : Piece} {kind : TokenKind} {w : Text} (h : p.code = ⟨some kind, w⟩) :
    p = ⟨some kind, w⟩ ∧ kind ≠ .comment := by
  unfold code at h
  split at h
  · cases congrArg Piece.kind h
  · rename_i hk
    subst h
    exact ⟨rfl, fun hkind => hk (congrArg some hkind)⟩

@[simp] theorem Piece.text_code (p : Piece) : p.code.text = p.text := by
  unfold code
  split <;> rfl

theorem Piece.flatMap_code (ps : List Piece) :
    (ps.map Piece.code).flatMap Piece.text = ps.flatMap Piece.text := by
  rw [List.flatMap_map]
  simp only [text_code]

/-- The first token of code is a piece of the text, and the code behind it is in the pieces behind. -/
theorem exists_piece_of_code {s : Text} {us ts : List Token} {t : Token}
    (h : tokenizeCode s = us ++ t :: ts) : ∃ ps qs,
      Scan.pieces s = ps ++ ⟨some t.kind, t.text⟩ :: qs ∧ t.kind ≠ .comment ∧
        (TokenStream.ofPieces [] (qs.map Piece.code)).tokens = ts := by
  -- leaving the comments out makes gaps of them, so the code is read off pieces as the tokens are
  obtain ⟨before, after, hpieces, -, hafter⟩ :=
    TokenStream.exists_piece ((tokenizeCode_eq s).symm.trans h)
  obtain ⟨ps, found, hs, rfl, hfound⟩ := List.map_eq_append_iff.1 hpieces
  obtain ⟨first, qs, rfl, hfirst, rfl⟩ := List.map_eq_cons_iff.1 hfound
  obtain ⟨rfl, hkind⟩ := Piece.eq_of_code hfirst
  exact ⟨ps, qs, hs, hkind, hafter⟩

/-- The code between two tokens is in the pieces between theirs. -/
theorem exists_pieces_between {s : Text} {us ts vs : List Token} {t u : Token}
    (h : tokenizeCode s = us ++ t :: (ts ++ u :: vs)) : ∃ ps qs rs,
      Scan.pieces s = ps ++ (⟨some t.kind, t.text⟩ :: (qs ++ ⟨some u.kind, u.text⟩ :: rs)) ∧
        t.kind ≠ .comment ∧ u.kind ≠ .comment ∧
          TokenStream.ofPieces [] (qs.map Piece.code) = ⟨ts, u.gap⟩ := by
  obtain ⟨ps, found, hs, hkind, hfound⟩ := exists_piece_of_code h
  obtain ⟨inner, rest, hinner, hgaps, -⟩ := TokenStream.exists_piece hfound
  obtain ⟨qs, found, rfl, rfl, hfound⟩ := List.map_eq_append_iff.1 hinner
  obtain ⟨last, rs, rfl, hlast, rfl⟩ := List.map_eq_cons_iff.1 hfound
  obtain ⟨rfl, hlastKind⟩ := Piece.eq_of_code hlast
  exact ⟨ps, qs, rs, hs, hkind, hlastKind, hgaps⟩

/-- The text between two tokens of code has the pieces between theirs, and is read as the code between
them. -/
theorem pieces_between {s : Text} {us ts vs : List Token} {t u : Token}
    (h : tokenizeCode s = us ++ t :: (ts ++ u :: vs)) :
    Scan.pieces (ts.flatMap Token.full ++ u.gap) ⊆ Scan.pieces s ∧
      tokenizeCode (ts.flatMap Token.full ++ u.gap) = ts := by
  obtain ⟨ps, qs, rs, hpieces, -, -, hgaps⟩ := exists_pieces_between h
  have htext := TokenStream.toText_ofPieces [] (qs.map Piece.code)
  rw [hgaps, TokenStream.toText, Piece.flatMap_code, List.nil_append] at htext
  have hqs : Scan.pieces (qs.flatMap Piece.text) = qs := by
    rw [List.append_cons] at hpieces
    exact Scan.pieces_cut_end (Scan.pieces_cut_start hpieces)
  constructor
  · intro p hp
    rw [htext, hqs] at hp
    rw [hpieces]
    simp [hp]
  · rw [htext, tokenizeCode_eq, hqs, hgaps]

/-- A stretch of code is made of pieces of the text, and the last of them is no comment. -/
theorem exists_pieces_of_code {s : Text} {us ts vs : List Token} (hts : ts ≠ [])
    (h : tokenizeCode s = us ++ ts ++ vs) : ∃ ps qs rs, Scan.pieces s = ps ++ qs ++ rs ∧
      qs.flatMap Piece.text = Token.spelling ts ∧ (∀ p ∈ qs.getLast?, p.kind ≠ some .comment) ∧
      (TokenStream.ofPieces [] (qs.map Piece.code)).tokens = Token.bare ts := by
  obtain ⟨t, ts, rfl⟩ := List.exists_cons_of_ne_nil hts
  have hone : ∀ {u : Token}, u.kind ≠ .comment →
      Piece.code ⟨some u.kind, u.text⟩ = ⟨some u.kind, u.text⟩ := fun hk =>
    if_neg fun h => hk (Option.some.inj h)
  -- the stretch is one token, or reaches from the piece of its first to that of its last
  rcases List.eq_nil_or_concat ts with rfl | ⟨init, last, rfl⟩
  · rw [List.append_assoc, List.singleton_append] at h
    obtain ⟨ps, rs, hs, hkind, -⟩ := exists_piece_of_code h
    refine ⟨ps, [⟨some t.kind, t.text⟩], rs, by simpa using hs, by simp [Token.spelling],
      fun p hp => ?_, ?_⟩
    · obtain rfl := Option.some.inj hp
      exact fun hk => hkind (Option.some.inj hk)
    · rw [List.map_singleton, hone hkind]
      rfl
  · have hsplit : tokenizeCode s = us ++ t :: (init ++ last :: vs) := by
      rw [h]
      simp
    obtain ⟨ps, qs, rs, hs, hkind, hlastKind, hgaps⟩ := exists_pieces_between hsplit
    refine ⟨ps, ⟨some t.kind, t.text⟩ :: (qs ++ [⟨some last.kind, last.text⟩]), rs,
      by simpa using hs, ?_, ?_, ?_⟩
    · have htext := TokenStream.toText_ofPieces [] (qs.map Piece.code)
      rw [hgaps, TokenStream.toText, Piece.flatMap_code, List.nil_append] at htext
      simp [Token.spelling, Token.full, ← htext]
    · rw [← List.cons_append, List.getLast?_append, List.getLast?_singleton]
      intro p hp
      obtain rfl := Option.some.inj hp
      exact fun hk => hlastKind (Option.some.inj hk)
    · rw [List.map_cons, List.map_append, List.map_singleton, hone hkind, hone hlastKind,
        TokenStream.ofPieces, TokenStream.ofPieces_append, hgaps, List.concat_eq_append]
      rfl

/-- A stretch of code is read again from its source. -/
theorem tokenizeCode_spelling {s : Text} {ts : List Token} (hts : ts <:+: tokenizeCode s) :
    tokenizeCode (Token.spelling ts) = Token.bare ts := by
  by_cases hnil : ts = []
  · subst hnil
    rfl
  obtain ⟨us, vs, hsplit⟩ := hts
  obtain ⟨ps, qs, rs, hpieces, htext, -, htokens⟩ := exists_pieces_of_code hnil hsplit.symm
  rw [List.append_assoc] at hpieces
  rw [tokenizeCode_eq, ← htext, Scan.pieces_cut_end (Scan.pieces_cut_start hpieces), htokens]

/-- **A stretch of code is closed.** -/
theorem closed_spelling {s : Text} (h : Tidy s) {ts : List Token} (hts : ts <:+: tokenizeCode s) :
    Closed (Token.spelling ts) := by
  by_cases hnil : ts = []
  · subst hnil
    exact Plain.carries (s := []) (by decide) |>.closed
  obtain ⟨us, vs, hsplit⟩ := hts
  obtain ⟨ps, qs, rs, hpieces, htext, hlast, -⟩ := exists_pieces_of_code hnil hsplit.symm
  have hqs : Scan.pieces (Token.spelling ts) = qs := by
    rw [← htext]
    rw [List.append_assoc] at hpieces
    exact Scan.pieces_cut_end (Scan.pieces_cut_start hpieces)
  refine ⟨fun p hp => h p ?_, by rw [hqs]; exact hlast⟩
  rw [hqs] at hp
  rw [hpieces]
  simp [hp]

end SchemaLift
