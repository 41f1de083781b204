import SchemaLift.Proofs.Token.Trailing

/-!
# Tokens of a slice

Parsers read slices that are cut out of a text where tokens start and end. The pieces of such a slice
are those that the text has there (`pieces_cut_end`, `pieces_cut_start`), so it has the same tokens, at
the same distance from its first byte (`placedTokens_slice`).
-/

namespace SchemaLift

/-! ## Slices -/

namespace Text

/-- The text cut after its first `n` bytes, unless it is shorter or a character stands across the cut. -/
def cutAt? : Nat → Text → Option (Text × Text)
  | 0, s => some ([], s)
  | _ + 1, [] => none
  | n + 1, c :: cs =>
    if c.utf8Size ≤ n + 1 then (cutAt? (n + 1 - c.utf8Size) cs).map fun (s, t) => (c :: s, t) else none

/-- The bytes of a span, if the text has them and no character is cut in two. -/
def slice? (s : Text) (span : Span) : Option Text :=
  (cutAt? span.stop s).bind fun (upTo, _) => (cutAt? span.start upTo).map Prod.snd

theorem cutAt?_append (s t : Text) : cutAt? (utf8Size s) (s ++ t) = some (s, t) := by
  induction s with
  | nil => cases t <;> rfl
  | cons c cs ih =>
    obtain ⟨n, hn⟩ := Nat.exists_eq_add_one.2 (Nat.add_pos_left c.utf8Size_pos (utf8Size cs))
    rw [utf8Size, hn, List.cons_append, cutAt?, if_pos (by omega), ← hn, Nat.add_sub_cancel_left, ih]
    rfl

theorem slice?_append (s t u : Text) :
    slice? (s ++ t ++ u) ⟨utf8Size s, utf8Size (s ++ t)⟩ = some t := by
  simp only [slice?, cutAt?_append, Option.bind_some, Option.map_some]

theorem eq_append_of_cutAt? {n : Nat} {s t u : Text} (h : cutAt? n s = some (t, u)) :
    s = t ++ u ∧ n = utf8Size t := by
  fun_induction cutAt? n s generalizing t with
  | case1 s =>
    cases h
    exact ⟨rfl, rfl⟩
  | case2 => cases h
  | case3 n c cs hle ih =>
    obtain ⟨⟨t', u'⟩, hcut, heq⟩ := Option.map_eq_some_iff.1 h
    cases heq
    obtain ⟨rfl, hn⟩ := ih hcut
    refine ⟨rfl, ?_⟩
    rw [utf8Size]
    omega
  | case4 => cases h

/-- A slice stands in the text behind as many bytes as its span says. -/
theorem slice?_eq_some_iff {s t : Text} {span : Span} :
    slice? s span = some t ↔ ∃ before after, s = before ++ t ++ after ∧
      span = ⟨utf8Size before, utf8Size (before ++ t)⟩ := by
  constructor
  · intro h
    obtain ⟨start, stop⟩ := span
    obtain ⟨⟨upTo, after⟩, hupTo, hrest⟩ := Option.bind_eq_some_iff.1 h
    obtain ⟨⟨before, t'⟩, hbefore, heq⟩ := Option.map_eq_some_iff.1 hrest
    obtain rfl : t' = t := heq
    obtain ⟨rfl, rfl⟩ := eq_append_of_cutAt? hupTo
    obtain ⟨rfl, rfl⟩ := eq_append_of_cutAt? hbefore
    exact ⟨before, after, rfl, rfl⟩
  · rintro ⟨before, after, rfl, rfl⟩
    exact slice?_append before t after

/-- No character of the text stands across byte `n`, which may be the end of the text. -/
def IsBoundary (s : Text) (n : Nat) : Prop := ∃ before after, s = before ++ after ∧ n = utf8Size before

section

variable {s t : Text} {span : Span} (h : slice? s span = some t)
include h

theorem isBoundary_of_slice? : s.IsBoundary span.start ∧ s.IsBoundary span.stop := by
  obtain ⟨before, after, rfl, rfl⟩ := slice?_eq_some_iff.1 h
  exact ⟨⟨before, t ++ after, List.append_assoc before t after, rfl⟩, ⟨before ++ t, after, rfl, rfl⟩⟩

theorem stop_of_slice? : span.stop = span.start + utf8Size t := by
  obtain ⟨before, after, rfl, rfl⟩ := slice?_eq_some_iff.1 h
  exact utf8Size_append before t

theorem stop_le_of_slice? : span.stop ≤ utf8Size s := by
  obtain ⟨before, after, rfl, rfl⟩ := slice?_eq_some_iff.1 h
  rw [utf8Size_append (before ++ t)]
  exact Nat.le_add_right _ _

end

end Text

/-! ## Places -/

/-- A token at its place in a text. -/
structure PlacedToken where
  kind : TokenKind
  text : Text
  span : Span
  deriving DecidableEq, Repr

/-- The same token in a text that has `n` bytes more before it. -/
def PlacedToken.shift (n : Nat) (t : PlacedToken) : PlacedToken :=
  { t with span := ⟨n + t.span.start, n + t.span.stop⟩ }

namespace Token

/-- Tokens at their places, the first gap at `offset`. -/
def placed (offset : Nat) (ts : List Token) : List PlacedToken :=
  List.zipWith (fun t span => ⟨t.kind, t.text, span⟩) ts (spans offset ts)

@[simp] theorem placed_nil (offset : Nat) : placed offset [] = [] := rfl

@[simp] theorem placed_cons (offset : Nat) (t : Token) (ts : List Token) :
    placed offset (t :: ts) =
      ⟨t.kind, t.text, offset + Text.utf8Size t.gap, offset + Text.utf8Size t.full⟩ ::
        placed (offset + Text.utf8Size t.full) ts := by
  rw [placed, spans, List.zipWith_cons_cons, ← placed, full, Text.utf8Size_append, Nat.add_assoc]

@[simp] theorem length_placed (offset : Nat) (ts : List Token) :
    (placed offset ts).length = ts.length := by
  induction ts generalizing offset with
  | nil => rfl
  | cons t ts ih => rw [placed_cons, List.length_cons, ih, List.length_cons]

theorem placed_add (n offset : Nat) (ts : List Token) :
    placed (n + offset) ts = (placed offset ts).map (.shift n) := by
  induction ts generalizing offset with
  | nil => rfl
  | cons t ts ih => simp [PlacedToken.shift, ← ih, Nat.add_assoc]

theorem placed_append (offset : Nat) (ts us : List Token) :
    placed offset (ts ++ us) =
      placed offset ts ++ placed (offset + Text.utf8Size (ts.flatMap full)) us := by
  induction ts generalizing offset with
  | nil => rfl
  | cons t ts ih => simp [ih, Text.utf8Size_append, Nat.add_assoc]

/-- A token at its place starts behind the tokens before it and its gap. -/
theorem getElem?_placed {offset i : Nat} {ts : List Token} {p : PlacedToken}
    (h : (placed offset ts)[i]? = some p) : ∃ us t vs, ts = us ++ t :: vs ∧ us.length = i ∧
      p = ⟨t.kind, t.text, offset + Text.utf8Size (us.flatMap full ++ t.gap),
        offset + Text.utf8Size (us.flatMap full ++ t.full)⟩ := by
  induction ts generalizing offset i with
  | nil => cases h
  | cons t ts ih =>
    rw [placed_cons] at h
    cases i with
    | zero => exact ⟨[], t, ts, rfl, rfl, (Option.some.inj h).symm⟩
    | succ i =>
      obtain ⟨us, u, vs, rfl, rfl, rfl⟩ := ih h
      refine ⟨t :: us, u, vs, rfl, rfl, ?_⟩
      simp [Text.utf8Size_append, Nat.add_assoc]

end Token

/-- The tokens of a text at their places, comments included. -/
def placedTokens (s : Text) : List PlacedToken := Token.placed 0 (tokenize s)

/-! ## Pieces -/

namespace Scan

/-- Without the text behind a piece the pieces in front are the same. -/
theorem pieces_cut_end {s : Text} {ps qs : List Piece} (h : pieces s = ps ++ qs) :
    pieces (ps.flatMap Piece.text) = ps := by
  induction ps generalizing s with
  | nil => rfl
  | cons p ps ih =>
    cases s with
    | nil => cases h
    | cons c cs =>
      rw [pieces_cons, List.cons_append] at h
      obtain ⟨rfl, hrest⟩ := List.cons.inj h
      obtain ⟨w, hw⟩ : ∃ w, w = cs.take (head c cs).2 ++ ps.flatMap Piece.text := ⟨_, rfl⟩
      have hcs : cs = w ++ qs.flatMap Piece.text := by
        rw [hw, List.append_assoc, ← List.flatMap_append, ← hrest, pieces_text, List.take_append_drop]
      have hlength : (cs.take (head c cs).2).length = (head c cs).2 :=
        List.length_take_of_le (head_le c cs)
      have hle : (head c cs).2 ≤ w.length := by
        rw [hw, List.length_append, hlength]
        exact Nat.le_add_right _ _
      have hhead : head c w = head c cs := by
        have hsame := head_ahead (.cut (qs.flatMap Piece.text)) (c := c) (w := w) (by rwa [← hcs])
        rw [← hcs, List.append_nil] at hsame
        refine hsame (fun _ hopen => ?_) (fun _ _ => ⟨fun _ => rfl, fun _ => .inl rfl⟩) fun _ _ => .inl rfl
        -- a string that ends in the shorter text ends there in the longer one
        by_contra hclosed
        obtain ⟨n, hn⟩ := Option.ne_none_iff_exists'.1 hclosed
        have hagain := stringClose_append (w := w) (r := []) (by rwa [List.append_nil])
          (stringClose_lt hn) (qs.flatMap Piece.text)
        rw [← hcs, hopen] at hagain
        cases hagain
      rw [List.flatMap_cons, List.cons_append, ← hw, pieces_cons, hhead, hw, List.take_left' hlength,
        List.drop_left' hlength, ih hrest]

/-- Without the text in front of a piece the pieces behind are the same. -/
theorem pieces_cut_start {s : Text} {ps qs : List Piece} (h : pieces s = ps ++ qs) :
    pieces (qs.flatMap Piece.text) = qs := by
  induction ps generalizing s with
  | nil => rw [← List.nil_append qs, ← h, pieces_text]
  | cons p ps ih =>
    cases s with
    | nil => cases h
    | cons c cs =>
      rw [pieces_cons, List.cons_append] at h
      exact ih (List.cons.inj h).2

end Scan

/-! ## Tokens -/

theorem TokenStream.exists_piece {g : Text} {ps : List Piece} {us ts : List Token} {t : Token}
    (h : (ofPieces g ps).tokens = us ++ t :: ts) : ∃ before after,
      ps = before ++ ⟨some t.kind, t.text⟩ :: after ∧ ofPieces g before = ⟨us, t.gap⟩ ∧
        (ofPieces [] after).tokens = ts := by
  induction ps generalizing g us with
  | nil => exact absurd h.symm (by simp [ofPieces])
  | cons p ps ih =>
    obtain ⟨kind, text⟩ := p
    cases kind with
    | none =>
      obtain ⟨before, after, rfl, hbefore, hafter⟩ := ih h
      exact ⟨⟨none, text⟩ :: before, after, rfl, hbefore, hafter⟩
    | some kind =>
      cases us with
      | nil =>
        obtain ⟨rfl, rfl⟩ := List.cons.inj h
        exact ⟨[], ps, rfl, rfl, rfl⟩
      | cons u us =>
        obtain ⟨rfl, hrest⟩ := List.cons.inj h
        obtain ⟨before, after, rfl, hbefore, hafter⟩ := ih hrest
        exact ⟨⟨some kind, text⟩ :: before, after, rfl, by rw [ofPieces, hbefore], hafter⟩

/-- Without the text behind them tokens are the same. -/
theorem tokenize_cut_end {s : Text} {ts us : List Token} (h : tokenize s = ts ++ us) :
    tokenize (ts.flatMap Token.full) = ts := by
  rcases List.eq_nil_or_concat ts with rfl | ⟨before, t, rfl⟩
  · rfl
  rw [List.concat_eq_append, List.append_assoc, List.singleton_append] at h
  rw [List.concat_eq_append]
  obtain ⟨ps, qs, hpieces, hbefore, -⟩ := TokenStream.exists_piece h
  rw [List.append_cons] at hpieces
  have hstream : TokenStream.ofPieces [] (ps ++ [⟨some t.kind, t.text⟩]) = ⟨before ++ [t], []⟩ := by
    rw [TokenStream.ofPieces_append, hbefore]
    rfl
  have htext := TokenStream.toText_ofPieces [] (ps ++ [⟨some t.kind, t.text⟩])
  rw [hstream, TokenStream.toText, List.append_nil, List.nil_append] at htext
  rw [htext, tokenize, TokenStream.ofText, Scan.pieces_cut_end hpieces, hstream]

/-- Without the text in front of a token it has no gap, and the tokens behind it are the same. -/
theorem tokenize_cut_start {s : Text} {us ts : List Token} {t : Token}
    (h : tokenize s = us ++ t :: ts) : ∃ rest, tokenize rest = { t with gap := [] } :: ts := by
  obtain ⟨ps, qs, hpieces, -, rfl⟩ := TokenStream.exists_piece h
  refine ⟨(⟨some t.kind, t.text⟩ :: qs).flatMap Piece.text, ?_⟩
  rw [tokenize, TokenStream.ofText, Scan.pieces_cut_start hpieces]
  rfl

/-- The source from one token through another has these tokens and those between them. -/
theorem tokenize_spelling {s : Text} {us ts vs : List Token} {t : Token}
    (h : tokenize s = us ++ t :: (ts ++ vs)) :
    tokenize (Token.spelling (t :: ts)) = { t with gap := [] } :: ts := by
  obtain ⟨rest, hrest⟩ := tokenize_cut_start h
  have hcut : tokenize (({ t with gap := [] } :: ts).flatMap Token.full) = { t with gap := [] } :: ts :=
    tokenize_cut_end hrest
  rwa [List.flatMap_cons, Token.full, List.nil_append] at hcut

/-- What is left when the source from one token through another is cut out. -/
theorem eq_spelling_append {s : Text} {us ts vs : List Token} {t : Token}
    (h : tokenize s = us ++ t :: (ts ++ vs)) :
    s = (us.flatMap Token.full ++ t.gap) ++ Token.spelling (t :: ts) ++
      (vs.flatMap Token.full ++ (TokenStream.ofText s).tail) := by
  have hs := TokenStream.toText_ofText s
  rw [TokenStream.toText, ← tokenize, h] at hs
  simpa [Token.spelling, Token.full] using hs.symm

/-- Cut out from the start of one token to the end of another, a text has the tokens that it has there,
at the same distance from the first of them. -/
theorem placedTokens_slice {s : Text} {i j : Nat} {first last : PlacedToken} (hij : i ≤ j)
    (hfirst : (placedTokens s)[i]? = some first) (hlast : (placedTokens s)[j]? = some last) :
    ∃ slice, Text.slice? s ⟨first.span.start, last.span.stop⟩ = some slice ∧
      (placedTokens slice).map (.shift first.span.start) =
        ((placedTokens s).drop i).take (j + 1 - i) := by
  obtain ⟨us, t, after, hi, rfl, rfl⟩ := Token.getElem?_placed hfirst
  obtain ⟨before, u, vs, hj, rfl, rfl⟩ := Token.getElem?_placed hlast
  rw [List.append_cons] at hi hj
  -- the tokens through the first one are among those through the last one
  obtain ⟨ts, hts⟩ : us ++ [t] <+: before ++ [u] :=
    List.prefix_of_prefix_length_le ⟨after, hi.symm⟩ ⟨vs, hj.symm⟩ (by simpa using hij)
  have htokens : tokenize s = us ++ t :: (ts ++ vs) := by
    rw [hj, ← hts]
    simp
  have hlength : (t :: ts).length = before.length + 1 - us.length := by
    have := congrArg List.length hts
    simp only [List.length_append, List.length_cons, List.length_nil] at this ⊢
    omega
  have hstop : before.flatMap Token.full ++ u.full =
      (us.flatMap Token.full ++ t.gap) ++ Token.spelling (t :: ts) := by
    have := congrArg (List.flatMap Token.full) hts
    simpa [Token.spelling, Token.full] using this.symm
  refine ⟨Token.spelling (t :: ts), ?_, ?_⟩
  · have hslice := Text.slice?_append (us.flatMap Token.full ++ t.gap) (Token.spelling (t :: ts))
      (vs.flatMap Token.full ++ (TokenStream.ofText s).tail)
    rw [← eq_spelling_append htokens, ← hstop] at hslice
    simpa using hslice
  · rw [placedTokens, tokenize_spelling htokens, ← Token.placed_add, placedTokens, htokens,
      Token.placed_append, List.drop_left' (Token.length_placed _ _), ← List.cons_append,
      Token.placed_append, List.take_left' (by rw [Token.length_placed, hlength])]
    simp [Token.full, Text.utf8Size_append, Text.utf8Size, Nat.add_assoc]

/-- Between a comment with a character of two bytes and a quote that nothing closes. -/
theorem placedTokens_slice_between :
    let s := "# é\nx \"a\" 'b c".toList
    (placedTokens s)[1]? = some ⟨.identifier, "x".toList, ⟨5, 6⟩⟩ ∧
      (placedTokens s)[2]? = some ⟨.doubleQuoted, "\"a\"".toList, ⟨7, 10⟩⟩ ∧
      ∃ slice, Text.slice? s ⟨5, 10⟩ = some slice ∧
        (placedTokens slice).map (.shift 5) = ((placedTokens s).drop 1).take 2 := by
  intro s
  have hfirst : (placedTokens s)[1]? = some ⟨.identifier, "x".toList, ⟨5, 6⟩⟩ := by decide
  have hlast : (placedTokens s)[2]? = some ⟨.doubleQuoted, "\"a\"".toList, ⟨7, 10⟩⟩ := by decide
  exact ⟨hfirst, hlast, placedTokens_slice (Nat.le_succ 1) hfirst hlast⟩

end SchemaLift
