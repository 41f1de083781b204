import SchemaLift.Proofs.Token.Slice

/-!
# The tokens and the gaps of a text

The spans of the tokens follow each other in the text, and each of them holds just the text of its token
(`slice?_of_mem_placedTokens`, `placed_ascending`). So other texts in the places of tokens stand between
the gaps of the text as it was: weaving them in does the same as copying the text from span to span
(`withSpans_weave`).
-/

namespace SchemaLift

/-! ## Spans of tokens -/

/-- Every further token starts behind the one before it. -/
theorem Token.le_start_of_mem_placed {offset : Nat} {ts : List Token} {p : PlacedToken}
    (h : p ∈ placed offset ts) : offset ≤ p.span.start := by
  obtain ⟨i, hi⟩ := List.getElem?_of_mem h
  obtain ⟨us, t, vs, -, -, rfl⟩ := getElem?_placed hi
  exact Nat.le_add_right _ _

theorem Token.placed_ascending (offset : Nat) (ts : List Token) :
    (placed offset ts).Pairwise fun p q => p.span.stop ≤ q.span.start := by
  induction ts generalizing offset with
  | nil => exact .nil
  | cons t ts ih =>
    rw [placed_cons]
    exact .cons (fun q hq => le_start_of_mem_placed hq) (ih _)

section

variable {s : Text} {p : PlacedToken} (h : p ∈ placedTokens s)
include h

/-- A token stands in the text, behind as many bytes as its span says. -/
theorem exists_of_mem_placedTokens : ∃ before after, s = before ++ p.text ++ after ∧
    p.span = ⟨Text.utf8Size before, Text.utf8Size (before ++ p.text)⟩ ∧ p.text ≠ [] := by
  obtain ⟨i, hi⟩ := List.getElem?_of_mem h
  obtain ⟨us, t, vs, hts, -, rfl⟩ := Token.getElem?_placed hi
  have ht : t ∈ tokenize s := hts ▸ List.mem_append_right us List.mem_cons_self
  refine ⟨us.flatMap Token.full ++ t.gap, vs.flatMap Token.full ++ (TokenStream.ofText s).tail,
    ?_, ?_, Scan.text_ne_nil_of_mem_pieces (TokenStream.mem_pieces_of_mem_tokens ht)⟩
  · have hspelling : Token.spelling [t] = t.text := by simp [Token.spelling]
    rw [← hspelling]
    exact eq_spelling_append hts
  · simp [Token.full]

theorem slice?_of_mem_placedTokens : Text.slice? s p.span = some p.text := by
  obtain ⟨before, after, hs, hspan, -⟩ := exists_of_mem_placedTokens h
  exact Text.slice?_eq_some_iff.2 ⟨before, after, hs, hspan⟩

theorem start_lt_stop_of_mem_placedTokens : p.span.start < p.span.stop := by
  obtain ⟨-, -, -, -, hne⟩ := exists_of_mem_placedTokens h
  obtain ⟨c, cs, hc⟩ := List.exists_cons_of_ne_nil hne
  have hstop := Text.stop_of_slice? (slice?_of_mem_placedTokens h)
  have hpos := c.utf8Size_pos
  rw [hc, Text.utf8Size] at hstop
  omega

end

/-! ## Texts in the places of tokens -/

/-- The text from byte `cursor` on with other texts in the places of some spans, and what is between the
spans copied; nothing if the spans do not follow each other in the text. -/
def Text.withSpans (s : Text) (cursor : Nat) : List (Span × Text) → Option Text
  | [] => slice? s ⟨cursor, utf8Size s⟩
  | (span, text) :: rest => do
    let gap ← slice? s ⟨cursor, span.start⟩
    let behind ← withSpans s span.stop rest
    return gap ++ text ++ behind

/-- The text that `replacement` gives for each token of a list, or that of the token itself. It sees the
tokens before, nearest first, and those behind. -/
def Token.replacedTexts (replacement : List Token → Token → List Token → Option Text)
    (ts : List Token) : List Text :=
  ts.mapIdx fun i t => (replacement (ts.take i).reverse t (ts.drop (i + 1))).getD t.text

theorem withSpans_weave (front : Text) {s tail : Text} {ts : List Token} {texts : List Text}
    (hs : s = front ++ ts.flatMap Token.full ++ tail) (hlength : texts.length = ts.length) :
    Text.withSpans s (Text.utf8Size front)
        (((Token.placed (Text.utf8Size front) ts).map PlacedToken.span).zip texts) =
      some (TokenStream.weave ts texts tail) := by
  induction ts generalizing front texts with
  | nil =>
    have hslice := Text.slice?_append front tail []
    rw [List.append_nil] at hslice
    rw [List.flatMap_nil, List.append_nil] at hs
    rw [hs]
    exact hslice
  | cons t ts ih =>
    obtain ⟨text, texts, rfl⟩ := List.exists_cons_of_length_eq_add_one hlength
    have hgap : Text.slice? s ⟨Text.utf8Size front, Text.utf8Size front + Text.utf8Size t.gap⟩ =
        some t.gap := by
      rw [Text.slice?_eq_some_iff]
      refine ⟨front, t.text ++ (ts.flatMap Token.full ++ tail), ?_, ?_⟩
      · rw [hs]
        simp [Token.full]
      · rw [Text.utf8Size_append]
    have hbehind := ih (front ++ t.full) (by rw [hs]; simp) (Nat.succ.inj hlength)
    rw [Text.utf8Size_append] at hbehind
    rw [Token.placed_cons, List.map_cons, List.zip_cons_cons, Text.withSpans, hgap, hbehind]
    simp [TokenStream.weave]

theorem replaceTokens_eq_weave (replacement : List Token → Token → List Token → Option Text) (s : Text) :
    replaceTokens replacement s =
      TokenStream.weave (tokenize s) (Token.replacedTexts replacement (tokenize s))
        (TokenStream.ofText s).tail := by
  rw [replaceTokens, Token.mapNeighbours_eq_mapIdx]
  simp only [List.append_nil]
  rfl

/-- With each token left as it is, nothing changes. -/
theorem replaceTokens_none (s : Text) : replaceTokens (fun _ _ _ => none) s = s := by
  have htexts : ∀ ts, Token.replacedTexts (fun _ _ _ => none) ts = ts.map Token.text := by
    intro ts
    refine List.ext_getElem ?_ ?_ <;> simp [Token.replacedTexts]
  have hweave : ∀ ts : List Token, (List.zipWith (fun t text => t.gap ++ text) ts
      (ts.map Token.text)).flatten = ts.flatMap Token.full := by
    intro ts
    rw [List.zipWith_map_right, List.zipWith_self]
    rfl
  rw [replaceTokens_eq_weave, htexts, TokenStream.weave, hweave]
  exact TokenStream.toText_ofText s

/-! ## All of the text -/

/-- The tokens of a text stand in it at their spans, one behind the other. -/
structure PlacedIn (s : Text) (ts : List PlacedToken) : Prop where
  nonempty : ∀ t ∈ ts, t.span.start < t.span.stop
  inside : ∀ t ∈ ts, t.span.stop ≤ Text.utf8Size s
  boundaries : ∀ t ∈ ts, s.IsBoundary t.span.start ∧ s.IsBoundary t.span.stop
  ascending : ts.Pairwise fun t u => t.span.start < u.span.start ∧ t.span.stop ≤ u.span.start
  text : ∀ t ∈ ts, s.slice? t.span = some t.text

theorem placedIn_placedTokens (s : Text) : PlacedIn s (placedTokens s) where
  nonempty _ ht := start_lt_stop_of_mem_placedTokens ht
  inside _ ht := Text.stop_le_of_slice? (slice?_of_mem_placedTokens ht)
  boundaries _ ht := Text.isBoundary_of_slice? (slice?_of_mem_placedTokens ht)
  ascending := by
    refine (Token.placed_ascending 0 (tokenize s)).imp_of_mem fun ht _ hle => ⟨?_, hle⟩
    exact (start_lt_stop_of_mem_placedTokens ht).trans_le hle
  text _ ht := slice?_of_mem_placedTokens ht

/-- Nothing of a text is lost among its tokens: they stand in it one behind the other, each at a span of
its own; with other texts in the places of some of them the rest of the text is copied as it stands; and
with no other text it is the same as before. -/
theorem tokens_lossless (s : Text) :
    PlacedIn s (placedTokens s) ∧
      (∀ replacement, s.withSpans 0 (((placedTokens s).map PlacedToken.span).zip
        (Token.replacedTexts replacement (tokenize s))) = some (replaceTokens replacement s)) ∧
      replaceTokens (fun _ _ _ => none) s = s := by
  refine ⟨placedIn_placedTokens s, fun replacement => ?_, replaceTokens_none s⟩
  rw [replaceTokens_eq_weave]
  exact withSpans_weave [] (TokenStream.toText_ofText s).symm List.length_mapIdx

/-- A quote that nothing closes, characters of several bytes in the gaps, and a new text for a token. -/
example :
    replaceTokens (fun _ t _ => if t.isWord "a" then some "ü".toList else none)
      "é a\t'b à \"#\x7b'\"'\x7d\"".toList = "é ü\t'b à \"#\x7b'\"'\x7d\"".toList := by decide

end SchemaLift
