import SchemaLift.Proofs.Token.Closed
import SchemaLift.Proofs.Token.Found

/-!
# Lines without trailing white space

White space at the end of a line belongs to no token but a comment, so a tidy line has the same code without
it (`tokenizeCode_trimEnd`).
-/

namespace SchemaLift

/-- Behind a comment stands nothing on its line. -/
theorem Scan.eq_nil_behind_comment {s w : Text} {ps qs : List Piece} (hfeed : '\n' ∉ s)
    (h : pieces s = ps ++ ⟨some .comment, w⟩ :: qs) : qs = [] := by
  have hcut : pieces ((⟨some .comment, w⟩ :: qs : List Piece).flatMap Piece.text) =
      ⟨some .comment, w⟩ :: qs := pieces_cut_start h
  have hmem : ⟨some .comment, w⟩ ∈ pieces s := by
    rw [h]
    exact List.mem_append_right _ List.mem_cons_self
  obtain ⟨t, rfl, -⟩ := isComment_of_mem_pieces hmem
  have hline : '\n' ∉ t ++ qs.flatMap Piece.text := by
    intro hmem
    apply hfeed
    rw [← pieces_text s, h, List.flatMap_append, List.flatMap_cons]
    exact List.mem_append_right _ (List.mem_cons_of_mem _ hmem)
  rw [List.flatMap_cons, List.cons_append, pieces_comment hline] at hcut
  exact (List.cons.inj hcut).2.symm

/-- What has no code adds none behind a text. -/
theorem tokenizeCode_of_codeless {s t u : Text} (h : Scan.pieces u = Scan.pieces s ++ Scan.pieces t)
    (ht : tokenizeCode t = []) : tokenizeCode u = tokenizeCode s := by
  obtain ⟨g, htokens⟩ := exists_tokenizeCode_append h
  rw [htokens, ht, Token.addGap_nil, List.append_nil]

/-- The last piece of a text, in which its last character stands. -/
theorem Scan.exists_last_piece (s : Text) (c : Char) : ∃ front kind w,
    s = front ++ w ∧ ⟨kind, w ++ [c]⟩ ∈ pieces (s ++ [c]) ∧ pieces (w ++ [c]) = [⟨kind, w ++ [c]⟩] ∧
      pieces (s ++ [c]) = pieces front ++ pieces (w ++ [c]) := by
  have htext := pieces_text (s ++ [c])
  rcases List.eq_nil_or_concat (pieces (s ++ [c])) with hnil | ⟨ps, ⟨kind, text⟩, hps⟩
  · rw [hnil] at htext
    exact absurd htext.symm (List.append_ne_nil_of_right_ne_nil s (List.cons_ne_nil c []))
  rw [List.concat_eq_append] at hps
  have hmem : ⟨kind, text⟩ ∈ pieces (s ++ [c]) := by
    rw [hps]
    exact List.mem_append_right _ (List.mem_singleton_self _)
  rw [hps, List.flatMap_append, List.flatMap_singleton] at htext
  obtain ⟨w, rfl⟩ : ∃ w, text = w ++ [c] := by
    have hlast := congrArg List.getLast? htext
    rw [List.getLast?_append_of_ne_nil _ (text_ne_nil_of_mem_pieces hmem), List.getLast?_concat] at hlast
    exact List.getLast?_eq_some_iff.1 hlast
  have hone : pieces (w ++ [c]) = [⟨kind, w ++ [c]⟩] := by
    have hcut := pieces_cut_start hps
    rwa [List.flatMap_singleton] at hcut
  refine ⟨ps.flatMap Piece.text, kind, w, ?_, hmem, hone, ?_⟩
  · rw [← List.append_assoc] at htext
    exact (List.append_inj_left' htext rfl).symm
  · rw [hone, pieces_cut_end hps, hps]

/-- Behind a text that a comment can follow, another comment can. -/
theorem Tidy.append_comment {front t : Text} (h : Tidy front) (hfeed : '\n' ∉ front ++ '#' :: t)
    (hpieces : Scan.pieces (front ++ '#' :: t) = Scan.pieces front ++ Scan.pieces ('#' :: t)) {u : Text}
    (hu : '\n' ∉ u) :
    Tidy (front ++ '#' :: u) ∧ tokenizeCode (front ++ '#' :: u) = tokenizeCode front := by
  have hone := Scan.pieces_comment hu
  have hsplit : Scan.pieces (front ++ '#' :: u) = Scan.pieces front ++ Scan.pieces ('#' :: u) := by
    refine Scan.pieces_append_of_getLast? h.quotes (Scan.stops_cons (by decide) u) ?_
    rintro ⟨kind, v⟩ hp rfl
    obtain ⟨ps, hps⟩ := List.getLast?_eq_some_iff.1 hp
    rw [hps, List.append_assoc] at hpieces
    have hnil := Scan.eq_nil_behind_comment hfeed hpieces
    rw [Scan.pieces_cons] at hnil
    cases hnil
  refine ⟨.of_pieces_eq hsplit h ?_, tokenizeCode_of_codeless hsplit (tokenizeCode_comment hu)⟩
  intro p hp
  rw [hone] at hp
  obtain rfl := List.mem_singleton.1 hp
  exact ⟨fun hk => absurd hk (Option.some_ne_none _),
    fun _ => List.not_mem_cons_of_ne_of_not_mem (by decide) hu⟩

/-- A blank character at the end of a tidy line adds no code. -/
theorem tokenizeCode_concat_blank {s : Text} {c : Char} (h : Tidy (s ++ [c])) (hfeed : '\n' ∉ s ++ [c])
    (hblank : Text.isBlankChar c = true) : Tidy s ∧ tokenizeCode (s ++ [c]) = tokenizeCode s := by
  obtain ⟨front, kind, w, rfl, hmem, hone, hpieces⟩ := Scan.exists_last_piece s c
  have hfront : Tidy front := fun p hp => h p (hpieces ▸ List.mem_append_left _ hp)
  cases kind with
  | none =>
    obtain ⟨d, hd⟩ := Scan.gap_of_mem_pieces hmem ((h _ hmem).1 rfl)
    obtain rfl : w = [] := by
      have hlength := congrArg List.length hd
      rw [List.length_append, List.length_singleton, List.length_singleton] at hlength
      exact List.eq_nil_of_length_eq_zero (by omega)
    have hc : Text.isBlank [c] = true := by simp [Text.isBlank, hblank]
    rw [List.append_nil] at hpieces ⊢
    exact ⟨hfront, tokenizeCode_of_codeless hpieces (tokenizeCode_of_isBlank hc)⟩
  | some kind =>
    by_cases hk : kind = .comment
    swap
    · have hink := (Scan.found_of_mem_pieces hmem rfl).isBlankChar_getLast? hk c (by simp)
      rw [hblank] at hink
      cases hink
    subst hk
    obtain ⟨t, ht, -⟩ := isComment_of_mem_pieces hmem
    obtain ⟨u, rfl⟩ : ∃ u, w = '#' :: u := by
      cases w with
      | nil =>
        obtain ⟨rfl, -⟩ := List.cons.inj ht
        exact absurd hblank (by decide)
      | cons e u => exact ⟨u, congrArg (· :: u) (List.cons.inj ht).1⟩
    rw [List.append_assoc] at hpieces hfeed ⊢
    have hline : '\n' ∉ u ++ [c] := fun hmem =>
      hfeed (List.mem_append_right _ (List.mem_cons_of_mem _ hmem))
    have hold := hfront.append_comment hfeed hpieces hline
    have hnew := hfront.append_comment hfeed hpieces fun hu => hline (List.mem_append_left _ hu)
    exact ⟨hnew.1, hold.2.trans hnew.2.symm⟩

/-- A tidy line has the same code without its trailing white space. -/
theorem tokenizeCode_trimEnd {line : Line} (h : Tidy line) (hfeed : '\n' ∉ line) :
    tokenizeCode (Text.trimEnd line) = tokenizeCode line := by
  obtain ⟨ws, hws, hline⟩ := Text.exists_trimEnd_append line
  generalize Text.trimEnd line = s at hline ⊢
  subst hline
  induction ws using List.reverseRecOn with
  | nil => rw [List.append_nil]
  | append_singleton ws c ih =>
    rw [← List.append_assoc] at h hfeed ⊢
    obtain ⟨hws, hc⟩ := List.forall_mem_append.1 hws
    obtain ⟨hs, hcode⟩ := tokenizeCode_concat_blank h hfeed (hc c (List.mem_singleton_self c))
    rw [hcode]
    exact ih hws hs fun hmem => hfeed (List.mem_append_left _ hmem)

end SchemaLift
