import Mathlib.Algebra.BigOperators.Group.Multiset.Basic
import SchemaLift.Proofs.Text.Lines
import SchemaLift.Proofs.Text.Match
import SchemaLift.Proofs.Token.Joined

/-!
# The comments of a text

`notes` counts the comments on the lines of a text. Comments that have come to one line make one token
there; a comment is therefore cut in front of each number sign (`Text.remarks`). Where quotes are closed
on their lines, the lines have the comments of the text that they make (`Tidy.notes_eq`).
-/

namespace SchemaLift

/-! ## Remarks -/

namespace Text

/-- The parts of a comment from one number sign to the next, without the white space behind them. -/
def remarks : Text → List Text
  | [] => []
  | c :: cs => if c = '#' then trimEnd (c :: cs.takeWhile (· ≠ '#')) :: remarks cs else remarks cs

theorem remarks_append (s t : Text) : remarks (s ++ '#' :: t) = remarks s ++ remarks ('#' :: t) := by
  induction s with
  | nil => rfl
  | cons c cs ih =>
    have htake : (cs ++ '#' :: t).takeWhile (· ≠ '#') = cs.takeWhile (· ≠ '#') := by
      rw [List.takeWhile_append]
      split
      · rename_i hall
        rw [List.takeWhile_cons_of_neg (by simp), List.append_nil,
          (List.takeWhile_prefix _).eq_of_length hall]
      · rfl
    rw [List.cons_append, remarks, remarks, htake, ih]
    split <;> rfl

theorem remarks_append_space (s : Text) : remarks (s ++ [' ']) = remarks s := by
  induction s with
  | nil => rfl
  | cons c cs ih =>
    have htrim : trimEnd (c :: (cs ++ [' ']).takeWhile (· ≠ '#')) =
        trimEnd (c :: cs.takeWhile (· ≠ '#')) := by
      rw [List.takeWhile_append]
      split
      · rename_i hall
        rw [List.takeWhile_cons_of_pos (by simp), List.takeWhile_nil,
          (List.takeWhile_prefix _).eq_of_length hall, ← List.cons_append]
        exact trimEnd_append_blank (c :: cs) (List.all_eq_true.1 (by decide))
      · rfl
    rw [List.cons_append, remarks, remarks, htrim, ih]

end Text

/-! ## Comments as pieces -/

/-- The text of a piece that is a comment. -/
def Piece.comment? (p : Piece) : Option Text := if p.kind = some .comment then some p.text else none

/-- The comments of a text, in order. -/
def Text.comments (s : Text) : List Text := ((tokenize s).filter (·.is .comment)).map Token.text

theorem TokenStream.comments_ofPieces (gap : Text) (ps : List Piece) :
    ((ofPieces gap ps).tokens.filter (·.is .comment)).map Token.text =
      ps.filterMap Piece.comment? := by
  induction ps generalizing gap with
  | nil => rfl
  | cons p ps ih =>
    obtain ⟨kind, text⟩ := p
    cases kind with
    | none => exact ih _
    | some kind =>
      rw [ofPieces, List.filter_cons, List.filterMap_cons]
      by_cases hk : kind = .comment
      · simpa [Token.is, Piece.comment?, hk] using ih []
      · simpa [Token.is, Piece.comment?, hk] using ih []

theorem Text.comments_eq (s : Text) : comments s = (Scan.pieces s).filterMap Piece.comment? :=
  TokenStream.comments_ofPieces [] (Scan.pieces s)

/-- The remarks in some comments. -/
def remarksOf (cs : List Text) : Multiset Text := cs.flatMap Text.remarks

@[simp] theorem remarksOf_nil : remarksOf [] = 0 := rfl

theorem remarksOf_append (cs ds : List Text) : remarksOf (cs ++ ds) = remarksOf cs + remarksOf ds := by
  rw [remarksOf, List.flatMap_append, ← Multiset.coe_add]
  rfl

theorem remarksOf_flatMap {α : Type} (f : α → List Text) (as : List α) :
    remarksOf (as.flatMap f) = (as.map fun a => remarksOf (f a)).sum := by
  induction as with
  | nil => rfl
  | cons a rest ih => rw [List.flatMap_cons, remarksOf_append, ih, List.map_cons, List.sum_cons]

/-- The remarks in the comments of a text. -/
def noted (s : Text) : Multiset Text := remarksOf (Text.comments s)

/-- The remarks in the comments on the lines of a text. -/
def notes (s : Text) : Multiset Text := ((Text.lines s).map noted).sum

theorem noted_of_pieces_eq {s t u : Text} (h : Scan.pieces s = Scan.pieces t ++ Scan.pieces u) :
    noted s = noted t + noted u := by
  simp only [noted, Text.comments_eq, h, List.filterMap_append, remarksOf_append]

theorem noted_eq_zero {s : Text} (h : ∀ t ∈ tokenize s, t.kind ≠ .comment) : noted s = 0 := by
  have hnone : Text.comments s = [] := by
    unfold Text.comments
    rw [List.map_eq_nil_iff, List.filter_eq_nil_iff]
    intro t ht
    simpa [Token.is] using h t ht
  rw [noted, hnone]
  rfl

theorem noted_blank_append {ws : Text} (h : ∀ c ∈ ws, Text.isBlankChar c = true) (s : Text) :
    noted (ws ++ s) = noted s := by
  have hgaps : (ws.map fun c => (⟨none, [c]⟩ : Piece)).filterMap Piece.comment? = [] := by
    rw [List.filterMap_eq_nil_iff]
    intro p hp
    obtain ⟨c, -, rfl⟩ := List.mem_map.1 hp
    rfl
  simp only [noted, Text.comments_eq, Scan.pieces_blank_append h, List.filterMap_append, hgaps,
    List.nil_append]

theorem noted_of_isBlank {s : Text} (h : Text.isBlank s = true) : noted s = 0 := by
  have hblank := noted_blank_append (List.all_eq_true.1 h) []
  rwa [List.append_nil] at hblank

/-! ## Texts whose quotes are closed on their lines -/

namespace Scan

theorem head_of_none {c : Char} {cs : Text} (hnone : (head c cs).1 = none)
    (hquotes : '"' ∉ c :: cs.take (head c cs).2 ∧ '\'' ∉ c :: cs.take (head c cs).2) :
    (head c cs).2 = 0 := by
  revert hnone hquotes
  refine head_cases (P := fun found => found.1 = none →
    '"' ∉ c :: cs.take found.2 ∧ '\'' ∉ c :: cs.take found.2 → found.2 = 0) c cs
    (fun hc _ hq => ?_) (fun hc _ hq => ?_) (fun _ hnone hq => ?_) (fun _ hnone => ?_)
    (fun _ hnone _ => ?_) (fun _ hnone _ => ?_) (fun _ hnone => ?_) (fun _ hnone => ?_)
    (fun _ _ hnone => ?_) (fun _ _ hnone => ?_) (fun _ hnone => ?_) fun _ _ => rfl
  · exact absurd List.mem_cons_self (hc ▸ hq.1)
  · exact absurd List.mem_cons_self (hc ▸ hq.2)
  · exact absurd (List.mem_cons_of_mem c (afterColon_eq_none hnone)) hq.1
  · cases hnone
  · rcases afterAt_cases cs with ⟨n, hn⟩ | hn
    · rw [hn] at hnone
      cases hnone
    · rw [hn]
  · split at hnone
    · rename_i hzero
      rw [if_pos hzero]
    · cases hnone
  all_goals cases hnone

/-- What belongs to no token and holds no quote is a single character. -/
theorem gap_of_mem_pieces {s w : Text} (h : ⟨none, w⟩ ∈ pieces s) (hquotes : '"' ∉ w ∧ '\'' ∉ w) :
    ∃ c, w = [c] := by
  obtain ⟨c, cs, hnone, rfl⟩ := head_of_mem_pieces h
  refine ⟨c, ?_⟩
  rw [head_of_none hnone hquotes, List.take_zero]

end Scan

/-- Every quote belongs to a token, and no token goes on on the next line. -/
def Tidy (s : Text) : Prop :=
  ∀ p ∈ Scan.pieces s, (p.kind = none → '"' ∉ p.text ∧ '\'' ∉ p.text) ∧
    (p.kind ≠ none → '\n' ∉ p.text)

instance (s : Text) : Decidable (Tidy s) :=
  inferInstanceAs (Decidable (∀ p ∈ Scan.pieces s, (p.kind = none → '"' ∉ p.text ∧ '\'' ∉ p.text) ∧
    (p.kind ≠ none → '\n' ∉ p.text)))

theorem isBlankChar_feed : ∀ c ∈ ['\n'], Text.isBlankChar c = true := List.all_eq_true.1 (by decide)

namespace Tidy

theorem quotes {s : Text} (h : Tidy s) : Scan.QuotesInPieces (Scan.pieces s) :=
  fun p hp => (h p hp).1

theorem of_line {line : Line} (hquotes : QuotesInTokens line) (hfeed : '\n' ∉ line) :
    Tidy line := by
  intro p hp
  refine ⟨hquotes.quotesInPieces p hp, fun _ hmem => hfeed ?_⟩
  rw [← Scan.pieces_text line]
  exact List.mem_flatMap.2 ⟨p, hp, hmem⟩

theorem of_pieces_eq {s t u : Text} (h : Scan.pieces s = Scan.pieces t ++ Scan.pieces u)
    (ht : Tidy t) (hu : Tidy u) : Tidy s := by
  intro p hp
  rw [h] at hp
  rcases List.mem_append.1 hp with hp | hp
  · exact ht p hp
  · exact hu p hp

/-- A piece that holds a line feed is just that. -/
theorem eq_feed {s : Text} (h : Tidy s) {p : Piece} (hp : p ∈ Scan.pieces s) (hfeed : '\n' ∈ p.text) :
    p = ⟨none, ['\n']⟩ := by
  obtain ⟨kind, w⟩ := p
  obtain ⟨hquotes, htoken⟩ := h _ hp
  have hkind : kind = none := by_contra fun hkind => htoken hkind hfeed
  subst hkind
  obtain ⟨c, hc⟩ := Scan.gap_of_mem_pieces hp (hquotes rfl)
  have hw : w = [c] := hc
  have hmem : '\n' ∈ w := hfeed
  rw [hw, List.mem_singleton] at hmem
  rw [hw, ← hmem]

/-- The first line of a text with several, as pieces. -/
theorem exists_line {s : Text} (h : Tidy s) (hfeed : '\n' ∈ s) : ∃ line rest,
    s = line ++ '\n' :: rest ∧ '\n' ∉ line ∧
      Scan.pieces s = Scan.pieces line ++ ⟨none, ['\n']⟩ :: Scan.pieces rest := by
  have hsome : ((Scan.pieces s).find? fun p => '\n' ∈ p.text).isSome = true := by
    rw [← Scan.pieces_text s] at hfeed
    obtain ⟨p, hp, hmem⟩ := List.mem_flatMap.1 hfeed
    exact List.find?_isSome.2 ⟨p, hp, decide_eq_true hmem⟩
  obtain ⟨p, hp⟩ := Option.isSome_iff_exists.1 hsome
  obtain ⟨hfeed, ps, qs, hpieces, hnone⟩ := List.find?_eq_some_iff_append.1 hp
  have heq : p = ⟨none, ['\n']⟩ :=
    h.eq_feed (List.mem_of_find?_eq_some hp) (of_decide_eq_true hfeed)
  have hline : Scan.pieces (ps.flatMap Piece.text) = ps := Scan.pieces_cut_end hpieces
  have hrest : Scan.pieces (qs.flatMap Piece.text) = qs := by
    rw [List.append_cons] at hpieces
    exact Scan.pieces_cut_start hpieces
  refine ⟨ps.flatMap Piece.text, qs.flatMap Piece.text, ?_, ?_, ?_⟩
  · have htext := Scan.pieces_text s
    rw [hpieces, heq, List.flatMap_append, List.flatMap_cons] at htext
    exact htext.symm
  · intro hmem
    obtain ⟨q, hq, hmem⟩ := List.mem_flatMap.1 hmem
    simpa [hmem] using hnone q hq
  · rw [hline, hrest, hpieces, heq]

/-- The first line of a text with several, and the lines of what stands behind it. -/
theorem exists_lines_eq {s : Text} (h : Tidy s) (hfeed : '\n' ∈ s) : ∃ line rest,
    s = line ++ '\n' :: rest ∧ Scan.pieces s = Scan.pieces line ++ Scan.pieces ('\n' :: rest) ∧
      Text.lines s = line :: Text.lines rest ∧ Tidy line ∧ Tidy rest := by
  obtain ⟨line, rest, rfl, hline, hpieces⟩ := h.exists_line hfeed
  have hgap : Scan.pieces ('\n' :: rest) = ⟨none, ['\n']⟩ :: Scan.pieces rest :=
    Scan.pieces_blank_append isBlankChar_feed rest
  have hlines : Text.lines (line ++ '\n' :: rest) = line :: Text.lines rest := by
    rw [Text.lines, Text.splitOn_append_separator, Text.splitOn_of_notMem hline]
    rfl
  refine ⟨line, rest, rfl, by rw [hgap, hpieces], hlines, fun p hp => h p ?_, fun p hp => h p ?_⟩
  · rw [hpieces]
    exact List.mem_append_left _ hp
  · rw [hpieces]
    exact List.mem_append_right _ (List.mem_cons_of_mem _ hp)

/-- The lines of a tidy text are tidy. -/
theorem of_mem_lines {s : Text} (h : Tidy s) : ∀ line ∈ Text.lines s, Tidy line := by
  induction hn : s.length using Nat.strongRecOn generalizing s with
  | _ n ih =>
    by_cases hmem : '\n' ∈ s
    · obtain ⟨line, rest, rfl, -, hlines, hline, hrest⟩ := h.exists_lines_eq hmem
      rw [hlines]
      refine List.forall_mem_cons.2 ⟨hline, ih _ ?_ hrest rfl⟩
      rw [← hn, List.length_append, List.length_cons]
      omega
    · rw [Text.lines_of_notMem hmem]
      exact List.forall_mem_singleton.2 h

/-- What adds up line by line is counted on the lines. -/
theorem sum_lines {M : Type} [AddCommMonoid M] {f : Text → M} (hfeed : ∀ line rest,
    Scan.pieces (line ++ '\n' :: rest) = Scan.pieces line ++ Scan.pieces ('\n' :: rest) →
      f (line ++ '\n' :: rest) = f line + f rest) {s : Text} (h : Tidy s) :
    ((Text.lines s).map f).sum = f s := by
  -- what stands behind the first line is shorter and tidy again
  induction hn : s.length using Nat.strongRecOn generalizing s with
  | _ n ih =>
    by_cases hmem : '\n' ∈ s
    · obtain ⟨line, rest, rfl, hpieces, hlines, -, hrest⟩ := h.exists_lines_eq hmem
      have hsum : ((Text.lines rest).map f).sum = f rest := by
        refine ih _ ?_ hrest rfl
        rw [← hn, List.length_append, List.length_cons]
        omega
      rw [hlines, List.map_cons, List.sum_cons, hsum, hfeed line rest hpieces]
    · rw [Text.lines_of_notMem hmem, List.map_singleton, List.sum_singleton]

/-- Such a text has the comments of its lines. -/
theorem notes_eq {s : Text} (h : Tidy s) : notes s = noted s := by
  refine h.sum_lines fun line rest hpieces => ?_
  rw [noted_of_pieces_eq hpieces]
  exact congrArg _ (noted_blank_append isBlankChar_feed rest)

end Tidy

/-! ## Lines that are joined -/

theorem notes_unlines (ls : List Line) : notes (Text.unlines ls) = (ls.map notes).sum := by
  by_cases hnil : ls = []
  · subst hnil
    rfl
  · unfold notes
    rw [Text.lines_unlines_flatMap hnil]
    induction ls with
    | nil => exact absurd rfl hnil
    | cons line rest ih =>
      rw [List.flatMap_cons, List.map_append, List.sum_append, List.map_cons, List.sum_cons]
      congr 1
      by_cases hrest : rest = []
      · subst hrest
        rfl
      · exact ih hrest

theorem notes_of_line {line : Line} (h : '\n' ∉ line) : notes line = noted line := by
  rw [notes, Text.lines_of_notMem h, List.map_singleton, List.sum_singleton]

theorem pieces_unlines_cons {line : Line} (h : Tidy line) (second : Line) (rest : List Line) :
    Scan.pieces (Text.unlines (line :: second :: rest)) =
      Scan.pieces line ++ Scan.pieces ('\n' :: Text.unlines (second :: rest)) := by
  exact Scan.pieces_append h.quotes (Scan.stops_cons (by decide) _) fun _ => .inr rfl

theorem Tidy.feed {s : Text} (h : Tidy s) : Tidy ('\n' :: s) := by
  have hgap : Scan.pieces ('\n' :: s) = ⟨none, ['\n']⟩ :: Scan.pieces s :=
    Scan.pieces_blank_append isBlankChar_feed s
  intro p hp
  rw [hgap] at hp
  rcases List.mem_cons.1 hp with rfl | hp
  · exact ⟨fun _ => by decide, fun hk => absurd rfl hk⟩
  · exact h p hp

theorem Tidy.unlines {ls : List Line} (h : ∀ line ∈ ls, Tidy line) : Tidy (Text.unlines ls) := by
  induction ls with
  | nil => exact fun _ hp => nomatch hp
  | cons line rest ih =>
    obtain ⟨hline, hrest⟩ := List.forall_mem_cons.1 h
    cases rest with
    | nil => exact hline
    | cons second rest =>
      exact .of_pieces_eq (pieces_unlines_cons hline second rest) hline (ih hrest).feed

/-- Joined lines have the comments that they have one by one. -/
theorem noted_unlines {ls : List Line} (h : ∀ line ∈ ls, Tidy line) :
    noted (Text.unlines ls) = (ls.map notes).sum := by
  rw [← (Tidy.unlines h).notes_eq, notes_unlines]

end SchemaLift
