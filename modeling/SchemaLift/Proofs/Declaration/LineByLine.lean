import SchemaLift.Proofs.Declaration.Edit

/-!
# Declarations of one line

Where every declaration of a keyword is one line without a block, a rule edits each line for itself:
`LineEdit` says what it makes of one line, and `upgradeAll_lines` what it makes of all of them.
-/

namespace SchemaLift

namespace Lines

variable {above below : List Line} {line : Line}

theorem fits_single : (LineRange.mk above.length above.length).fits (above ++ line :: below).length =
    true := by
  rw [LineRange.fits_iff, List.length_append, List.length_cons]
  show above.length ≤ above.length + 1 ∧ above.length < _
  omega

theorem slice_single :
    slice (above ++ line :: below) ⟨above.length, above.length⟩ = .ok [line] := by
  rw [slice_of_fits fits_single, List.drop_left, Nat.add_sub_cancel_left]
  rfl

theorem splice_single (new : Line) :
    splice (above ++ line :: below) ⟨above.length, above.length⟩ [new] =
      .ok (above ++ new :: below) := by
  rw [splice_of_fits fits_single, List.take_left, ← List.append_cons, List.append_cons above line]
  have hdrop : (above ++ [line] ++ below).drop (above.length + 1) = below :=
    List.drop_left' (by simp)
  rw [hdrop]

theorem line_single : Lines.line (above ++ line :: below) above.length = .ok line := by
  rw [line_ok_iff, List.getElem?_append_right (Nat.le_refl _), Nat.sub_self, List.getElem?_cons_zero]

end Lines

namespace Declaration

/-- A line that is a call of its own, without a block. -/
structure OneLine (line : Line) (s : Signature) : Prop where
  shape : LineShape.ofLine line = ⟨[], 0, false, false⟩
  parse : Signature.parse line = some s

/-- The declaration on such a line. -/
def ofSignature (index : Nat) (s : Signature) : Declaration := ⟨index, index, none, [], s⟩

theorem locate_oneLine {lines : List Line} {index : Nat} {rest : List Line} {line : Line}
    {s : Signature} (hdrop : lines.drop index = line :: rest) (h : OneLine line s)
    (keyword : String) :
    locate lines (Outline.ofLines lines) keyword index = .ok (ofSignature index s) := by
  have houtline : (Outline.ofLines lines).drop index =
      ⟨[], 0, false, false⟩ :: Outline.ofLines rest := by
    rw [Outline.ofLines, ← List.map_drop, hdrop, List.map_cons, h.shape]
    rfl
  have hend : (Outline.ofLines lines).headerEnd index = some index := by
    rw [Outline.headerEnd, houtline]
    rfl
  have hopens : (Outline.ofLines lines).opensBlock index = false := by
    rw [Outline.opensBlock, getElem?_of_drop_eq_cons houtline]
    rfl
  have hextent : Lines.extent lines index index = line := by
    rw [Lines.extent, hdrop, Nat.add_sub_cancel_left]
    rfl
  unfold locate
  simp only [hend, hextent, h.parse, hopens]
  rfl

/-- A revision keeps the line of a call, or gives it one other line. -/
def Makes (revise : Revision) (s : Signature) (line new : Line) : Prop :=
  (new = line ∧ ∀ index ls, revise (ofSignature index s) ls = .ok .keep) ∨
    ∀ index ls, revise (ofSignature index s) ls = .ok (.replace [new])

/-- What a rule makes of a line. -/
inductive LineEdit (keyword : String) (revise : Revision) : Line → Line → Prop
  | other {line : Line} (h : startsOn keyword line = false) : LineEdit keyword revise line line
  | call {line new : Line} {s : Signature} (hstarts : startsOn keyword line = true)
      (h : OneLine line s) (hmakes : Makes revise s line new) : LineEdit keyword revise line new

section

variable {rule : Rule} {keyword : String} {revise : Revision}

/-- Handling the declaration on one line, when all below it has been handled. -/
theorem handle_oneLine {above below : List Line} {line new : Line} {changes : Nat} {s : Signature}
    (h : Makes revise s line new) :
    handle rule revise ⟨above ++ line :: below, changes, []⟩
      (.declaration (ofSignature above.length s)) =
        .ok ⟨above ++ new :: below, changes + if line ≠ new then 1 else 0, []⟩ := by
  rw [handle]
  rcases h with ⟨rfl, hr⟩ | hr
  · simp only [hr, bind, Except.bind]
    rw [applyEdit_keep Lines.line_single rfl, if_neg (not_not.2 rfl)]
    rfl
  · simp only [hr, bind, Except.bind]
    by_cases hsame : line = new
    · subst hsame
      rw [applyEdit_same Lines.line_single rfl Lines.slice_single, if_neg (not_not.2 rfl)]
      rfl
    · have hne : [new] ≠ [line] := by simpa using Ne.symm hsame
      rw [applyEdit_change Lines.line_single rfl Lines.slice_single hne (Lines.splice_single new),
        if_pos hsame]
      rfl

/-- All lines from `index` on are edited each for itself. -/
theorem handleAll_scanFrom {cells : List (Line × Line)}
    (hcells : ∀ c ∈ cells, LineEdit keyword revise c.1 c.2) {lines : List Line} {index : Nat}
    (hdrop : lines.drop index = cells.map Prod.fst) :
    handleAll rule revise lines
      (scanFrom lines (Outline.ofLines lines) keyword 0 index (cells.map Prod.fst)) =
        .ok ⟨lines.take index ++ cells.map Prod.snd, cells.countP fun c => c.1 ≠ c.2, []⟩ := by
  induction cells generalizing index with
  | nil =>
    have hle : lines.length ≤ index := List.drop_eq_nil_iff.1 hdrop
    rw [List.map_nil, scanFrom, handleAll, List.take_of_length_le hle, List.map_nil,
      List.append_nil, List.countP_nil]
  | cons c cells ih =>
    obtain ⟨line, new⟩ := c
    have hdrop : lines.drop index = line :: cells.map Prod.fst := hdrop
    have hline := getElem?_of_drop_eq_cons hdrop
    obtain ⟨above, habove, hlen⟩ : ∃ above, lines.take index = above ∧ above.length = index := by
      refine ⟨_, rfl, ?_⟩
      have hlt := (List.getElem?_eq_some_iff.1 hline).1
      rw [List.length_take]
      omega
    have hrest := ih (fun c hc => hcells c (List.mem_cons_of_mem _ hc))
      (drop_succ_of_drop_eq_cons hdrop)
    rw [List.take_add_one, hline, habove, List.append_assoc] at hrest
    have hrest : handleAll rule revise lines (scanFrom lines (Outline.ofLines lines) keyword 0
        (index + 1) (cells.map Prod.fst)) =
          .ok ⟨above ++ line :: cells.map Prod.snd, cells.countP fun c => c.1 ≠ c.2, []⟩ := hrest
    rw [List.map_cons, scanFrom, List.countP_cons, habove]
    have hedit : LineEdit keyword revise line new := hcells (line, new) List.mem_cons_self
    cases hedit with
    | other hstarts =>
      rw [hstarts, if_neg Bool.false_ne_true, hrest]
      simp
    | call hstarts h hmakes =>
      rw [if_pos hstarts, locate_oneLine hdrop h]
      simp only [ofSignature, Nat.sub_self]
      rw [handleAll, hrest, ← hlen]
      simp only [bind, Except.bind]
      rw [← ofSignature, handle_oneLine hmakes]
      simp

/-- A rule that edits lines each for itself changes those that get another line. -/
theorem upgradeAll_lines {cells : List (Line × Line)}
    (hcells : ∀ c ∈ cells, LineEdit keyword revise c.1 c.2) {source : Text}
    (hsource : Text.lines source = cells.map Prod.fst) :
    upgradeAll rule keyword revise source =
      .ok ⟨Text.unlines (cells.map Prod.snd), cells.countP fun c => c.1 ≠ c.2, []⟩ := by
  have hdrop : (Text.lines source).drop 0 = cells.map Prod.fst := hsource
  have hall := @handleAll_scanFrom rule keyword revise cells hcells (Text.lines source) 0 hdrop
  rw [← hsource] at hall
  unfold upgradeAll scan
  simp only [hall, bind, Except.bind, pure, Except.pure, List.take_zero, List.nil_append]

end

end Declaration

end SchemaLift
