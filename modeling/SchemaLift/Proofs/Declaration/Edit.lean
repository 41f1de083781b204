import SchemaLift.Declaration.Edit
import SchemaLift.Proofs.Declaration.Scan

/-!
# What one edit does

Carrying out an edit either keeps the text or replaces the lines of one declaration by others
(`applyEdit_cases`), and counts a change in the second case only. Nothing above the declaration moves
(`take_handleAll`), and where no change is counted, no line has changed (`handleAll_unchanged`).
-/

namespace SchemaLift.Declaration

/-! ## Carrying out an edit -/

/-- The lines that a declaration takes. -/
def ownLines (d : Declaration) (ls : List Line) : List Line :=
  (ls.drop d.start).take (d.stop + 1 - d.start)

section

variable {rule : Rule} {p : Progress} {d : Declaration} {edit : Edit} {line : Line}

/-- What an edit skips, in front of what was skipped below. -/
def skippedBy (rule : Rule) (d : Declaration) (line : Line) (edit : Edit) (below : List Skip) :
    List Skip :=
  (edit.skipped.map (Skip.atLine rule d.start line)).reverse ++ below

theorem mapM_skips (hline : Lines.line p.lines d.start = .ok line) (reasons : List SkipReason) :
    (reasons.mapM fun reason => do
      return Skip.atLine rule d.start (← Lines.line p.lines d.start) reason) =
      .ok (reasons.map (Skip.atLine rule d.start line)) := by
  induction reasons with
  | nil => rfl
  | cons reason rest ih =>
    rw [List.mapM_cons, ih, hline]
    rfl

theorem applyEdit_keep (hline : Lines.line p.lines d.start = .ok line)
    (hkeep : edit.replacement = none) :
    applyEdit rule p d edit =
      .ok ⟨p.lines, p.changes, skippedBy rule d line edit p.skipped⟩ := by
  unfold applyEdit
  rw [mapM_skips hline, hkeep]
  rfl

theorem applyEdit_same (hline : Lines.line p.lines d.start = .ok line) {new : List Line}
    (hnew : edit.replacement = some new) (hold : Lines.slice p.lines d.range = .ok new) :
    applyEdit rule p d edit =
      .ok ⟨p.lines, p.changes, skippedBy rule d line edit p.skipped⟩ := by
  unfold applyEdit
  rw [mapM_skips hline, hnew]
  simp only [bind, Except.bind, pure, Except.pure, hold, ↓reduceIte]
  rfl

theorem applyEdit_change (hline : Lines.line p.lines d.start = .ok line) {old new out : List Line}
    (hnew : edit.replacement = some new) (hold : Lines.slice p.lines d.range = .ok old)
    (hne : new ≠ old) (hout : Lines.splice p.lines d.range new = .ok out) :
    applyEdit rule p d edit =
      .ok ⟨out, p.changes + 1, skippedBy rule d line edit p.skipped⟩ := by
  unfold applyEdit
  rw [mapM_skips hline, hnew]
  simp only [bind, Except.bind, pure, Except.pure, hold, hne, hout, ↓reduceIte]
  rfl

/-- All that an edit can do to a text: nothing, if it gives the declaration no other lines, or one
counted change. -/
theorem applyEdit_cases {p' : Progress} (h : applyEdit rule p d edit = .ok p') :
    (p'.lines = p.lines ∧ p'.changes = p.changes ∧
      ∀ new ∈ edit.replacement, Lines.slice p.lines d.range = .ok new) ∨
    ∃ new, edit.replacement = some new ∧ Lines.splice p.lines d.range new = .ok p'.lines ∧
      p'.changes = p.changes + 1 := by
  unfold applyEdit at h
  obtain ⟨skipped, -, h⟩ := bind_eq_ok_iff.1 h
  cases hnew : edit.replacement with
  | none =>
    simp only [hnew] at h
    obtain rfl := Except.ok.inj h
    exact Or.inl ⟨rfl, rfl, by rintro new ⟨⟩⟩
  | some new =>
    simp only [hnew] at h
    obtain ⟨old, hold, h⟩ := bind_eq_ok_iff.1 h
    by_cases hsame : new = old
    · rw [if_pos hsame] at h
      obtain rfl := Except.ok.inj h
      refine Or.inl ⟨rfl, rfl, ?_⟩
      intro new' hnew'
      obtain rfl := Option.some.inj hnew'
      rw [hsame, hold]
    · rw [if_neg hsame] at h
      obtain ⟨out, hout, h⟩ := bind_eq_ok_iff.1 h
      obtain rfl := Except.ok.inj h
      exact Or.inr ⟨new, rfl, hout, rfl⟩

end

/-! ## Carrying out all edits -/

section

variable {rule : Rule} {revise : Revision} {ls : List Line}

theorem handleAll_cons {f : Found} {rest : List Found} {p' : Progress}
    (h : handleAll rule revise ls (f :: rest) = .ok p') :
    ∃ p, handleAll rule revise ls rest = .ok p ∧ handle rule revise p f = .ok p' := by
  rw [handleAll] at h
  exact bind_eq_ok_iff.1 h

/-- A find that is no declaration changes no line; a declaration gets the edit that the text asks
for as it stands. -/
theorem handle_cases {f : Found} {p p' : Progress} (h : handle rule revise p f = .ok p') :
    (f.declaration? = none ∧ p'.lines = p.lines ∧ p'.changes = p.changes) ∨
    ∃ d edit, f = .declaration d ∧ revise d p.lines = .ok edit ∧
      applyEdit rule p d edit = .ok p' := by
  cases f with
  | failed index reason =>
    rw [handle] at h
    obtain ⟨line, -, h⟩ := bind_eq_ok_iff.1 h
    obtain rfl := Except.ok.inj h
    exact Or.inl ⟨rfl, rfl, rfl⟩
  | declaration d =>
    rw [handle] at h
    obtain ⟨edit, hedit, h⟩ := bind_eq_ok_iff.1 h
    exact Or.inr ⟨d, edit, rfl, hedit, h⟩

/-- Lines above all declarations stay. -/
theorem take_handleAll {found : List Found} {p : Progress}
    (h : handleAll rule revise ls found = .ok p) {k : Nat}
    (hk : ∀ d, .declaration d ∈ found → k ≤ d.start) : p.lines.take k = ls.take k := by
  induction found generalizing p with
  | nil =>
    obtain rfl := Except.ok.inj h
    rfl
  | cons f rest ih =>
    obtain ⟨q, hq, hf⟩ := handleAll_cons h
    have htake := ih hq fun d hd => hk d (List.mem_cons_of_mem f hd)
    rcases handle_cases hf with ⟨-, hlines, -⟩ | ⟨d, edit, rfl, -, hedit⟩
    · rw [hlines, htake]
    · rcases applyEdit_cases hedit with ⟨hlines, -, -⟩ | ⟨new, -, hsplice, -⟩
      · rw [hlines, htake]
      · have hd : k ≤ d.range.first := hk d List.mem_cons_self
        rw [Lines.take_splice hsplice hd, htake]

/-- Where no change is counted, the text is as before, and every declaration keeps its lines. -/
theorem handleAll_unchanged {found : List Found} {p : Progress}
    (h : handleAll rule revise ls found = .ok p) (hp : p.changes = 0) :
    p.lines = ls ∧ ∀ d, .declaration d ∈ found → ∃ edit, revise d ls = .ok edit ∧
      ∀ new ∈ edit.replacement, Lines.slice ls d.range = .ok new := by
  induction found generalizing p with
  | nil =>
    obtain rfl := Except.ok.inj h
    exact ⟨rfl, by rintro d ⟨⟩⟩
  | cons f rest ih =>
    obtain ⟨q, hq, hf⟩ := handleAll_cons h
    rcases handle_cases hf with ⟨hnone, hlines, hchanges⟩ | ⟨d, edit, rfl, hrevise, hedit⟩
    · obtain ⟨hls, hrest⟩ := ih hq (hchanges.symm.trans hp)
      refine ⟨hlines.trans hls, ?_⟩
      intro d hd
      rcases List.mem_cons.1 hd with rfl | hd
      · cases hnone
      · exact hrest d hd
    · rcases applyEdit_cases hedit with ⟨hlines, hchanges, hkeep⟩ | ⟨new, -, -, hchanges⟩
      · obtain ⟨hls, hrest⟩ := ih hq (hchanges.symm.trans hp)
        rw [hls] at hrevise hkeep
        refine ⟨hlines.trans hls, ?_⟩
        intro d' hd'
        rcases List.mem_cons.1 hd' with heq | hd'
        · obtain rfl := Found.declaration.inj heq
          exact ⟨edit, hrevise, hkeep⟩
        · exact hrest d' hd'
      · omega

end

end SchemaLift.Declaration
