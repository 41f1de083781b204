import SchemaLift.Proofs.Block.Outline
import SchemaLift.Proofs.Text.Replace

/-!
# Statements of a kind

Some rules go through the statements that begin on certain lines. `Statements` says which ones these are:
from top to bottom, none inside another, and none left out that ends. Going through the lines finds them
(`statements_statementsOn`), and what comes in place of some of them can be put in all at once
(`Statements.sorted`).
-/

namespace SchemaLift

/-- The statements of a text that begin on lines of a kind, from top to bottom. Each is the extent of a
statement; a line of the kind is in one of them unless its own statement never ends. -/
structure Statements (starts : Line → Bool) (lines : List Line) (ranges : List LineRange) : Prop where
  begins : ∀ r ∈ ranges, ∃ line, lines[r.first]? = some line ∧ starts line = true
  ends : ∀ r ∈ ranges, (Outline.ofLines lines).statementEnd r.first = some r.last
  inside : ∀ r ∈ ranges, r.first ≤ r.last ∧ r.last < lines.length
  ascending : ranges.Pairwise fun r s => r.last < s.first
  complete : ∀ i line, lines[i]? = some line → starts line = true →
    (∃ r ∈ ranges, r.contains i = true) ∨ (Outline.ofLines lines).statementEnd i = none

/-! ## Going through a text -/

/-- The statements that begin on the lines `rest`, the first of which is line `index`, when the next
`taken` lines belong to a statement. -/
def statementsFrom (starts : Line → Bool) (outline : Outline) (taken index : Nat) :
    List Line → List LineRange
  | [] => []
  | line :: rest =>
    match taken with
    | taken + 1 => statementsFrom starts outline taken (index + 1) rest
    | 0 =>
      if starts line then
        match outline.statementEnd index with
        | none => statementsFrom starts outline 0 (index + 1) rest
        | some last =>
          ⟨index, last⟩ :: statementsFrom starts outline (last - index) (index + 1) rest
      else statementsFrom starts outline 0 (index + 1) rest

section

variable {starts : Line → Bool} {lines rest : List Line} {outline : Outline} {taken index : Nat}

theorem of_mem_statementsFrom (hrest : lines.drop index = rest) {r : LineRange}
    (h : r ∈ statementsFrom starts outline taken index rest) : index + taken ≤ r.first ∧
      (∃ line, lines[r.first]? = some line ∧ starts line = true) ∧
        outline.statementEnd r.first = some r.last := by
  induction rest generalizing taken index with
  | nil => cases h
  | cons line rest ih =>
    have hnext := drop_succ_of_drop_eq_cons hrest
    cases taken with
    | succ taken => exact (ih hnext h).imp_left fun hle => by omega
    | zero =>
      rw [statementsFrom] at h
      split at h
      · rename_i hstarts
        split at h
        · exact (ih hnext h).imp_left fun hle => by omega
        · rename_i last hlast
          rcases List.mem_cons.1 h with rfl | h
          · exact ⟨Nat.le_refl _, ⟨line, getElem?_of_drop_eq_cons hrest, hstarts⟩, hlast⟩
          · exact (ih hnext h).imp_left fun hle => by omega
      · exact (ih hnext h).imp_left fun hle => by omega

theorem statementsFrom_ascending (hrest : lines.drop index = rest) :
    (statementsFrom starts outline taken index rest).Pairwise fun r s => r.last < s.first := by
  induction rest generalizing taken index with
  | nil => exact .nil
  | cons line rest ih =>
    have hnext := drop_succ_of_drop_eq_cons hrest
    cases taken with
    | succ taken => exact ih hnext
    | zero =>
      rw [statementsFrom]
      split
      · split
        · exact ih hnext
        · rename_i last hlast
          refine .cons (fun r hr => ?_) (ih hnext)
          have hfirst := (of_mem_statementsFrom hnext hr).1
          show last < r.first
          omega
      · exact ih hnext

/-- A line of the kind below the lines taken lies in a statement, unless its own never ends. -/
theorem statementsFrom_complete (hrest : lines.drop index = rest) {i : Nat} {line : Line}
    (hi : index + taken ≤ i) (hline : lines[i]? = some line) (hstarts : starts line = true) :
    (∃ r ∈ statementsFrom starts outline taken index rest, r.contains i = true) ∨
      outline.statementEnd i = none := by
  induction rest generalizing taken index with
  | nil =>
    have hlt := (List.getElem?_eq_some_iff.1 hline).1
    have hlength := List.drop_eq_nil_iff.1 hrest
    omega
  | cons first rest ih =>
    have hnext := drop_succ_of_drop_eq_cons hrest
    have hfirst := getElem?_of_drop_eq_cons hrest
    cases taken with
    | succ taken => exact ih hnext (by omega)
    | zero =>
      rw [statementsFrom]
      -- the line is the one looked at, or stands in the statement found there, or further down
      by_cases hhere : i = index
      · subst hhere
        rw [hfirst] at hline
        obtain rfl := Option.some.inj hline
        rw [if_pos hstarts]
        cases hlast : outline.statementEnd i with
        | none => exact .inr rfl
        | some last =>
          have hle := (Outline.statementEnd_bounds hlast).1
          exact .inl ⟨⟨i, last⟩, List.mem_cons_self, LineRange.contains_iff.2 ⟨Nat.le_refl _, hle⟩⟩
      · split
        · split
          · exact ih hnext (by omega)
          · rename_i last hlast
            by_cases hin : i ≤ last
            · exact .inl ⟨⟨index, last⟩, List.mem_cons_self,
                LineRange.contains_iff.2 ⟨by omega, hin⟩⟩
            · have hbelow : index + 1 + (last - index) ≤ i := by omega
              refine (ih hnext hbelow).imp_left ?_
              rintro ⟨r, hr, hcontains⟩
              exact ⟨r, List.mem_cons_of_mem _ hr, hcontains⟩
        · exact ih hnext (by omega)

end

/-- The statements that begin on lines of a kind. -/
def statementsOn (starts : Line → Bool) (lines : List Line) : List LineRange :=
  statementsFrom starts (Outline.ofLines lines) 0 0 lines

theorem statements_statementsOn (starts : Line → Bool) (lines : List Line) :
    Statements starts lines (statementsOn starts lines) where
  begins _ hr := (of_mem_statementsFrom rfl hr).2.1
  ends _ hr := (of_mem_statementsFrom rfl hr).2.2
  inside r hr := by
    have hbounds := Outline.statementEnd_bounds (of_mem_statementsFrom rfl hr).2.2
    rwa [Outline.length_ofLines] at hbounds
  ascending := statementsFrom_ascending rfl
  complete _ _ hline hstarts := statementsFrom_complete rfl (by omega) hline hstarts

/-- What comes for some of the statements are changes in order. -/
theorem Statements.sorted {starts : Line → Bool} {lines : List Line} {ranges : List LineRange}
    (h : Statements starts lines ranges) (replacement : LineRange → Option (List Line)) :
    Lines.Sorted lines (ranges.filterMap fun r => (replacement r).map (r, ·)) := by
  refine ⟨?_, h.ascending.filterMap _ fun r s hlt c hc d hd => ?_⟩
  · intro c hc
    obtain ⟨r, hr, hc⟩ := List.mem_filterMap.1 hc
    obtain ⟨new, -, rfl⟩ := Option.map_eq_some_iff.1 hc
    exact h.inside r hr
  · obtain ⟨new, -, rfl⟩ := Option.map_eq_some_iff.1 hc
    obtain ⟨new', -, rfl⟩ := Option.map_eq_some_iff.1 hd
    exact hlt

end SchemaLift
