import SchemaLift.Text.Lines

/-!
# Newline conventions

A text follows the `crlf` convention when it has line feeds and a carriage return stands before each
of them. Such a text is worked on with plain line feeds and gets its carriage returns back at the
end; `restore_normalize` says that this is exact.
-/

namespace SchemaLift

/-- How the lines of a text end. -/
inductive Newline where
  | lf
  | crlf
  deriving DecidableEq, Repr

namespace Newline

/-- Whether a carriage return stands before every line feed; `cr` says whether one stands before
the text itself. -/
def allReturned (cr : Bool) : Text → Bool
  | [] => true
  | c :: cs => (c != '\n' || cr) && allReturned (c == '\r') cs

/-- The convention of a text. Mixed or missing line ends count as `lf`. -/
def detect (s : Text) : Newline :=
  if '\n' ∈ s ∧ allReturned false s then .crlf else .lf

/-- Every carriage return before a line feed is dropped. -/
def dropReturns : Text → Text
  | [] => []
  | [c] => [c]
  | c :: d :: cs =>
    if c = '\r' ∧ d = '\n' then dropReturns (d :: cs) else c :: dropReturns (d :: cs)

/-- A carriage return is put before every line feed. -/
def addReturns (s : Text) : Text := s.flatMap fun c => if c = '\n' then ['\r', '\n'] else [c]

/-- The text with plain line feeds. -/
def normalize : Newline → Text → Text
  | .lf, s => s
  | .crlf, s => dropReturns s

def restore : Newline → Text → Text
  | .lf, s => s
  | .crlf, s => addReturns s

theorem dropReturns_cons (c d : Char) (cs : Text) :
    dropReturns (c :: d :: cs) =
      if c = '\r' ∧ d = '\n' then dropReturns (d :: cs) else c :: dropReturns (d :: cs) := rfl

theorem addReturns_cons (c : Char) (cs : Text) :
    addReturns (c :: cs) = (if c = '\n' then ['\r', '\n'] else [c]) ++ addReturns cs := rfl

theorem addReturns_dropReturns (s : Text) :
    ∀ c, c ≠ '\n' → allReturned (c == '\r') s = true →
      addReturns (dropReturns (c :: s)) = c :: s := by
  induction s with
  | nil => intro c hc _; simp [dropReturns, addReturns, hc]
  | cons d ds ih =>
    intro c hc h
    simp only [allReturned, Bool.and_eq_true, Bool.or_eq_true, bne_iff_ne, beq_iff_eq] at h
    by_cases hd : d = '\n'
    · subst hd
      have hr : c = '\r' := h.1.resolve_left (by simp)
      subst hr
      rw [dropReturns_cons, if_pos ⟨rfl, rfl⟩]
      cases ds with
      | nil => rfl
      | cons e es =>
        have he : e ≠ '\n' := by
          intro he
          subst he
          simp [allReturned] at h
        have hrest : allReturned (e == '\r') es = true := by
          have := h.2
          simp only [allReturned, Bool.and_eq_true] at this
          exact this.2
        rw [dropReturns_cons, if_neg (by simp), addReturns_cons]
        have := ih '\r' (by decide)
        simp only [allReturned] at this
        have step : addReturns (dropReturns (e :: es)) = e :: es := by
          have h2 := this (by simp [hrest])
          rw [dropReturns_cons, if_neg (by simp [he]), addReturns_cons] at h2
          simpa using h2
        rw [step]
        rfl
    · rw [dropReturns_cons, if_neg (by simp [hd]), addReturns_cons, if_neg hc, ih d hd h.2]
      rfl

/-- A text gets its own line ends back. -/
theorem restore_normalize (s : Text) : restore (detect s) (normalize (detect s) s) = s := by
  unfold detect
  split
  · rename_i h
    cases s with
    | nil => rfl
    | cons c cs =>
      have h2 := h.2
      simp only [allReturned, Bool.and_eq_true, Bool.or_eq_true, bne_iff_ne] at h2
      exact addReturns_dropReturns cs c (h2.1.resolve_right (by simp)) h2.2
  · rfl

end Newline

end SchemaLift
