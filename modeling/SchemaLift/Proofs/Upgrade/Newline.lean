import SchemaLift.Proofs.Upgrade.Pipeline

/-!
# Upgrades under either newline convention

Putting a carriage return before every line feed of a text is undone exactly when the rules get to
see it, whatever carriage returns the text holds of its own (`dropReturns_addReturns`). So an upgrade
of a text with plain line feeds and one of its `crlf` form are the same run, and their outputs differ
by the convention alone (`upgrade_addReturns`).
-/

namespace SchemaLift

namespace Newline

/-- A character stays unless it is a carriage return with a line feed behind it. -/
theorem dropReturns_cons_of_ne {c : Char} {s : Text} (h : c ≠ '\r' ∨ s.head? ≠ some '\n') :
    dropReturns (c :: s) = c :: dropReturns s := by
  cases s with
  | nil => rfl
  | cons d ds =>
    rw [dropReturns_cons, if_neg]
    rintro ⟨rfl, rfl⟩
    rcases h with h | h <;> exact h rfl

/-- Nothing that gets carriage returns starts with a line feed. -/
theorem head?_addReturns_ne (s : Text) : (addReturns s).head? ≠ some '\n' := by
  cases s with
  | nil => simp [addReturns]
  | cons c cs =>
    rw [addReturns_cons]
    split
    · simp
    · rename_i hc
      simpa using hc

/-- Carriage returns that were put before the line feeds are the ones that are dropped. -/
theorem dropReturns_addReturns (s : Text) : dropReturns (addReturns s) = s := by
  induction s with
  | nil => rfl
  | cons c cs ih =>
    have hrest : ∀ d, dropReturns (d :: addReturns cs) = d :: cs := fun d => by
      rw [dropReturns_cons_of_ne (.inr (head?_addReturns_ne cs)), ih]
    rw [addReturns_cons]
    split
    · rename_i hc
      rw [hc]
      exact (dropReturns_cons '\r' '\n' (addReturns cs)).trans (hrest '\n')
    · exact hrest c

theorem allReturned_addReturns (s : Text) (cr : Bool) : allReturned cr (addReturns s) = true := by
  induction s generalizing cr with
  | nil => rfl
  | cons c cs ih =>
    rw [addReturns_cons]
    split
    · simpa [allReturned] using ih false
    · rename_i hc
      simpa [allReturned, hc] using ih (c == '\r')

theorem mem_addReturns {s : Text} (h : '\n' ∈ s) : '\n' ∈ addReturns s :=
  List.mem_flatMap.2 ⟨'\n', h, by simp⟩

/-- A text with line feeds follows the `crlf` convention once each has its carriage return. -/
theorem detect_addReturns {s : Text} (h : '\n' ∈ s) : detect (addReturns s) = .crlf :=
  if_pos ⟨mem_addReturns h, allReturned_addReturns s false⟩

end Newline

open Newline (addReturns detect)

/-- The rules see the same text under either convention. -/
theorem plainText_addReturns {s : Text} (hfeed : '\n' ∈ s) : plainText (addReturns s) = s := by
  rw [plainText, Newline.detect_addReturns hfeed]
  exact Newline.dropReturns_addReturns s

/-- **Upgrading commutes with the newline convention.** The upgrade of a text with plain line feeds
and that of its `crlf` form succeed together, with the same changes and skips; the second output is
the first one with a carriage return before every line feed. -/
theorem upgrade_addReturns (options : UpgradeOptions) {s : Text} (hfeed : '\n' ∈ s)
    (hplain : detect s = .lf) :
    upgrade options (addReturns s) = (upgrade options s).map fun report =>
      { report with output := addReturns report.output } := by
  have hseen : plainText s = s := by rw [plainText, hplain]; rfl
  rw [upgrade_eq, upgrade_eq, plainText_addReturns hfeed, Newline.detect_addReturns hfeed, hseen,
    hplain]
  cases applyRules options s <;> rfl

/-- A text with a carriage return before one of its line feeds only. -/
def mixed : Text := "field :a, types.Int\r\nfield :b, foo\nend\n".toList

/-- The field without a known type. -/
def mixedSkip : Skip := ⟨.field, 2, "field :b, foo".toList, .unrecognizedType "foo".toList⟩

theorem upgrade_mixed_addReturns :
    '\n' ∈ mixed ∧ detect mixed = .lf ∧
      upgrade .standard mixed =
        .ok ⟨"field :a, Integer, null: true\nfield :b, foo\nend\n".toList, [(.field, 1)],
          [mixedSkip]⟩ ∧
      upgrade .standard (addReturns mixed) =
        .ok ⟨"field :a, Integer, null: true\r\nfield :b, foo\r\nend\r\n".toList, [(.field, 1)],
          [mixedSkip]⟩ := by
  have hfeed : '\n' ∈ mixed := by decide
  have hplain : detect mixed = .lf := by decide
  have hupgrade : upgrade .standard mixed =
      .ok ⟨"field :a, Integer, null: true\nfield :b, foo\nend\n".toList, [(.field, 1)],
        [mixedSkip]⟩ := by decide +kernel
  refine ⟨hfeed, hplain, hupgrade, ?_⟩
  rw [upgrade_addReturns .standard hfeed hplain, hupgrade]
  decide +kernel

end SchemaLift
