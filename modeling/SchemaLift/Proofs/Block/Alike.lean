import Mathlib.Data.List.Forall2
import SchemaLift.Proofs.Block.Steady

/-!
# Tokens that count alike

A word, a symbol or a string that is no keyword of a block opens and closes nothing, and starts nothing
behind it. So another one in its place leaves the depths of blocks and brackets as they are
(`codeBalance_of_alike`).
-/

namespace SchemaLift

open BlockEvent

namespace Token

/-- A word, a symbol or a string that is no keyword of a block. -/
structure Silent (t : Token) : Prop where
  kind : t.kind ∈ [TokenKind.identifier, .symbol, .doubleQuoted, .singleQuoted]
  word : isWordOf openers t = false

/-- A token in place of another one behind the same gap: the token itself, or a silent one for a silent
one. -/
inductive Alike (t : Token) : Token → Prop
  | refl : Alike t t
  | silent {new : Token} (hold : t.Silent) (hnew : new.Silent) (hgap : new.gap = t.gap) : Alike t new

theorem Silent.step_eq {t : Token} (h : t.Silent) (before : Option Token) (loop : Bool) :
    step before loop t = (none, loop) := by
  have hkinds : ∀ kind ∈ [TokenKind.identifier, .symbol, .doubleQuoted, .singleQuoted],
      kind ≠ .semicolon ∧ kind ≠ .doWord ∧ kind ≠ .endWord := by decide
  obtain ⟨hsemicolon, hdo, hend⟩ := hkinds t.kind h.kind
  simp [step, hsemicolon, hdo, hend, h.word]

/-- Behind a silent token nothing starts, and it is no dot. -/
theorem Silent.behind {t : Token} (h : t.Silent) :
    afterDot (some t) = false ∧ startsValue (some t) = false := by
  have hkinds : ∀ kind ∈ [TokenKind.identifier, .symbol, .doubleQuoted, .singleQuoted],
      kind ≠ .dot ∧ kind ≠ .scope ∧ kind ≠ .semicolon ∧ kind ≠ .operator := by decide
  obtain ⟨hdot, hscope, hsemicolon, hoperator⟩ := hkinds t.kind h.kind
  simp [afterDot, startsValue, Token.is, hdot, hscope, hsemicolon, hoperator]

theorem Silent.bracketDelta_eq {t : Token} (h : t.Silent) : t.bracketDelta = 0 := by
  have hkinds : ∀ kind ∈ [TokenKind.identifier, .symbol, .doubleQuoted, .singleQuoted],
      kind.opensBracket = false ∧ kind.closesBracket = false := by decide
  obtain ⟨hopens, hcloses⟩ := hkinds t.kind h.kind
  rw [bracketDelta, hopens, hcloses]
  rfl

namespace Alike

variable {t u : Token} (h : t.Alike u)
include h

theorem gap_eq : u.gap = t.gap := by
  cases h with
  | refl => rfl
  | silent _ _ hgap => exact hgap

theorem bracketDelta_eq : u.bracketDelta = t.bracketDelta := by
  cases h with
  | refl => rfl
  | silent hold hnew => rw [hold.bracketDelta_eq, hnew.bracketDelta_eq]

theorem behind_eq : afterDot (some u) = afterDot (some t) ∧ startsValue (some u) = startsValue (some t) := by
  cases h with
  | refl => exact ⟨rfl, rfl⟩
  | silent hold hnew => rw [hold.behind.1, hold.behind.2, hnew.behind.1, hnew.behind.2]; exact ⟨rfl, rfl⟩

/-- They take the same step, behind tokens that count alike. -/
theorem stepOnLine_eq {before before' : Option Token} (hdot : afterDot before' = afterDot before)
    (hstarts : startsValue before' = startsValue before) (loop : Bool) :
    stepOnLine before' loop u = stepOnLine before loop t := by
  have hstep : ∀ {before before' : Option Token} (loop : Bool), afterDot before' = afterDot before →
      startsValue before' = startsValue before → step before' loop u = step before loop t := by
    intro before before' loop hdot hstarts
    cases h with
    | refl => rw [step, step, hdot, hstarts]
    | silent hold hnew => rw [hold.step_eq, hnew.step_eq]
  have hfirst : step none false u = step none false t := hstep false rfl rfl
  rw [stepOnLine, stepOnLine, h.gap_eq, hstep loop hdot hstarts, hfirst]

theorem addGap (g : Text) : Alike { t with gap := g ++ t.gap } { u with gap := g ++ u.gap } := by
  cases h with
  | refl => exact .refl
  | silent hold hnew hgap =>
    exact .silent ⟨hold.kind, hold.word⟩ ⟨hnew.kind, hnew.word⟩ (congrArg (g ++ ·) hgap)

end Alike

/-- A comment is kept, so leaving out the comments leaves tokens that count alike. -/
theorem alike_dropComments {ts us : List Token} (h : List.Forall₂ Alike ts us) (g : Text) :
    List.Forall₂ Alike (dropComments g ts) (dropComments g us) := by
  have hsilent : ∀ {t : Token}, t.Silent → t.kind ≠ .comment := by
    have hkinds : ∀ kind ∈ [TokenKind.identifier, .symbol, .doubleQuoted, .singleQuoted],
        kind ≠ .comment := by decide
    intro t ht
    exact hkinds t.kind ht.kind
  induction h generalizing g with
  | nil => exact .nil
  | @cons t u ts us ht _ ih =>
    cases ht with
    | refl =>
      rw [dropComments, dropComments]
      split
      · exact ih _
      · exact .cons .refl (ih [])
    | silent hold hnew hgap =>
      rw [dropComments, if_neg (hsilent hold), dropComments, if_neg (hsilent hnew)]
      exact .cons (Alike.silent hold hnew hgap |>.addGap g) (ih [])

end Token

open Token

theorem onLines_of_alike {ts us : List Token} (h : List.Forall₂ Alike ts us) {before before' : Option Token}
    (hdot : afterDot before' = afterDot before) (hstarts : startsValue before' = startsValue before)
    (loop : Bool) : onLines before' loop us = onLines before loop ts := by
  induction h generalizing before before' loop with
  | nil => rfl
  | cons ht _ ih =>
    rw [onLines_cons, onLines_cons, ht.stepOnLine_eq hdot hstarts, ih ht.behind_eq.1 ht.behind_eq.2]

/-- **Tokens that count alike leave the depths as they are.** -/
theorem codeBalance_of_alike {ts us : List Token} (h : List.Forall₂ Alike ts us) :
    codeBalance us = codeBalance ts := by
  have hbrackets : bracketDepth us = bracketDepth ts := by
    induction h with
    | nil => rfl
    | cons ht _ ih => rw [bracketDepth, bracketDepth, ht.bracketDelta_eq, ih]
  have hevents : onLines none false us = onLines none false ts := onLines_of_alike h rfl rfl false
  rw [codeBalance, codeBalance, hevents, hbrackets]

/-- Code whose tokens count alike, its comments kept, adds as much. -/
theorem textBalance_of_alike {s t : Text} (h : List.Forall₂ Alike (tokenize s) (tokenize t)) :
    textBalance t = textBalance s :=
  codeBalance_of_alike (alike_dropComments h [])

end SchemaLift
