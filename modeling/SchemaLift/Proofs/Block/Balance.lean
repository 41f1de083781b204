import Mathlib.Algebra.BigOperators.Group.List.Basic
import Mathlib.Algebra.Group.Prod
import Mathlib.Algebra.Ring.Int.Defs
import SchemaLift.Block.Shape
import SchemaLift.Proofs.Text.Lines
import SchemaLift.Proofs.Token.Stream

/-!
# What lines add to the depth of blocks and brackets

The balance of lines is a sum over the lines that they make in a text. Blank lines add nothing, and
indentation makes no difference (`lineBalance_blank_append`).
-/

namespace SchemaLift

/-- What a line adds to the depth of blocks and to that of brackets. -/
def lineBalance (line : Line) : Int × Int :=
  ((LineShape.ofLine line).depth, (LineShape.ofLine line).brackets)

/-- What lines add together. A line that holds line feeds counts as several. -/
def balance (ls : List Line) : Int × Int := ((ls.flatMap Text.lines).map lineBalance).sum

theorem balance_append (a b : List Line) : balance (a ++ b) = balance a + balance b := by
  unfold balance
  rw [List.flatMap_append, List.map_append, List.sum_append]

theorem balance_cons (line : Line) (ls : List Line) :
    balance (line :: ls) = balance [line] + balance ls :=
  balance_append [line] ls

theorem balance_singleton {line : Line} (h : '\n' ∉ line) : balance [line] = lineBalance line := by
  unfold balance
  rw [List.flatMap_singleton, Text.lines_of_notMem h, List.map_singleton, List.sum_singleton]

/-- Joining lines to a text does not change what they add. -/
theorem balance_lines_unlines (ls : List Line) : balance (Text.lines (Text.unlines ls)) = balance ls := by
  by_cases hne : ls = []
  · rw [hne]
    rfl
  · have hfeed : ∀ line ∈ ls.flatMap Text.lines, '\n' ∉ line := by
      intro line hmem
      obtain ⟨l, -, hline⟩ := List.mem_flatMap.1 hmem
      exact Text.notMem_of_mem_lines hline
    rw [balance, Text.lines_unlines_flatMap hne, Text.flatMap_lines hfeed, balance]

/-! ## Balance and tokens -/

/-- What tokens add to the two depths. -/
def tokenBalance (tokens : List Token) : Int × Int :=
  (BlockEvent.total (BlockEvent.ofTokens tokens), Token.bracketDepth tokens)

theorem lineBalance_eq (line : Line) : lineBalance line = tokenBalance (tokenizeCode line) := rfl

/-- A token before others is judged by its kind and its text only. -/
theorem scan_gap (g : Text) (t : Token) (loop : Bool) (ts : List Token) :
    BlockEvent.scan (some { t with gap := g }) loop ts = BlockEvent.scan (some t) loop ts := by
  cases ts <;> rfl

theorem scan_addGap (g : Text) (before : Option Token) (loop : Bool) (ts : List Token) :
    BlockEvent.scan before loop (Token.addGap g ts) = BlockEvent.scan before loop ts := by
  cases ts with
  | nil => rfl
  | cons t ts =>
    have hword : ∀ words, BlockEvent.isWordOf words { t with gap := g ++ t.gap } =
        BlockEvent.isWordOf words t := fun _ => rfl
    simp only [Token.addGap_cons, BlockEvent.scan, scan_gap, hword]

theorem bracketDepth_addGap (g : Text) (ts : List Token) :
    Token.bracketDepth (Token.addGap g ts) = Token.bracketDepth ts := by
  cases ts <;> rfl

theorem tokenBalance_addGap (g : Text) (ts : List Token) :
    tokenBalance (Token.addGap g ts) = tokenBalance ts := by
  unfold tokenBalance BlockEvent.ofTokens
  rw [scan_addGap, bracketDepth_addGap]

theorem lineBalance_blank_append {ws : Text} (h : ∀ c ∈ ws, Text.isBlankChar c = true)
    (line : Line) : lineBalance (ws ++ line) = lineBalance line := by
  rw [lineBalance_eq, tokenizeCode_blank_append h, tokenBalance_addGap, lineBalance_eq]

theorem lineBalance_of_isBlank {line : Line} (h : Text.isBlank line = true) :
    lineBalance line = 0 := by
  rw [lineBalance_eq, tokenizeCode_of_isBlank h]
  rfl

end SchemaLift
