import Mathlib.Data.List.Basic
import SchemaLift.Token.Bracket

/-!
# Stretches of tokens with balanced brackets

`itemDepth` is the bracket depth below tokens that hold no comma outside their own brackets and close
no bracket from above: cutting at commas passes over them in one go (`segments_item_append`).
`depthPast` is the same for tokens without any comma; where it is known, the depth that the tokens add
is known (`bracketDepth_eq`).
-/

namespace SchemaLift.Token

/-- The depth below a token, unless it closes more than was opened. -/
def depthBelow (depth : Nat) (t : Token) : Option Nat :=
  if t.kind.opensBracket then some (depth + 1)
  else if t.kind.closesBracket then (if depth = 0 then none else some (depth - 1))
  else some depth

theorem eq_of_depthBelow {depth d : Nat} {t : Token} (h : depthBelow depth t = some d) :
    (d : Int) = depth + t.bracketDelta := by
  rw [depthBelow] at h
  rw [bracketDelta]
  split at h
  · rename_i hopens
    obtain rfl := Option.some.inj h
    rw [if_pos hopens, Int.natCast_succ]
  split at h
  · rename_i hopens hcloses
    split at h
    · cases h
    · obtain rfl := Option.some.inj h
      rw [if_neg hopens, if_pos hcloses]
      omega
  · rename_i hopens hcloses
    obtain rfl := Option.some.inj h
    rw [if_neg hopens, if_neg hcloses, Int.add_zero]

theorem depthBelow_eq_none_iff {depth : Nat} {t : Token} : depthBelow depth t = none ↔
    depth = 0 ∧ t.kind.opensBracket = false ∧ t.kind.closesBracket = true := by
  rw [depthBelow]
  cases t.kind.opensBracket with
  | true => exact iff_of_false nofun fun h => Bool.noConfusion h.2.1
  | false =>
    cases t.kind.closesBracket with
    | false => exact iff_of_false nofun fun h => Bool.noConfusion h.2.2
    | true => simp

theorem lt_zero_of_depthBelow {depth : Nat} {t : Token} (h : depthBelow depth t = none) :
    (depth : Int) + t.bracketDelta < 0 := by
  obtain ⟨rfl, hopens, hcloses⟩ := depthBelow_eq_none_iff.1 h
  rw [bracketDelta, hopens, if_neg Bool.false_ne_true, if_pos hcloses]
  decide

theorem depthBelow_comma {t : Token} (h : t.kind = .comma) (depth : Nat) :
    depthBelow depth t = some depth := by
  rw [depthBelow, h]
  rfl

/-- The depth below tokens, if none is a comma outside all brackets and none closes more than was
opened. -/
def itemDepth (depth : Nat) : List Token → Option Nat
  | [] => some depth
  | t :: ts =>
    if t.kind = .comma ∧ depth = 0 then none
    else (depthBelow depth t).bind fun depth => itemDepth depth ts

/-- The depth below tokens, if none is a comma and none closes more than was opened. -/
def depthPast (depth : Nat) : List Token → Option Nat
  | [] => some depth
  | t :: ts =>
    if t.kind = .comma then none
    else if t.kind.opensBracket then depthPast (depth + 1) ts
    else if t.kind.closesBracket then (if depth = 0 then none else depthPast (depth - 1) ts)
    else depthPast depth ts

theorem depthPast_cons (depth : Nat) (t : Token) (ts : List Token) : depthPast depth (t :: ts) =
    if t.kind = .comma then none else (depthBelow depth t).bind (depthPast · ts) := by
  rw [depthPast, depthBelow]
  split_ifs <;> rfl

theorem depthPast_append (depth : Nat) (a b : List Token) :
    depthPast depth (a ++ b) = (depthPast depth a).bind (depthPast · b) := by
  induction a generalizing depth with
  | nil => rfl
  | cons t ts ih =>
    rw [List.cons_append, depthPast_cons, depthPast_cons]
    split
    · rfl
    · rw [Option.bind_assoc]
      exact congrArg _ (funext ih)

theorem itemDepth_of_depthPast {depth d : Nat} {ts : List Token} (h : depthPast depth ts = some d) :
    itemDepth depth ts = some d := by
  induction ts generalizing depth with
  | nil => exact h
  | cons t ts ih =>
    rw [depthPast_cons] at h
    split at h
    · cases h
    rename_i hcomma
    obtain ⟨below, hbelow, h⟩ := Option.bind_eq_some_iff.1 h
    rw [itemDepth, if_neg fun hboth => hcomma hboth.1, hbelow, Option.bind_some, ih h]

theorem bracketDepth_append (a b : List Token) :
    bracketDepth (a ++ b) = bracketDepth a + bracketDepth b := by
  induction a with
  | nil => exact (Int.zero_add _).symm
  | cons t ts ih => rw [List.cons_append, bracketDepth, bracketDepth, ih, Int.add_assoc]

theorem bracketDepth_eq {depth d : Nat} {ts : List Token} (h : depthPast depth ts = some d) :
    (d : Int) = depth + bracketDepth ts := by
  induction ts generalizing depth with
  | nil =>
    obtain rfl := Option.some.inj h
    simp [bracketDepth]
  | cons t ts ih =>
    rw [depthPast_cons] at h
    split at h
    · cases h
    obtain ⟨below, hbelow, h⟩ := Option.bind_eq_some_iff.1 h
    rw [ih h, eq_of_depthBelow hbelow, bracketDepth, Int.add_assoc]

/-! ## Cutting at commas -/

/-- Puts a token in front of the first item. -/
def consFirst (t : Token) : List (List Token) → List (List Token)
  | [] => [[t]]
  | item :: rest => (t :: item) :: rest

theorem segments_cons (depth : Nat) (t : Token) (ts : List Token) : segments depth (t :: ts) =
    if t.kind = .comma ∧ depth = 0 then (segments 0 ts).map ([] :: ·)
    else (depthBelow depth t).bind fun depth => (segments depth ts).map (consFirst t) := by
  rw [segments.eq_def]
  simp only
  split
  · rfl
  · have hfirst : (fun rest : List (List Token) => match rest with
        | [] => [[t]]
        | item :: rest => (t :: item) :: rest) = consFirst t := by
      funext rest
      cases rest <;> rfl
    rw [← hfirst]
    rfl

/-- Tokens of an item go in front of the first item behind them. -/
theorem segments_item_append {depth d : Nat} {ts : List Token} (h : itemDepth depth ts = some d)
    {rest item : List Token} {items : List (List Token)}
    (hrest : segments d rest = some (item :: items)) :
    segments depth (ts ++ rest) = some ((ts ++ item) :: items) := by
  induction ts generalizing depth with
  | nil =>
    obtain rfl := Option.some.inj h
    exact hrest
  | cons t ts ih =>
    rw [itemDepth] at h
    split at h
    · cases h
    rename_i hcomma
    obtain ⟨below, hbelow, h⟩ := Option.bind_eq_some_iff.1 h
    rw [List.cons_append, segments_cons, if_neg hcomma, hbelow, Option.bind_some, ih h]
    rfl

/-- Tokens without commas outside brackets of their own belong to one segment. -/
theorem segments_append {depth d : Nat} {ts : List Token} (h : depthPast depth ts = some d)
    {rest item : List Token} {items : List (List Token)}
    (hrest : segments d rest = some (item :: items)) :
    segments depth (ts ++ rest) = some ((ts ++ item) :: items) :=
  segments_item_append (itemDepth_of_depthPast h) hrest

theorem segments_comma {t : Token} (ht : t.kind = .comma) (rest : List Token) :
    segments 0 (t :: rest) = (segments 0 rest).map ([] :: ·) := by
  rw [segments, if_pos ⟨ht, rfl⟩]

end SchemaLift.Token
