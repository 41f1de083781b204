import SchemaLift.Proofs.Token.Closed

/-!
# Texts that are put together

`Joins s parts` says that a text is put together from closed ones without changing any of their tokens. What
adds up on such texts is then counted part by part, their comments for one (`Joins.carries`).
-/

namespace SchemaLift

/-- A text is made of closed texts, one behind the other, and of their pieces. -/
inductive Joins : Text → List Text → Prop
  | nil : Joins [] []
  | cons {p s : Text} {parts : List Text} (hp : Closed p) (h : Joins s parts)
      (hpieces : Scan.pieces (p ++ s) = Scan.pieces p ++ Scan.pieces s) : Joins (p ++ s) (p :: parts)

theorem Closed.joins {s : Text} (h : Closed s) : Joins s [s] := by
  have hone : Joins (s ++ []) [s] := .cons h .nil (by rw [List.append_nil]; exact (List.append_nil _).symm)
  rwa [List.append_nil] at hone

namespace Joins

variable {s t : Text} {parts others : List Text}

/-- The comments of the parts are those of the whole. -/
theorem carries (h : Joins s parts) : Carries s (parts.map noted).sum := by
  induction h with
  | nil => exact .nil
  | cons hp _ hpieces ih =>
    refine ⟨.of_pieces_eq hpieces hp ih.closed, ?_⟩
    rw [noted_of_pieces_eq hpieces, ih.noted_eq, List.map_cons, List.sum_cons]

theorem append (h : Joins s parts) (ht : Joins t others) (hstop : ∀ c ∈ t.head?, Scan.Stops c) :
    Joins (s ++ t) (parts ++ others) := by
  induction h with
  | nil => exact ht
  | @cons p s parts hp h hpieces ih =>
    have hs := h.carries.closed
    have hall := Closed.of_pieces_eq hpieces hp hs
    rw [List.append_assoc, List.cons_append]
    refine .cons hp ih ?_
    rw [← List.append_assoc, hall.pieces_append hstop, hpieces, hs.pieces_append hstop,
      List.append_assoc]

/-- A character in front that starts nothing. -/
theorem char {c : Char} {kind : Option TokenKind} (hc : ∀ rest, Scan.head c rest = (kind, 0))
    (hplain : Plain [c]) (h : Joins s parts) : Joins (c :: s) ([c] :: parts) := by
  refine .cons (p := [c]) hplain.carries.closed h ?_
  have hsplit := fun rest => Scan.pieces_of_head (w := []) (hc rest)
  exact (hsplit s).trans (congrArg (· ++ Scan.pieces s) (hsplit []).symm)

/-- A text behind a space. -/
theorem space (h : Joins s parts) (ht : Joins t others) :
    Joins (s ++ ' ' :: t) (parts ++ [' '] :: others) :=
  h.append (ht.char (Scan.head_of_isBlankChar (by decide)) (by decide)) (Scan.stops_cons (by decide) t)

end Joins

end SchemaLift
