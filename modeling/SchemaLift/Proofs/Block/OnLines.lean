import SchemaLift.Proofs.Block.Inline

/-!
# The block events of a text

Blocks are matched line by line, and each line is scanned by itself. `onLines` reads the tokens of a whole
text the same way, afresh behind every line feed. So it tells which token opens or closes a block, and
what it finds are the events of the lines (`onLines_unlines`).
-/

namespace SchemaLift

namespace BlockEvent

/-- The event of each token of a text, if it has one. A token behind a line feed is the first of its
line. -/
def onLines (before : Option Token) (loop : Bool) : List Token → List (Option BlockEvent)
  | [] => []
  | t :: ts =>
    let found := if '\n' ∈ t.gap then step none false t else step before loop t
    found.1 :: onLines (some t) found.2 ts

theorem length_onLines (before : Option Token) (loop : Bool) (ts : List Token) :
    (onLines before loop ts).length = ts.length := by
  induction ts generalizing before loop with
  | nil => rfl
  | cons t ts ih => rw [onLines, List.length_cons, ih, List.length_cons]

/-- On a line the events are those of the scan. -/
theorem onLines_of_notMem {ts : List Token} (h : ∀ t ∈ ts, '\n' ∉ t.gap) (before : Option Token)
    (loop : Bool) : (onLines before loop ts).flatMap Option.toList = scan before loop ts := by
  induction ts generalizing before loop with
  | nil => rfl
  | cons t ts ih =>
    obtain ⟨ht, hts⟩ := List.forall_mem_cons.1 h
    rw [onLines, if_neg ht, List.flatMap_cons, ih hts, scan_cons]

/-- Behind a line feed nothing is left of what stands in front of it. -/
theorem onLines_append {us : List Token} (h : ∀ t ∈ us.head?, '\n' ∈ t.gap) (before : Option Token)
    (loop : Bool) (ts : List Token) :
    onLines before loop (ts ++ us) = onLines before loop ts ++ onLines none false us := by
  induction ts generalizing before loop with
  | nil =>
    cases us with
    | nil => rfl
    | cons u us =>
      have hfeed : '\n' ∈ u.gap := h u rfl
      rw [List.nil_append, onLines, onLines, onLines, if_pos hfeed, if_pos hfeed, List.nil_append]
  | cons t ts ih => rw [List.cons_append, onLines, onLines, ih, List.cons_append]

theorem mem_gap_of_addGap {g : Text} (hg : '\n' ∈ g) (ts : List Token) :
    ∀ t ∈ (Token.addGap g ts).head?, '\n' ∈ t.gap := by
  intro t ht
  cases ts with
  | nil => cases ht
  | cons u us =>
    obtain rfl := Option.some.inj ht
    exact List.mem_append_left _ hg

/-- A token before others is judged by its kind and its text only. -/
theorem onLines_gap (g : Text) (t : Token) (loop : Bool) (ts : List Token) :
    onLines (some { t with gap := g }) loop ts = onLines (some t) loop ts := by
  cases ts <;> rfl

theorem onLines_addGap (g : Text) (ts : List Token) :
    onLines none false (Token.addGap g ts) = onLines none false ts := by
  cases ts with
  | nil => rfl
  | cons t ts =>
    have hstep : step none false { t with gap := g ++ t.gap } = step none false t := rfl
    rw [Token.addGap_cons, onLines, onLines, hstep, onLines_gap, ite_self, ite_self]

/-- Read as a whole, a text has the events of its lines. -/
theorem onLines_unlines {ls : List Line} (hfeed : ∀ line ∈ ls, '\n' ∉ line)
    (hquotes : ∀ line ∈ ls, QuotesInTokens line) :
    (onLines none false (tokenizeCode (Text.unlines ls))).flatMap Option.toList =
      ((Outline.ofLines ls).map LineShape.events).flatten := by
  induction ls with
  | nil => rfl
  | cons line rest ih =>
    obtain ⟨hline, hrest⟩ := List.forall_mem_cons.1 hfeed
    obtain ⟨hq, hqs⟩ := List.forall_mem_cons.1 hquotes
    have hevents : (onLines none false (tokenizeCode line)).flatMap Option.toList =
        (LineShape.ofLine line).events := onLines_of_notMem (notMem_gap hline) none false
    rw [Outline.ofLines, List.map_cons, List.map_cons, List.flatten_cons, ← hevents]
    cases rest with
    | nil => simp [Text.unlines, Text.joinWith]
    | cons second rest =>
      obtain ⟨g, hg, htokens⟩ := tokenizeCode_feed hq (Text.unlines (second :: rest))
      have hjoin : Text.unlines (line :: second :: rest) =
          line ++ '\n' :: Text.unlines (second :: rest) := rfl
      rw [hjoin, htokens, onLines_append (mem_gap_of_addGap hg _), List.flatMap_append, onLines_addGap,
        ih hrest hqs]
      rfl

end BlockEvent

end SchemaLift
