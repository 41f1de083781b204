import SchemaLift.Call.Statement
import SchemaLift.Proofs.Block.Closed
import SchemaLift.Proofs.Text.Walk
import SchemaLift.Proofs.Token.FirstWord

/-!
# The statements of a body

The statements directly inside a block are found by a walk over the lines of its body alone
(`children_eq`). Closed lines among them add their own statements and change no others, apart from a
statement that runs on over them (`statementsOf_splice`).
-/

namespace SchemaLift

open Outline Walk

/-! ## Walking over a body -/

/-- The number of lines that the statement on the first line takes behind it, if it has code. It takes
all lines if it does not end. -/
def statementReach (ls : List Line) : Nat :=
  if (ofLines ls).head?.any LineShape.isEmpty then 0
  else ((ofLines ls).statementEnd 0).getD (ls.length - 1)

/-- Whether a statement begins on the first line. -/
def startsStatement (ls : List Line) : Bool := !(ofLines ls).head?.all LineShape.isEmpty

/-- The lines strictly between the opener of a block and its closer. -/
def bodyOf (ls : List Line) (b : Block) : List Line := (ls.drop (b.start + 1)).take (b.stop - (b.start + 1))

namespace Outline

theorem ofLines_append (a b : List Line) : ofLines (a ++ b) = ofLines a ++ ofLines b := List.map_append

theorem ofLines_drop (ls : List Line) (n : Nat) : ofLines (ls.drop n) = (ofLines ls).drop n :=
  List.map_drop

theorem ofLines_ne_nil {ls : List Line} : ofLines ls ≠ [] ↔ ls ≠ [] := by
  rw [ne_eq, ofLines, List.map_eq_nil_iff]

/-- A statement ends among some lines at the head of the rest, or with the last of them at the latest. -/
theorem min_statementEnd {o : Outline} {ls : List Line} {index last : Nat}
    (hls : (o.drop index).take (last + 1 - index) = ofLines ls) (hlength : index + ls.length = last + 1)
    (hne : ls ≠ []) : min ((o.statementEnd index).getD last) last =
      index + ((ofLines ls).statementEnd 0).getD (ls.length - 1) := by
  have hpos := List.length_pos_of_ne_nil hne
  have hsplit : o.drop index = ofLines ls ++ o.drop (last + 1) := by
    rw [← hls, show last + 1 = index + (last + 1 - index) by omega, ← List.drop_drop,
      Nat.add_sub_cancel_left, List.take_append_drop]
  rw [statementEnd_drop, hsplit, statementEnd_zero, statementEndFrom_append, ← statementEnd_zero]
  cases hend : (ofLines ls).statementEnd 0 with
  | some stop =>
    have hbounds := statementEnd_bounds hend
    rw [length_ofLines] at hbounds
    simp only [Option.some_or, Option.map_some, Option.getD_some]
    omega
  | none =>
    rw [Option.none_or, Option.getD_none]
    cases hbelow : statementEndFrom (0 + blocksSum (ofLines ls)) (0 + bracketsSum (ofLines ls))
        (0 + (ofLines ls).length) (o.drop (last + 1)) with
    | none =>
      simp only [Option.map_none, Option.getD_none]
      omega
    | some stop =>
      have hbounds := (statementEndFrom_bounds hbelow).1
      rw [length_ofLines] at hbounds
      simp only [Option.map_some, Option.getD_some]
      omega

theorem childrenFrom_eq {o : Outline} {ls : List Line} {last taken index : Nat}
    (hls : (o.drop index).take (last + 1 - index) = ofLines ls)
    (hlength : index + ls.length = last + 1) : childrenFrom o last taken index (ofLines ls) =
      (stops statementReach taken index ls).filterMap fun i =>
        if startsStatement (ls.drop (i - index)) then
          some ⟨i, i + statementReach (ls.drop (i - index))⟩ else none := by
  induction ls generalizing taken index with
  | nil => rfl
  | cons l rest ih =>
    have hrest : (o.drop (index + 1)).take (last + 1 - (index + 1)) = ofLines rest := by
      have hdrop := congrArg (List.drop 1) hls
      rw [List.drop_take, List.drop_drop, Nat.sub_sub] at hdrop
      exact hdrop
    have hlength' : index + 1 + rest.length = last + 1 := by
      rw [List.length_cons] at hlength
      omega
    -- below the first line the places are counted from the next one
    have hnext : ∀ taken, childrenFrom o last taken (index + 1) (ofLines rest) =
        (stops statementReach taken (index + 1) rest).filterMap fun i =>
          if startsStatement ((l :: rest).drop (i - index)) then
            some ⟨i, i + statementReach ((l :: rest).drop (i - index))⟩ else none := by
      intro taken
      rw [ih hrest hlength']
      refine List.filterMap_congr fun i hi => ?_
      have hle := (mem_stops_bounds hi).1
      rw [show i - index = i - (index + 1) + 1 by omega, List.drop_succ_cons]
    cases taken with
    | succ taken => exact hnext taken
    | zero =>
      have hshape : ofLines (l :: rest) = LineShape.ofLine l :: ofLines rest := rfl
      rw [stops, List.filterMap_cons, Nat.sub_self, List.drop_zero]
      cases hempty : (LineShape.ofLine l).isEmpty with
      | true =>
        have hstart : startsStatement (l :: rest) = false := by simp [startsStatement, hshape, hempty]
        have hreach : statementReach (l :: rest) = 0 := by simp [statementReach, hshape, hempty]
        rw [hstart, hreach, ← hnext 0, hshape, childrenFrom, hempty, if_pos rfl,
          if_neg Bool.false_ne_true]
      | false =>
        have hstart : startsStatement (l :: rest) = true := by simp [startsStatement, hshape, hempty]
        have hreach : statementReach (l :: rest) =
            ((ofLines (l :: rest)).statementEnd 0).getD ((l :: rest).length - 1) := by
          simp [statementReach, hshape, hempty]
        have hmin := min_statementEnd hls hlength (List.cons_ne_nil l rest)
        rw [← hreach] at hmin
        rw [hstart, if_pos rfl, ← hnext, hshape, childrenFrom, hempty, if_neg Bool.false_ne_true]
        simp only [hmin, Nat.add_sub_cancel_left]

/-- The statements directly inside a block are those that a walk over its body finds. -/
theorem children_eq {ls : List Line} {b : Block} (hstop : b.stop ≤ ls.length) :
    (ofLines ls).children b = (stops statementReach 0 0 (bodyOf ls b)).filterMap fun i =>
      if startsStatement ((bodyOf ls b).drop i) then
        some ⟨b.start + 1 + i, b.start + 1 + i + statementReach ((bodyOf ls b).drop i)⟩ else none := by
  have hbody : ((ofLines ls).drop (b.start + 1)).take (b.stop - (b.start + 1)) = ofLines (bodyOf ls b) := by
    rw [bodyOf, ← ofLines_drop, ofLines, ofLines, List.map_take]
  have hlength : (bodyOf ls b).length = b.stop - (b.start + 1) := by
    rw [bodyOf, List.length_take, List.length_drop]
    omega
  unfold children
  rw [hbody]
  by_cases hlt : b.start + 1 < b.stop
  · have hindex : b.stop - 1 + 1 - (b.start + 1) = b.stop - (b.start + 1) := by omega
    have hshift : stops statementReach 0 (0 + (b.start + 1)) (bodyOf ls b) =
        (stops statementReach 0 0 (bodyOf ls b)).map (· + (b.start + 1)) := stops_add 0 0 _ _
    rw [Nat.zero_add] at hshift
    rw [childrenFrom_eq (by rw [hindex, hbody]) (by omega), hshift, List.filterMap_map]
    refine List.filterMap_congr fun i _ => ?_
    simp only [Function.comp_apply, Nat.add_comm i, Nat.add_sub_cancel_left]
  · have hnil : bodyOf ls b = [] := List.eq_nil_of_length_eq_zero (by omega)
    rw [hnil]
    rfl

end Outline

theorem statementReach_lt {t : List Line} (hne : t ≠ []) : statementReach t < t.length := by
  have hpos := List.length_pos_of_ne_nil hne
  unfold statementReach
  split
  · exact hpos
  · cases hend : (ofLines t).statementEnd 0 with
    | none =>
      rw [Option.getD_none]
      omega
    | some last =>
      have hbounds := (statementEnd_bounds hend).2
      rwa [length_ofLines] at hbounds

/-- The lines of a body are counted from the opener of the block. -/
theorem bodyOf_drop (ls : List Line) (b : Block) (n : Nat) :
    bodyOf ls ⟨b.start + n, b.stop + n⟩ = bodyOf (ls.drop n) b := by
  have hstart : b.start + n + 1 = n + (b.start + 1) := by omega
  have hlength : b.stop + n - (n + (b.start + 1)) = b.stop - (b.start + 1) := by omega
  simp only [bodyOf, List.drop_drop, hstart, hlength]

section

variable {t : List Line} {b : Block}

theorem bodyOf_append (hstop : b.stop ≤ t.length) (rest : List Line) :
    bodyOf (t ++ rest) b = bodyOf t b := by
  unfold bodyOf
  by_cases hstart : b.start + 1 ≤ t.length
  · rw [List.drop_append_of_le_length hstart, List.take_append_of_le_length]
    rw [List.length_drop]
    omega
  · rw [show b.stop - (b.start + 1) = 0 by omega, List.take_zero, List.take_zero]

/-- The body of a block that is closed below its first lines. -/
theorem bodyOf_over {start stop : Nat} (hstart : start < t.length) (hstop : t.length ≤ stop)
    (rest : List Line) :
    bodyOf (t ++ rest) ⟨start, stop⟩ = t.drop (start + 1) ++ rest.take (stop - t.length) := by
  have hlength : (t.drop (start + 1)).length = t.length - (start + 1) := List.length_drop
  have hcount : stop - (start + 1) = (t.drop (start + 1)).length + (stop - t.length) := by omega
  simp only [bodyOf, List.drop_append_of_le_length hstart, hcount, List.take_length_add_append]

end

/-! ## Closed lines in a body -/

section

variable {above stretch : List Line}

theorem finished_suffix {t ls : List Line} (hls : (ofLines ls).Finished) (ht : t <:+ ls) :
    (ofLines t).Finished := by
  obtain ⟨front, rfl⟩ := ht
  rw [ofLines_append] at hls
  by_cases hne : t = []
  · subst hne
    rfl
  · exact (finished_append (ofLines_ne_nil.2 hne)).1 hls

/-- Lines above closed lines can close nothing that opens on these. -/
theorem Outline.Closed.suffix (hstretch : (ofLines stretch).Closed) {t : List Line} (ht : t <:+ stretch) :
    ∃ front, Closed (front ++ ofLines t) := by
  obtain ⟨front, rfl⟩ := ht
  exact ⟨ofLines front, by rwa [← ofLines_append]⟩

theorem head?_ofLines_append {t : List Line} (ht : t ≠ []) (rest : List Line) :
    (ofLines (t ++ rest)).head? = (ofLines t).head? := by
  obtain ⟨l, t, rfl⟩ := List.exists_cons_of_ne_nil ht
  rfl

/-- A block that opens above closed lines is closed above them, or they stand among the lines of its
body. -/
theorem matchBlock_splice (hstretch : (ofLines stretch).Closed) {t : List Line} {index : Nat}
    (hindex : index < t.length) (below : List Line) :
    Option.Rel (fun b b' => (b = b' ∧ b.start = index ∧ b.stop < t.length) ∨ ∃ part,
        bodyOf (t ++ (stretch ++ below)) b = t.drop (index + 1) ++ (stretch ++ part) ∧
          bodyOf (t ++ below) b' = t.drop (index + 1) ++ part)
      ((ofLines (t ++ (stretch ++ below))).matchBlock index)
      ((ofLines (t ++ below)).matchBlock index) := by
  have hne : ofLines (t.drop index) ≠ [] := by
    rw [ofLines_ne_nil, ne_eq, List.drop_eq_nil_iff]
    omega
  have hlength : (ofLines (t.drop index)).length = t.length - index := by
    rw [length_ofLines, List.length_drop]
  have hblock : ∀ rest, (ofLines (t ++ rest)).matchBlock index =
      (matchBlock (ofLines (t.drop index) ++ ofLines rest) 0).map fun b =>
        ⟨b.start + index, b.stop + index⟩ := by
    intro rest
    rw [matchBlock_drop, ← ofLines_drop, List.drop_append_of_le_length hindex.le, ofLines_append]
  rw [hblock, hblock]
  cases hinner : (ofLines (t.drop index)).matchBlock 0 with
  | some b =>
    obtain ⟨hstart, -, hstop⟩ := matchBlock_bounds hinner
    rw [matchBlock_append hinner, matchBlock_append hinner]
    refine .some (.inl ⟨rfl, ?_, ?_⟩)
    · show b.start + index = index
      omega
    · show b.stop + index < t.length
      omega
  | none =>
    rw [ofLines_append, matchBlock_over hne hstretch hinner]
    cases houter : matchBlock (ofLines (t.drop index) ++ ofLines below) 0 with
    | none => exact .none
    | some b =>
      obtain ⟨start, stop⟩ := b
      obtain ⟨rfl, hstop⟩ : start = 0 ∧ t.length - index ≤ stop :=
        hlength ▸ le_of_matchBlock_append hinner houter hne
      have hwhole : t.length ≤ stop + (ofLines stretch).length + index := by omega
      have hframe : t.length ≤ stop + index := by omega
      have hstart : 0 + index < t.length := by omega
      have hpart : stop + (ofLines stretch).length + index - t.length =
          stretch.length + (stop + index - t.length) := by
        rw [length_ofLines]
        omega
      refine .some (.inr ⟨below.take (stop + index - t.length), ?_, ?_⟩)
      · rw [bodyOf_over hstart hwhole, Nat.zero_add, hpart, List.take_length_add_append]
      · rw [bodyOf_over hstart hframe, Nat.zero_add]

/-- A block that opens on closed lines is closed on them. -/
theorem matchBlock_inside (hstretch : (ofLines stretch).Closed) {t : List Line} (ht : t <:+ stretch)
    {index : Nat} (hindex : index < t.length) (below : List Line) :
    (ofLines (t ++ below)).matchBlock index = (ofLines t).matchBlock index := by
  have hne : ofLines (t.drop index) ≠ [] := by
    rw [ofLines_ne_nil, ne_eq, List.drop_eq_nil_iff]
    omega
  obtain ⟨front, hfront⟩ := hstretch.suffix ((List.drop_suffix index t).trans ht)
  rw [matchBlock_drop, matchBlock_drop (ofLines t), ← ofLines_drop, ← ofLines_drop,
    List.drop_append_of_le_length hindex.le, ofLines_append]
  by_cases hopens : OpensFirst (ofLines (t.drop index)) 0
  · obtain ⟨b, hb⟩ := Option.isSome_iff_exists.1 (hfront.matchBlock_isSome hopens)
    rw [matchBlock_append hb, hb]
  · rw [matchBlock_eq_none hopens, matchBlock_eq_none (mt (opensFirst_append hne _).1 hopens)]

/-- A statement that begins above closed lines ends above them or runs on over all of them. -/
theorem passes_statementReach (habove : (ofLines above).Finished) (hstretch : (ofLines stretch).Closed)
    (below : List Line) {t : List Line} (ht : t <:+ above) (hne : t ≠ []) :
    Passes statementReach stretch below t := by
  have hpos := List.length_pos_of_ne_nil hne
  unfold Passes statementReach
  rw [head?_ofLines_append hne, head?_ofLines_append hne]
  split
  · exact .inl ⟨rfl, hpos⟩
  · rw [ofLines_append, ofLines_append, ofLines_append]
    cases hend : (ofLines t).statementEnd 0 with
    | some last =>
      have hbounds := (statementEnd_bounds hend).2
      rw [length_ofLines] at hbounds
      rw [statementEnd_append hend, statementEnd_append hend]
      exact .inl ⟨rfl, hbounds⟩
    | none =>
      rw [statementEnd_over (ofLines_ne_nil.2 hne) (finished_suffix habove ht) hstretch hend]
      simp only [length_ofLines, List.length_append]
      right
      cases hover : statementEnd (ofLines t ++ ofLines below) 0 with
      | none =>
        simp only [Option.map_none, Option.getD_none]
        omega
      | some last =>
        rw [statementEnd_zero, statementEndFrom_append, ← statementEnd_zero, hend, Option.none_or] at hover
        have hbounds := (statementEndFrom_bounds hover).1
        rw [length_ofLines] at hbounds
        simp only [Option.map_some, Option.getD_some]
        exact ⟨trivial, by omega⟩

/-- A statement that begins on closed lines ends there. -/
theorem statementReach_inside (hstretch : (ofLines stretch).Closed) (below : List Line) {t : List Line}
    (ht : t <:+ stretch) (hne : t ≠ []) :
    statementReach (t ++ below) = statementReach t ∧ statementReach t < t.length := by
  have hpos := List.length_pos_of_ne_nil hne
  unfold statementReach
  rw [head?_ofLines_append hne]
  split
  · exact ⟨rfl, hpos⟩
  · obtain ⟨front, rfl⟩ := ht
    rw [ofLines_append] at hstretch
    obtain ⟨last, hlast⟩ := Option.isSome_iff_exists.1
      (hstretch.statementEnd_isSome (ofLines_ne_nil.2 hne))
    have hbounds := (statementEnd_bounds hlast).2
    rw [length_ofLines] at hbounds
    rw [ofLines_append, statementEnd_append hlast, hlast]
    exact ⟨rfl, hbounds⟩

/-- Closed lines bring their own statements with them, or none where a statement above goes on over them. -/
theorem exists_spliced_statements (habove : (ofLines above).Finished)
    (hstretch : (ofLines stretch).Closed) (below : List Line) :
    ∃ inside, (∀ i ∈ inside, i ∈ stops statementReach 0 0 stretch) ∧
      Spliced above.length stretch.length inside (stops statementReach 0 0 (above ++ below))
        (stops statementReach 0 0 (above ++ (stretch ++ below))) := by
  have hspliced := spliced_stops (fun _ ht hne => passes_statementReach habove hstretch below ht hne)
    fun _ ht hne => statementReach_inside hstretch below ht hne
  rcases hspliced with hown | ⟨-, hnone⟩
  · exact ⟨_, fun _ hi => hi, hown⟩
  · exact ⟨[], fun _ hi => absurd hi List.not_mem_nil, hnone⟩

end

/-! ## Statements with a keyword -/

/-- The statement that begins on the first line. -/
def firstStatement (ls : List Line) : Option Statement :=
  if startsStatement ls then Statement.parse (Text.unlines (ls.take (statementReach ls + 1))) else none

/-- The statements that a walk over a body finds. -/
def statementsOf (body : List Line) : List Statement :=
  (stops statementReach 0 0 body).filterMap fun i => firstStatement (body.drop i)

/-- What is read of the statements directly inside a block. -/
theorem filterMap_children {ls : List Line} {b : Block} (hstop : b.stop ≤ ls.length) :
    (((ofLines ls).children b).filterMap fun r => Statement.parse (Lines.extent ls r.first r.last)) =
      statementsOf (bodyOf ls b) := by
  rw [children_eq hstop, List.filterMap_filterMap]
  refine List.filterMap_congr fun i hi => ?_
  have hlt := (mem_stops_bounds hi).2
  rw [Nat.zero_add] at hlt
  have hreach := statementReach_lt (mt List.drop_eq_nil_iff.1 (Nat.not_le.2 hlt))
  rw [List.length_drop] at hreach
  unfold firstStatement
  split
  · have hlength : (bodyOf ls b).length = b.stop - (b.start + 1) := by
      rw [bodyOf, List.length_take, List.length_drop]
      omega
    have hlines : ((bodyOf ls b).drop i).take (statementReach ((bodyOf ls b).drop i) + 1) =
        (ls.drop (b.start + 1 + i)).take (statementReach ((bodyOf ls b).drop i) + 1) := by
      generalize statementReach ((bodyOf ls b).drop i) = reach at hreach
      rw [bodyOf, List.drop_take, List.drop_drop, List.take_take]
      congr 1
      omega
    have hcount : b.start + 1 + i + statementReach ((bodyOf ls b).drop i) + 1 - (b.start + 1 + i) =
        statementReach ((bodyOf ls b).drop i) + 1 := by omega
    rw [hlines, Option.bind_some, Lines.extent, hcount]
  · rfl

/-- Whether a line begins with one of the words. -/
def beginsWith (words : List String) (line : Line) : Bool :=
  (tokenizeCode line).head?.any fun t => words.any t.isWord

/-- Whether the keyword of a statement is one of the words. -/
def Statement.named (words : List String) (s : Statement) : Bool := words.any (·.toList == s.keyword)

/-- A statement begins with its keyword. -/
theorem beginsWith_of_firstStatement {words : List String} {ls : List Line} {s : Statement}
    (h : firstStatement ls = some s) (hs : s.named words = true) :
    ls.head?.any (beginsWith words) = true := by
  cases ls with
  | nil => cases h
  | cons l rest =>
    unfold firstStatement at h
    split at h
    · rename_i hstarts
      have hcode : tokenizeCode l ≠ [] := by
        intro hnil
        simp [startsStatement, ofLines, LineShape.ofLine, hnil] at hstarts
      obtain ⟨word, hword, hkeyword⟩ := List.any_eq_true.1 hs
      have hfirst : (tokenizeCode (Text.unlines
          ((l :: rest).take (statementReach (l :: rest) + 1)))).head?.any (·.isWord word) = true := by
        unfold Statement.parse at h
        extract_lets all at h
        split at h
        · cases h
        · rename_i keyword tokens htokens
          split at h
          · rename_i hkind
            obtain rfl := Option.some.inj h
            rw [tokenizeCode, htokens, List.head?_cons, Option.any_some, Token.isWord, hkind,
              beq_self_eq_true, Bool.true_and, beq_iff_eq]
            exact (beq_iff_eq.1 hkeyword).symm
          · cases h
      have hline : (tokenizeCode l).head?.any (·.isWord word) = true := by
        rw [List.take_succ_cons] at hfirst
        exact head?_isWord_unlines hcode hfirst
      obtain ⟨t, ht, htword⟩ := (Option.any_eq_true _ _).1 hline
      refine (Option.any_eq_true _ _).2 ⟨l, rfl, (Option.any_eq_true _ _).2 ⟨t, ht, ?_⟩⟩
      exact List.any_eq_true.2 ⟨word, hword, htword⟩
    · cases h

section

variable {words : List String} {above stretch : List Line}

theorem firstStatement_filter {ls : List Line} (h : ls.head?.any (beginsWith words) = false) :
    (firstStatement ls).filter (·.named words) = none := by
  rw [Option.filter_eq_none_iff]
  intro s hs hnamed
  rw [beginsWith_of_firstStatement hs hnamed] at h
  cases h

/-- What begins above and ends there is read from the lines above alone. -/
theorem firstStatement_append {t : List Line} {last : Nat} (hlast : (ofLines t).statementEnd 0 = some last)
    (rest : List Line) : firstStatement (t ++ rest) = firstStatement t := by
  have hne : t ≠ [] := by
    rintro rfl
    cases hlast
  have hbounds := (statementEnd_bounds hlast).2
  rw [length_ofLines] at hbounds
  have hreach : statementReach (t ++ rest) = statementReach t := by
    unfold statementReach
    rw [head?_ofLines_append hne, ofLines_append, statementEnd_append hlast, hlast]
    rfl
  have hle : statementReach t + 1 ≤ t.length := by
    unfold statementReach
    rw [hlast]
    split
    · omega
    · exact hbounds
  unfold firstStatement startsStatement
  rw [head?_ofLines_append hne, hreach, List.take_append_of_le_length hle]

/-- Closed lines without a statement that begins with one of the words, and below every statement that
does, leave the statements with these words as they are. -/
theorem statementsOf_splice (habove : (ofLines above).Finished) (hstretch : (ofLines stretch).Closed)
    (hends : ∀ t, t <:+ above → t.head?.any (beginsWith words) = true →
      ((ofLines t).statementEnd 0).isSome = true)
    (hinert : ∀ i ∈ stops statementReach 0 0 stretch,
      (stretch.drop i).head?.any (beginsWith words) = false) (below : List Line) :
    (statementsOf (above ++ (stretch ++ below))).filter (·.named words) =
      (statementsOf (above ++ below)).filter (·.named words) := by
  obtain ⟨inside, hinside, hspliced⟩ := exists_spliced_statements habove hstretch below
  unfold statementsOf
  rw [List.filter_filterMap, List.filter_filterMap]
  refine hspliced.filterMap_eq (fun i _ hi => ?_) (fun i hi => ?_) fun i => ?_
  · have hne : above.drop i ≠ [] := drop_ne_nil hi
    rw [drop_above hi.le, drop_above hi.le]
    cases hword : (above.drop i).head?.any (beginsWith words) with
    | true =>
      obtain ⟨last, hlast⟩ := Option.isSome_iff_exists.1 (hends _ (List.drop_suffix i above) hword)
      rw [firstStatement_append hlast, firstStatement_append hlast]
    | false =>
      have hhead : ∀ rest, (above.drop i ++ rest).head? = (above.drop i).head? := fun rest => by
        rw [List.head?_append_of_ne_nil _ hne]
      rw [firstStatement_filter (by rw [hhead, hword]), firstStatement_filter (by rw [hhead, hword])]
  · have hmem := hinside i hi
    have hlt := (mem_stops_bounds hmem).2
    rw [Nat.zero_add] at hlt
    rw [drop_inside hlt.le]
    refine firstStatement_filter ?_
    rw [List.head?_append_of_ne_nil _ (drop_ne_nil hlt), hinert i hmem]
  · rw [drop_below]

end

end SchemaLift
