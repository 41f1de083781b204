import SchemaLift.Proofs.Block.Body
import SchemaLift.Proofs.Declaration.Scan

/-!
# Calls, read from their first line on

What is read of a declaration depends on its first line and those below it alone (`locate_reads`). Closed
lines further down, of which none holds a statement with one of the words that matter, leave everything
that matters as it is (`call?_over`), and a call that begins on closed lines is read there to its end
(`call?_inside`).
-/

namespace SchemaLift.Declaration

open Outline Walk

/-- What is read of a call. -/
structure Call where
  /-- The number of lines that the header takes behind its first one. -/
  reach : Nat
  signature : Signature
  /-- The lines of the block between its opener and its closer. -/
  body : List Line

/-- The signature on the lines through `last`. -/
def signature? (ls : List Line) (last : Nat) : Option Signature := Signature.parse (Lines.extent ls 0 last)

/-- The call that begins on the first line. -/
def call? (ls : List Line) : Option Call := do
  let last ← (ofLines ls).headerEnd 0
  let signature ← signature? ls last
  if !(ofLines ls).opensBlock last then return ⟨last, signature, []⟩
  else if signature.block.isSome then
    let b ← (ofLines ls).matchBlock last
    return ⟨last, signature, bodyOf ls b⟩
  else
    let last ← (ofLines ls).statementEnd 0
    let signature ← signature? ls last
    return ⟨last, signature, []⟩

theorem reach_lt {ls : List Line} {c : Call} (h : call? ls = some c) : c.reach < ls.length := by
  unfold call? at h
  simp only [Option.bind_eq_bind, Option.bind_eq_some_iff] at h
  obtain ⟨last, hlast, signature, -, h⟩ := h
  have hlt := (headerEnd_bounds hlast).2
  rw [length_ofLines] at hlt
  split at h
  · obtain rfl := Option.some.inj h
    exact hlt
  split at h
  · obtain ⟨b, -, h⟩ := Option.bind_eq_some_iff.1 h
    obtain rfl := Option.some.inj h
    exact hlt
  · obtain ⟨stop, hstop, h⟩ := Option.bind_eq_some_iff.1 h
    obtain ⟨signature, -, h⟩ := Option.bind_eq_some_iff.1 h
    obtain rfl := Option.some.inj h
    have hbounds := (statementEnd_bounds hstop).2
    rwa [length_ofLines] at hbounds

/-- A declaration, with its statements, is what is read of a call on line `index`. -/
structure Reads (ls : List Line) (index : Nat) (d : Declaration) (c : Call) : Prop where
  start : d.start = index
  headerEnd : d.headerEnd = index + c.reach
  signature : d.signature = c.signature
  statements : d.children.filterMap (fun r => Statement.parse (Lines.extent ls r.first r.last)) =
    statementsOf c.body

theorem opensBlock_drop (o : Outline) (start index : Nat) :
    o.opensBlock (index + start) = opensBlock (o.drop start) index := by
  unfold opensBlock
  rw [List.getElem?_drop, Nat.add_comm]

theorem locate_reads (ls : List Line) (keyword : String) (start : Nat) :
    Option.Rel (Reads ls start) (locate ls (ofLines ls) keyword start).toOption (call? (ls.drop start)) := by
  unfold locate call? signature?
  rw [headerEnd_drop, ← ofLines_drop]
  cases (ofLines (ls.drop start)).headerEnd 0 with
  | none => exact .none
  | some last =>
    simp only [Option.map_some, Option.bind_eq_bind, Option.bind_some, Lines.extent_add, opensBlock_drop,
      ← ofLines_drop]
    cases Signature.parse (Lines.extent (ls.drop start) 0 last) with
    | none => exact .none
    | some signature =>
      simp only [bind, Except.bind, Option.bind_some]
      split
      · exact .some ⟨rfl, Nat.add_comm _ _, rfl, rfl⟩
      split
      · rw [matchBlock_add, ← ofLines_drop]
        cases hblock : (ofLines (ls.drop start)).matchBlock last with
        | none => exact .none
        | some b =>
          have hstop := (matchBlock_bounds hblock).2.2
          rw [length_ofLines, List.length_drop] at hstop
          refine .some ⟨rfl, Nat.add_comm _ _, rfl, ?_⟩
          have hbounds : (⟨b.start + start, b.stop + start⟩ : Block).stop ≤ ls.length := by
            show b.stop + start ≤ ls.length
            omega
          have hchildren := filterMap_children hbounds
          rwa [bodyOf_drop] at hchildren
      · rw [statementEnd_drop, ← ofLines_drop]
        cases (ofLines (ls.drop start)).statementEnd 0 with
        | none => exact .none
        | some last =>
          simp only [Option.map_some, Lines.extent_add, Option.bind_some]
          cases Signature.parse (Lines.extent (ls.drop start) 0 last) with
          | none => exact .none
          | some signature => exact .some ⟨rfl, Nat.add_comm _ _, rfl, rfl⟩

/-! ## Closed lines below a call -/

/-- Two calls with the same header, and with the same statements of some keywords. -/
structure Call.Like (words : List String) (c c' : Call) : Prop where
  reach : c.reach = c'.reach
  signature : c.signature = c'.signature
  statements : (statementsOf c.body).filter (·.named words) = (statementsOf c'.body).filter (·.named words)

theorem Call.Like.refl (words : List String) (c : Call) : c.Like words c := ⟨rfl, rfl, rfl⟩

/-- The header of the call on the first line ends on these lines, and so does a proc behind it. -/
def endsHeader (ls : List Line) : Bool :=
  ((ofLines ls).headerEnd 0).any fun last =>
    !(ofLines ls).opensBlock last || (signature? ls last).any (·.block.isSome) ||
      ((ofLines ls).statementEnd 0).isSome

section

variable {t : List Line} {last : Nat}

theorem signature?_append (hlast : last < t.length) (rest : List Line) :
    signature? (t ++ rest) last = signature? t last := by
  unfold signature?
  rw [Lines.extent_append hlast]

theorem opensBlock_append (hlast : last < t.length) (rest : List Line) :
    (ofLines (t ++ rest)).opensBlock last = (ofLines t).opensBlock last := by
  unfold opensBlock
  rw [ofLines_append, List.getElem?_append_left (by rwa [length_ofLines])]

end

section

variable {words : List String} {above stretch : List Line}

/-- Closed lines without a statement of the keywords leave a call above them as it is, if its header and
all statements of the keywords end above them. -/
theorem call?_over (habove : (ofLines above).Finished) (hstretch : (ofLines stretch).Closed)
    (hends : ∀ t, t <:+ above → t.head?.any (beginsWith words) = true →
      ((ofLines t).statementEnd 0).isSome = true)
    (hinert : ∀ i ∈ stops statementReach 0 0 stretch,
      (stretch.drop i).head?.any (beginsWith words) = false) (below : List Line) {t : List Line}
    (ht : t <:+ above) (hheader : endsHeader t = true) :
    Option.Rel (fun c c' => c.Like words c' ∧ c'.reach < t.length) (call? (t ++ (stretch ++ below)))
      (call? (t ++ below)) := by
  obtain ⟨last, hlast, hends'⟩ := (Option.any_eq_true _ _).1 hheader
  have hlt := (headerEnd_bounds hlast).2
  rw [length_ofLines] at hlt
  have hhead : ∀ rest, (ofLines (t ++ rest)).headerEnd 0 = some last := fun rest => by
    rw [ofLines_append, headerEnd_append hlast]
  unfold call?
  simp only [hhead, Option.bind_eq_bind, Option.bind_some, signature?_append hlt, opensBlock_append hlt]
  cases hsignature : signature? t last with
  | none => exact .none
  | some signature =>
    rw [hsignature] at hends'
    simp only [Option.bind_some]
    split
    · exact .some ⟨.refl words _, hlt⟩
    rename_i hopens
    split
    · have hbodies := matchBlock_splice hstretch hlt below
      generalize (ofLines (t ++ (stretch ++ below))).matchBlock last = whole at hbodies
      generalize (ofLines (t ++ below)).matchBlock last = frame at hbodies
      cases hbodies with
      | none => exact .none
      | some hbody =>
        refine .some ⟨⟨rfl, rfl, ?_⟩, hlt⟩
        rcases hbody with ⟨rfl, -, hstop⟩ | ⟨part, hwhole, hframe⟩
        · rw [bodyOf_append hstop.le, bodyOf_append hstop.le]
        · have hsuffix : t.drop (last + 1) <:+ above := (List.drop_suffix _ t).trans ht
          rw [hwhole, hframe]
          exact statementsOf_splice (finished_suffix habove hsuffix) hstretch
            (fun u hu => hends u (hu.trans hsuffix)) hinert part
    · -- a proc behind the header ends above the stretch
      rename_i hown
      have hproc : ((ofLines t).statementEnd 0).isSome = true := by
        simpa [hopens, hown] using hends'
      obtain ⟨stop, hstop⟩ := Option.isSome_iff_exists.1 hproc
      have hlt' := (statementEnd_bounds hstop).2
      rw [length_ofLines] at hlt'
      have hend : ∀ rest, (ofLines (t ++ rest)).statementEnd 0 = some stop := fun rest => by
        rw [ofLines_append, statementEnd_append hstop]
      simp only [hend, Option.bind_some, signature?_append hlt']
      cases signature? t stop with
      | none => exact .none
      | some signature => exact .some ⟨.refl words _, hlt'⟩

/-- A header that ends on some lines takes no line below them. -/
theorem reach_lt_of_endsHeader {t : List Line} (h : endsHeader t = true) {rest : List Line} {c : Call}
    (hc : call? (t ++ rest) = some c) : c.reach < t.length := by
  obtain ⟨last, hlast, hends⟩ := (Option.any_eq_true _ _).1 h
  have hlt := (headerEnd_bounds hlast).2
  rw [length_ofLines] at hlt
  unfold call? at hc
  simp only [ofLines_append, headerEnd_append hlast, Option.bind_eq_bind, Option.bind_some] at hc
  simp only [← ofLines_append, signature?_append hlt, opensBlock_append hlt, Option.bind_eq_some_iff] at hc
  obtain ⟨signature, hsignature, hc⟩ := hc
  split at hc
  · obtain rfl := Option.some.inj hc
    exact hlt
  rename_i hopens
  split at hc
  · obtain ⟨b, -, hc⟩ := Option.bind_eq_some_iff.1 hc
    obtain rfl := Option.some.inj hc
    exact hlt
  · rename_i hown
    have hproc : ((ofLines t).statementEnd 0).isSome = true := by
      simpa [hopens, hown, hsignature] using hends
    obtain ⟨stop, hstop⟩ := Option.isSome_iff_exists.1 hproc
    have hlt' := (statementEnd_bounds hstop).2
    rw [length_ofLines] at hlt'
    obtain ⟨last', hlast', hc⟩ := Option.bind_eq_some_iff.1 hc
    obtain ⟨signature', -, hc⟩ := Option.bind_eq_some_iff.1 hc
    obtain rfl := Option.some.inj hc
    rw [ofLines_append, statementEnd_append hstop] at hlast'
    obtain rfl := Option.some.inj hlast'
    exact hlt'

/-- A call that begins on closed lines is read there. -/
theorem call?_inside (hstretch : (ofLines stretch).Closed) (below : List Line) {t : List Line}
    (ht : t <:+ stretch) (hne : t ≠ []) : call? (t ++ below) = call? t := by
  obtain ⟨front, hfront⟩ := hstretch.suffix ht
  obtain ⟨last, hlast⟩ := Option.isSome_iff_exists.1 (hfront.headerEnd_isSome (ofLines_ne_nil.2 hne))
  obtain ⟨stop, hstop⟩ := Option.isSome_iff_exists.1 (hfront.statementEnd_isSome (ofLines_ne_nil.2 hne))
  have hlt := (headerEnd_bounds hlast).2
  have hlt' := (statementEnd_bounds hstop).2
  rw [length_ofLines] at hlt hlt'
  unfold call?
  rw [ofLines_append, headerEnd_append hlast, statementEnd_append hstop, ← ofLines_append, hlast, hstop]
  simp only [Option.bind_eq_bind, Option.bind_some, signature?_append hlt, signature?_append hlt',
    opensBlock_append hlt]
  cases signature? t last with
  | none => rfl
  | some signature =>
    simp only [Option.bind_some]
    split
    · rfl
    split
    · rw [matchBlock_inside hstretch ht hlt]
      cases hblock : (ofLines t).matchBlock last with
      | none => rfl
      | some b =>
        have hle := (matchBlock_bounds hblock).2.2
        rw [length_ofLines] at hle
        simp only [Option.bind_some, bodyOf_append hle.le]
    · rfl

end

end SchemaLift.Declaration
