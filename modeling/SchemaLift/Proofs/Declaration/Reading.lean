import SchemaLift.Proofs.Declaration.Scan

/-!
# What is read of a declaration

In a text that has all lines of a declaration, reading its statements and reassembling it give
results, without an error: `readStatements` and `rebuilt` say which. Both depend only on the lines
through the end of the declaration and on whether the line below asks for a blank line (`Agree`).
-/

namespace SchemaLift.Declaration

/-- Whether a method needs a blank line between itself and the line below it, if there is one. -/
def spaced (next : Option Line) : Bool := next.any fun l => !Text.isBlank l && !closesBlock l

/-- Two texts with the same first `count` lines, and with lines below that ask alike for a blank
line. -/
structure Agree (count : Nat) (ls ls' : List Line) : Prop where
  le : count ≤ ls.length
  take : ls'.take count = ls.take count
  next : spaced ls'[count]? = spaced ls[count]?

namespace Agree

variable {count : Nat} {ls ls' : List Line} (h : Agree count ls ls')
include h

theorem le' : count ≤ ls'.length := by
  have hlen := congrArg List.length h.take
  have := h.le
  simp only [List.length_take] at hlen
  omega

theorem getElem? {i : Nat} (hi : i < count) : ls'[i]? = ls[i]? := by
  rw [← List.getElem?_take_of_lt hi, h.take, List.getElem?_take_of_lt hi]

theorem line_eq {i : Nat} (hi : i < count) : Lines.line ls' i = Lines.line ls i := by
  have := h.le
  have := h.le'
  unfold Lines.line
  rw [h.getElem? hi, List.getElem?_eq_getElem (by omega)]

theorem take_drop {first last : Nat} (hlast : last < count) :
    (ls'.drop first).take (last + 1 - first) = (ls.drop first).take (last + 1 - first) :=
  Lines.take_drop_of_take h.take hlast

theorem extent_eq {first last : Nat} (hlast : last < count) :
    Lines.extent ls' first last = Lines.extent ls first last := by
  unfold Lines.extent
  rw [h.take_drop hlast]

theorem slice_eq {r : LineRange} (hfirst : r.first ≤ r.last) (hlast : r.last < count) :
    Lines.slice ls' r = Lines.slice ls r := by
  have := h.le
  have := h.le'
  rw [Lines.slice_of_fits (LineRange.fits_iff.2 (by omega)),
    Lines.slice_of_fits (LineRange.fits_iff.2 (by omega)), h.take_drop hlast]

end Agree

/-! ## Statements -/

/-- The statement on a range of lines, if the text has them. -/
def readAt (ls : List Line) (r : LineRange) : Option (LineRange × Statement) :=
  (Statement.parse (Lines.extent ls r.first r.last)).map (r, ·)

/-- The statements directly inside the block. -/
def readStatements (d : Declaration) (ls : List Line) : List (LineRange × Statement) :=
  d.children.filterMap (readAt ls)

theorem statementAt_of_fits {ls : List Line} {r : LineRange} (h : r.fits ls.length = true) :
    statementAt ls r = .ok (Statement.parse (Lines.extent ls r.first r.last)) := by
  unfold statementAt Lines.join
  rw [Lines.slice_of_fits h]
  rfl

theorem statementsAt_of_fits {ls : List Line} {rs : List LineRange}
    (h : ∀ r ∈ rs, r.fits ls.length = true) :
    statementsAt ls rs = .ok (rs.filterMap (readAt ls)) := by
  induction rs with
  | nil => rfl
  | cons r rest ih =>
    rw [statementsAt, statementAt_of_fits (h r List.mem_cons_self),
      ih fun r' hr' => h r' (List.mem_cons_of_mem r hr')]
    simp only [bind, Except.bind, pure, Except.pure, List.filterMap_cons, readAt]
    cases Statement.parse (Lines.extent ls r.first r.last) <;> rfl

theorem findAt_of_fits {ls : List Line} {p : LineRange → Statement → Bool} {rs : List LineRange}
    (h : ∀ r ∈ rs, r.fits ls.length = true) :
    findAt ls p rs = .ok ((rs.filterMap (readAt ls)).find? fun entry => p entry.1 entry.2) := by
  induction rs with
  | nil => rfl
  | cons r rest ih =>
    have hrest := ih fun r' hr' => h r' (List.mem_cons_of_mem r hr')
    rw [findAt, statementAt_of_fits (h r List.mem_cons_self)]
    simp only [bind, Except.bind, pure, Except.pure, List.filterMap_cons, readAt]
    cases hs : Statement.parse (Lines.extent ls r.first r.last) with
    | none => exact hrest
    | some s =>
      simp only [Option.map_some, List.find?_cons]
      cases p r s with
      | true => rfl
      | false => exact hrest

/-! ## Reassembled lines -/

/-- The lines of the block's body that stay, blank ones at its ends aside. -/
def staying (d : Declaration) (ls : List Line) (removed : Removed) : List Line :=
  match d.block with
  | none => []
  | some b => trimBlankEnds ((b.body.filter (!removed.covers ·)).filterMap (ls[·]?))

/-- The line that closes the block. -/
def closer (d : Declaration) (ls : List Line) : List Line :=
  match d.block with
  | none => []
  | some b => ls[b.stop]?.toList

/-- The new header, without the opener of a block of which nothing stays. -/
def newHeader (s : Signature) (body : List Line) : Signature :=
  if body.isEmpty then { s with block := none } else s

/-- The trailer between blank lines; the lower one is needed only if `below` says so. -/
def separate (trailer : List Line) (below : Bool) : List Line :=
  if trailer.isEmpty then [] else [] :: trailer ++ (if below then [[]] else [])

/-- The lines that replace a declaration. -/
def rebuilt (d : Declaration) (ls : List Line) (s : Signature) (removed : Removed)
    (trailer : List Line) : List Line :=
  let body := d.staying ls removed
  (newHeader s body).render :: (if body.isEmpty then [] else body ++ d.closer ls) ++
    separate trailer (spaced ls[d.stop + 1]?)

theorem mapM_line {ls : List Line} {indices : List Nat} (h : ∀ i ∈ indices, i < ls.length) :
    indices.mapM (Lines.line ls) = .ok (indices.filterMap (ls[·]?)) := by
  induction indices with
  | nil => rfl
  | cons i rest ih =>
    have hi := h i List.mem_cons_self
    rw [List.mapM_cons, Lines.line_of_lt hi, ih fun j hj => h j (List.mem_cons_of_mem i hj),
      List.filterMap_cons, List.getElem?_eq_getElem hi]
    rfl

theorem Block.mem_body {b : Block} {i : Nat} : i ∈ b.body ↔ b.start < i ∧ i < b.stop := by
  unfold Block.body
  simp only [List.mem_map, List.mem_range]
  constructor
  · rintro ⟨j, hj, rfl⟩
    omega
  · rintro ⟨h1, h2⟩
    exact ⟨i - (b.start + 1), by omega, by omega⟩

section

variable {d : Declaration} {ls ls' : List Line}

theorem Agree.staying_eq (hag : Agree (d.stop + 1) ls ls') (removed : Removed) :
    d.staying ls' removed = d.staying ls removed := by
  unfold staying
  cases hb : d.block with
  | none => rfl
  | some b =>
    have hstop : d.stop = b.stop := by rw [stop, hb]
    have hbody : (b.body.filter (!removed.covers ·)).filterMap (ls'[·]?) =
        (b.body.filter (!removed.covers ·)).filterMap (ls[·]?) := by
      apply List.filterMap_congr
      intro i hi
      have := Block.mem_body.1 (List.mem_of_mem_filter hi)
      exact hag.getElem? (by omega)
    simp only [hbody]

theorem Agree.closer_eq (hag : Agree (d.stop + 1) ls ls') : d.closer ls' = d.closer ls := by
  unfold closer
  cases hb : d.block with
  | none => rfl
  | some b =>
    have hstop : d.stop = b.stop := by rw [stop, hb]
    simp only [hag.getElem? (show b.stop < d.stop + 1 by omega)]

theorem Agree.rebuilt_eq (hag : Agree (d.stop + 1) ls ls') (s : Signature) (removed : Removed)
    (trailer : List Line) : d.rebuilt ls' s removed trailer = d.rebuilt ls s removed trailer := by
  unfold rebuilt
  rw [hag.staying_eq, hag.closer_eq, hag.next]

end

namespace Placed

variable {d : Declaration} {ls : List Line} (h : d.Placed ls.length)
include h

theorem child_fits : ∀ r ∈ d.children, r.fits ls.length = true := by
  intro r hr
  have := h.child_bounds hr
  have := h.stop_lt
  rw [LineRange.fits_iff]
  omega

theorem statements_eq : d.statements ls = .ok (d.readStatements ls) :=
  statementsAt_of_fits h.child_fits

theorem findStatement_eq (keywords : List String) :
    d.findStatement ls keywords = .ok ((d.readStatements ls).find? fun entry =>
      keywords.any (fun k => k.toList == entry.2.keyword) && !entry.2.value.isEmpty) :=
  findAt_of_fits h.child_fits

theorem retains_eq (keyword : String) (removed : Removed) :
    d.retains ls keyword removed = .ok ((d.readStatements ls).any fun entry =>
      entry.2.keyword == keyword.toList && !removed.covers entry.1.first) := by
  unfold retains
  rw [findAt_of_fits h.child_fits, Except.map, List.isSome_find?]
  rfl

theorem remainingBody_eq (removed : Removed) :
    d.remainingBody ls removed = .ok (d.staying ls removed) := by
  unfold remainingBody staying
  cases hb : d.block with
  | none => rfl
  | some b =>
    have hstop : d.stop = b.stop := by rw [stop, hb]
    have hlt := h.stop_lt
    have hin : ∀ i ∈ b.body.filter (!removed.covers ·), i < ls.length := by
      intro i hi
      have := Block.mem_body.1 (List.mem_of_mem_filter hi)
      omega
    simp only [mapM_line hin]
    rfl

/-- A declaration can always be reassembled. -/
theorem reassemble_eq (s : Signature) (removed : Removed) (trailer : List Line) :
    d.reassemble ls s removed trailer = .ok (d.rebuilt ls s removed trailer) := by
  have hstop := h.stop_lt
  unfold reassemble rebuilt
  rw [h.remainingBody_eq]
  simp only [bind, Except.bind, pure, Except.pure, newHeader, separate, spaced, closer]
  cases hb : d.block with
  | none =>
    have hnil : d.staying ls removed = [] := by rw [staying, hb]
    simp only [hnil, List.isEmpty_nil, ↓reduceIte]
    rfl
  | some b =>
    have hbs : d.stop = b.stop := by rw [stop, hb]
    rw [hbs] at hstop
    simp only [Lines.line_of_lt hstop, List.getElem?_eq_getElem hstop, Option.toList_some]
    split <;> rfl

/-! ### Locality -/

variable {ls' : List Line} (hag : Agree (d.stop + 1) ls ls')
include hag

theorem of_agree : d.Placed ls'.length where
  start_le := h.start_le
  block := h.block
  stop_lt := hag.le'
  children := h.children
  signature := h.signature

theorem readStatements_congr : d.readStatements ls' = d.readStatements ls := by
  unfold readStatements
  apply List.filterMap_congr
  intro r hr
  have hb := h.child_bounds hr
  rw [readAt, hag.extent_eq (by omega), readAt]

end Placed

end SchemaLift.Declaration
