import SchemaLift.Proofs.Declaration.AtOnce

/-!
# What a scan for declarations covers

`Sweep` is the scan as a walk by index: it reads lines where they stand in the text, goes on with the next
line after a line that starts no call and after a failure, and below the header of what it has found. There
is just one such walk from the first line to the end, and it gives what `scan` gives (`sweep_iff`). On its
way it passes over no line that starts a call, unless the line belongs to the header of a declaration that
was found above it (`scan_covers`).
-/

namespace SchemaLift

/-- The shape of a line, if the text has the line. -/
def Outline.shapeAt (o : Outline) (index : Nat) : Except Misplaced LineShape :=
  match o[index]? with
  | some s => .ok s
  | none => .error (.line index o.length)

theorem Outline.shapeAt_of_lt {o : Outline} {index : Nat} (h : index < o.length) :
    o.shapeAt index = .ok o[index] := by
  rw [Outline.shapeAt, List.getElem?_eq_getElem h]

/-- `children`, with every line between the opener and the closer read by its index. -/
def Outline.childrenByIndex (o : Outline) (b : Block) : Except Misplaced (List LineRange) := do
  return o.childrenFrom (b.stop - 1) 0 (b.start + 1) (← b.body.mapM o.shapeAt)

/-- The body of a block of the text has no line that the text does not have. -/
theorem Outline.childrenByIndex_eq {o : Outline} {b : Block} (h : b.stop < o.length) :
    o.childrenByIndex b = .ok (o.children b) := by
  have hbody : b.body.mapM o.shapeAt =
      .ok ((o.drop (b.start + 1)).take (b.stop - (b.start + 1))) := by
    rw [mapM_eq_ok_iff, Block.body, List.map_map]
    refine List.ext_getElem (by simp; omega) fun i hi hi' => ?_
    rw [List.length_map, List.length_range] at hi
    rw [List.getElem_map, List.getElem_map, List.getElem_range, List.getElem_take, List.getElem_drop,
      Function.comp_apply, shapeAt_of_lt (by omega)]
  rw [childrenByIndex, hbody]
  rfl

namespace Declaration

/-- The lines of the header. -/
def header (d : Declaration) : LineRange := ⟨d.start, d.headerEnd⟩

/-! ## Walking by index -/

/-- `locate`, with every line and every range of lines read by its index. -/
def locateByIndex (lines : List Line) (keyword : String) (start : Nat) :
    Except Misplaced (Except SkipReason Declaration) := do
  let outline := Outline.ofLines lines
  let unterminated := SkipReason.unterminatedStatement keyword.toList
  let unbalanced := SkipReason.unbalancedBlock (Text.trim (← Lines.line lines start))
  match outline.headerEnd start with
  | none => return .error unterminated
  | some headerEnd =>
    match Signature.parse (← Lines.join lines ⟨start, headerEnd⟩) with
    | none => return .error unterminated
    | some signature =>
      if (← outline.shapeAt headerEnd).depth ≤ 0 then
        return .ok ⟨start, headerEnd, none, [], signature⟩
      else if signature.block.isSome then
        match outline.matchBlock headerEnd with
        | none => return .error unbalanced
        | some b => return .ok ⟨start, headerEnd, some b, ← outline.childrenByIndex b, signature⟩
      else
        match outline.statementEnd start with
        | none => return .error unbalanced
        | some last =>
          match Signature.parse (← Lines.join lines ⟨start, last⟩) with
          | none => return .error unterminated
          | some signature => return .ok ⟨start, last, none, [], signature⟩

/-- The finds of a walk through the lines that begins with line `index`. -/
inductive Sweep (lines : List Line) (keyword : String) : Nat → List Found → Prop
  | done {index : Nat} (h : lines.length ≤ index) : Sweep lines keyword index []
  | pass {index : Nat} {line : Line} {found : List Found} (hline : Lines.line lines index = .ok line)
      (hstarts : startsOn keyword line = false) (rest : Sweep lines keyword (index + 1) found) :
      Sweep lines keyword index found
  | declaration {index : Nat} {line : Line} {d : Declaration} {found : List Found}
      (hline : Lines.line lines index = .ok line) (hstarts : startsOn keyword line = true)
      (hd : locateByIndex lines keyword index = .ok (.ok d))
      (rest : Sweep lines keyword (d.headerEnd + 1) found) :
      Sweep lines keyword index (.declaration d :: found)
  | failed {index : Nat} {line : Line} {reason : SkipReason} {found : List Found}
      (hline : Lines.line lines index = .ok line) (hstarts : startsOn keyword line = true)
      (hreason : locateByIndex lines keyword index = .ok (.error reason))
      (rest : Sweep lines keyword (index + 1) found) :
      Sweep lines keyword index (.failed index reason :: found)

theorem join_eq_extent {lines : List Line} {first last : Nat} (hle : first ≤ last)
    (hlt : last < lines.length) : Lines.join lines ⟨first, last⟩ = .ok (Lines.extent lines first last) := by
  have hfits : LineRange.fits ⟨first, last⟩ lines.length = true :=
    LineRange.fits_iff.2 ⟨Nat.le_succ_of_le hle, hlt⟩
  rw [Lines.join, Lines.slice_of_fits hfits]
  rfl

/-- Where a declaration is looked for on a line of the text, no line is read that the text does not
have. -/
theorem locateByIndex_eq {lines : List Line} {keyword : String} {start : Nat}
    (hstart : start < lines.length) :
    locateByIndex lines keyword start =
      .ok (locate lines (Outline.ofLines lines) keyword start) := by
  have hlength := Outline.length_ofLines lines
  unfold locateByIndex locate
  rw [Lines.line_of_lt hstart, List.getElem?_eq_getElem hstart]
  simp only [bind, Except.bind, Option.getD_some]
  cases hend : (Outline.ofLines lines).headerEnd start with
  | none => rfl
  | some headerEnd =>
    obtain ⟨hle, hlt⟩ := Outline.headerEnd_bounds hend
    simp only [join_eq_extent hle (hlength ▸ hlt), Outline.shapeAt_of_lt hlt, Outline.opensBlock,
      List.getElem?_eq_getElem hlt, Option.any_some]
    cases Signature.parse (Lines.extent lines start headerEnd) with
    | none => rfl
    | some signature =>
      by_cases hdepth : (Outline.ofLines lines)[headerEnd].depth ≤ 0
      · simp only [hdepth, Int.not_lt.2 hdepth, decide_false, Bool.not_false, ↓reduceIte]
        rfl
      simp only [hdepth, Int.not_le.1 hdepth, decide_true, Bool.not_true, Bool.false_eq_true, ↓reduceIte]
      by_cases hblock : signature.block.isSome = true
      · simp only [hblock, ↓reduceIte]
        cases hmatch : (Outline.ofLines lines).matchBlock headerEnd with
        | none => rfl
        | some b =>
          simp only [Outline.childrenByIndex_eq (Outline.matchBlock_bounds hmatch).2.2]
          rfl
      simp only [hblock, Bool.false_eq_true, ↓reduceIte]
      cases hlast : (Outline.ofLines lines).statementEnd start with
      | none => rfl
      | some last =>
        obtain ⟨hle, hlt⟩ := Outline.statementEnd_bounds hlast
        simp only [join_eq_extent hle (hlength ▸ hlt)]
        cases Signature.parse (Lines.extent lines start last) <;> rfl

/-! ## The walk through a text -/

section

variable {lines : List Line} {keyword : String} {index : Nat}

/-- A scan walks through the lines, from the one below those that belong to a header. -/
theorem sweep_scanFrom (taken : Nat) {rest : List Line} (hrest : lines.drop index = rest) :
    Sweep lines keyword (index + taken)
      (scanFrom lines (Outline.ofLines lines) keyword taken index rest) := by
  induction rest generalizing taken index with
  | nil =>
    have hend := List.drop_eq_nil_iff.1 hrest
    exact .done (by omega)
  | cons line rest ih =>
    have hline := Lines.line_ok_iff.2 (getElem?_of_drop_eq_cons hrest)
    have hnext := drop_succ_of_drop_eq_cons hrest
    have hbelow : Sweep lines keyword (index + 1)
        (scanFrom lines (Outline.ofLines lines) keyword 0 (index + 1) rest) := ih 0 hnext
    cases taken with
    | succ taken =>
      have hstep : index + (taken + 1) = index + 1 + taken := by omega
      rw [scanFrom, hstep]
      exact ih taken hnext
    | zero =>
      have hlt : index < lines.length :=
        (List.getElem?_eq_some_iff.1 (getElem?_of_drop_eq_cons hrest)).1
      have hlocate : locateByIndex lines keyword index =
          .ok (locate lines (Outline.ofLines lines) keyword index) := locateByIndex_eq hlt
      rw [scanFrom, Nat.add_zero]
      split
      · rename_i hstarts
        split
        · rename_i d hd
          obtain ⟨hstart, hplaced⟩ := placed_of_locate hd
          have hle := hplaced.start_le
          have hjump : d.headerEnd + 1 = index + 1 + (d.headerEnd - index) := by omega
          refine .declaration hline hstarts (by rw [hlocate, hd]) ?_
          rw [hjump]
          exact ih (d.headerEnd - index) hnext
        · rename_i reason hreason
          exact .failed hline hstarts (by rw [hlocate, hreason]) hbelow
      · rename_i hstarts
        exact .pass hline (by simpa using hstarts) hbelow

theorem scanFrom_taken (outline : Outline) (taken : Nat) (rest : List Line) :
    scanFrom lines outline keyword taken index rest =
      scanFrom lines outline keyword 0 (index + taken) (rest.drop taken) := by
  induction rest generalizing taken index with
  | nil =>
    rw [List.drop_nil]
    rfl
  | cons line rest ih =>
    cases taken with
    | zero => rfl
    | succ taken =>
      have hstep : index + (taken + 1) = index + 1 + taken := by omega
      rw [scanFrom, List.drop_succ_cons, hstep]
      exact ih taken

theorem drop_of_line {line : Line} (h : Lines.line lines index = .ok line) :
    index < lines.length ∧ lines.drop index = line :: lines.drop (index + 1) := by
  obtain ⟨hlt, rfl⟩ := List.getElem?_eq_some_iff.1 (Lines.line_ok_iff.1 h)
  exact ⟨hlt, List.drop_eq_getElem_cons hlt⟩

/-- A walk finds nothing else. -/
theorem Sweep.eq_scanFrom {found : List Found} (h : Sweep lines keyword index found) :
    found = scanFrom lines (Outline.ofLines lines) keyword 0 index (lines.drop index) := by
  induction h with
  | done hend =>
    rw [List.drop_eq_nil_of_le hend]
    rfl
  | pass hline hstarts _ ih =>
    rw [(drop_of_line hline).2, scanFrom, hstarts, if_neg Bool.false_ne_true]
    exact ih
  | @declaration index line d found hline hstarts hd _ ih =>
    obtain ⟨hlt, hdrop⟩ := drop_of_line hline
    have hlocate := Except.ok.inj ((locateByIndex_eq hlt).symm.trans hd)
    obtain ⟨hstart, hplaced⟩ := placed_of_locate hlocate
    have hle := hplaced.start_le
    have hjump : index + 1 + (d.headerEnd - index) = d.headerEnd + 1 := by omega
    rw [hdrop, scanFrom, if_pos hstarts, hlocate]
    simp only
    rw [scanFrom_taken, List.drop_drop, hjump, ← ih]
  | failed hline hstarts hreason _ ih =>
    obtain ⟨hlt, hdrop⟩ := drop_of_line hline
    have hlocate := Except.ok.inj ((locateByIndex_eq hlt).symm.trans hreason)
    rw [hdrop, scanFrom, if_pos hstarts, hlocate]
    simp only
    rw [← ih]

/-- The walk from the first line comes to an end, and it finds what a scan finds. -/
theorem sweep_iff {found : List Found} :
    Sweep lines keyword 0 found ↔ found = scan lines keyword := by
  refine ⟨Sweep.eq_scanFrom, ?_⟩
  rintro rfl
  exact sweep_scanFrom 0 rfl

/-! ## Lines that start a call -/

/-- No call is passed over. -/
theorem Sweep.covers {found : List Found} (h : Sweep lines keyword index found) {i : Nat}
    {line : Line} (hi : index ≤ i) (hline : lines[i]? = some line)
    (hstarts : startsOn keyword line = true) : ∃ f ∈ found, f.place ≤ i ∧ i ≤ f.last := by
  have hlt := (List.getElem?_eq_some_iff.1 hline).1
  induction h with
  | done hend => omega
  | @pass index above found habove hnot _ ih =>
    have hne : index ≠ i := by
      rintro rfl
      rw [Lines.line_ok_iff, hline] at habove
      obtain rfl := Option.some.inj habove
      rw [hstarts] at hnot
      cases hnot
    exact ih (by omega)
  | @declaration index above d found habove _ hd _ ih =>
    have hlocate := Except.ok.inj ((locateByIndex_eq (drop_of_line habove).1).symm.trans hd)
    have hstart := (placed_of_locate hlocate).1
    by_cases hle : i ≤ d.headerEnd
    · refine ⟨.declaration d, List.mem_cons_self, ?_, hle⟩
      show d.start ≤ i
      omega
    · obtain ⟨f, hf, hinside⟩ := ih (by omega)
      exact ⟨f, List.mem_cons_of_mem _ hf, hinside⟩
  | @failed index above reason found _ _ _ _ ih =>
    by_cases hle : i ≤ index
    · exact ⟨.failed index reason, List.mem_cons_self, hi, hle⟩
    · obtain ⟨f, hf, hinside⟩ := ih (by omega)
      exact ⟨f, List.mem_cons_of_mem _ hf, hinside⟩

/-- The lines that two finds take are apart. -/
theorem eq_of_mem_scan {f g : Found} (hf : f ∈ scan lines keyword) (hg : g ∈ scan lines keyword)
    {i : Nat} (hfi : f.place ≤ i ∧ i ≤ f.last) (hgi : g.place ≤ i ∧ i ≤ g.last) : f = g := by
  have hbelow := scan_pairwise lines keyword
  have hapart : ∀ a ∈ scan lines keyword, ∀ b ∈ scan lines keyword,
      a = b ∨ a.last < b.place ∨ b.last < a.place :=
    List.Pairwise.forall_of_forall_of_flip (fun _ _ => .inl rfl)
      (hbelow.imp fun h => .inr (.inl h)) (hbelow.imp fun h => .inr (.inr h))
  rcases hapart f hf g hg with h | h | h
  · exact h
  · omega
  · omega

/-- A line that starts a call belongs to one find and no other. -/
theorem existsUnique_of_startsOn {i : Nat} {line : Line} (hline : lines[i]? = some line)
    (hstarts : startsOn keyword line = true) :
    ∃! f, f ∈ scan lines keyword ∧ f.place ≤ i ∧ i ≤ f.last := by
  obtain ⟨f, hf, hinside⟩ := (sweep_iff.2 rfl).covers (Nat.zero_le i) hline hstarts
  exact ⟨f, ⟨hf, hinside⟩, fun g hg => eq_of_mem_scan hg.1 hf hg.2 hinside⟩

theorem header_apart :
    (declarations lines keyword).Pairwise fun d e => d.header.Apart e.header :=
  (headers_pairwise lines keyword).imp fun h => LineRange.apart_iff.2 (.inr (.inr (.inl h)))

/-- The line that belongs to a find starts it, or it stands further down in the header of a
declaration. -/
theorem starts_xor_inside {i : Nat} {line : Line} (hline : lines[i]? = some line)
    (hstarts : startsOn keyword line = true) :
    Xor (∃! f, f ∈ scan lines keyword ∧ f.place = i)
      (∃! d, d ∈ declarations lines keyword ∧ d.start < i ∧ i ≤ d.headerEnd) := by
  obtain ⟨f, ⟨hf, hplace, hlast⟩, hunique⟩ := existsUnique_of_startsOn hline hstarts
  have hstart : ∀ g, g ∈ scan lines keyword ∧ g.place = i → g = f := fun g hg =>
    hunique g ⟨hg.1, hg.2.le, hg.2.ge.trans (place_le_last hg.1)⟩
  have hinside : ∀ d, d ∈ declarations lines keyword ∧ d.start < i ∧ i ≤ d.headerEnd →
      .declaration d = f := fun d hd =>
    hunique (.declaration d) ⟨mem_declarations.1 hd.1, hd.2.1.le, hd.2.2⟩
  rcases hplace.eq_or_lt with heq | hlt
  · refine .inl ⟨⟨f, ⟨hf, heq⟩, hstart⟩, ?_⟩
    rintro ⟨d, hd, -⟩
    rw [← hinside d hd] at heq
    exact hd.2.1.ne heq
  · cases f with
    | failed index reason => exact absurd hlast (Nat.not_le.2 hlt)
    | declaration d =>
      refine .inr ⟨⟨d, ⟨mem_declarations.2 hf, hlt, hlast⟩, fun e he => ?_⟩, ?_⟩
      · exact Found.declaration.inj (hinside e he)
      · rintro ⟨g, hg, -⟩
        obtain rfl := hstart g hg
        exact hlt.ne hg.2

end

/-- The scan comes to an end and reads no line that the text does not have. What it finds starts on lines
further and further down, each of which starts a call of the keyword; the headers found lie in the text and
share no line; and each line that starts a call starts just one find, or it stands below the start of just
one header that was found. -/
theorem scan_covers (lines : List Line) (keyword : String) :
    (∀ found, Sweep lines keyword 0 found ↔ found = scan lines keyword) ∧
    (scan lines keyword).Pairwise (fun f g => f.place < g.place) ∧
    (∀ f ∈ scan lines keyword, ∃ line, lines[f.place]? = some line ∧ startsOn keyword line = true) ∧
    (declarations lines keyword).Pairwise (fun d e => d.header.Apart e.header) ∧
    (∀ d ∈ declarations lines keyword, d.start ≤ d.headerEnd ∧ d.headerEnd < lines.length) ∧
    ∀ (i : Nat) (line : Line), lines[i]? = some line → startsOn keyword line = true →
      Xor (∃! f, f ∈ scan lines keyword ∧ f.place = i)
        (∃! d, d ∈ declarations lines keyword ∧ d.start < i ∧ i ≤ d.headerEnd) := by
  refine ⟨fun found => sweep_iff, ?_, fun f hf => (genuine_of_mem_scan hf).1, header_apart, ?_,
    fun i line hline hstarts => starts_xor_inside hline hstarts⟩
  · refine (scan_pairwise lines keyword).imp_of_mem fun hf _ h => ?_
    exact (place_le_last hf).trans_lt h
  · intro d hd
    have hplaced := placed_of_mem_scan (mem_declarations.1 hd)
    exact ⟨hplaced.start_le, hplaced.headerEnd_le.trans_lt hplaced.stop_lt⟩

/-- Line 1 starts a call inside the header of the first field, and the brackets of line 3 stay open. -/
theorem scan_covers_openBracket :
    let lines := Text.lines "field :a, [\nfield :b,\n]\nfield :c, (\nfield :d".toList
    (scan lines "field").map Found.place = [0, 3, 4] ∧ startsOn "field" "field :b,".toList = true ∧
      Xor (∃! f, f ∈ scan lines "field" ∧ f.place = 1)
        (∃! d, d ∈ declarations lines "field" ∧ d.start < 1 ∧ 1 ≤ d.headerEnd) := by
  intro lines
  have hstarts : startsOn "field" "field :b,".toList = true := by decide
  exact ⟨by decide, hstarts, (scan_covers lines "field").2.2.2.2.2 1 "field :b,".toList rfl hstarts⟩

end Declaration

end SchemaLift
