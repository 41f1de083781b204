import SchemaLift.Proofs.Text.Replace
import SchemaLift.Proofs.Upgrade.Pipeline

/-!
# Editing all declarations at once

The declarations of a text are edited one after the other, from the bottom up, each in the text that
the edits below it have left. If no line belongs to two of them, the order does not matter: every
edit is the one that the original text asks for, and the result is the simultaneous edit
(`apply_eq_replaceRanges`). What carries the induction is that all changes lie below the declaration
that comes next, and that a line below it, though it may be the new header of another declaration,
asks for a blank line as the old header did (`agree_replaceRanges`).
-/

namespace SchemaLift

/-- Two ranges that share no line. -/
def LineRange.Apart (r s : LineRange) : Prop :=
  ∀ i, ¬ (r.contains i = true ∧ s.contains i = true)

theorem LineRange.apart_iff {r s : LineRange} :
    r.Apart s ↔ r.last < r.first ∨ s.last < s.first ∨ r.last < s.first ∨ s.last < r.first := by
  unfold Apart
  simp only [contains_iff]
  constructor
  · intro h
    by_contra hn
    have := h (max r.first s.first)
    omega
  · rintro h i ⟨hr, hs⟩
    omega

instance (r s : LineRange) : Decidable (r.Apart s) := decidable_of_iff _ LineRange.apart_iff.symm

namespace Declaration

/-! ## Header lines -/

/-- A line that starts a declaration asks for a blank line above it. -/
theorem spaced_of_startsOn {keyword : String} {line : Line} (h : startsOn keyword line = true) :
    spaced (some line) = true := by
  unfold startsOn at h
  split at h
  · rename_i first next rest htokens
    simp only [Bool.and_eq_true, Token.isWord, beq_iff_eq] at h
    obtain ⟨⟨hkind, -⟩, -⟩ := h
    have hblank : Text.isBlank line = false := by
      rw [Bool.eq_false_iff]
      intro hb
      rw [tokenizeCode_of_isBlank hb] at htokens
      cases htokens
    have hclose : closesBlock line = false := by
      simp only [closesBlock, htokens, List.head?_cons, Option.any_some, Token.is, hkind]
      decide
    simp only [spaced, Option.any_some, hblank, hclose, Bool.not_false, Bool.and_self]
  · cases h

/-- So does a rendered header. -/
theorem spaced_render {s : Signature} (h : s.Headed) : spaced (some s.render) = true := by
  obtain ⟨rest, htokens⟩ := h.tokenizeCode_render
  have hclose : closesBlock s.render = false := by
    simp only [closesBlock, htokens, List.head?_cons, Option.any_some, Token.is]
    decide
  simp only [spaced, Option.any_some, h.isBlank_render, hclose, Bool.not_false, Bool.and_self]

theorem headed_newHeader {s : Signature} (h : s.Headed) (body : List Line) :
    (newHeader s body).Headed := by
  unfold newHeader
  split
  · exact ⟨h.indent, h.keyword⟩
  · exact h

/-- The first of the lines that replace a declaration asks for a blank line. -/
theorem Rebuilds.spaced {d : Declaration} {ls new : List Line} (h : d.Rebuilds ls new) :
    new ≠ [] ∧ Declaration.spaced new.head? = true := by
  cases h with
  | plain hs removed => exact ⟨List.cons_ne_nil _ _, spaced_render (headed_newHeader hs _)⟩
  | method hs removed _ _ _ =>
    exact ⟨List.cons_ne_nil _ _, spaced_render (headed_newHeader hs _)⟩

/-! ## A text that is changed further down -/

/-- Changes of a text at places where declarations stood. -/
def HeaderChanges (ls : List Line) (changes : List Lines.Change) : Prop :=
  ∀ c ∈ changes, spaced ls[c.1.first]? = true ∧ c.2 ≠ [] ∧ spaced c.2.head? = true

/-- A declaration cannot tell a text from one with changed declarations below it. -/
theorem agree_replaceRanges {ls : List Line} {changes : List Lines.Change}
    (hc : HeaderChanges ls changes) {d : Declaration} (hd : d.Placed ls.length)
    (hbelow : ∀ c ∈ changes, d.stop < c.1.first) :
    Agree (d.stop + 1) ls (Lines.replaceRanges ls changes) := by
  have hle : d.stop + 1 ≤ ls.length := hd.stop_lt
  have hfrom : ∀ c ∈ changes, d.stop + 1 ≤ c.1.first := hbelow
  refine ⟨hle, Lines.take_replaceRanges hfrom hle, ?_⟩
  rcases Lines.getElem?_replaceRanges (fun c h => ⟨hfrom c h, (hc c h).2.1⟩) hle with h | h
  · rw [h]
  · obtain ⟨c, hmem, hfirst, hget⟩ := h
    obtain ⟨hold, -, hnew⟩ := hc c hmem
    rw [hget, hnew, ← hfirst, hold]

/-! ## All edits -/

/-- Declarations with the edits that they get. -/
abbrev Plan := List (Declaration × Edit)

/-- The replacements of a plan, each for the range of its declaration. -/
def replacements (plan : Plan) : List Lines.Change :=
  plan.filterMap fun entry => entry.2.replacement.map (entry.1.range, ·)

/-- Whether an edit replaces a declaration by other lines than its own. -/
def alters (ls : List Line) (entry : Declaration × Edit) : Bool :=
  entry.2.replacement.any (· != entry.1.ownLines ls)

/-- The declarations that a scan finds. -/
def declarations (ls : List Line) (keyword : String) : List Declaration :=
  (scan ls keyword).filterMap Found.declaration?

theorem mem_declarations {ls : List Line} {keyword : String} {d : Declaration} :
    d ∈ declarations ls keyword ↔ .declaration d ∈ scan ls keyword := by
  unfold declarations
  rw [List.mem_filterMap]
  constructor
  · rintro ⟨f, hf, hfd⟩
    cases f with
    | failed _ _ => cases hfd
    | declaration d' =>
      obtain rfl := Option.some.inj hfd
      exact hf
  · exact fun h => ⟨_, h, rfl⟩

/-- The headers that a scan finds follow each other. -/
theorem headers_pairwise (ls : List Line) (keyword : String) :
    (declarations ls keyword).Pairwise fun a b => a.headerEnd < b.start := by
  refine (scan_pairwise ls keyword).filterMap _ fun f g hlt d hd e he => ?_
  cases f with
  | failed _ _ => cases hd
  | declaration d' =>
    cases g with
    | failed _ _ => cases he
    | declaration e' =>
      obtain rfl := Option.some.inj hd
      obtain rfl := Option.some.inj he
      exact hlt

theorem mem_replacements {plan : Plan} {c : Lines.Change} :
    c ∈ replacements plan ↔
      ∃ entry ∈ plan, entry.1.range = c.1 ∧ entry.2.replacement = some c.2 := by
  unfold replacements
  simp only [List.mem_filterMap, Option.map_eq_some_iff]
  constructor
  · rintro ⟨entry, hmem, new, hnew, rfl⟩
    exact ⟨entry, hmem, rfl, hnew⟩
  · rintro ⟨entry, hmem, hrange, hnew⟩
    exact ⟨entry, hmem, c.2, hnew, by rw [hrange]⟩

section

variable {keyword : String} {revise : Revision} {ls : List Line} {plan : Plan}

theorem replacements_cons (d : Declaration) (edit : Edit) (plan : Plan) :
    replacements ((d, edit) :: plan) =
      (edit.replacement.map (d.range, ·)).toList ++ replacements plan := by
  unfold replacements
  rw [List.filterMap_cons]
  cases edit.replacement <;> rfl

/-- The changes that a lawful revision plans stand where declarations stood. -/
theorem headerChanges_of_plan (hl : Lawful revise)
    (hfound : ∀ entry ∈ plan, .declaration entry.1 ∈ scan ls keyword)
    (hedit : ∀ entry ∈ plan, revise entry.1 ls = .ok entry.2) :
    HeaderChanges ls (replacements plan) := by
  intro c hc
  obtain ⟨entry, hmem, hrange, hnew⟩ := mem_replacements.1 hc
  have hscan := hfound entry hmem
  obtain ⟨line, hline, hstarts⟩ := (genuine_of_mem_scan hscan).1
  obtain ⟨edit, hrevise, hadmits⟩ := hl.total (placed_of_mem_scan hscan)
  rw [hedit entry hmem] at hrevise
  obtain rfl := Except.ok.inj hrevise
  refine ⟨?_, (hadmits c.2 hnew).spaced⟩
  rw [← hrange]
  show spaced ls[entry.1.start]? = true
  have hplace : ls[entry.1.start]? = some line := hline
  rw [hplace, spaced_of_startsOn hstarts]

/-- One edit of a text that is changed below is one more change of the original text. -/
theorem applyEdit_replaceRanges (rule : Rule) {d : Declaration} (hd : d.Placed ls.length)
    (hbelow : ∀ c ∈ replacements plan, d.stop < c.1.first)
    (hag : Agree (d.stop + 1) ls (Lines.replaceRanges ls (replacements plan))) (edit : Edit)
    (n : Nat) (skipped : List Skip) :
    ∃ skipped', applyEdit rule ⟨Lines.replaceRanges ls (replacements plan), n, skipped⟩ d edit =
      .ok ⟨Lines.replaceRanges ls (replacements ((d, edit) :: plan)),
        n + (if alters ls (d, edit) then 1 else 0), skipped'⟩ := by
  have hle := hd.start_le_stop
  have hlt := hd.stop_lt
  have hstart : d.start < ls.length := by omega
  have hline : Lines.line (Lines.replaceRanges ls (replacements plan)) d.start =
      .ok ls[d.start] := by
    rw [hag.line_eq (by omega), Lines.line_of_lt hstart]
  have hslice : Lines.slice (Lines.replaceRanges ls (replacements plan)) d.range =
      .ok (d.ownLines ls) := by
    rw [hag.slice_eq hle (Nat.lt_succ_self _), Lines.slice_of_fits hd.fits]
    rfl
  rw [replacements_cons]
  refine ⟨skippedBy rule d ls[d.start] edit skipped, ?_⟩
  cases hnew : edit.replacement with
  | none =>
    rw [applyEdit_keep hline hnew]
    simp [alters, hnew]
  | some new =>
    have hsplice : Lines.splice (Lines.replaceRanges ls (replacements plan)) d.range new =
        .ok (Lines.replaceRanges ls ((d.range, new) :: replacements plan)) :=
      Lines.splice_replaceRanges hbelow hle hlt
    by_cases hsame : new = d.ownLines ls
    · subst hsame
      rw [applyEdit_same hline hnew hslice]
      rw [Lines.splice_slice hslice] at hsplice
      simp only [Option.map_some, Option.toList_some, List.singleton_append,
        ← Except.ok.inj hsplice, alters, hnew, Option.any_some, bne_self_eq_false,
        Bool.false_eq_true, ↓reduceIte, Nat.add_zero]
    · have halters : alters ls (d, edit) = true := by
        simp only [alters, hnew, Option.any_some, bne_iff_ne]
        exact hsame
      rw [applyEdit_change hline hnew hslice hsame hsplice, halters, if_pos rfl]
      rfl

theorem mem_of_plan {found : List Found}
    (hplan : plan.map Prod.fst = found.filterMap Found.declaration?)
    {entry : Declaration × Edit} (h : entry ∈ plan) : .declaration entry.1 ∈ found := by
  have hd : entry.1 ∈ found.filterMap Found.declaration? := by
    rw [← hplan]
    exact List.mem_map_of_mem h
  obtain ⟨f, hf, hfd⟩ := List.mem_filterMap.1 hd
  cases f with
  | declaration d =>
    obtain rfl := Option.some.inj hfd
    exact hf
  | failed _ _ => cases hfd

/-- Handling one more find above a text that is changed below. -/
theorem handle_replaceRanges (rule : Rule) (hl : Lawful revise) {f : Found} (hf : f ∈ scan ls keyword)
    (hchanges : HeaderChanges ls (replacements plan))
    (hbelow : ∀ c ∈ replacements plan, f.place < c.1.first ∧
      ∀ d ∈ f.declaration?, d.stop < c.1.first) (n : Nat) (skipped : List Skip) :
    ∃ (planned : Plan) (skipped' : List Skip),
      planned.map Prod.fst = f.declaration?.toList ∧
      (∀ entry ∈ planned, revise entry.1 ls = .ok entry.2) ∧
      handle rule revise ⟨Lines.replaceRanges ls (replacements plan), n, skipped⟩ f =
        .ok ⟨Lines.replaceRanges ls (replacements (planned ++ plan)),
          n + planned.countP (alters ls), skipped'⟩ := by
  cases f with
  | failed index reason =>
    obtain ⟨line, hline, -⟩ := (genuine_of_mem_scan hf).1
    have hline : ls[index]? = some line := hline
    have hlt : index < ls.length := (List.getElem?_eq_some_iff.1 hline).1
    have hfrom : ∀ c ∈ replacements plan, index + 1 ≤ c.1.first := fun c hc => (hbelow c hc).1
    have htake := Lines.take_replaceRanges hfrom hlt
    have hget : Lines.line (Lines.replaceRanges ls (replacements plan)) index = .ok line := by
      rw [Lines.line_ok_iff, ← List.getElem?_take_of_lt (Nat.lt_succ_self index), htake,
        List.getElem?_take_of_lt (Nat.lt_succ_self index), hline]
    refine ⟨[], Skip.atLine rule index line reason :: skipped, rfl, by simp, ?_⟩
    rw [handle, hget]
    rfl
  | declaration d =>
    have hd := placed_of_mem_scan hf
    have hstop : ∀ c ∈ replacements plan, d.stop < c.1.first := fun c hc => (hbelow c hc).2 d rfl
    have hag := agree_replaceRanges hchanges hd hstop
    obtain ⟨edit, hrevise, -⟩ := hl.total hd
    obtain ⟨skipped', happly⟩ := applyEdit_replaceRanges rule hd hstop hag edit n skipped
    refine ⟨[(d, edit)], skipped', rfl, by simpa using hrevise, ?_⟩
    rw [handle, hl.congr hd hag, hrevise]
    simp only [bind, Except.bind, List.singleton_append, List.countP_cons, List.countP_nil,
      Nat.zero_add]
    exact happly

theorem place_le_last {f : Found} (hf : f ∈ scan ls keyword) : f.place ≤ f.last := by
  cases f with
  | declaration d => exact (placed_of_mem_scan hf).start_le
  | failed _ _ => exact Nat.le_refl _

/-- Of two declarations that share no line, the first ends above the second. -/
theorem stop_lt_of_apart {d e : Declaration} (hstart : d.start ≤ e.start) (he : e.start ≤ e.stop)
    (h : d.range.Apart e.range) : d.stop < e.start := by
  by_contra hlt
  rcases LineRange.apart_iff.1 h with hr | hr | hr | hr <;> simp only [range] at hr <;> omega

/-- What is planned for later finds lies below an earlier one. -/
theorem below_of_plan {f : Found} {rest : List Found} (hf : f ∈ scan ls keyword)
    (hrest : ∀ g ∈ rest, g ∈ scan ls keyword) (hsorted : ∀ g ∈ rest, f.last < g.place)
    (hapart : ∀ d ∈ f.declaration?, ∀ e ∈ rest.filterMap Found.declaration?,
      d.range.Apart e.range)
    (hplan : plan.map Prod.fst = rest.filterMap Found.declaration?) :
    ∀ c ∈ replacements plan, f.place < c.1.first ∧ ∀ d ∈ f.declaration?, d.stop < c.1.first := by
  intro c hc
  obtain ⟨entry, hentry, hrange, -⟩ := mem_replacements.1 hc
  have hin := mem_of_plan hplan hentry
  have hplace : f.place < entry.1.start := Nat.lt_of_le_of_lt (place_le_last hf) (hsorted _ hin)
  rw [← hrange]
  refine ⟨hplace, ?_⟩
  intro d hd
  have hfound : entry.1 ∈ rest.filterMap Found.declaration? := List.mem_filterMap.2 ⟨_, hin, rfl⟩
  cases f with
  | failed _ _ => cases hd
  | declaration d' =>
    obtain rfl := Option.some.inj hd
    exact stop_lt_of_apart (Nat.le_of_lt hplace) (placed_of_mem_scan (hrest _ hin)).start_le_stop
      (hapart d' rfl _ hfound)

/-- **Editing from the bottom up.** If the declarations that are found share no line, handling them
one after the other replaces each as the original text asks for. -/
theorem handleAll_eq (rule : Rule) (hl : Lawful revise) {found : List Found}
    (hscan : ∀ f ∈ found, f ∈ scan ls keyword)
    (hsorted : found.Pairwise fun a b => a.last < b.place)
    (hapart : (found.filterMap Found.declaration?).Pairwise fun a b => a.range.Apart b.range) :
    ∃ (plan : Plan) (skipped : List Skip),
      plan.map Prod.fst = found.filterMap Found.declaration? ∧
      (∀ entry ∈ plan, revise entry.1 ls = .ok entry.2) ∧
      handleAll rule revise ls found =
        .ok ⟨Lines.replaceRanges ls (replacements plan), plan.countP (alters ls), skipped⟩ := by
  induction found with
  | nil =>
    refine ⟨[], [], rfl, by simp, ?_⟩
    rw [handleAll, replacements, List.filterMap_nil, Lines.replaceRanges_nil, List.countP_nil]
  | cons f rest ih =>
    obtain ⟨hfirst, hsorted⟩ := List.pairwise_cons.1 hsorted
    have hrest : ∀ g ∈ rest, g ∈ scan ls keyword := fun g hg => hscan g (List.mem_cons_of_mem f hg)
    have hf := hscan f List.mem_cons_self
    have hfirstApart : ∀ d ∈ f.declaration?, ∀ e ∈ rest.filterMap Found.declaration?,
        d.range.Apart e.range := by
      intro d hd
      rw [List.filterMap_cons_some hd] at hapart
      exact (List.pairwise_cons.1 hapart).1
    have hapart' : (rest.filterMap Found.declaration?).Pairwise fun a b => a.range.Apart b.range :=
      hapart.sublist ((List.sublist_cons_self f rest).filterMap _)
    obtain ⟨plan, skipped, hplan, hedit, hall⟩ := ih hrest hsorted hapart'
    have hbelow := below_of_plan hf hrest hfirst hfirstApart hplan
    have hchanges : HeaderChanges ls (replacements plan) :=
      headerChanges_of_plan hl (fun e he => hrest _ (mem_of_plan hplan he)) hedit
    obtain ⟨planned, skipped', hplanned, hedit', hhandle⟩ :=
      handle_replaceRanges rule hl hf hchanges hbelow (plan.countP (alters ls)) skipped
    refine ⟨planned ++ plan, skipped', ?_, ?_, ?_⟩
    · rw [List.map_append, hplanned, hplan, List.filterMap_cons]
      cases f.declaration? <;> rfl
    · intro entry hentry
      rcases List.mem_append.1 hentry with h | h
      · exact hedit' entry h
      · exact hedit entry h
    · rw [handleAll, hall, List.countP_append, Nat.add_comm]
      exact hhandle

end

/-! ## The six rules -/

/-- **One rule, all declarations at once.** If the found declarations of a text share no line, a rule
never leaves the text: it gives the text in which each declaration is replaced by what the original
lines ask for, and it counts the declarations that get other lines than their own. -/
theorem apply_eq_replaceRanges {e : Editor} (he : e ∈ editors) (ns source : Text)
    (hapart : (declarations (Text.lines source) e.keyword).Pairwise
      fun a b => a.range.Apart b.range) :
    ∃ (plan : Plan) (skipped : List Skip),
      plan.map Prod.fst = declarations (Text.lines source) e.keyword ∧
      (∀ entry ∈ plan, e.revise entry.1 (Text.lines source) = .ok entry.2) ∧
      e.rule.apply ns source =
        .ok ⟨Text.unlines (Lines.replaceRanges (Text.lines source) (replacements plan)),
          plan.countP (alters (Text.lines source)), skipped⟩ := by
  obtain ⟨plan, skipped, hplan, hedit, hall⟩ := handleAll_eq e.rule (lawful_of_mem_editors he)
    (fun f hf => hf) (scan_pairwise (Text.lines source) e.keyword) hapart
  refine ⟨plan, skipped, hplan, hedit, ?_⟩
  rw [apply_of_mem_editors he, upgradeAll, hall]
  rfl

/-- Two fields on neighbouring lines: the method of the first needs a blank line above the second,
whose header is rewritten before. -/
def neighbours : Text :=
  "field :a do\n  type types.Int\n  resolve ->(o, a, c) { o.x }\nend\nfield :b, types.String".toList

theorem neighbours_apart :
    (declarations (Text.lines neighbours) "field").Pairwise fun a b => a.range.Apart b.range := by
  decide +kernel

theorem flatten_neighbours :
    ((declarations (Text.lines neighbours) "field").Pairwise fun a b => a.range.Apart b.range) ∧
      ∃ (plan : Plan) (skipped : List Skip),
        plan.map Prod.fst = declarations (Text.lines neighbours) "field" ∧
        (∀ entry ∈ plan, flatten .field entry.1 (Text.lines neighbours) = .ok entry.2) ∧
        Rule.field.apply [] neighbours =
          .ok ⟨Text.unlines (Lines.replaceRanges (Text.lines neighbours) (replacements plan)),
            plan.countP (alters (Text.lines neighbours)), skipped⟩ :=
  ⟨neighbours_apart,
    apply_eq_replaceRanges (e := ⟨.field, "field", flatten .field⟩) List.mem_cons_self [] neighbours
      neighbours_apart⟩

end Declaration

end SchemaLift
