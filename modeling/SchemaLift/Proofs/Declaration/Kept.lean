import SchemaLift.Proofs.Declaration.AtOnce
import SchemaLift.Proofs.Declaration.Pulled

/-!
# Which lines of a block stay

A declaration that is put together anew keeps lines of its block in their order (`kept`). What is not
kept is blank, or belongs to a statement that has moved, or it is the closing line of a block of which
nothing stays. That line goes as a whole, with all that stands beside its `end`, so no code and no
comment is lost exactly if it holds nothing else (`rewritten_lossless_iff`).
-/

namespace SchemaLift

/-- The line holds an `end` and no other token, not even a comment. -/
def IsBareEnd (line : Line) : Prop := ∃ t, tokenize line = [t] ∧ t.kind = .endWord

instance (line : Line) : Decidable (IsBareEnd line) :=
  decidable_of_iff ((tokenize line).map Token.kind = [.endWord]) List.map_eq_singleton_iff

namespace Declaration

/-! ## The lines that stay -/

/-- The lines of the block's body that stay, by their indices. -/
def keptBody (d : Declaration) (ls : List Line) (removed : Removed) : List Nat :=
  match d.block with
  | none => []
  | some b => trimEnds (fun i => ls[i]?.all Text.isBlank) (b.body.filter (!removed.covers ·))

/-- The lines of the block that stay: what stays of its body, and then its closing line, too. -/
def kept (d : Declaration) (ls : List Line) (removed : Removed) : List Nat :=
  match d.block with
  | none => []
  | some b => if d.keptBody ls removed = [] then [] else d.keptBody ls removed ++ [b.stop]

section

variable {d : Declaration} {ls : List Line} {removed : Removed} {b : Block}

theorem mem_keptBody (hb : d.block = some b) {i : Nat} (h : i ∈ d.keptBody ls removed) :
    b.start < i ∧ i < b.stop := by
  rw [keptBody, hb] at h
  exact Block.mem_body.1 (List.mem_of_mem_filter ((trimEnds_sublist _).subset h))

/-- A line of the body that is not blank and in no removed statement stays. -/
theorem mem_keptBody_of_not_covers (hb : d.block = some b) {i : Nat} {line : Line}
    (hi : b.start < i ∧ i < b.stop) (hline : ls[i]? = some line)
    (hblank : Text.isBlank line = false) (hcovers : removed.covers i = false) :
    i ∈ d.keptBody ls removed := by
  rw [keptBody, hb]
  refine mem_trimEnds (List.mem_filter.2 ⟨Block.mem_body.2 hi, by rw [hcovers]; rfl⟩) ?_
  rw [hline]
  exact hblank

theorem staying_eq (d : Declaration) (ls : List Line) (removed : Removed) :
    d.staying ls removed = (d.keptBody ls removed).filterMap (ls[·]?) := by
  unfold staying keptBody
  cases d.block with
  | none => rfl
  | some b => exact trimEnds_filterMap (ls[·]?) Text.isBlank _

theorem staying_eq_nil_iff (h : d.Placed ls.length) :
    d.staying ls removed = [] ↔ d.keptBody ls removed = [] := by
  rw [staying_eq, List.filterMap_eq_nil_iff]
  constructor
  · intro hnone
    refine List.eq_nil_iff_forall_not_mem.2 fun i hi => ?_
    cases hb : d.block with
    | none =>
      rw [keptBody, hb] at hi
      cases hi
    | some b =>
      have hstop : d.stop = b.stop := by rw [stop, hb]
      have hlt := h.stop_lt
      have hbody := mem_keptBody hb hi
      have hget := List.getElem?_eq_none_iff.1 (hnone i hi)
      omega
  · intro hnil i hi
    rw [hnil] at hi
    cases hi

theorem kept_eq_nil_iff (hb : d.block = some b) :
    d.kept ls removed = [] ↔ d.keptBody ls removed = [] := by
  rw [kept, hb]
  simp only
  split
  · rename_i hnil
    simp [hnil]
  · rename_i hne
    simp [hne]

theorem kept_of_ne_nil (hb : d.block = some b) (h : d.keptBody ls removed ≠ []) :
    d.kept ls removed = d.keptBody ls removed ++ [b.stop] := by
  rw [kept, hb]
  exact if_neg h

/-- The new lines: a header, the lines that stay, and what comes below. -/
theorem rebuilt_eq_kept (h : d.Placed ls.length) (s : Signature) (removed : Removed)
    (trailer : List Line) :
    d.rebuilt ls s removed trailer = (newHeader s (d.staying ls removed)).render ::
      (d.kept ls removed).filterMap (ls[·]?) ++ separate trailer (spaced ls[d.stop + 1]?) := by
  unfold rebuilt
  cases hb : d.block with
  | none =>
    have hstay : d.staying ls removed = [] := by rw [staying, hb]
    rw [hstay, kept, hb]
    rfl
  | some b =>
    rw [kept, hb, closer, hb]
    simp only [List.isEmpty_iff, staying_eq_nil_iff h]
    split
    · rfl
    · rw [List.filterMap_append, staying_eq]
      congr 1

theorem pairwise_kept (d : Declaration) (ls : List Line) (removed : Removed) :
    (d.kept ls removed).Pairwise (· < ·) := by
  unfold kept
  split
  · exact .nil
  rename_i b hb
  split
  · exact .nil
  rw [List.pairwise_append]
  refine ⟨?_, List.pairwise_singleton _ _, ?_⟩
  · have hbody : b.body.Pairwise (· < ·) := by
      unfold Block.body
      rw [List.pairwise_map]
      exact List.pairwise_lt_range.imp fun hlt => by omega
    rw [keptBody, hb]
    exact hbody.sublist ((trimEnds_sublist _).trans List.filter_sublist)
  · intro i hi j hj
    obtain rfl := List.mem_singleton.1 hj
    exact (mem_keptBody hb hi).2

theorem mem_children_of_readStatements {r : LineRange} {s : Statement}
    (h : (r, s) ∈ d.readStatements ls) : r ∈ d.children := by
  obtain ⟨r', hr', heq⟩ := List.mem_filterMap.1 h
  obtain ⟨s', -, heq⟩ := Option.map_eq_some_iff.1 heq
  obtain ⟨rfl, -⟩ := Prod.mk.inj heq
  exact hr'

/-- Dropping the opener of a block changes no argument and no comment. -/
theorem Moved.newHeader {header : Signature} {trailer : List Line} {s : Statement}
    (h : Moved header trailer s) (body : List Line) :
    Moved (Declaration.newHeader header body) trailer s := by
  unfold Declaration.newHeader
  split
  · exact ⟨h.value.congr rfl rfl rfl, h.comments⟩
  · exact h

/-! ## What is lost -/

/-- Every line of the block below the header that is not blank stays, or it belongs to a statement
that was taken out, or it closes the block and holds nothing but `end`. -/
def LosesNothing (d : Declaration) (b : Block) (ls : List Line) (removed : Removed)
    (kept : List Nat) : Prop :=
  ∀ i line, d.headerEnd < i → i ≤ b.stop → ls[i]? = some line → Text.isBlank line = false →
    i ∈ kept ∨ (∃ r ∈ removed, r.contains i = true) ∨ i = b.stop ∧ IsBareEnd line

/-- The line that closes a block is not blank. -/
theorem isBlank_closer {keyword : String} (hd : .declaration d ∈ scan ls keyword)
    (hb : d.block = some b) (hlt : b.start < b.stop) {line : Line} (hline : ls[b.stop]? = some line) :
    Text.isBlank line = false := by
  have hlocate := (genuine_of_mem_scan hd).2 d rfl
  obtain ⟨shape, hshape, hmem⟩ :=
    Outline.mem_closes_of_matchBlock (matchBlock_of_locate hlocate hb) hlt
  rw [Outline.ofLines, List.getElem?_map, hline] at hshape
  obtain rfl := Option.some.inj hshape
  rw [Bool.eq_false_iff]
  intro hblank
  have hnone : (LineShape.ofLine line).events = [] := by
    rw [LineShape.ofLine, tokenizeCode_of_isBlank hblank]
    rfl
  rw [hnone] at hmem
  cases hmem

/-- A block loses nothing exactly if it stays, or its closing line holds nothing but `end`. -/
theorem losesNothing_iff {keyword : String} (hd : .declaration d ∈ scan ls keyword)
    (hb : d.block = some b) (hremoved : ∀ r ∈ removed, r ∈ d.children) :
    d.LosesNothing b ls removed (d.kept ls removed) ↔
      (d.kept ls removed = [] → b.start < b.stop →
        ∀ line ∈ ls[b.stop]?, IsBareEnd line) := by
  have hplaced := placed_of_mem_scan hd
  have hstart := (hplaced.block b hb).1
  constructor
  · intro h hnil hlt line hline
    rcases h b.stop line (hstart ▸ hlt) (Nat.le_refl _) hline (isBlank_closer hd hb hlt hline) with
      hkept | ⟨r, hr, hcontains⟩ | ⟨-, hbare⟩
    · rw [hnil] at hkept
      cases hkept
    · have hbounds := hplaced.child_bounds (hremoved r hr)
      have hstop : d.stop = b.stop := by rw [stop, hb]
      have hin := LineRange.contains_iff.1 hcontains
      omega
    · exact hbare
  · intro h i line hfirst hlast hline hblank
    by_cases hcovers : removed.covers i = true
    · exact Or.inr (Or.inl (List.any_eq_true.1 hcovers))
    have hcovers : removed.covers i = false := Bool.eq_false_iff.2 hcovers
    rcases Nat.lt_or_eq_of_le hlast with hlt | rfl
    · have hmem := mem_keptBody_of_not_covers hb ⟨hstart ▸ hfirst, hlt⟩ hline hblank hcovers
      have hne : d.keptBody ls removed ≠ [] := List.ne_nil_of_mem hmem
      rw [kept_of_ne_nil hb hne]
      exact Or.inl (List.mem_append_left _ hmem)
    · by_cases hnil : d.kept ls removed = []
      · exact Or.inr (Or.inr ⟨rfl, h hnil (hstart ▸ hfirst) line hline⟩)
      · have hne : d.keptBody ls removed ≠ [] := fun hbody => hnil ((kept_eq_nil_iff hb).2 hbody)
        rw [kept_of_ne_nil hb hne]
        exact Or.inl (List.mem_append_right _ List.mem_cons_self)

end

/-- **When a rewritten block loses nothing.** If the declarations that are found share no line, a
rewritten declaration with a block is a header, lines of its block in their order, and what comes
below; the statements that left the block have moved to the header or to the method below. No line is
lost exactly if the block stays or its closing line holds nothing but `end`. -/
theorem rewritten_lossless_iff {e : Editor} (he : e ∈ editors) (ns source : Text)
    (hapart : (declarations (Text.lines source) e.keyword).Pairwise
      fun a b => a.range.Apart b.range) :
    ∃ (plan : Plan) (skipped : List Skip),
      plan.map Prod.fst = declarations (Text.lines source) e.keyword ∧
      (∀ entry ∈ plan, e.revise entry.1 (Text.lines source) = .ok entry.2) ∧
      e.rule.apply ns source =
        .ok ⟨Text.unlines (Lines.replaceRanges (Text.lines source) (replacements plan)),
          plan.countP (alters (Text.lines source)), skipped⟩ ∧
      ∀ entry ∈ plan, ∀ new ∈ entry.2.replacement, ∀ b ∈ entry.1.block,
        ∃ (header : Signature) (removed : Removed) (kept : List Nat) (trailer : List Line)
          (below : Bool),
          new = header.render :: kept.filterMap ((Text.lines source)[·]?) ++
            separate trailer below ∧
          kept.Pairwise (· < ·) ∧
          (∀ r ∈ removed, ∃ s, (r, s) ∈ entry.1.readStatements (Text.lines source) ∧
            Moved header trailer s) ∧
          (entry.1.LosesNothing b (Text.lines source) removed kept ↔
            (kept = [] → b.start < b.stop →
              ∀ line ∈ (Text.lines source)[b.stop]?, IsBareEnd line)) := by
  obtain ⟨plan, skipped, hplan, hedit, hall⟩ := handleAll_eq e.rule (lawful_of_mem_editors he)
    (fun f hf => hf) (scan_pairwise (Text.lines source) e.keyword) hapart
  refine ⟨plan, skipped, hplan, hedit, ?_, ?_⟩
  · rw [apply_of_mem_editors he, upgradeAll, hall]
    rfl
  · intro entry hentry new hnew b hb
    have hfound := mem_of_plan hplan hentry
    have hd := placed_of_mem_scan hfound
    obtain ⟨s, removed, trailer, rfl, hmoved⟩ :=
      passesOn_of_mem_editors he hd (hedit entry hentry) hnew
    have hremoved : ∀ r ∈ removed, r ∈ entry.1.children := by
      intro r hr
      obtain ⟨st, hst, -⟩ := hmoved r hr
      exact mem_children_of_readStatements hst
    refine ⟨newHeader s (entry.1.staying (Text.lines source) removed), removed, _, trailer, _,
      rebuilt_eq_kept hd s removed trailer, pairwise_kept _ _ _, ?_,
      losesNothing_iff hfound hb hremoved⟩
    intro r hr
    obtain ⟨st, hst, hm⟩ := hmoved r hr
    exact ⟨st, hst, hm.newHeader _⟩

/-- A field of whose block only the `end` would stay, with a comment beside it. -/
def commentedEnd : Text := "field :a do\n  type types.Int\nend # keep".toList

theorem commentedEnd_apart :
    (declarations (Text.lines commentedEnd) "field").Pairwise fun a b => a.range.Apart b.range := by
  decide +kernel

theorem rewritten_lossless_commentedEnd :
    ((declarations (Text.lines commentedEnd) "field").Pairwise
      fun a b => a.range.Apart b.range) ∧
      ∃ (plan : Plan) (skipped : List Skip),
        plan.map Prod.fst = declarations (Text.lines commentedEnd) "field" ∧
        (∀ entry ∈ plan, flatten .field entry.1 (Text.lines commentedEnd) = .ok entry.2) ∧
        Rule.field.apply [] commentedEnd =
          .ok ⟨Text.unlines (Lines.replaceRanges (Text.lines commentedEnd) (replacements plan)),
            plan.countP (alters (Text.lines commentedEnd)), skipped⟩ ∧
        ∀ entry ∈ plan, ∀ new ∈ entry.2.replacement, ∀ b ∈ entry.1.block,
          ∃ (header : Signature) (removed : Removed) (kept : List Nat) (trailer : List Line)
            (below : Bool),
            new = header.render :: kept.filterMap ((Text.lines commentedEnd)[·]?) ++
              separate trailer below ∧
            kept.Pairwise (· < ·) ∧
            (∀ r ∈ removed, ∃ s, (r, s) ∈ entry.1.readStatements (Text.lines commentedEnd) ∧
              Moved header trailer s) ∧
            (entry.1.LosesNothing b (Text.lines commentedEnd) removed kept ↔
              (kept = [] → b.start < b.stop →
                ∀ line ∈ (Text.lines commentedEnd)[b.stop]?, IsBareEnd line)) :=
  ⟨commentedEnd_apart,
    rewritten_lossless_iff (e := ⟨.field, "field", flatten .field⟩) List.mem_cons_self []
      commentedEnd commentedEnd_apart⟩

/-- The comment beside the `end` goes with it, though it is in no statement. -/
theorem rewritten_loses_comment :
    ((declarations (Text.lines commentedEnd) "field").Pairwise
      fun a b => a.range.Apart b.range) ∧
      ∃ d ∈ declarations (Text.lines commentedEnd) "field", ∃ b ∈ d.block, ∃ new skipped line,
        flatten .field d (Text.lines commentedEnd) = .ok ⟨some new, skipped⟩ ∧
        d.headerEnd < b.stop ∧ (Text.lines commentedEnd)[b.stop]? = some line ∧
        Text.isBlank line = false ∧ line ∉ new ∧
        (∀ r ∈ d.children, r.contains b.stop = false) ∧ ¬ IsBareEnd line := by
  have hlost : (declarations (Text.lines commentedEnd) "field").any (fun d =>
      d.block.any fun b => (flatten .field d (Text.lines commentedEnd)).toOption.any fun edit =>
        edit.replacement.any fun new => (Text.lines commentedEnd)[b.stop]?.any fun line =>
          d.headerEnd < b.stop ∧ Text.isBlank line = false ∧ line ∉ new ∧
            (∀ r ∈ d.children, r.contains b.stop = false) ∧ (tokenize line).length = 2) = true := by
    decide +kernel
  refine ⟨commentedEnd_apart, ?_⟩
  obtain ⟨d, hd, h⟩ := List.any_eq_true.1 hlost
  obtain ⟨b, hb, h⟩ := (Option.any_eq_true _ _).1 h
  obtain ⟨⟨replacement, skipped⟩, hflat, h⟩ := (Option.any_eq_true _ _).1 h
  obtain ⟨new, hnew, hlines⟩ := (Option.any_eq_true _ _).1 h
  obtain rfl : replacement = some new := hnew
  obtain ⟨line, hline, hline'⟩ := (Option.any_eq_true _ _).1 hlines
  obtain ⟨hlt, hblank, hgone, hapart, htwo⟩ := of_decide_eq_true hline'
  refine ⟨d, hd, b, hb, new, skipped, line, toOption_eq_some_iff.1 hflat, hlt, hline, hblank, hgone,
    hapart, ?_⟩
  rintro ⟨t, ht, -⟩
  rw [ht] at htwo
  cases htwo

end Declaration

end SchemaLift
