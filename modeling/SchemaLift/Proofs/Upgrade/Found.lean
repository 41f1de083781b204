import SchemaLift.Proofs.Declaration.Found
import SchemaLift.Proofs.Definition.Found

/-!
# What a rule finds when other lines change

A rule looks for its constructs line by line, and reads each from its first line on. Lines that stand apart
from what the rule reads above them (`Rule.Overlooks`) make no difference to what it finds elsewhere. So
when ranges of a text give way to other lines, the rule finds nothing in the new text exactly if all that
it found lay in these ranges and it finds nothing in the new lines alone (`Rule.finds_replaceRanges`).
-/

namespace SchemaLift

open Outline Walk

namespace Rule

/-- The editor of declarations that the rule is, if it is one. -/
def editor? (q : Rule) : Option Declaration.Editor := Declaration.editors.find? (·.rule = q)

/-- The lines on which a text has something for a rule to change: a declaration that is rewritten, a
statement that is replaced, a header that is upgraded, or a name statement. -/
def finds (ls : List Line) : Rule → List Nat
  | .typeDefinition => DefinitionHeader.upgraded ls
  | .name => NameStatement.names ls
  | .implements => StatementRule.interfaces.replaced ls
  | .possibleTypes => StatementRule.possibleTypes.replaced ls
  | .classProc => StatementRule.hooks.replaced ls
  | q => q.editor?.elim [] fun e => Declaration.rewritten e.keyword e.rule ls

theorem finds_editor {e : Declaration.Editor} (he : e ∈ Declaration.editors) (ls : List Line) :
    e.rule.finds ls = Declaration.rewritten e.keyword e.rule ls := by
  rcases Declaration.editors_cases he with ⟨_ | _ | _ | _, rfl⟩ | rfl | rfl <;> rfl

theorem finds_statement (w : StatementRule) (ls : List Line) : w.rule.finds ls = w.replaced ls := by
  cases w <;> rfl

/-- A rule edits declarations, replaces statements, or is one of two others. -/
theorem kinds (q : Rule) : (∃ e ∈ Declaration.editors, e.rule = q) ∨ (∃ w : StatementRule, w.rule = q) ∨
    q = .typeDefinition ∨ q = .name := by
  rcases q.cases with h | h | h | rfl | rfl | rfl
  · exact .inl h
  · exact .inr (.inr (.inl h))
  · exact .inr (.inr (.inr h))
  · exact .inr (.inl ⟨.interfaces, rfl⟩)
  · exact .inr (.inl ⟨.possibleTypes, rfl⟩)
  · exact .inr (.inl ⟨.hooks, rfl⟩)

/-- Whether the lines hold all that the rule reads of a construct that begins on the first of them. -/
def readsWithin (ls : List Line) : Rule → Bool
  | .typeDefinition | .name => true
  | .implements => StatementRule.interfaces.endsStatement ls
  | .possibleTypes => StatementRule.possibleTypes.endsStatement ls
  | .classProc => StatementRule.hooks.endsStatement ls
  | q => q.editor?.all fun e => Declaration.endsReading e.keyword e.rule ls

/-- Lines that stand apart from what a rule reads of those above: they close what they open, what is read
above ends there, and none of their own statements settles what the rule does with a declaration above. -/
structure Overlooks (q : Rule) (above stretch : List Line) : Prop where
  finished : (ofLines above).Finished
  closed : (ofLines stretch).Closed
  within : ∀ i < above.length, q.readsWithin (above.drop i) = true
  unread : above ≠ [] → ∀ i ∈ stops statementReach 0 0 stretch,
    (stretch.drop i).head?.any (beginsWith (Declaration.settlingWords q)) = false

instance (q : Rule) (above stretch : List Line) : Decidable (q.Overlooks above stretch) :=
  decidable_of_iff ((ofLines above).Finished ∧ (ofLines stretch).Closed ∧
      (∀ i < above.length, q.readsWithin (above.drop i) = true) ∧
      (above ≠ [] → ∀ i ∈ stops statementReach 0 0 stretch,
        (stretch.drop i).head?.any (beginsWith (Declaration.settlingWords q)) = false))
    ⟨fun ⟨finished, closed, within, unread⟩ => ⟨finished, closed, within, unread⟩,
      fun h => ⟨h.finished, h.closed, h.within, h.unread⟩⟩

theorem readsWithin_editor {e : Declaration.Editor} (he : e ∈ Declaration.editors) (ls : List Line) :
    e.rule.readsWithin ls = Declaration.endsReading e.keyword e.rule ls := by
  rcases Declaration.editors_cases he with ⟨_ | _ | _ | _, rfl⟩ | rfl | rfl <;> rfl

theorem readsWithin_statement (w : StatementRule) (ls : List Line) :
    w.rule.readsWithin ls = w.endsStatement ls := by
  cases w <;> rfl

/-! ## One stretch of lines -/

section

variable {q : Rule} {above stretch : List Line}

theorem lt_of_mem_finds {ls : List Line} {i : Nat} (h : i ∈ q.finds ls) : i < ls.length := by
  have hstops : ∀ {reach : List Line → Nat} {p : Nat → Bool},
      i ∈ (stops reach 0 0 ls).filter p → i < ls.length := by
    intro reach p hi
    have hlt := (mem_stops_bounds (List.mem_of_mem_filter hi)).2
    rwa [Nat.zero_add] at hlt
  rcases q.kinds with ⟨e, he, rfl⟩ | ⟨w, rfl⟩ | rfl | rfl
  · rw [finds_editor he, Declaration.rewritten_eq] at h
    exact hstops h
  · rw [finds_statement, StatementRule.replaced_eq] at h
    exact hstops h
  · exact List.mem_range.1 (List.mem_of_mem_filter h)
  · obtain ⟨index, h⟩ := NameStatement.mem_names.1 h
    exact (NameStatement.bounds_of_mem_classNames h).2

theorem within_suffix (h : q.Overlooks above stretch) {t : List Line} (ht : t <:+ above) (hne : t ≠ []) :
    q.readsWithin t = true := by
  obtain ⟨front, rfl⟩ := ht
  have hpos := List.length_pos_of_ne_nil hne
  have hlt : front.length < (front ++ t).length := by
    rw [List.length_append]
    omega
  have hwithin := h.within front.length hlt
  rwa [List.drop_left] at hwithin

/-- Where a rule for declarations or statements finds something, with the stretch and without it. -/
theorem spliced_finds (h : q.Overlooks above stretch)
    (hkind : (∃ e ∈ Declaration.editors, e.rule = q) ∨ ∃ w : StatementRule, w.rule = q) (below : List Line) :
    Spliced above.length stretch.length (q.finds stretch) (q.finds (above ++ below))
      (q.finds (above ++ (stretch ++ below))) := by
  rcases hkind with ⟨e, he, rfl⟩ | ⟨w, rfl⟩
  · rw [finds_editor he, finds_editor he, finds_editor he]
    refine Declaration.spliced_rewritten h.finished h.closed (fun t ht => ?_) h.unread below
    by_cases hne : t = []
    · subst hne
      rfl
    · rw [← readsWithin_editor he]
      exact within_suffix h ht hne
  · rw [finds_statement, finds_statement, finds_statement]
    refine StatementRule.spliced_replaced h.closed (fun t ht => ?_) below
    by_cases hne : t = []
    · subst hne
      rfl
    · rw [← readsWithin_statement]
      exact within_suffix h ht hne

theorem mem_finds_above (h : q.Overlooks above stretch) {i : Nat} (hi : i < above.length)
    (below : List Line) :
    i ∈ q.finds (above ++ (stretch ++ below)) ↔ i ∈ q.finds (above ++ below) := by
  rcases q.kinds with hkind | hkind | rfl | rfl
  · exact (spliced_finds h (.inl hkind) below).mem_above hi
  · exact (spliced_finds h (.inr hkind) below).mem_above hi
  · exact DefinitionHeader.upgraded_above h.closed hi below
  · exact NameStatement.names_above h.finished h.closed hi below

theorem mem_finds_below (h : q.Overlooks above stretch) (below : List Line) (i : Nat) :
    i + (above.length + stretch.length) ∈ q.finds (above ++ (stretch ++ below)) ↔
      i + above.length ∈ q.finds (above ++ below) := by
  rcases q.kinds with hkind | hkind | rfl | rfl
  · exact (spliced_finds h (.inl hkind) below).mem_below fun _ hj => lt_of_mem_finds hj
  · exact (spliced_finds h (.inr hkind) below).mem_below fun _ hj => lt_of_mem_finds hj
  · exact DefinitionHeader.upgraded_below above stretch below i
  · exact NameStatement.names_below h.finished h.closed below i

theorem mem_finds_inside (h : q.Overlooks above stretch)
    (hname : q = .name → NameStatement.bodyNames stretch = []) {i : Nat} (hi : i < stretch.length)
    (below : List Line) :
    i + above.length ∈ q.finds (above ++ (stretch ++ below)) ↔ i ∈ q.finds stretch := by
  rcases q.kinds with hkind | hkind | rfl | rfl
  · exact (spliced_finds h (.inl hkind) below).mem_inside hi
  · exact (spliced_finds h (.inr hkind) below).mem_inside hi
  · exact DefinitionHeader.upgraded_inside h.closed hi below
  · exact NameStatement.names_inside h.finished h.closed (hname rfl) hi below

end

/-! ## Ranges that are replaced -/

/-- A change that a rule overlooks: the lines that go and those that come stand apart from what the rule
reads above them, and no name statement comes that could stand directly in a class around. -/
structure Tolerates (q : Rule) (ls : List Line) (c : Lines.Change) : Prop where
  old : q.Overlooks (ls.take c.1.first) (Lines.oldLines ls c.1)
  new : q.Overlooks (ls.take c.1.first) c.2
  named : q = .name → NameStatement.bodyNames c.2 = []

instance (q : Rule) (ls : List Line) (c : Lines.Change) : Decidable (q.Tolerates ls c) :=
  decidable_of_iff (q.Overlooks (ls.take c.1.first) (Lines.oldLines ls c.1) ∧
      q.Overlooks (ls.take c.1.first) c.2 ∧ (q = .name → NameStatement.bodyNames c.2 = []))
    ⟨fun ⟨old, new, named⟩ => ⟨old, new, named⟩, fun h => ⟨h.old, h.new, h.named⟩⟩

section

variable {q : Rule} {ls : List Line}

/-- All lines above a bound, if nothing is found from some line above the bound to the end. -/
theorem exchange_lt_iff {above old new : List Line} (hold : q.Overlooks above old)
    (hnew : q.Overlooks above new) (hname : q = .name → NameStatement.bodyNames new = [])
    (below : List Line) {bound : Nat} (hbound : bound ≤ above.length) :
    (∀ i ∈ q.finds (above ++ (new ++ below)), i < bound) ↔
      (∀ i ∈ q.finds (above ++ (old ++ below)),
        i < bound ∨ (above.length ≤ i ∧ i < above.length + old.length)) ∧ q.finds new = [] := by
  have habove : ∀ i < above.length, i ∈ q.finds (above ++ (new ++ below)) ↔
      i ∈ q.finds (above ++ (old ++ below)) := fun i hi =>
    (mem_finds_above hnew hi below).trans (mem_finds_above hold hi below).symm
  have hbelow : ∀ i, i + (above.length + new.length) ∈ q.finds (above ++ (new ++ below)) ↔
      i + (above.length + old.length) ∈ q.finds (above ++ (old ++ below)) := fun i =>
    (mem_finds_below hnew below i).trans (mem_finds_below hold below i).symm
  constructor
  · intro h
    refine ⟨fun i hi => ?_, List.eq_nil_iff_forall_not_mem.2 fun i hi => ?_⟩
    · by_contra hnot
      by_cases hlt : i < above.length
      · exact hnot (.inl (h i ((habove i hlt).2 hi)))
      · obtain ⟨j, rfl⟩ : ∃ j, i = j + (above.length + old.length) :=
          ⟨i - (above.length + old.length), by omega⟩
        have := h _ ((hbelow j).2 hi)
        omega
    · have := h _ ((mem_finds_inside hnew hname (lt_of_mem_finds hi) below).2 hi)
      omega
  · rintro ⟨hrest, hnil⟩ i hi
    by_cases hlt : i < above.length
    · have := hrest i ((habove i hlt).1 hi)
      omega
    exfalso
    by_cases hin : i < above.length + new.length
    · obtain ⟨j, rfl⟩ := Nat.exists_eq_add_of_le' (Nat.le_of_not_lt hlt)
      have hmem := (mem_finds_inside hnew hname (by omega) below).1 hi
      rw [hnil] at hmem
      cases hmem
    · obtain ⟨j, rfl⟩ : ∃ j, i = j + (above.length + new.length) :=
        ⟨i - (above.length + new.length), by omega⟩
      have := hrest _ ((hbelow j).1 hi)
      omega

theorem finds_replaceRanges_below {changes : List Lines.Change} (hsorted : Lines.Sorted ls changes)
    (h : ∀ c ∈ changes, q.Tolerates ls c) {bound : Nat} (hbound : ∀ c ∈ changes, bound ≤ c.1.first) :
    (∀ i < bound, i ∈ q.finds (Lines.replaceRanges ls changes) ↔ i ∈ q.finds ls) ∧
      ((∀ i ∈ q.finds (Lines.replaceRanges ls changes), i < bound) ↔
        (∀ i ∈ q.finds ls, i < bound ∨ ∃ c ∈ changes, c.1.contains i = true) ∧
          ∀ c ∈ changes, q.finds c.2 = []) := by
  induction changes generalizing bound with
  | nil =>
    rw [Lines.replaceRanges_nil]
    simp
  | cons c changes ih =>
    obtain ⟨hle, hlt, hrest⟩ := hsorted.head
    obtain ⟨hold, hnew, hname⟩ := h c List.mem_cons_self
    have hrest : ∀ d ∈ changes, c.1.last + 1 ≤ d.1.first := hrest
    obtain ⟨hsame, hih⟩ := ih hsorted.tail (fun d hd => h d (List.mem_cons_of_mem c hd)) hrest
    have hfirst := hbound c List.mem_cons_self
    -- the changes below leave the lines through the range as they are
    obtain ⟨below, hcur, hout⟩ := hsorted.exists_below
    have hlength : (ls.take c.1.first).length = c.1.first := List.length_take_of_le (by omega)
    have hcount := Lines.length_oldLines hle hlt
    have hbelow : bound ≤ (ls.take c.1.first).length := by omega
    have hexchange := exchange_lt_iff hold hnew hname below hbelow
    rw [← hcur, ← hout, hlength, hcount, Nat.add_sub_cancel' (by omega)] at hexchange
    have habove : ∀ i < c.1.first, i ∈ q.finds (Lines.replaceRanges ls (c :: changes)) ↔
        i ∈ q.finds (Lines.replaceRanges ls changes) := by
      intro i hi
      rw [hcur, hout, mem_finds_above hnew (by omega), mem_finds_above hold (by omega)]
    refine ⟨fun i hi => (habove i (by omega)).trans (hsame i (by omega)), ?_⟩
    rw [hexchange]
    constructor
    · rintro ⟨hfound, hnil⟩
      obtain ⟨hcovered, hnils⟩ := hih.1 fun i hi => by
        have := hfound i hi
        omega
      refine ⟨fun i hi => ?_, fun d hd => ?_⟩
      · rcases hcovered i hi with hlow | ⟨d, hd, hin⟩
        · rcases hfound i ((hsame i hlow).2 hi) with hlow | ⟨hfrom, hto⟩
          · exact .inl hlow
          · exact .inr ⟨c, List.mem_cons_self, LineRange.contains_iff.2 ⟨hfrom, by omega⟩⟩
        · exact .inr ⟨d, List.mem_cons_of_mem c hd, hin⟩
      · rcases List.mem_cons.1 hd with rfl | hd
        · exact hnil
        · exact hnils d hd
    · rintro ⟨hcovered, hnils⟩
      have hcases : ∀ i ∈ q.finds ls, i < c.1.last + 1 →
          i < bound ∨ (c.1.first ≤ i ∧ i < c.1.last + 1) := by
        intro i hi hlow
        rcases hcovered i hi with h | ⟨d, hd, hin⟩
        · exact .inl h
        · obtain ⟨hfrom, hto⟩ := LineRange.contains_iff.1 hin
          rcases List.mem_cons.1 hd with rfl | hd
          · exact .inr ⟨hfrom, hlow⟩
          · have := hrest d hd
            omega
      have hlow := hih.2 ⟨fun i hi => ?_, fun d hd => hnils d (List.mem_cons_of_mem c hd)⟩
      · exact ⟨fun i hi => hcases i ((hsame i (hlow i hi)).1 hi) (hlow i hi), hnils c List.mem_cons_self⟩
      · rcases hcovered i hi with h | ⟨d, hd, hin⟩
        · exact .inl (by omega)
        · rcases List.mem_cons.1 hd with rfl | hd
          · exact .inl (Nat.lt_succ_of_le (LineRange.contains_iff.1 hin).2)
          · exact .inr ⟨d, hd, hin⟩

/-- **A rule in a changed text.** -/
theorem finds_replaceRanges {changes : List Lines.Change} (hsorted : Lines.Sorted ls changes)
    (h : ∀ c ∈ changes, q.Tolerates ls c) :
    q.finds (Lines.replaceRanges ls changes) = [] ↔
      (∀ i ∈ q.finds ls, ∃ c ∈ changes, c.1.contains i = true) ∧ ∀ c ∈ changes, q.finds c.2 = [] := by
  have hlow : ∀ c ∈ changes, 0 ≤ c.1.first := fun _ _ => Nat.zero_le _
  have hall := (finds_replaceRanges_below hsorted h hlow).2
  simpa [List.eq_nil_iff_forall_not_mem] using hall

end

end Rule

end SchemaLift
