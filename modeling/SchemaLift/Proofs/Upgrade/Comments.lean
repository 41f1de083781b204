import SchemaLift.Proofs.Declaration.Comments
import SchemaLift.Proofs.Declaration.Rewrite
import SchemaLift.Proofs.Definition.Comments

/-!
# The comments of a text under a rule

Nine rules exchange ranges of lines that share no line, and each exchange keeps a ledger: the new lines
and what is dropped have the remarks of the old lines and of what is copied (`Rule.even_exchanges`). So
a rule keeps every comment exactly once where as much is copied as is dropped, and only there
(`Rule.comments_once_iff`).
-/

namespace SchemaLift

/-! ## Exchanges -/

/-- What comes in place of a range of lines, with the remarks that the new lines have besides those of
the old ones, and those that go with the old lines. -/
structure Exchange where
  range : LineRange
  lines : List Line
  copied : Multiset Text
  dropped : Multiset Text

namespace Exchange

def change (x : Exchange) : Lines.Change := (x.range, x.lines)

/-- The new lines and what is dropped have the remarks of the old lines and of what is copied. -/
def Even (ls : List Line) (x : Exchange) : Prop :=
  (x.lines.map notes).sum + x.dropped = noted (Lines.extent ls x.range.first x.range.last) + x.copied

/-- The ledger of a text whose ranges are exchanged. -/
theorem notes_replaceRanges {ls : List Line} (hls : ∀ line ∈ ls, Tidy line) {xs : List Exchange}
    (hsorted : Lines.Sorted ls (xs.map change)) (heven : ∀ x ∈ xs, x.Even ls) :
    notes (Text.unlines (Lines.replaceRanges ls (xs.map change))) + (xs.map dropped).sum =
      notes (Text.unlines ls) + (xs.map copied).sum := by
  have hlines := Lines.sum_replaceRanges notes hsorted
  have hall : ((xs.map fun x => (x.lines.map notes).sum)).sum + (xs.map dropped).sum =
      (xs.map fun x => noted (Lines.extent ls x.range.first x.range.last)).sum +
        (xs.map copied).sum := by
    rw [← List.sum_map_add, ← List.sum_map_add]
    exact congrArg List.sum (List.map_congr_left heven)
  simp only [List.map_map, Function.comp_def, change, Lines.oldLines,
    Declaration.sum_notes_extent hls] at hlines
  rw [notes_unlines, notes_unlines]
  -- the lines that go stand on both sides of `hlines`
  apply add_right_cancel (b := (xs.map fun x =>
    noted (Lines.extent ls x.range.first x.range.last)).sum)
  calc _ = _ := by abel
    _ = _ := congrArg (· + (xs.map dropped).sum) hlines
    _ = _ := by rw [add_assoc, hall]; abel

end Exchange

/-! ## Declarations -/

namespace Declaration

/-- What a rule exchanges in a text: the declarations that it rewrites. -/
def Editor.exchanges (e : Editor) (ls : List Line) : List Exchange :=
  (declarations ls e.keyword).filterMap fun d =>
    (d.rewrite? ls e.rule).map fun r => ⟨d.range, r.lines d ls, r.copied d ls, r.dropped d ls⟩

/-- What is asked of the declarations of a text: no line belongs to two of them, and nothing that a
statement of a block is given ends in a comment or in an open quote. -/
structure Editor.Fits (e : Editor) (ls : List Line) : Prop where
  apart : (declarations ls e.keyword).Pairwise fun a b => a.range.Apart b.range
  closed : ∀ d ∈ declarations ls e.keyword, ∀ entry ∈ d.readStatements ls, Closed entry.2.value

instance (e : Editor) (ls : List Line) : Decidable (e.Fits ls) :=
  decidable_of_iff
    (((declarations ls e.keyword).Pairwise fun a b => a.range.Apart b.range) ∧
      ∀ d ∈ declarations ls e.keyword, ∀ entry ∈ d.readStatements ls, Closed entry.2.value)
    ⟨fun h => ⟨h.1, h.2⟩, fun h => ⟨h.apart, h.closed⟩⟩

namespace Editor

variable {e : Editor} {ls : List Line}

theorem mem_exchanges {x : Exchange} : x ∈ e.exchanges ls ↔ ∃ d ∈ declarations ls e.keyword,
    ∃ r, d.rewrite? ls e.rule = some r ∧
      ⟨d.range, r.lines d ls, r.copied d ls, r.dropped d ls⟩ = x := by
  simp only [exchanges, List.mem_filterMap, Option.map_eq_some_iff]

theorem map_change_exchanges (e : Editor) (ls : List Line) :
    (e.exchanges ls).map Exchange.change = e.rewrites ls := by
  unfold exchanges rewrites
  rw [List.map_filterMap]
  refine List.filterMap_congr fun d _ => ?_
  rw [Option.map_map]
  rfl

theorem even_exchanges (hls : ∀ line ∈ ls, '\n' ∉ line ∧ QuotesInTokens line) (hfits : e.Fits ls) :
    ∀ x ∈ e.exchanges ls, x.Even ls := by
  have htidy : ∀ line ∈ ls, Tidy line := fun line hline =>
    .of_line (hls line hline).2 (hls line hline).1
  intro x hx
  obtain ⟨d, hd, r, hr, rfl⟩ := mem_exchanges.1 hx
  have hfound := mem_declarations.1 hd
  have hlocate := (genuine_of_mem_scan hfound).2 d rfl
  have hledger := notes_rewrite hls (placed_of_mem_scan hfound) (locate_cases hlocate).2.1
    (children_pairwise_of_locate hlocate) (hfits.closed d hd) hr
  rw [Exchange.Even, ← sum_notes_extent htidy]
  exact hledger

end Editor

end Declaration

/-! ## Lists and hooks -/

namespace TypeList

/-- What a rule exchanges in a text: the lists of a keyword, each for new lines. -/
def exchanges (rule : Rule) (keyword : String) (wanted : TypeList → Bool)
    (newLines : TypeList → List Line) (ls : List Line) : List Exchange :=
  (lists rule keyword wanted ls).map fun l => ⟨l.range, newLines l, l.copied, l.dropped⟩

variable {rule : Rule} {keyword : String} {wanted : TypeList → Bool} {newLines : TypeList → List Line}
  {ls : List Line}

theorem map_change_exchanges : (exchanges rule keyword wanted newLines ls).map Exchange.change =
    (lists rule keyword wanted ls).map fun l => (l.range, newLines l) := by
  rw [exchanges, List.map_map]
  rfl

theorem sorted_exchanges :
    Lines.Sorted ls ((exchanges rule keyword wanted newLines ls).map Exchange.change) := by
  rw [map_change_exchanges]
  exact sorted_lists wanted newLines

theorem upgradeAll_eq_exchanges (source : Text) :
    ∃ out, upgradeAll rule keyword wanted newLines source = .ok out ∧ out.text =
      Text.unlines (Lines.replaceRanges (Text.lines source)
        ((exchanges rule keyword wanted newLines (Text.lines source)).map Exchange.change)) := by
  rw [map_change_exchanges, upgradeAll_eq_replaceRanges]
  exact ⟨_, rfl, rfl⟩

theorem even_exchanges (heven : ∀ l, wanted l = true → l.Genuine keyword ls (Outline.ofLines ls) →
      ((newLines l).map notes).sum + l.dropped =
        noted (Lines.extent ls l.range.first l.range.last) + l.copied) :
    ∀ x ∈ exchanges rule keyword wanted newLines ls, x.Even ls := by
  intro x hx
  obtain ⟨l, hl, rfl⟩ := List.mem_map.1 hx
  obtain ⟨hscan, hwanted⟩ := mem_lists.1 hl
  exact heven l hwanted (genuine_of_mem_scan hscan)

end TypeList

namespace Hook

/-- What the rule exchanges in a text: the hooks, each for its method. -/
def exchanges (ls : List Line) : List Exchange :=
  (methods ls).map fun m => ⟨m.1, m.2, copied ls m.1, dropped ls m.1⟩

variable {ls : List Line}

theorem map_change_exchanges : (exchanges ls).map Exchange.change = methods ls := by
  rw [exchanges, List.map_map]
  exact List.map_id _

theorem sorted_exchanges : Lines.Sorted ls ((exchanges ls).map Exchange.change) := by
  rw [map_change_exchanges]
  exact sorted_methods

theorem upgradeAll_eq_exchanges (source : Text) : ∃ out, upgradeAll source = .ok out ∧ out.text =
    Text.unlines (Lines.replaceRanges (Text.lines source)
      ((exchanges (Text.lines source)).map Exchange.change)) := by
  rw [map_change_exchanges, upgradeAll_eq_replaceRanges]
  exact ⟨_, rfl, rfl⟩

theorem even_exchanges : ∀ x ∈ exchanges ls, x.Even ls := by
  intro x hx
  obtain ⟨⟨range, new⟩, hm, rfl⟩ := List.mem_map.1 hx
  exact (genuine_of_mem_scan (mem_methods.1 hm)).notes_method

end Hook

/-! ## Rules -/

namespace Rule

/-- The rules that exchange lines: those that edit declarations, and those for lists and hooks. -/
def exchanging : List Rule :=
  Declaration.editors.map Declaration.Editor.rule ++ [implements, possibleTypes, classProc]

/-- What a rule exchanges in a text. -/
def exchanges (rule : Rule) (ls : List Line) : List Exchange :=
  match rule with
  | implements =>
    TypeList.exchanges .implements "interfaces" (fun _ => true) TypeList.implementsLines ls
  | possibleTypes =>
    TypeList.exchanges .possibleTypes "possible_types" (fun l => !l.call.items.isEmpty)
      TypeList.possibleTypesLines ls
  | classProc => Hook.exchanges ls
  | rule => (Declaration.editors.filter (·.rule = rule)).flatMap (·.exchanges ls)

/-- The text with all its exchanges. -/
def exchanged (rule : Rule) (source : Text) : Text :=
  Text.unlines (Lines.replaceRanges (Text.lines source)
    ((rule.exchanges (Text.lines source)).map Exchange.change))

/-- The remarks that the new lines have besides those of the old ones. -/
def copied (rule : Rule) (source : Text) : Multiset Text :=
  ((rule.exchanges (Text.lines source)).map Exchange.copied).sum

/-- The remarks that go with the old lines. -/
def dropped (rule : Rule) (source : Text) : Multiset Text :=
  ((rule.exchanges (Text.lines source)).map Exchange.dropped).sum

/-- What is asked of a text: every quote is closed on its line, and the declarations that the rule edits
are fit for it. -/
structure Fits (rule : Rule) (ls : List Line) : Prop where
  quotes : ∀ line ∈ ls, QuotesInTokens line
  declarations : ∀ e ∈ Declaration.editors, e.rule = rule → e.Fits ls

instance (rule : Rule) (ls : List Line) : Decidable (rule.Fits ls) :=
  decidable_of_iff
    ((∀ line ∈ ls, QuotesInTokens line) ∧ ∀ e ∈ Declaration.editors, e.rule = rule → e.Fits ls)
    ⟨fun h => ⟨h.1, h.2⟩, fun h => ⟨h.quotes, h.declarations⟩⟩

theorem exchanges_of_mem_editors {e : Declaration.Editor} (h : e ∈ Declaration.editors)
    (ls : List Line) : e.rule.exchanges ls = e.exchanges ls := by
  rcases Declaration.editors_cases h with ⟨_ | _ | _ | _, rfl⟩ | rfl | rfl <;> exact List.append_nil _

section

variable {rule : Rule} {source : Text}

/-- Such a rule replaces the ranges that it exchanges, and they share no line. -/
theorem apply_eq_exchanges (hrule : rule ∈ exchanging) (hfits : rule.Fits (Text.lines source))
    (ns : Text) : Lines.Sorted (Text.lines source)
        ((rule.exchanges (Text.lines source)).map Exchange.change) ∧
      ∃ out, rule.apply ns source = .ok out ∧ out.text = rule.exchanged source := by
  unfold exchanged
  rcases List.mem_append.1 hrule with hrule | hrule
  · obtain ⟨e, he, rfl⟩ := List.mem_map.1 hrule
    have hapart := (hfits.declarations e he rfl).apart
    obtain ⟨plan, skipped, hplan, hreplacement, happly⟩ :=
      Declaration.Editor.exists_plan he ns source hapart
    rw [exchanges_of_mem_editors he, Declaration.Editor.map_change_exchanges]
    refine ⟨Declaration.Editor.sorted_rewrites hapart, _, happly, ?_⟩
    rw [Declaration.Editor.replacements_eq hplan hreplacement]
  · simp only [List.mem_cons, List.not_mem_nil, or_false] at hrule
    rcases hrule with rfl | rfl | rfl
    · exact ⟨TypeList.sorted_exchanges, TypeList.upgradeAll_eq_exchanges source⟩
    · exact ⟨TypeList.sorted_exchanges, TypeList.upgradeAll_eq_exchanges source⟩
    · exact ⟨Hook.sorted_exchanges, Hook.upgradeAll_eq_exchanges source⟩

/-- Each of its exchanges is even. -/
theorem even_exchanges {ls : List Line} (hrule : rule ∈ exchanging)
    (hls : ∀ line ∈ ls, '\n' ∉ line) (hfits : rule.Fits ls) : ∀ x ∈ rule.exchanges ls, x.Even ls := by
  have hlines : ∀ line ∈ ls, '\n' ∉ line ∧ QuotesInTokens line := fun line hline =>
    ⟨hls line hline, hfits.quotes line hline⟩
  have htidy : ∀ line ∈ ls, Tidy line := fun line hline =>
    .of_line (hfits.quotes line hline) (hls line hline)
  rcases List.mem_append.1 hrule with hrule | hrule
  · obtain ⟨e, he, rfl⟩ := List.mem_map.1 hrule
    rw [exchanges_of_mem_editors he]
    exact Declaration.Editor.even_exchanges hlines (hfits.declarations e he rfl)
  · simp only [List.mem_cons, List.not_mem_nil, or_false] at hrule
    rcases hrule with rfl | rfl | rfl
    · exact TypeList.even_exchanges fun l _ hgenuine => hgenuine.notes_implements htidy
    · exact TypeList.even_exchanges fun l hwanted hgenuine =>
        hgenuine.notes_possibleTypes htidy (by simpa using hwanted)
    · exact Hook.even_exchanges

/-- **When every comment survives exactly once.** A rule that edits declarations, lists or hooks has the
comments of its text afterwards, each as often as before, exactly if the ranges that it exchanges have
as much copied as dropped: what stands in the arguments of a new header, in the items of a list or in the
body of a proc comes again; what stands in front of the last code of a statement that goes, beside the
end of a block that goes, or at a list without items is lost. -/
theorem comments_once_iff (rule : Rule) (ns source : Text) (hrule : rule ∈ exchanging)
    (hfits : rule.Fits (Text.lines source)) :
    ∃ out, rule.apply ns source = .ok out ∧ out.text = rule.exchanged source ∧
      notes out.text + rule.dropped source = notes source + rule.copied source ∧
      ((∀ comment, (notes out.text).count comment = (notes source).count comment) ↔
        rule.copied source = rule.dropped source) := by
  have hfeed : ∀ line ∈ Text.lines source, '\n' ∉ line := fun _ => Text.notMem_of_mem_lines
  have htidy : ∀ line ∈ Text.lines source, Tidy line := fun line hline =>
    .of_line (hfits.quotes line hline) (hfeed line hline)
  obtain ⟨hsorted, out, happly, htext⟩ := apply_eq_exchanges hrule hfits ns
  have hledger : notes out.text + rule.dropped source = notes source + rule.copied source := by
    have hall := Exchange.notes_replaceRanges htidy hsorted (even_exchanges hrule hfeed hfits)
    rwa [Text.unlines_lines, ← exchanged, ← htext] at hall
  refine ⟨out, happly, htext, hledger, ?_⟩
  rw [← Multiset.ext]
  constructor
  · intro hsame
    rw [hsame] at hledger
    exact (add_left_cancel hledger).symm
  · intro heven
    rw [heven] at hledger
    exact add_right_cancel hledger

end

/-- A field with comments at its header, behind a statement that goes, and on a line that stays. -/
def commentedField : Text :=
  "field :a do # one\n  type types.Int # two\n  # three\n  authorize :b\nend".toList

theorem comments_once_commentedField :
    Rule.field ∈ exchanging ∧ Rule.field.Fits (Text.lines commentedField) ∧
      ∃ out, Rule.field.apply [] commentedField = .ok out ∧
        out.text = Rule.field.exchanged commentedField ∧
        notes out.text + Rule.field.dropped commentedField =
          notes commentedField + Rule.field.copied commentedField ∧
        ((∀ comment, (notes out.text).count comment = (notes commentedField).count comment) ↔
          Rule.field.copied commentedField = Rule.field.dropped commentedField) := by
  have hrule : Rule.field ∈ exchanging := by decide
  have hfits : Rule.field.Fits (Text.lines commentedField) := by decide +kernel
  exact ⟨hrule, hfits, comments_once_iff .field [] commentedField hrule hfits⟩

/-- A field with a comment in its resolver. -/
def commentedResolver : Text :=
  "field :a, types.Int, resolve: ->(o, a, c) \x7b\n  o.x # c\n\x7d".toList

/-- The comment stands behind the new header and again in the method. -/
theorem comment_twice :
    Rule.field ∈ exchanging ∧ Rule.field.Fits (Text.lines commentedResolver) ∧
      ∃ out, Rule.field.apply [] commentedResolver = .ok out ∧
        out.text = "field :a, Integer, null: true # c\n\ndef a\n  object.x # c\nend".toList ∧
        ((Text.lines commentedResolver).flatMap Text.comments).count "# c".toList = 1 ∧
        ((Text.lines out.text).flatMap Text.comments).count "# c".toList = 2 := by
  have hout : Rule.field.apply [] commentedResolver =
      .ok ⟨"field :a, Integer, null: true # c\n\ndef a\n  object.x # c\nend".toList, 1, []⟩ := by
    decide +kernel
  exact ⟨by decide, by decide +kernel, _, hout, rfl, by decide +kernel, by decide +kernel⟩

end Rule

end SchemaLift
