import SchemaLift.Proofs.Definition.NameLine
import SchemaLift.Proofs.Upgrade.Found

/-!
# What a rule finds on parts of a text

A rule goes through a text from top to bottom and looks at what begins on a line (`Rule.finds_eq_nil_iff`).
So closed lines and those below them hold nothing for it exactly if neither do on their own
(`Rule.finds_append_eq_nil_iff`), and what it finds on closed lines inside a text it finds in the text
(`Rule.stops_inside`). Where it finds nothing, it still does when closed lines are taken out
(`Rule.finds_removed`). Which lines a rule looks at is told by their first word, or by a header or a class on
them (`Rule.looksAt_of_word`).
-/

namespace SchemaLift

open Outline Walk

namespace Rule

/-- The number of lines that a rule takes behind the first one. -/
def reach (ls : List Line) : Rule → Nat
  | .typeDefinition | .name => 0
  | .implements => StatementRule.interfaces.reach ls
  | .possibleTypes => StatementRule.possibleTypes.reach ls
  | .classProc => StatementRule.hooks.reach ls
  | q => q.editor?.elim 0 fun e => Declaration.callReach e.keyword ls

/-- Whether a rule has something to change in what begins on the first line. -/
def findsFirst (ls : List Line) : Rule → Bool
  | .typeDefinition => DefinitionHeader.upgradesAt ls 0
  | .name => !(NameStatement.classNames ls 0).isEmpty
  | .implements => StatementRule.interfaces.replacesFirst ls
  | .possibleTypes => StatementRule.possibleTypes.replacesFirst ls
  | .classProc => StatementRule.hooks.replacesFirst ls
  | q => q.editor?.any fun e => Declaration.rewritesFirst e.keyword e.rule ls

/-- Whether a rule looks at what begins on a line. -/
def looksAt (line : Line) : Rule → Bool
  | .typeDefinition => DefinitionHeader.opens line
  | .name => NameStatement.opensClass line
  | .implements => StatementRule.interfaces.starts line
  | .possibleTypes => StatementRule.possibleTypes.starts line
  | .classProc => StatementRule.hooks.starts line
  | q => q.editor?.any fun e => Declaration.startsOn e.keyword line

section

variable {e : Declaration.Editor} (he : e ∈ Declaration.editors)
include he

theorem reach_editor (ls : List Line) : e.rule.reach ls = Declaration.callReach e.keyword ls := by
  rcases Declaration.editors_cases he with ⟨_ | _ | _ | _, rfl⟩ | rfl | rfl <;> rfl

theorem findsFirst_editor (ls : List Line) :
    e.rule.findsFirst ls = Declaration.rewritesFirst e.keyword e.rule ls := by
  rcases Declaration.editors_cases he with ⟨_ | _ | _ | _, rfl⟩ | rfl | rfl <;> rfl

theorem looksAt_editor (line : Line) : e.rule.looksAt line = Declaration.startsOn e.keyword line := by
  rcases Declaration.editors_cases he with ⟨_ | _ | _ | _, rfl⟩ | rfl | rfl <;> rfl

end

theorem reach_statement (w : StatementRule) (ls : List Line) : w.rule.reach ls = w.reach ls := by
  cases w <;> rfl

theorem findsFirst_statement (w : StatementRule) (ls : List Line) :
    w.rule.findsFirst ls = w.replacesFirst ls := by
  cases w <;> rfl

theorem looksAt_statement (w : StatementRule) (line : Line) : w.rule.looksAt line = w.starts line := by
  cases w <;> rfl

/-! ## Going through a text -/

/-- What a rule for declarations finds is what it comes by and has something to change in. -/
theorem mem_finds_editor {e : Declaration.Editor} (he : e ∈ Declaration.editors) {ls : List Line} {i : Nat} :
    i ∈ e.rule.finds ls ↔
      i ∈ stops (e.rule.reach ·) 0 0 ls ∧ e.rule.findsFirst (ls.drop i) = true := by
  simp only [finds_editor he, Declaration.rewritten_eq, List.mem_filter, Declaration.rewritesAt_eq,
    reach_editor he, findsFirst_editor he]

/-- A rule finds nothing exactly if nothing that it comes by is for it to change. -/
theorem finds_eq_nil_iff {q : Rule} {ls : List Line} : q.finds ls = [] ↔
    ∀ i ∈ stops (q.reach ·) 0 0 ls, q.findsFirst (ls.drop i) = false := by
  rcases q.kinds with ⟨e, he, rfl⟩ | ⟨w, rfl⟩ | rfl | rfl
  · simp only [List.eq_nil_iff_forall_not_mem, mem_finds_editor he, not_and, Bool.not_eq_true]
  · simp only [finds_statement, StatementRule.replaced_eq, List.filter_eq_nil_iff, reach_statement,
      findsFirst_statement, Bool.not_eq_true]
  · have hstops : stops (reach · .typeDefinition) 0 0 ls = List.range ls.length :=
      (stops_eq_range' (fun _ => rfl) 0 ls).trans List.range_eq_range'.symm
    show DefinitionHeader.upgraded ls = [] ↔ _
    rw [hstops, DefinitionHeader.upgraded, List.filter_eq_nil_iff]
    simp only [DefinitionHeader.upgradesAt_drop ls, Bool.not_eq_true]
    rfl
  · have hstops : stops (reach · .name) 0 0 ls = List.range ls.length :=
      (stops_eq_range' (fun _ => rfl) 0 ls).trans List.range_eq_range'.symm
    show NameStatement.names ls = [] ↔ _
    rw [hstops, NameStatement.names, List.flatMap_eq_nil_iff]
    refine forall₂_congr fun i _ => ?_
    rw [NameStatement.classNames_drop, List.map_eq_nil_iff, ← List.isEmpty_iff, ← Bool.not_eq_false',
      Bool.not_eq_false']
    show _ ↔ (!(NameStatement.classNames (ls.drop i) 0).isEmpty) = false
    rw [Bool.not_eq_false']

theorem reach_lt {q : Rule} {t : List Line} (hne : t ≠ []) : q.reach t < t.length := by
  rcases q.kinds with ⟨e, he, rfl⟩ | ⟨w, rfl⟩ | rfl | rfl
  · rw [reach_editor he]
    exact Declaration.callReach_lt hne
  · rw [reach_statement]
    exact StatementRule.reach_lt hne
  · exact List.length_pos_of_ne_nil hne
  · exact List.length_pos_of_ne_nil hne

/-- What a rule looks at on some lines, it reads there. -/
theorem reach_append_lt {q : Rule} {t : List Line} (hne : t ≠ []) (h : q.readsWithin t = true)
    (rest : List Line) : q.reach (t ++ rest) < t.length := by
  rcases q.kinds with ⟨e, he, rfl⟩ | ⟨w, rfl⟩ | rfl | rfl
  · rw [readsWithin_editor he] at h
    rw [reach_editor he]
    exact Declaration.callReach_lt_of_endsReading h hne rest
  · rw [readsWithin_statement] at h
    rw [reach_statement, (StatementRule.reach_append_of_endsStatement hne h rest).1]
    exact StatementRule.reach_lt hne
  · exact List.length_pos_of_ne_nil hne
  · exact List.length_pos_of_ne_nil hne

/-- What begins on closed lines is read there. -/
theorem reach_inside {q : Rule} {stretch : List Line} (hstretch : (ofLines stretch).Closed)
    (below : List Line) {t : List Line} (ht : t <:+ stretch) (hne : t ≠ []) :
    q.reach (t ++ below) = q.reach t ∧ q.findsFirst (t ++ below) = q.findsFirst t := by
  rcases q.kinds with ⟨e, he, rfl⟩ | ⟨w, rfl⟩ | rfl | rfl
  · simp only [reach_editor he, findsFirst_editor he]
    exact Declaration.rewritesFirst_inside hstretch below ht hne
  · simp only [reach_statement, findsFirst_statement]
    exact StatementRule.reach_inside hstretch below ht hne
  · exact ⟨rfl, DefinitionHeader.upgradesAt_append hstretch below ht hne⟩
  · refine ⟨rfl, ?_⟩
    show (!(NameStatement.classNames (t ++ below) 0).isEmpty) = _
    rw [NameStatement.classNames_append hstretch below ht hne]
    rfl

theorem not_looksAt {q : Rule} {line : Line} (h : q.looksAt line = false) (rest : List Line) :
    q.reach (line :: rest) = 0 ∧ q.findsFirst (line :: rest) = false := by
  rcases q.kinds with ⟨e, he, rfl⟩ | ⟨w, rfl⟩ | rfl | rfl
  · rw [looksAt_editor he] at h
    rw [reach_editor he, findsFirst_editor he, Declaration.callReach, Declaration.rewritesFirst,
      List.head?_cons, Option.any_some, h]
    exact ⟨rfl, rfl⟩
  · rw [looksAt_statement] at h
    rw [reach_statement, findsFirst_statement, StatementRule.reach, StatementRule.replacesFirst,
      List.head?_cons, Option.any_some, h]
    exact ⟨rfl, rfl⟩
  · refine ⟨rfl, ?_⟩
    show DefinitionHeader.upgradesAt (line :: rest) 0 = false
    have hopens : DefinitionHeader.opens line = false := h
    rw [DefinitionHeader.upgradesAt, List.drop_zero, List.head?_cons, Option.any_some, hopens, Bool.false_and]
  · refine ⟨rfl, ?_⟩
    show (!(NameStatement.classNames (line :: rest) 0).isEmpty) = false
    have hopens : NameStatement.opensClass line = false := h
    rw [NameStatement.classNames, List.drop_zero, List.head?_cons, Option.any_some, hopens]
    rfl

/-! ## Lines that no rule looks at -/

/-- The words with which the lines begin at which a rule looks, the headers of definitions apart. -/
def words : Rule → List String
  | .typeDefinition | .name => []
  | .implements => ["interfaces"]
  | .possibleTypes => ["possible_types"]
  | .classProc => Hook.names
  | q => q.editor?.toList.map Declaration.Editor.keyword

/-- No rule looks at a line that begins with none of its words and is no header. -/
theorem looksAt_eq_false {q : Rule} {line : Line}
    (hwords : ∀ word ∈ q.words, (tokenizeCode line).head?.any (·.isWord word) = false)
    (hheader : DefinitionHeader.parse? line = none) (hclass : ClassHeader.parse? line = none) :
    q.looksAt line = false := by
  cases q with
  | typeDefinition => exact congrArg (Option.any _) hheader
  | name => exact congrArg (Option.any _) hclass
  | implements => exact hwords "interfaces" List.mem_cons_self
  | possibleTypes => exact hwords "possible_types" List.mem_cons_self
  | classProc => exact Option.isSome_eq_false_iff.2 (Option.isNone_iff_eq_none.2 (Hook.on?_eq_none hwords))
  | field => exact Declaration.startsOn_eq_false (hwords "field" List.mem_cons_self)
  | argument => exact Declaration.startsOn_eq_false (hwords "argument" List.mem_cons_self)
  | inputField => exact Declaration.startsOn_eq_false (hwords "input_field" List.mem_cons_self)
  | connection => exact Declaration.startsOn_eq_false (hwords "connection" List.mem_cons_self)
  | propertyToMethod => exact Declaration.startsOn_eq_false (hwords "field" List.mem_cons_self)
  | resolveProc => exact Declaration.startsOn_eq_false (hwords "field" List.mem_cons_self)

/-- No rule looks at a blank line. -/
theorem looksAt_of_isBlank (q : Rule) {line : Line} (h : Text.isBlank line = true) :
    q.looksAt line = false := by
  have hblank : ∀ c ∈ line, Text.isBlankChar c = true := List.all_eq_true.1 h
  have hheader : DefinitionHeader.parse? (line ++ []) = none :=
    DefinitionHeader.parse?_of_blank_append hblank fun c hc => by cases hc
  have hclass : ClassHeader.parse? (line ++ []) = none :=
    ClassHeader.parse?_of_blank_append hblank fun c hc => by cases hc
  rw [List.append_nil] at hheader hclass
  refine looksAt_eq_false (fun word _ => ?_) hheader hclass
  rw [tokenizeCode_of_isBlank h]
  rfl

/-- A word in lower case that is not the `class` of a header. -/
structure Plain (word : Text) : Prop where
  identifier : Scan.Identifier word
  head : word.head? ≠ some 'c'

/-- No rule looks at a line that begins with a word that is none of its own. -/
theorem looksAt_of_word {q : Rule} {indent word rest : Text}
    (hindent : ∀ c ∈ indent, Text.isBlankChar c = true) (hword : Plain word) (hrest : Scan.Delimits rest)
    (hq : ∀ w ∈ q.words, w.toList ≠ word) : q.looksAt (indent ++ (word ++ rest)) = false := by
  obtain ⟨c, cs, rfl, hc⟩ := hword.identifier.exists_cons
  have hblank : Text.isBlankChar c = false :=
    Scan.isBlankChar_of_isWordChar (Scan.isWordChar_of_isWordStart hc)
  refine looksAt_eq_false (fun w hw => ?_) ?_ ?_
  · rw [tokenizeCode_blank_append hindent, tokenizeCode_identifier_append hword.identifier hrest,
      Token.addGap_cons, List.head?_cons, Option.any_some, Token.isWord, Bool.and_eq_false_iff]
    exact .inr (beq_eq_false_iff_ne.2 (hq w hw).symm)
  · refine DefinitionHeader.parse?_of_blank_append hindent fun d hd => ?_
    obtain rfl := Option.some.inj hd
    exact ⟨hblank, hword.identifier.isUpper_eq⟩
  · refine ClassHeader.parse?_of_blank_append hindent fun d hd => ?_
    obtain rfl := Option.some.inj hd
    refine ⟨hblank, ?_⟩
    rintro rfl
    exact hword.head rfl

/-! ## A text in parts -/

section

variable {q : Rule} {stretch : List Line}

theorem finds_nil (q : Rule) : q.finds [] = [] := finds_eq_nil_iff.2 fun i hi => by cases hi

/-- A line that the rule reads alone, and those below it. -/
theorem finds_cons_eq_nil_iff {line : Line} {rest : List Line} (hreach : q.reach (line :: rest) = 0) :
    q.finds (line :: rest) = [] ↔ q.findsFirst (line :: rest) = false ∧ q.finds rest = [] := by
  have hshift : stops (q.reach ·) 0 1 rest = (stops (q.reach ·) 0 0 rest).map (· + 1) :=
    stops_add 0 0 1 rest
  rw [finds_eq_nil_iff, finds_eq_nil_iff, stops, hreach, Nat.zero_add, hshift, List.forall_mem_cons,
    List.forall_mem_map]
  rfl

theorem finds_cons_of_not_looksAt {line : Line} (h : q.looksAt line = false) (rest : List Line) :
    q.finds (line :: rest) = [] ↔ q.finds rest = [] := by
  obtain ⟨hreach, hfirst⟩ := not_looksAt h rest
  rw [finds_cons_eq_nil_iff hreach, and_iff_right hfirst]

theorem finds_append_of_not_looksAt {front : List Line} (h : ∀ line ∈ front, q.looksAt line = false)
    (rest : List Line) : q.finds (front ++ rest) = [] ↔ q.finds rest = [] := by
  induction front with
  | nil => rfl
  | cons line front ih =>
    obtain ⟨hline, hfront⟩ := List.forall_mem_cons.1 h
    rw [List.cons_append, finds_cons_of_not_looksAt hline, ih hfront]

theorem finds_of_not_looksAt {ls : List Line} (h : ∀ line ∈ ls, q.looksAt line = false) :
    q.finds ls = [] := by
  rw [← List.append_nil ls]
  exact (finds_append_of_not_looksAt h []).2 (finds_nil q)

/-- Closed lines, and those below them. -/
theorem finds_append_eq_nil_iff (hstretch : (ofLines stretch).Closed) (below : List Line) :
    q.finds (stretch ++ below) = [] ↔ q.finds stretch = [] ∧ q.finds below = [] := by
  have hinside : ∀ t, t <:+ stretch → t ≠ [] →
      q.reach (t ++ below) = q.reach t ∧ q.reach t < t.length := fun t ht hne =>
    ⟨(reach_inside hstretch below ht hne).1, reach_lt hne⟩
  have hshift : stops (q.reach ·) 0 (0 + stretch.length) below =
      (stops (q.reach ·) 0 0 below).map (· + stretch.length) := stops_add 0 0 _ below
  rw [finds_eq_nil_iff, finds_eq_nil_iff, finds_eq_nil_iff, stops_append hinside (Nat.zero_le _), hshift,
    List.forall_mem_append, List.forall_mem_map]
  refine and_congr (forall₂_congr fun i hi => ?_) (forall₂_congr fun i _ => ?_)
  · have hlt := (mem_stops_bounds hi).2
    rw [Nat.zero_add] at hlt
    rw [drop_above hlt.le, (reach_inside hstretch below (List.drop_suffix i stretch) (drop_ne_nil hlt)).2]
  · rw [Nat.add_comm, List.drop_length_add_append]

/-- A rule comes by what begins on closed lines inside a text, if it reads on the lines above them what
begins there. -/
theorem stops_inside {above : List Line} (habove : ∀ i < above.length, q.readsWithin (above.drop i) = true)
    (hstretch : (ofLines stretch).Closed) (below : List Line) {i : Nat}
    (hi : i ∈ stops (q.reach ·) 0 0 stretch) :
    i + above.length ∈ stops (q.reach ·) 0 0 (above ++ (stretch ++ below)) ∧
      q.findsFirst ((above ++ (stretch ++ below)).drop (i + above.length)) =
        q.findsFirst (stretch.drop i) := by
  have hlt := (mem_stops_bounds hi).2
  rw [Nat.zero_add] at hlt
  have hinside : ∀ t, t <:+ stretch → t ≠ [] →
      q.reach (t ++ below) = q.reach t ∧ q.reach t < t.length := fun t ht hne =>
    ⟨(reach_inside hstretch below ht hne).1, reach_lt hne⟩
  have hends : ∀ t, t <:+ above → t ≠ [] → q.reach (t ++ (stretch ++ below)) < t.length := by
    rintro t ⟨front, rfl⟩ hne
    have hpos := List.length_pos_of_ne_nil hne
    have hwithin := habove front.length (by rw [List.length_append]; omega)
    rw [List.drop_left] at hwithin
    exact reach_append_lt hne hwithin _
  constructor
  · refine mem_stops_below hends (Nat.zero_le _) ?_
    rw [stops_add, List.mem_map]
    refine ⟨i, ?_, rfl⟩
    rw [stops_append hinside (Nat.zero_le _)]
    exact List.mem_append_left _ hi
  · rw [drop_inside hlt.le, (reach_inside hstretch below (List.drop_suffix i stretch) (drop_ne_nil hlt)).2]

/-- Closed lines inside a text that holds nothing for a rule hold nothing for it. -/
theorem finds_inside {above : List Line} (habove : ∀ i < above.length, q.readsWithin (above.drop i) = true)
    (hstretch : (ofLines stretch).Closed) {below : List Line}
    (h : q.finds (above ++ (stretch ++ below)) = []) : q.finds stretch = [] := by
  rw [finds_eq_nil_iff] at h ⊢
  intro i hi
  obtain ⟨hmem, hsame⟩ := stops_inside habove hstretch below hi
  rw [← hsame, h _ hmem]

/-- Taking out closed lines below closed lines leaves nothing for a rule that found nothing. -/
theorem finds_removed {ls : List Line} {changes : List Lines.Change} (hsorted : Lines.Sorted ls changes)
    (hremoved : ∀ c ∈ changes, c.2 = [] ∧ (ofLines (ls.take c.1.first)).Closed ∧
      (ofLines (Lines.oldLines ls c.1)).Closed) (h : q.finds ls = []) :
    q.finds (Lines.replaceRanges ls changes) = [] := by
  -- from the last range to the first; those below a range leave the lines through it as they are
  induction changes with
  | nil => rwa [Lines.replaceRanges_nil]
  | cons c changes ih =>
    obtain ⟨hnil, habove, hold⟩ := hremoved c List.mem_cons_self
    obtain ⟨below, hcur, hout⟩ := hsorted.exists_below
    have hrest := ih hsorted.tail fun d hd => hremoved d (List.mem_cons_of_mem c hd)
    rw [hcur, finds_append_eq_nil_iff habove, finds_append_eq_nil_iff hold] at hrest
    rw [hout, hnil, List.nil_append, finds_append_eq_nil_iff habove]
    exact ⟨hrest.1, hrest.2.2⟩

end

end Rule

end SchemaLift
