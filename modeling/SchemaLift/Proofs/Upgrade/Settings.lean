import Mathlib.Data.List.Forall2
import SchemaLift.Proofs.Text.Lines
import SchemaLift.Proofs.Text.Match
import SchemaLift.Proofs.Token.Scan
import SchemaLift.Upgrade.Settings

/-!
# Which rules are left out

A name is read as a rule exactly if it spells the name of that rule (`Rule.named?_eq_some_iff`). The
names of the settings and those of the command line are read in this order, up to the first one that
names no rule (`Rule.allNamed_eq_error_iff`), and each rule that they name is left out, in the order of
first mention (`distinctRules_pairwise`). So the rules that an upgrade applies depend on nothing but
which rules are named (`Settings.resolve_rules_of_respelledIn`).
-/

namespace SchemaLift

/-! ## Spellings of a name -/

namespace Rule

/-- In the name of a rule, `d` is read as `c`: case does not matter, and a hyphen is an underscore. -/
def ReadsAs (c d : Char) : Prop := d.toLower = c ∨ (c = '_' ∧ d = '-')

/-- A spelling of the name of a rule, with white space around it. -/
def Spells (r : Rule) (written : Text) : Prop :=
  ∃ lead word trail, written = lead ++ word ++ trail ∧ (∀ c ∈ lead, Text.isBlankChar c = true) ∧
    (∀ c ∈ trail, Text.isBlankChar c = true) ∧ List.Forall₂ ReadsAs r.id.toList word

/-- The character as which one is read. -/
def readAs (d : Char) : Char := if d = '-' then '_' else d.toLower

theorem readsAs_iff {c d : Char} (hc : c ≠ '-') : ReadsAs c d ↔ readAs d = c := by
  have hlower : '-'.toLower = '-' := by decide
  unfold ReadsAs readAs
  by_cases hd : d = '-'
  · subst hd
    rw [hlower, if_pos rfl]
    constructor
    · rintro (rfl | ⟨rfl, -⟩)
      · exact absurd rfl hc
      · rfl
    · rintro rfl
      exact .inr ⟨rfl, rfl⟩
  · rw [if_neg hd]
    exact or_iff_left fun h => hd h.2

/-- White space is read as it is. -/
theorem readAs_of_isBlankChar {d : Char} (h : Text.isBlankChar d = true) : readAs d = d := by
  have hbounds := Text.isBlankChar_bounds h
  have hne : d ≠ '-' := ne_of_holds h (by decide)
  rw [readAs, if_neg hne]
  unfold Char.toLower
  refine dif_neg fun hupper => ?_
  have hlow : 65 ≤ d.toNat := UInt32.le_iff_toNat_le.1 hupper.1
  have hhigh : d.toNat ≤ 90 := UInt32.le_iff_toNat_le.1 hupper.2
  omega

theorem forall₂_readsAs_iff {name word : Text} (hname : ∀ c ∈ name, c ≠ '-') :
    List.Forall₂ ReadsAs name word ↔ word.map readAs = name := by
  induction name generalizing word with
  | nil => rw [List.forall₂_nil_left_iff, List.map_eq_nil_iff]
  | cons c name ih =>
    obtain ⟨hc, hrest⟩ := List.forall_mem_cons.1 hname
    cases word with
    | nil => simp
    | cons d word => rw [List.forall₂_cons, ih hrest, readsAs_iff hc, List.map_cons, List.cons.injEq]

theorem mem_id {r : Rule} {c : Char} (h : c ∈ r.id.toList) : Text.isBlankChar c = false ∧ c ≠ '-' := by
  have hall : (r.id.toList.all fun c => !Text.isBlankChar c && c != '-') = true := by cases r <;> rfl
  simpa using List.all_eq_true.1 hall c h

theorem normalizeName_eq_iff {r : Rule} {written : Text} :
    normalizeName written = r.id.toList ↔ Spells r written := by
  have hid : ∀ c ∈ r.id.toList, c ≠ '-' := fun c hc => (mem_id hc).2
  constructor
  · intro h
    obtain ⟨trail, htrail, hwritten⟩ := Text.exists_trim_append written
    exact ⟨_, Text.trim written, trail, hwritten, fun c hc => List.mem_takeWhile_imp hc, htrail,
      (forall₂_readsAs_iff hid).2 h⟩
  · rintro ⟨lead, word, trail, rfl, hlead, htrail, hword⟩
    have hmap := (forall₂_readsAs_iff hid).1 hword
    have hblank : ∀ d ∈ word, Text.isBlankChar d = false := by
      intro d hd
      have hmem : readAs d ∈ r.id.toList := hmap ▸ List.mem_map_of_mem hd
      refine Bool.eq_false_iff.2 fun h => ?_
      have hread := (mem_id hmem).1
      rw [readAs_of_isBlankChar h, h] at hread
      cases hread
    rw [normalizeName, Text.trim_append hlead hblank htrail]
    exact hmap

theorem find?_id (r : Rule) : (all.find? fun r' => r'.id.toList == r.id.toList) = some r := by
  cases r <;> decide

/-- A name is read as the rule whose name it spells. -/
theorem named?_eq_some_iff {r : Rule} {written : Text} : named? written = some r ↔ Spells r written := by
  rw [← normalizeName_eq_iff]
  constructor
  · intro h
    have hfound : (r.id.toList == normalizeName written) = true :=
      List.find?_some (p := fun r : Rule => r.id.toList == normalizeName written) h
    exact (beq_iff_eq.1 hfound).symm
  · intro h
    rw [named?, h]
    exact find?_id r

theorem named?_eq_none_iff {written : Text} : named? written = none ↔ ∀ r, ¬ Spells r written := by
  simp only [← named?_eq_some_iff, Option.eq_none_iff_forall_ne_some]

/-! ## Reading names -/

variable {names : List Text}

/-- One of the names spells the name of the rule. -/
def MentionedIn (r : Rule) (names : List Text) : Prop := ∃ name ∈ names, r.Spells name

/-- The first of the names that names no rule. -/
def FirstUnknown (names : List Text) (written : Text) : Prop :=
  ∃ before after, names = before ++ written :: after ∧ (∀ name ∈ before, ∃ r : Rule, r.Spells name) ∧
    ∀ r : Rule, ¬ r.Spells written

theorem firstUnknown_cons_iff {name written : Text} : FirstUnknown (name :: names) written ↔
    (name = written ∧ ∀ r : Rule, ¬ r.Spells written) ∨
      ((∃ r : Rule, r.Spells name) ∧ FirstUnknown names written) := by
  constructor
  · rintro ⟨before, after, hsplit, hbefore, hwritten⟩
    cases before with
    | nil =>
      obtain ⟨rfl, -⟩ := List.cons.inj hsplit
      exact .inl ⟨rfl, hwritten⟩
    | cons first before =>
      obtain ⟨rfl, rfl⟩ := List.cons.inj hsplit
      obtain ⟨hname, hbefore⟩ := List.forall_mem_cons.1 hbefore
      exact .inr ⟨hname, before, after, rfl, hbefore, hwritten⟩
  · rintro (⟨rfl, hwritten⟩ | ⟨hname, before, after, rfl, hbefore, hwritten⟩)
    · exact ⟨[], names, rfl, fun _ hmem => absurd hmem List.not_mem_nil, hwritten⟩
    · exact ⟨name :: before, after, rfl, List.forall_mem_cons.2 ⟨hname, hbefore⟩, hwritten⟩

/-- A list of names has a first one that names no rule if it has one at all. -/
theorem exists_firstUnknown_iff :
    (∃ written, FirstUnknown names written) ↔ ∃ name ∈ names, ∀ r : Rule, ¬ r.Spells name := by
  constructor
  · rintro ⟨written, before, after, rfl, -, hwritten⟩
    exact ⟨written, by simp, hwritten⟩
  · intro h
    induction names with
    | nil => simp at h
    | cons first names ih =>
      by_cases hfirst : ∃ r : Rule, r.Spells first
      · obtain ⟨name, hmem, hname⟩ := h
        obtain rfl | hmem := List.mem_cons.1 hmem
        · obtain ⟨r, hr⟩ := hfirst
          exact absurd hr (hname r)
        · obtain ⟨written, hwritten⟩ := ih ⟨name, hmem, hname⟩
          exact ⟨written, firstUnknown_cons_iff.2 (.inr ⟨hfirst, hwritten⟩)⟩
      · exact ⟨first, firstUnknown_cons_iff.2 (.inl ⟨rfl, not_exists.1 hfirst⟩)⟩

theorem allNamed_eq_ok_iff {rules : List Rule} :
    allNamed names = .ok rules ↔ names.map named? = rules.map some := by
  induction names generalizing rules with
  | nil => cases rules <;> simp [allNamed]
  | cons name names ih =>
    rw [allNamed]
    cases hname : named? name with
    | none => cases rules <;> simp [hname]
    | some r =>
      simp only [map_eq_ok_iff, ih, List.map_cons, hname]
      cases rules with
      | nil => simp
      | cons r' rules => simp [and_comm]

/-- Reading stops at the first name that names no rule. -/
theorem allNamed_eq_error_iff {u : Unknown} :
    allNamed names = .error u ↔ FirstUnknown names u.written := by
  induction names with
  | nil => simp [allNamed, FirstUnknown]
  | cons name names ih =>
    rw [allNamed, firstUnknown_cons_iff]
    cases hname : named? name with
    | none =>
      have hunknown := named?_eq_none_iff.1 hname
      constructor
      · intro h
        obtain rfl := Except.error.inj h
        exact .inl ⟨rfl, hunknown⟩
      · rintro (⟨rfl, -⟩ | ⟨⟨r, hr⟩, -⟩)
        · rfl
        · exact absurd hr (hunknown r)
    | some r =>
      have hr := named?_eq_some_iff.1 hname
      rw [map_eq_error_iff, ih]
      constructor
      · exact fun h => .inr ⟨⟨r, hr⟩, h⟩
      · rintro (⟨rfl, hunknown⟩ | ⟨-, h⟩)
        · exact absurd hr (hunknown r)
        · exact h

/-- What is read are the rules that are mentioned. -/
theorem mentionedIn_iff_of_map {rules : List Rule} (h : names.map named? = rules.map some) {r : Rule} :
    r.MentionedIn names ↔ r ∈ rules := by
  have hmem : some r ∈ names.map named? ↔ some r ∈ rules.map some := by rw [h]
  simpa [MentionedIn, named?_eq_some_iff] using hmem

end Rule

/-! ## The order of first mention -/

theorem mem_distinctRules_iff {r : Rule} {rules : List Rule} : r ∈ distinctRules rules ↔ r ∈ rules := by
  induction rules with
  | nil => exact Iff.rfl
  | cons first rest ih =>
    rw [distinctRules, List.mem_cons, List.mem_cons, List.mem_filter, ih, bne_iff_ne]
    by_cases h : r = first <;> simp [h]

theorem nodup_distinctRules (rules : List Rule) : (distinctRules rules).Nodup := by
  induction rules with
  | nil => exact List.nodup_nil
  | cons first rest ih =>
    refine List.nodup_cons.2 ⟨fun h => ?_, ih.filter _⟩
    exact bne_iff_ne.1 (List.mem_filter.1 h).2 rfl

/-- Of two rules that are left, the first one stands where the other one has not been. -/
theorem distinctRules_pairwise (rules : List Rule) : (distinctRules rules).Pairwise fun a b =>
    ∃ before after, rules = before ++ a :: after ∧ b ∉ before := by
  induction rules with
  | nil => exact .nil
  | cons first rest ih =>
    refine .cons (fun b _ => ⟨[], rest, rfl, List.not_mem_nil⟩) ?_
    refine (ih.filter _).imp_of_mem fun _ hb ⟨before, after, hrest, hbefore⟩ => ?_
    have hne := bne_iff_ne.1 (List.mem_filter.1 hb).2
    exact ⟨first :: before, after, congrArg (first :: ·) hrest,
      fun hmem => hbefore ((List.mem_cons.1 hmem).resolve_left hne)⟩

/-! ## Options -/

namespace Settings

open Rule (MentionedIn FirstUnknown)

variable {names : List Text}

/-- The names of the rules to leave out, in the order in which they are read. -/
def disabledNames (settings : Settings) (overrides : Overrides) : List Text :=
  settings.disabledRules ++ overrides.disable

/-- A name of one rule stands where no name of the other rule has been. -/
def MentionedBefore (names : List Text) (a b : Rule) : Prop :=
  ∃ before name after, names = before ++ name :: after ∧ a.Spells name ∧ ¬ b.MentionedIn before

theorem mentionedBefore_of_map {before after : List Rule} {a b : Rule}
    (h : names.map Rule.named? = (before ++ a :: after).map some) (hb : b ∉ before) :
    MentionedBefore names a b := by
  rw [List.map_append, List.map_cons] at h
  obtain ⟨namesBefore, rest, rfl, hbefore, hrest⟩ := List.map_eq_append_iff.1 h
  obtain ⟨name, namesAfter, rfl, hname, -⟩ := List.map_eq_cons_iff.1 hrest
  refine ⟨namesBefore, name, namesAfter, rfl, Rule.named?_eq_some_iff.1 hname, ?_⟩
  rwa [Rule.mentionedIn_iff_of_map hbefore]

/-- The options leave out the rules that the names mention. -/
structure LeavesOut (names : List Text) (options : UpgradeOptions) : Prop where
  mem_disabled : ∀ r, r ∈ options.disabled ↔ r.MentionedIn names
  nodup : options.disabled.Nodup
  inOrder : options.disabled.Pairwise (MentionedBefore names)
  /-- What is not left out is applied in the fixed order. -/
  sublist : options.rules.Sublist Rule.all
  mem_rules : ∀ r, r ∈ options.rules ↔ ¬ r.MentionedIn names

variable {settings : Settings} {overrides : Overrides}

theorem leavesOut_of_resolve_eq_ok {options : UpgradeOptions}
    (h : settings.resolve overrides = .ok options) :
    LeavesOut (disabledNames settings overrides) options := by
  obtain ⟨rules, hrules, rfl⟩ := map_eq_ok_iff.1 h
  have hmap := Rule.allNamed_eq_ok_iff.1 hrules
  have hmem : ∀ r, r ∈ distinctRules rules ↔ r.MentionedIn (disabledNames settings overrides) := by
    intro r
    rw [mem_distinctRules_iff]
    exact (Rule.mentionedIn_iff_of_map hmap).symm
  refine ⟨hmem, nodup_distinctRules rules, ?_, List.filter_sublist, fun r => ?_⟩
  · refine (distinctRules_pairwise rules).imp ?_
    rintro a b ⟨before, after, rfl, hb⟩
    exact mentionedBefore_of_map hmap hb
  · rw [← hmem r]
    simp [UpgradeOptions.rules, Rule.mem_all]

theorem resolve_eq_error_iff {u : Rule.Unknown} : settings.resolve overrides = .error u ↔
    FirstUnknown (disabledNames settings overrides) u.written := by
  rw [← Rule.allNamed_eq_error_iff]
  exact map_eq_error_iff

theorem exists_resolve_eq_error_iff : (∃ u, settings.resolve overrides = .error u) ↔
    ∃ name ∈ disabledNames settings overrides, ∀ r : Rule, ¬ r.Spells name := by
  rw [← Rule.exists_firstUnknown_iff]
  constructor
  · rintro ⟨u, hu⟩
    exact ⟨u.written, resolve_eq_error_iff.1 hu⟩
  · rintro ⟨written, hwritten⟩
    exact ⟨⟨written⟩, resolve_eq_error_iff.2 hwritten⟩

theorem exists_resolve_eq_ok (h : ∀ name ∈ disabledNames settings overrides, ∃ r : Rule, r.Spells name) :
    ∃ options, settings.resolve overrides = .ok options := by
  cases hresolve : settings.resolve overrides with
  | ok options => exact ⟨options, rfl⟩
  | error u =>
    obtain ⟨name, hmem, hname⟩ := exists_resolve_eq_error_iff.1 ⟨u, hresolve⟩
    obtain ⟨r, hr⟩ := h name hmem
    exact absurd hr (hname r)

/-! ## What the rules depend on -/

/-- Each of the names spells a rule of which the other names have a spelling. -/
def RespelledIn (names names' : List Text) : Prop :=
  ∀ name ∈ names, ∃ r : Rule, r.Spells name ∧ r.MentionedIn names'

theorem RespelledIn.mentionedIn {names' : List Text} (h : RespelledIn names names') {r : Rule}
    (hr : r.MentionedIn names) : r.MentionedIn names' := by
  obtain ⟨name, hmem, hname⟩ := hr
  obtain ⟨r', hname', hr'⟩ := h name hmem
  -- A name is read as one rule only.
  have hsame : some r = some r' :=
    (Rule.named?_eq_some_iff.2 hname).symm.trans (Rule.named?_eq_some_iff.2 hname')
  exact Option.some.inj hsame ▸ hr'

/-- The rules of an upgrade are a function of the set of those that are left out. -/
theorem rules_congr {options options' : UpgradeOptions}
    (h : ∀ r, r ∈ options.disabled ↔ r ∈ options'.disabled) : options.rules = options'.rules := by
  refine List.filter_congr fun r _ => ?_
  simp only [List.contains_eq_mem, h r]

theorem resolve_rules_of_respelledIn {settings' : Settings} {overrides' : Overrides}
    (h : RespelledIn (disabledNames settings overrides) (disabledNames settings' overrides'))
    (h' : RespelledIn (disabledNames settings' overrides') (disabledNames settings overrides)) :
    ∃ options options', settings.resolve overrides = .ok options ∧
      settings'.resolve overrides' = .ok options' ∧ options.rules = options'.rules := by
  obtain ⟨options, hoptions⟩ :=
    exists_resolve_eq_ok fun name hname => (h name hname).imp fun _ => And.left
  obtain ⟨options', hoptions'⟩ :=
    exists_resolve_eq_ok fun name hname => (h' name hname).imp fun _ => And.left
  refine ⟨options, options', hoptions, hoptions', rules_congr fun r => ?_⟩
  have hleft := (leavesOut_of_resolve_eq_ok hoptions).mem_disabled r
  have hleft' := (leavesOut_of_resolve_eq_ok hoptions').mem_disabled r
  rw [hleft, hleft']
  exact ⟨h.mentionedIn, h'.mentionedIn⟩

/-- There are no options exactly if a name in the settings or on the command line names no rule, and then
the first such name is reported. Otherwise the rules that are mentioned are left out. Names in another
order, with repetitions or in another spelling give the same rules. -/
theorem resolve_by_mention (settings : Settings) (overrides : Overrides) :
    ((∃ u, settings.resolve overrides = .error u) ↔
      ∃ name ∈ disabledNames settings overrides, ∀ r : Rule, ¬ r.Spells name) ∧
    (∀ u, settings.resolve overrides = .error u ↔
      FirstUnknown (disabledNames settings overrides) u.written) ∧
    (∀ options, settings.resolve overrides = .ok options →
      LeavesOut (disabledNames settings overrides) options) ∧
    ∀ settings' overrides',
      RespelledIn (disabledNames settings overrides) (disabledNames settings' overrides') →
      RespelledIn (disabledNames settings' overrides') (disabledNames settings overrides) →
      ∃ options options', settings.resolve overrides = .ok options ∧
        settings'.resolve overrides' = .ok options' ∧ options.rules = options'.rules :=
  ⟨exists_resolve_eq_error_iff, fun _ => resolve_eq_error_iff, fun _ => leavesOut_of_resolve_eq_ok,
    fun _ _ => resolve_rules_of_respelledIn⟩

example : ({ standard with disabledRules := ["name ".toList] } : Settings).resolve
      ⟨none, [" Class-Proc".toList, "NAME".toList]⟩ =
    .ok ⟨"Types".toList, [.name, .classProc]⟩ := by
  rfl

end Settings

end SchemaLift
