import SchemaLift.Proofs.Declaration.Edit
import SchemaLift.Proofs.Declaration.Revision
import SchemaLift.Upgrade.Pipeline

/-!
# Rules in sequence

An upgrade is a run of the enabled rules on the text with plain line feeds (`upgrade_eq`). Six of the
eleven rules edit declarations, each those of a keyword (`Rule.cases`).
-/

namespace SchemaLift

namespace Declaration

/-- A rule that edits the declarations of a keyword. -/
structure Editor where
  rule : Rule
  keyword : String
  revise : Revision

/-- The rules that edit declarations. -/
def editors : List Editor :=
  [⟨.field, "field", flatten .field⟩,
    ⟨.argument, "argument", flatten .argument⟩,
    ⟨.inputField, "input_field", flatten .inputField⟩,
    ⟨.connection, "connection", flatten .connection⟩,
    ⟨.propertyToMethod, "field", renameProperty⟩,
    ⟨.resolveProc, "field", moveResolver⟩]

/-- Four of them flatten the declarations of a kind, one renames properties, and one moves resolvers. -/
theorem editors_cases {e : Editor} (h : e ∈ editors) :
    (∃ kind : DeclarationKind, e = ⟨kind.rule, kind.keyword, flatten kind⟩) ∨
      e = ⟨.propertyToMethod, "field", renameProperty⟩ ∨ e = ⟨.resolveProc, "field", moveResolver⟩ := by
  simp only [editors, List.mem_cons, List.not_mem_nil, or_false] at h
  rcases h with rfl | rfl | rfl | rfl | rfl | rfl
  · exact .inl ⟨.field, rfl⟩
  · exact .inl ⟨.argument, rfl⟩
  · exact .inl ⟨.inputField, rfl⟩
  · exact .inl ⟨.connection, rfl⟩
  · exact .inr (.inl rfl)
  · exact .inr (.inr rfl)

theorem apply_of_mem_editors {e : Editor} (h : e ∈ editors) (ns source : Text) :
    e.rule.apply ns source = upgradeAll e.rule e.keyword e.revise source := by
  rcases editors_cases h with ⟨_ | _ | _ | _, rfl⟩ | rfl | rfl <;> rfl

theorem lawful_of_mem_editors {e : Editor} (h : e ∈ editors) : Lawful e.revise := by
  rcases editors_cases h with ⟨kind, rfl⟩ | rfl | rfl
  · exact lawful_flatten kind
  · exact lawful_renameProperty
  · exact lawful_moveResolver

end Declaration

/-- A rule edits declarations, or it is one of five others. -/
theorem Rule.cases (r : Rule) :
    (∃ e ∈ Declaration.editors, e.rule = r) ∨ r = .typeDefinition ∨ r = .name ∨ r = .implements ∨
      r = .possibleTypes ∨ r = .classProc := by
  cases r <;> simp [Declaration.editors]

namespace Report

variable {ns : Text} {r r' : Report} {rule : Rule}

/-- A step runs its rule on the output so far, and reports the rule if it changed something. -/
theorem step_eq_ok_iff : step ns r rule = .ok r' ↔ ∃ out, rule.apply ns r.output = .ok out ∧
    r' = ⟨out.text, r.applied ++ (if out.changes = 0 then [] else [(rule, out.changes)]),
      r.skipped ++ out.skipped⟩ := by
  unfold step
  rw [bind_eq_ok_iff]
  constructor
  · rintro ⟨out, hout, h⟩
    exact ⟨out, hout, (Except.ok.inj h).symm⟩
  · rintro ⟨out, hout, rfl⟩
    exact ⟨out, hout, rfl⟩

theorem foldlM_step_cons {out : Outcome} (hout : rule.apply ns r.output = .ok out)
    (rules : List Rule) : (rule :: rules).foldlM (step ns) r = rules.foldlM (step ns)
      ⟨out.text, r.applied ++ (if out.changes = 0 then [] else [(rule, out.changes)]),
        r.skipped ++ out.skipped⟩ := by
  rw [List.foldlM_cons, step_eq_ok_iff.2 ⟨out, hout, rfl⟩]
  rfl

/-- Rules that have nothing to do and nothing to report leave a report as it is. -/
theorem foldlM_idle {rules : List Rule}
    (h : ∀ rule ∈ rules, rule.apply ns r.output = .ok ⟨r.output, 0, []⟩) :
    rules.foldlM (step ns) r = .ok r := by
  induction rules with
  | nil => rfl
  | cons rule rest ih =>
    rw [foldlM_step_cons (h rule List.mem_cons_self)]
    simp only [↓reduceIte, List.append_nil]
    exact ih fun rule' h' => h rule' (List.mem_cons_of_mem rule h')

/-- What every step of a run preserves holds at its end. -/
theorem foldlM_step {P : Report → Prop} {rules : List Rule}
    (hstep : ∀ rule ∈ rules, ∀ r out, P r → rule.apply ns r.output = .ok out →
      P ⟨out.text, r.applied ++ (if out.changes = 0 then [] else [(rule, out.changes)]),
        r.skipped ++ out.skipped⟩)
    (hr : P r) (h : rules.foldlM (step ns) r = .ok r') : P r' := by
  induction rules generalizing r with
  | nil =>
    obtain rfl := Except.ok.inj h
    exact hr
  | cons rule rest ih =>
    rw [List.foldlM_cons] at h
    obtain ⟨q, hq, h⟩ := bind_eq_ok_iff.1 h
    obtain ⟨out, hout, rfl⟩ := step_eq_ok_iff.1 hq
    exact ih (fun x hx => hstep x (List.mem_cons_of_mem rule hx))
      (hstep rule List.mem_cons_self r out hr hout) h

end Report

/-- The run of the enabled rules on a text with plain line feeds. -/
def applyRules (options : UpgradeOptions) (plain : Text) : Except Misplaced Report :=
  options.rules.foldlM (Report.step options.baseNamespace) ⟨plain, [], []⟩

/-- The text that the rules see. -/
def plainText (source : Text) : Text := (Newline.detect source).normalize source

theorem upgrade_eq (options : UpgradeOptions) (source : Text) :
    upgrade options source = (applyRules options (plainText source)).map fun report =>
      { report with output := (Newline.detect source).restore report.output } := by
  unfold upgrade applyRules plainText
  simp only [bind, Except.bind, Except.map, pure, Except.pure]

end SchemaLift
