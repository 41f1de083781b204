import SchemaLift.Console.Command
import SchemaLift.Proofs.Console.Files

/-!
# Runs, stage by stage

A command line that is read leads to a `transcript`, and the run closes it (`run_of_read`). The
commands on files make theirs of `upgradedFiles`: a stage that fails is all there is to tell
(`transcript_of_error`), and whatever does not fail is through with every stage
(`exists_upgradedFiles`). Only one command writes, and only if somebody agreed
(`written_transcript`). All this holds whatever the libraries do.
-/

namespace SchemaLift.Console

variable {lib : Libraries} {files : FileTree} {env : Environment} {words : List Text}
  {p : Presentation}

/-! ## Exit codes -/

theorem Failure.exitCode_ne_zero (f : Failure) : f.exitCode ≠ 0 := by
  cases f <;> simp [exitCode]

theorem Transcript.exitCode_eq_zero_iff {t : Transcript} : t.exitCode = 0 ↔ t.failure = none := by
  unfold exitCode
  cases t.failure <;> simp [Failure.exitCode_ne_zero]

/-! ## What the commands do with the files -/

namespace UpgradeRequest

/-- Whether files may be overwritten: without asking, or because whoever was asked said yes. -/
def Agreed (r : UpgradeRequest) (answer : Option Answer) : Prop := r.force = true ∨ answer = some .yes

instance (r : UpgradeRequest) (answer : Option Answer) : Decidable (r.Agreed answer) :=
  inferInstanceAs (Decidable (_ ∨ _))

variable {r : UpgradeRequest} {answer : Option Answer} {results : List UpgradedFile}

theorem ask_eq_none_iff {changed : List UpgradedFile} :
    (r.ask lib answer p changed).2 = none ↔
      (r.write = true → ¬ r.Agreed answer → changed = []) := by
  unfold ask confirm Agreed
  cases r.write <;> cases changed <;> rcases answer with _ | _ | _ | _ <;> cases r.force <;> simp

theorem failure_run :
    (r.run lib answer p results).failure =
      (r.ask lib answer p (results.filter UpgradedFile.changed)).2 := by
  simp only [run]
  rcases r.ask lib answer p (results.filter UpgradedFile.changed) with ⟨asked, _ | f⟩ <;> rfl

theorem failure_run_eq_none_iff :
    (r.run lib answer p results).failure = none ↔
      (r.write = true → ¬ r.Agreed answer → results.filter UpgradedFile.changed = []) := by
  rw [failure_run, ask_eq_none_iff]

theorem written_run :
    (r.run lib answer p results).written =
      if r.write = true ∧ r.Agreed answer then
        (results.filter UpgradedFile.changed).map fun f => (f.path, f.report.output)
      else [] := by
  have hwritten : (r.run lib answer p results).written =
      if (r.ask lib answer p (results.filter UpgradedFile.changed)).2 = none ∧ r.write = true then
        (results.filter UpgradedFile.changed).map fun f => (f.path, f.report.output)
      else [] := by
    simp only [run]
    rcases r.ask lib answer p (results.filter UpgradedFile.changed) with ⟨asked, _ | f⟩ <;> simp
  simp only [hwritten, ask_eq_none_iff]
  by_cases hwrite : r.write = true <;> by_cases hagreed : r.Agreed answer <;>
    simp +contextual [hwrite, hagreed]

end UpgradeRequest

theorem written_runCheck (results : List UpgradedFile) : (runCheck lib p results).written = [] := by
  unfold runCheck
  cases results.filter UpgradedFile.changed <;> rfl

namespace Command

/-- What the command line says about the rules, if the command uses any. -/
def overrides? : Command → Option Overrides
  | upgrade _ _ _ _ overrides | check _ overrides | rules overrides => some overrides
  | completions _ => none

/-- The paths that the command line names, if the command looks at any. -/
def paths? : Command → Option (List Path)
  | upgrade paths _ _ _ _ | check paths _ => some paths
  | rules _ | completions _ => none

variable {config : Option Path} {paths : List Path} {overrides : Overrides}

/-- A command that looks at files uses the rules. -/
theorem exists_overrides {c : Command} (h : c.paths? = some paths) :
    ∃ overrides, c.overrides? = some overrides := by
  cases c <;> cases h <;> exact ⟨_, rfl⟩

theorem run_stages (work : List UpgradedFile → Transcript) :
    (do
      let settings ← loadSettings lib files env config
      return work (← upgradeFiles lib files settings overrides paths)) =
      (upgradedFiles lib files env config overrides paths).map work := by
  unfold upgradedFiles
  cases loadSettings lib files env config with
  | error f => rfl
  | ok settings =>
    simp only [bind, Except.bind]
    cases upgradeFiles lib files settings overrides paths <;> rfl

theorem run_upgrade (write force diff : Bool) :
    (upgrade paths write force diff overrides).run lib files env p config =
      (upgradedFiles lib files env config overrides paths).map
        (UpgradeRequest.run lib ⟨write, force, diff⟩ env.answer p) :=
  run_stages _

theorem run_check :
    (check paths overrides).run lib files env p config =
      (upgradedFiles lib files env config overrides paths).map (runCheck lib p) :=
  run_stages _

end Command

/-! ## Stages of a run -/

namespace Invocation

/-- What the command does, once the command line is read. -/
def transcript (lib : Libraries) (files : FileTree) (env : Environment) (inv : Invocation) :
    Transcript :=
  match inv.command.run lib files env (inv.presentation env) inv.config with
  | .ok t => t
  | .error f => .failed f

variable {inv : Invocation} {overrides : Overrides} {paths : List Path}

theorem transcript_of_error {f : Failure} (ho : inv.command.overrides? = some overrides)
    (hp : inv.command.paths? = some paths)
    (h : upgradedFiles lib files env inv.config overrides paths = .error f) :
    inv.transcript lib files env = .failed f := by
  obtain ⟨config, format, quiet, noColor, command⟩ := inv
  cases command <;> cases ho <;> cases hp <;>
    simp [transcript, Command.run_upgrade, Command.run_check, h, Except.map]

/-- A command on files that does not fail is through with upgrading them. -/
theorem exists_upgradedFiles (ho : inv.command.overrides? = some overrides)
    (hp : inv.command.paths? = some paths) (h : (inv.transcript lib files env).failure = none) :
    ∃ results, upgradedFiles lib files env inv.config overrides paths = .ok results := by
  cases hfiles : upgradedFiles lib files env inv.config overrides paths with
  | ok results => exact ⟨results, rfl⟩
  | error f =>
    rw [transcript_of_error ho hp hfiles] at h
    cases h

/-- A command that uses the rules, and does not fail, has its settings and knows its rules. -/
theorem exists_options (ho : inv.command.overrides? = some overrides)
    (h : (inv.transcript lib files env).failure = none) :
    ∃ settings options, loadSettings lib files env inv.config = .ok settings ∧
      settings.resolve overrides = .ok options := by
  cases hp : inv.command.paths? with
  | some paths =>
    obtain ⟨results, hresults⟩ := exists_upgradedFiles ho hp h
    obtain ⟨settings, options, -, hload, hresolve, -⟩ := upgradedFiles_eq_ok_iff.1 hresults
    exact ⟨settings, options, hload, hresolve⟩
  | none =>
    obtain ⟨config, format, quiet, noColor, command⟩ := inv
    cases command with
    | upgrade | check => cases hp
    | completions => cases ho
    | rules overrides =>
      cases ho
      cases hrun : (Command.rules overrides).run lib files env
          (Invocation.presentation ⟨config, format, quiet, noColor, .rules overrides⟩ env) config with
      | error f => simp [transcript, hrun, Transcript.failed] at h
      | ok t =>
        obtain ⟨settings, hload, hrun⟩ := bind_eq_ok_iff.1 hrun
        obtain ⟨options, hresolve, -⟩ := bind_eq_ok_iff.1 hrun
        exact ⟨settings, options, hload, mapError_eq_ok_iff.1 hresolve⟩

/-- A command that does not fail has found files at every path that it searches. -/
theorem filesAt_ne_error {settings : Settings} {path : Path} {f : Failure}
    (hp : inv.command.paths? = some paths) (h : (inv.transcript lib files env).failure = none)
    (hload : loadSettings lib files env inv.config = .ok settings)
    (hpath : path ∈ searchedPaths settings paths) :
    filesAt lib files settings.filePattern path ≠ .error f := by
  intro hat
  obtain ⟨overrides, ho⟩ := Command.exists_overrides hp
  obtain ⟨results, hresults⟩ := exists_upgradedFiles ho hp h
  obtain ⟨settings', options, found, hload', -, hfound, -⟩ := upgradedFiles_eq_ok_iff.1 hresults
  obtain rfl := ok_unique hload hload'
  obtain ⟨f', hf'⟩ := exists_discover_eq_error_iff.2 ⟨path, hpath, f, hat⟩
  rw [hfound] at hf'
  cases hf'

theorem transcript_upgrade {write force diff : Bool} {results : List UpgradedFile}
    (hcommand : inv.command = .upgrade paths write force diff overrides)
    (h : upgradedFiles lib files env inv.config overrides paths = .ok results) :
    inv.transcript lib files env =
      UpgradeRequest.run lib ⟨write, force, diff⟩ env.answer (inv.presentation env) results := by
  simp [transcript, hcommand, Command.run_upgrade, h, Except.map]

theorem transcript_check {results : List UpgradedFile}
    (hcommand : inv.command = .check paths overrides)
    (h : upgradedFiles lib files env inv.config overrides paths = .ok results) :
    inv.transcript lib files env = runCheck lib (inv.presentation env) results := by
  simp [transcript, hcommand, Command.run_check, h, Except.map]

/-- Only an upgrade that is to write writes, if somebody agreed and it does not fail. -/
theorem written_transcript (inv : Invocation) :
    (inv.transcript lib files env).written = [] ∨
      ∃ paths force diff overrides, inv.command = .upgrade paths true force diff overrides ∧
        (force = true ∨ env.answer = some .yes) ∧
        (inv.transcript lib files env).failure = none := by
  obtain ⟨config, format, quiet, noColor, command⟩ := inv
  cases hrun : command.run lib files env
      (Invocation.presentation ⟨config, format, quiet, noColor, command⟩ env) config with
  | error f => exact .inl (by simp [transcript, hrun, Transcript.failed])
  | ok t =>
    cases command with
    | upgrade paths write force diff overrides =>
      rw [Command.run_upgrade] at hrun
      obtain ⟨results, hresults, rfl⟩ := map_eq_ok_iff.1 hrun
      rw [transcript_upgrade rfl hresults, UpgradeRequest.written_run]
      by_cases hwrites : write = true ∧ UpgradeRequest.Agreed ⟨write, force, diff⟩ env.answer
      · obtain ⟨rfl, hagreed⟩ := hwrites
        exact .inr ⟨paths, force, diff, overrides, rfl, hagreed,
          UpgradeRequest.failure_run_eq_none_iff.2 fun _ hno => absurd hagreed hno⟩
      · exact .inl (if_neg hwrites)
    | check paths overrides =>
      rw [Command.run_check] at hrun
      obtain ⟨results, hresults, rfl⟩ := map_eq_ok_iff.1 hrun
      rw [transcript_check rfl hresults]
      exact .inl (written_runCheck results)
    | rules overrides =>
      obtain ⟨settings, -, hrules⟩ := bind_eq_ok_iff.1 hrun
      obtain ⟨options, -, hrules⟩ := bind_eq_ok_iff.1 hrules
      cases hrules
      exact .inl (by simp [transcript, hrun, runRules])
    | completions shell =>
      cases hrun
      exact .inl rfl

end Invocation

/-! ## From the command line on -/

variable {inv : Invocation}

theorem run_of_read (h : lib.readArguments env words = .ok inv) :
    runWith lib files env words =
      ((inv.presentation env).close lib (inv.transcript lib files env),
        (inv.transcript lib files env).exitCode) := by
  unfold runWith
  rw [h]
  rfl

theorem written_of_read (h : lib.readArguments env words = .ok inv) :
    (runWith lib files env words).1.written = (inv.transcript lib files env).written := by
  rw [run_of_read h]
  rfl

theorem written_of_ending {ending : Ending} (h : lib.readArguments env words = .error ending) :
    (runWith lib files env words).1.written = [] := by
  unfold runWith
  rw [h]

end SchemaLift.Console
