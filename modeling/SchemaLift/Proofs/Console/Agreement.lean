import SchemaLift.Proofs.Console.AllOrNothing

/-!
# A check and the upgrade agree

A check tells what an upgrade would write, and nothing else makes a difference between the two
(`check_agrees_upgrade`): both go through the same stages, and where one of these fails, they come to
the same end. The exit code of a check that finds something is that of no other failure
(`exitCode_upgradedFiles`). Which of several failing files is told of is left to the order in which
their tasks complete; the exit code is the same for each (`exitCode_upgradeFile`).
-/

namespace SchemaLift.Console

variable {lib : Libraries} {files : FileTree} {env : Environment} {p : Presentation} {f : Failure}

/-! ## The exit code of a check that finds something -/

theorem exitCode_loadSettings {config : Option Path}
    (h : loadSettings lib files env config = .error f) : f.exitCode ≠ 4 := by
  unfold loadSettings readSettings at h
  split at h
  · rcases bind_eq_error_iff.1 h with h | ⟨_, -, h⟩ <;>
      obtain ⟨_, -, rfl⟩ := mapError_eq_error_iff.1 h <;> simp [Failure.exitCode]
  · cases h

theorem exitCode_matchingFiles {pattern : Text} {path : Path}
    (h : matchingFiles lib files pattern path = .error f) : f.exitCode ≠ 4 := by
  rcases bind_eq_error_iff.1 h with h | ⟨entries, -, h⟩
  · obtain ⟨_, -, rfl⟩ := mapError_eq_error_iff.1 h
    simp [Failure.exitCode]
  rcases bind_eq_error_iff.1 h with h | ⟨_, -, h⟩
  · obtain ⟨entry, -, h⟩ := exists_of_mapM_eq_error h
    obtain ⟨_, -, rfl⟩ := mapError_eq_error_iff.1 h
    simp [Failure.exitCode]
  · cases h

theorem exitCode_discover {settings : Settings} {paths : List Path}
    (h : discover lib files settings paths = .error f) : f.exitCode ≠ 4 := by
  rcases bind_eq_error_iff.1 h with h | ⟨_, -, h⟩
  · obtain ⟨path, -, h⟩ := exists_of_mapM_eq_error h
    rw [filesAt_eq] at h
    grind [Failure.exitCode, exitCode_matchingFiles]
  · cases h

/-- A file that cannot be upgraded leads to the same exit code whatever is wrong with it. -/
theorem exitCode_upgradeFile {options : UpgradeOptions} {path : Path}
    (h : upgradeFile lib files options path = .error f) : f.exitCode = 1 := by
  rcases bind_eq_error_iff.1 h with h | ⟨_, -, h⟩
  · obtain ⟨_, -, rfl⟩ := mapError_eq_error_iff.1 h
    rfl
  rcases bind_eq_error_iff.1 h with h | ⟨_, -, h⟩
  · obtain ⟨_, -, rfl⟩ := mapError_eq_error_iff.1 h
    rfl
  · cases h

/-- No stage fails as a check does that finds something. -/
theorem exitCode_upgradedFiles {config : Option Path} {overrides : Overrides} {paths : List Path}
    (h : upgradedFiles lib files env config overrides paths = .error f) : f.exitCode ≠ 4 := by
  rcases bind_eq_error_iff.1 h with h | ⟨settings, -, h⟩
  · exact exitCode_loadSettings h
  rcases bind_eq_error_iff.1 h with h | ⟨options, -, h⟩
  · obtain ⟨_, -, rfl⟩ := mapError_eq_error_iff.1 h
    simp [Failure.exitCode]
  rcases bind_eq_error_iff.1 h with h | ⟨found, -, h⟩
  · exact exitCode_discover h
  · obtain ⟨path, -, h⟩ := exists_of_mapM_eq_error h
    rw [exitCode_upgradeFile h]
    decide

/-! ## What a check reports -/

/-- What a check tells of the files that an upgrade would write: whether there are any, and how many, in
every format, and which ones. -/
structure Reports (lib : Libraries) (p : Presentation) (written : List (Path × Text))
    (t : Transcript) : Prop where
  failure : t.failure = if written = [] then none else some (.needsUpgrade written.length)
  message : written ≠ [] →
    ∃ shown, t.messages = shown ++ p.failureText lib (.needsUpgrade written.length)
  plain : p.format = .plain →
    t.output = written.flatMap fun w => Presentation.lineText (Path.shown w.1)
  json : p.format = .json → ∃ results : List JsonValue, t.output =
    jsonLine lib [("files", .number results.length), ("needs_upgrade", .number written.length),
      ("results", .array results)]

theorem failure_runCheck (results : List UpgradedFile) :
    (runCheck lib p results).failure =
      if results.filter UpgradedFile.changed = [] then none
      else some (.needsUpgrade (results.filter UpgradedFile.changed).length) := by
  unfold runCheck
  cases results.filter UpgradedFile.changed <;> rfl

theorem output_runCheck (results : List UpgradedFile) :
    (runCheck lib p results).output = match p.format with
      | .human => []
      | .plain => (results.filter UpgradedFile.changed).flatMap fun f =>
        Presentation.lineText (Path.shown f.path)
      | .json => jsonLine lib [("files", .number results.length),
        ("needs_upgrade", .number (results.filter UpgradedFile.changed).length),
        ("results", .array (results.map fun f => .ofFields f.summaryFields))] := by
  unfold runCheck
  cases results.filter UpgradedFile.changed <;> rfl

theorem reports_runCheck (results : List UpgradedFile) :
    Reports lib p ((results.filter UpgradedFile.changed).map fun f => (f.path, f.report.output))
      (p.close lib (runCheck lib p results)) where
  failure := (failure_runCheck results).trans (by simp)
  message h := by
    rw [List.length_map]
    have hfailure : (runCheck lib p results).failure = _ := failure_runCheck results
    rw [if_neg (by simpa using h)] at hfailure
    exact ⟨(runCheck lib p results).messages, by rw [Presentation.close, hfailure]; rfl⟩
  plain h := by
    rw [List.flatMap_map]
    exact (output_runCheck results).trans (by rw [h])
  json h := by
    refine ⟨results.map fun f => .ofFields f.summaryFields, ?_⟩
    rw [List.length_map, List.length_map]
    exact (output_runCheck results).trans (by rw [h])

/-! ## The same verdict -/

/-- What a check and an upgrade that is to write come to, if they agree. -/
structure Agree (lib : Libraries) (p : Presentation) (checked upgraded : Transcript × Nat) : Prop where
  succeeds : (checked.2 = 0 ∨ checked.2 = 4) ↔ upgraded.2 = 0
  finds : checked.2 = 4 ↔ upgraded.1.written ≠ []
  keeps : checked.1.written = []
  reports : upgraded.2 = 0 → Reports lib p upgraded.1.written checked.1
  otherwise : upgraded.2 ≠ 0 → checked.2 = upgraded.2 ∧ upgraded.1.written = [] ∧
    checked.1.output = [] ∧ upgraded.1.output = []

namespace Agree

/-- A stage that fails ends both in the same way. -/
theorem of_failed (hf : f.exitCode ≠ 4) :
    Agree lib p (p.close lib (.failed f), f.exitCode) (p.close lib (.failed f), f.exitCode) where
  succeeds := or_iff_left hf
  finds := iff_of_false hf (by simp [Presentation.close, Transcript.failed])
  keeps := rfl
  reports h := absurd h f.exitCode_ne_zero
  otherwise _ := ⟨rfl, rfl, rfl, rfl⟩

theorem of_results (results : List UpgradedFile) (diff : Bool) (answer : Option Answer) :
    Agree lib p (p.close lib (runCheck lib p results), (runCheck lib p results).exitCode)
      (p.close lib (UpgradeRequest.run lib ⟨true, true, diff⟩ answer p results),
        (UpgradeRequest.run lib ⟨true, true, diff⟩ answer p results).exitCode) := by
  have hwritten : (p.close lib (UpgradeRequest.run lib ⟨true, true, diff⟩ answer p results)).written =
      (results.filter UpgradedFile.changed).map fun f => (f.path, f.report.output) :=
    UpgradeRequest.written_run.trans (if_pos ⟨rfl, .inl rfl⟩)
  have hupgraded : (UpgradeRequest.run lib ⟨true, true, diff⟩ answer p results).exitCode = 0 :=
    Transcript.exitCode_eq_zero_iff.2 
      (UpgradeRequest.failure_run_eq_none_iff.2 fun _ hno => absurd (.inl rfl) hno)
  have hchecked : (runCheck lib p results).exitCode =
      if results.filter UpgradedFile.changed = [] then 0 else 4 := by
    rw [Transcript.exitCode, failure_runCheck]
    split <;> rfl
  refine ⟨?_, ?_, written_runCheck results, fun _ => ?_, fun hne => absurd hupgraded hne⟩
  · rw [hupgraded, hchecked]
    split <;> simp
  · rw [hwritten, hchecked, Ne, List.map_eq_nil_iff]
    split <;> simp [*]
  · rw [hwritten]
    exact reports_runCheck results

end Agree

/-- The same invocation with another command. -/
def Invocation.withCommand (inv : Invocation) (command : Command) : Invocation :=
  { inv with command }

/-- **Check and upgrade agree.** Of a check and of an upgrade that is to write without asking, on the
same paths and with the same options, the upgrade succeeds exactly if the check finds nothing or finds
files to upgrade; the check finds some exactly if the upgrade writes some, and reports those; and
whatever else ends the one ends the other with the same exit code, with nothing printed or written. -/
theorem check_agrees_upgrade (lib : Libraries) (files : FileTree) (env : Environment)
    (checkWords upgradeWords : List Text) (inv : Invocation) (paths : List Path)
    (overrides : Overrides) (diff : Bool)
    (hcheck : lib.readArguments env checkWords = .ok (inv.withCommand (.check paths overrides)))
    (hupgrade : lib.readArguments env upgradeWords =
      .ok (inv.withCommand (.upgrade paths true true diff overrides))) :
    Agree lib (inv.presentation env) (runWith lib files env checkWords)
      (runWith lib files env upgradeWords) := by
  rw [run_of_read hcheck, run_of_read hupgrade]
  cases hfiles : upgradedFiles lib files env inv.config overrides paths with
  | error f =>
    have hfailed (c : Command) (ho : c.overrides? = some overrides) (hp : c.paths? = some paths) :
        (inv.withCommand c).transcript lib files env = .failed f :=
      Invocation.transcript_of_error ho hp hfiles
    rw [hfailed _ rfl rfl, hfailed _ rfl rfl]
    exact .of_failed (exitCode_upgradedFiles hfiles)
  | ok results =>
    have hchecked : (inv.withCommand (.check paths overrides)).transcript lib files env = _ :=
      Invocation.transcript_check rfl hfiles
    have hupgraded :
        (inv.withCommand (.upgrade paths true true diff overrides)).transcript lib files env = _ :=
      Invocation.transcript_upgrade rfl hfiles
    rw [hchecked, hupgraded]
    exact .of_results results diff env.answer

def checkWords : List Text := ["--format", "plain", "check", "a.rb", "b.rb"].map String.toList

def upgradeWords : List Text :=
  ["--format", "plain", "upgrade", "--write", "--force", "a.rb", "b.rb"].map String.toList

/-- A check of the two files that prints plain fields. -/
def checkOfTwo : Invocation :=
  ⟨none, .plain, false, false, .check ["a.rb".toList, "b.rb".toList] .nothing⟩

/-- The check exits with 4, so the upgrade exits with 0 and writes. -/
theorem check_agrees_upgrade_twoFiles :
    Libraries.standard.readArguments .bare checkWords = .ok checkOfTwo ∧
      Libraries.standard.readArguments .bare upgradeWords = .ok (checkOfTwo.withCommand
        (.upgrade ["a.rb".toList, "b.rb".toList] true true false .nothing)) ∧
      Agree .standard (checkOfTwo.presentation .bare) (run twoFiles .bare checkWords)
        (run twoFiles .bare upgradeWords) ∧
      (run twoFiles .bare checkWords).2 = 4 ∧
      (run twoFiles .bare checkWords).1.output = "a.rb\n".toList := by
  have hcheck : Libraries.standard.readArguments .bare checkWords = .ok checkOfTwo := rfl
  have hupgrade : Libraries.standard.readArguments .bare upgradeWords = .ok (checkOfTwo.withCommand
      (.upgrade ["a.rb".toList, "b.rb".toList] true true false .nothing)) := rfl
  have hagree := check_agrees_upgrade .standard twoFiles .bare _ _ checkOfTwo _ .nothing false hcheck
    hupgrade
  have htranscript : checkOfTwo.transcript .standard twoFiles .bare = _ :=
    Invocation.transcript_check rfl (upgradedFiles_twoFiles none)
  have hrun : run twoFiles .bare checkWords = _ := run_of_read hcheck
  rw [htranscript] at hrun
  refine ⟨hcheck, hupgrade, hagree, ?_⟩
  rw [hrun]
  decide +kernel

end SchemaLift.Console
