import SchemaLift.Console.Program
import SchemaLift.Proofs.Console.Run

/-!
# All files or none

A run writes all the files that an upgrade changes, or it writes none (`run_all_or_nothing`). Nothing
is written before every stage of the run is through, and a `Fault` in any of them leaves the files as
they are: settings that cannot be read, a rule that is unknown, a path without files, a file that is
no text or in which a rule loses its way, or changes that nobody agreed to. An upgrade may write if it
is told not to ask, or if whoever is asked says yes (`run_writes_agreed_and_named`).
-/

namespace SchemaLift.Console

variable {lib : Libraries} {files : FileTree} {env : Environment} {words : List Text}

/-! ## Faults -/

namespace Invocation

/-- The options that the command upgrades with, and the files that it finds. -/
def Finds (lib : Libraries) (files : FileTree) (env : Environment) (inv : Invocation)
    (options : UpgradeOptions) (found : List Path) : Prop :=
  ∃ overrides paths settings, inv.command.overrides? = some overrides ∧
    inv.command.paths? = some paths ∧ loadSettings lib files env inv.config = .ok settings ∧
    settings.resolve overrides = .ok options ∧ discover lib files settings paths = .ok found

variable {inv : Invocation}

/-- A command that does not fail has upgraded the files that it finds. -/
theorem exists_results_of_finds {options : UpgradeOptions} {found : List Path}
    (hfinds : inv.Finds lib files env options found)
    (h : (inv.transcript lib files env).failure = none) :
    ∃ overrides paths results, inv.command.overrides? = some overrides ∧
      inv.command.paths? = some paths ∧
      upgradedFiles lib files env inv.config overrides paths = .ok results ∧
      results.map UpgradedFile.path = found ∧
      ∀ f ∈ results, files.read f.path = .ok f.source ∧
        SchemaLift.upgrade options f.source = .ok f.report := by
  obtain ⟨overrides, paths, settings, ho, hp, hload, hresolve, hfound⟩ := hfinds
  obtain ⟨results, hresults⟩ := exists_upgradedFiles ho hp h
  obtain ⟨settings', options', found', hload', hresolve', hfound', hpaths, hall⟩ :=
    upgradedFiles_eq_ok_iff.1 hresults
  obtain rfl := ok_unique hload hload'
  obtain rfl := ok_unique hresolve hresolve'
  obtain rfl := ok_unique hfound hfound'
  exact ⟨overrides, paths, results, ho, hp, hresults, hpaths, hall⟩

theorem upgraded_of_finds {options : UpgradeOptions} {found : List Path} {path : Path}
    (hfinds : inv.Finds lib files env options found)
    (h : (inv.transcript lib files env).failure = none) (hpath : path ∈ found) :
    ∃ source report, files.read path = .ok source ∧
      SchemaLift.upgrade options source = .ok report := by
  obtain ⟨-, -, results, -, -, -, rfl, hall⟩ := exists_results_of_finds hfinds h
  obtain ⟨f, hf, rfl⟩ := List.mem_map.1 hpath
  exact ⟨f.source, f.report, hall f hf⟩

end Invocation

/-- What keeps a command from its work. -/
inductive Fault (lib : Libraries) (files : FileTree) (env : Environment) (inv : Invocation) :
    Prop where
  /-- The settings cannot be read. -/
  | settings {overrides : Overrides} {failure : Failure}
      (needed : inv.command.overrides? = some overrides)
      (unreadable : loadSettings lib files env inv.config = .error failure)
  /-- A rule that is to be left out is none. -/
  | unknownRule {overrides : Overrides} {settings : Settings} {name : Text}
      (needed : inv.command.overrides? = some overrides)
      (loaded : loadSettings lib files env inv.config = .ok settings)
      (disabled : name ∈ settings.disabledRules ++ overrides.disable)
      (unknown : Rule.named? name = none)
  /-- A path is no file, and no directory with a file that matches the pattern. -/
  | noRubyFiles {paths : List Path} {settings : Settings} {path : Path}
      (needed : inv.command.paths? = some paths)
      (loaded : loadSettings lib files env inv.config = .ok settings)
      (searched : path ∈ searchedPaths settings paths) (noFile : files.isFile path = false)
      (noMatch : files.isDirectory path = true →
        matchingFiles lib files settings.filePattern path = .ok [])
  /-- The pattern for a directory is none. -/
  | invalidPattern {paths : List Path} {settings : Settings} {path : Path} {problem : Text}
      (needed : inv.command.paths? = some paths)
      (loaded : loadSettings lib files env inv.config = .ok settings)
      (searched : path ∈ searchedPaths settings paths) (noFile : files.isFile path = false)
      (directory : files.isDirectory path = true)
      (invalid : lib.glob files (Path.join path settings.filePattern) = .error problem)
  /-- Something in a directory cannot be looked at. -/
  | hidden {paths : List Path} {settings : Settings} {path : Path}
      {entries : List (Except Text Path)} {message : Text}
      (needed : inv.command.paths? = some paths)
      (loaded : loadSettings lib files env inv.config = .ok settings)
      (searched : path ∈ searchedPaths settings paths) (noFile : files.isFile path = false)
      (directory : files.isDirectory path = true)
      (globbed : lib.glob files (Path.join path settings.filePattern) = .ok entries)
      (mem : .error message ∈ entries)
  /-- The bytes of a file are no text. -/
  | notText {options : UpgradeOptions} {found : List Path} {path : Path}
      (finds : inv.Finds lib files env options found) (mem : path ∈ found)
      (binary : files.node? path = some (.file .binary))
  /-- A rule loses its way in a file. -/
  | misplaced {options : UpgradeOptions} {found : List Path} {path : Path} {source : Text}
      {m : Misplaced} (finds : inv.Finds lib files env options found) (mem : path ∈ found)
      (read : files.read path = .ok source) (lost : SchemaLift.upgrade options source = .error m)
  /-- A file is to be overwritten, and nobody agreed to it: whoever was asked did not say yes, or
  there was nobody to ask. -/
  | unagreed {options : UpgradeOptions} {found paths : List Path} {path : Path} {source : Text}
      {report : Report} {diff : Bool} {overrides : Overrides}
      (writes : inv.command = .upgrade paths true false diff overrides)
      (refused : env.answer ≠ some .yes)
      (finds : inv.Finds lib files env options found) (mem : path ∈ found)
      (read : files.read path = .ok source)
      (upgraded : SchemaLift.upgrade options source = .ok report)
      (differs : report.output ≠ source)

/-! ## Faults and failures -/

variable {inv : Invocation} {overrides : Overrides} {paths : List Path}

theorem Fault.of_filesAt_eq_error {settings : Settings} {path : Path}
    (hp : inv.command.paths? = some paths)
    (hload : loadSettings lib files env inv.config = .ok settings)
    (hpath : path ∈ searchedPaths settings paths)
    (h : ∃ f, filesAt lib files settings.filePattern path = .error f) : Fault lib files env inv := by
  obtain ⟨hfile, hmatch⟩ := exists_filesAt_eq_error_iff.1 h
  by_cases hdir : files.isDirectory path = true
  · rcases hmatch hdir with herror | hnone
    · rcases exists_matchingFiles_eq_error_iff.1 herror with
        ⟨problem, hproblem⟩ | ⟨entries, message, hentries, hmem⟩
      · exact .invalidPattern hp hload hpath hfile hdir hproblem
      · exact .hidden hp hload hpath hfile hdir hentries hmem
    · exact .noRubyFiles hp hload hpath hfile fun _ => hnone
  · exact .noRubyFiles hp hload hpath hfile fun hdir' => absurd hdir' hdir

/-- Whatever stage fails, it is a fault that it failed of. -/
theorem Fault.of_upgradedFiles_eq_error {f : Failure}
    (ho : inv.command.overrides? = some overrides) (hp : inv.command.paths? = some paths)
    (h : upgradedFiles lib files env inv.config overrides paths = .error f) :
    Fault lib files env inv := by
  rcases bind_eq_error_iff.1 h with hload | ⟨settings, hload, h⟩
  · exact .settings ho hload
  rcases bind_eq_error_iff.1 h with hresolve | ⟨options, hresolve, h⟩
  · obtain ⟨u, hresolve, -⟩ := mapError_eq_error_iff.1 hresolve
    obtain ⟨name, hname, hunknown⟩ := Settings.exists_of_resolve_eq_error hresolve
    exact .unknownRule ho hload hname hunknown
  rcases bind_eq_error_iff.1 h with hdiscover | ⟨found, hdiscover, h⟩
  · obtain ⟨path, hpath, hat⟩ := exists_discover_eq_error_iff.1 ⟨f, hdiscover⟩
    exact .of_filesAt_eq_error hp hload hpath hat
  · have hfinds : inv.Finds lib files env options found :=
      ⟨overrides, paths, settings, ho, hp, hload, mapError_eq_ok_iff.1 hresolve, hdiscover⟩
    obtain ⟨path, hpath, hat⟩ := exists_of_mapM_eq_error h
    rcases exists_upgradeFile_eq_error_iff.1 ⟨f, hat⟩ with ⟨e, he⟩ | ⟨source, m, hread, hlost⟩
    · rcases FileTree.read_of_isFile (isFile_of_mem_discover hdiscover hpath) with ⟨s, hs⟩ | hbinary
      · rw [hs] at he
        cases he
      · exact .notText hfinds hpath hbinary
    · exact .misplaced hfinds hpath hread hlost

/-- A command fails of every fault. -/
theorem Fault.failure_ne_none (h : Fault lib files env inv) :
    (inv.transcript lib files env).failure ≠ none := by
  intro hnone
  cases h with
  | settings ho hbad =>
    obtain ⟨settings, -, hload, -⟩ := Invocation.exists_options ho hnone
    rw [hbad] at hload
    cases hload
  | unknownRule ho hload hname hunknown =>
    obtain ⟨settings, options, hload', hresolve⟩ := Invocation.exists_options ho hnone
    obtain rfl := ok_unique hload hload'
    exact Settings.named?_of_resolve_eq_ok hresolve hname hunknown
  | noRubyFiles hp hload hpath hfile hmatch =>
    obtain ⟨f, hat⟩ := exists_filesAt_eq_error_iff.2 ⟨hfile, fun hdir => .inr (hmatch hdir)⟩
    exact Invocation.filesAt_ne_error hp hnone hload hpath hat
  | invalidPattern hp hload hpath hfile hdir hproblem =>
    have hmatch := exists_matchingFiles_eq_error_iff.2 (.inl ⟨_, hproblem⟩)
    obtain ⟨f, hat⟩ := exists_filesAt_eq_error_iff.2 ⟨hfile, fun _ => .inl hmatch⟩
    exact Invocation.filesAt_ne_error hp hnone hload hpath hat
  | hidden hp hload hpath hfile hdir hentries hmem =>
    have hmatch := exists_matchingFiles_eq_error_iff.2 (.inr ⟨_, _, hentries, hmem⟩)
    obtain ⟨f, hat⟩ := exists_filesAt_eq_error_iff.2 ⟨hfile, fun _ => .inl hmatch⟩
    exact Invocation.filesAt_ne_error hp hnone hload hpath hat
  | notText hfinds hpath hbinary =>
    obtain ⟨source, -, hread, -⟩ := Invocation.upgraded_of_finds hfinds hnone hpath
    rw [FileTree.read_of_binary hbinary] at hread
    cases hread
  | misplaced hfinds hpath hread hlost =>
    obtain ⟨source, report, hread', hupgrade⟩ := Invocation.upgraded_of_finds hfinds hnone hpath
    obtain rfl := ok_unique hread hread'
    rw [hlost] at hupgrade
    cases hupgrade
  | unagreed hcommand hrefused hfinds hpath hread hupgrade hdiffers =>
    obtain ⟨_, _, results, ho, hp, hresults, rfl, hall⟩ :=
      Invocation.exists_results_of_finds hfinds hnone
    rw [hcommand] at ho hp
    cases ho
    cases hp
    obtain ⟨f, hf, rfl⟩ := List.mem_map.1 hpath
    obtain ⟨hread', hupgrade'⟩ := hall f hf
    obtain rfl := ok_unique hread hread'
    obtain rfl := ok_unique hupgrade hupgrade'
    rw [Invocation.transcript_upgrade hcommand hresults,
      UpgradeRequest.failure_run_eq_none_iff] at hnone
    have hchanged := hnone rfl (by simp [UpgradeRequest.Agreed, hrefused])
    have hkept := List.filter_eq_nil_iff.1 hchanged f hf
    simp [UpgradedFile.changed, hdiffers] at hkept

/-- An upgrade that is to write fails of nothing but faults. -/
theorem Fault.of_failure {force diff : Bool}
    (hcommand : inv.command = .upgrade paths true force diff overrides)
    (h : (inv.transcript lib files env).failure ≠ none) : Fault lib files env inv := by
  have ho : inv.command.overrides? = some overrides := by rw [hcommand]; rfl
  have hp : inv.command.paths? = some paths := by rw [hcommand]; rfl
  cases hfiles : upgradedFiles lib files env inv.config overrides paths with
  | error f => exact .of_upgradedFiles_eq_error ho hp hfiles
  | ok results =>
    rw [Invocation.transcript_upgrade hcommand hfiles, Ne,
      UpgradeRequest.failure_run_eq_none_iff] at h
    push Not at h
    obtain ⟨-, hrefused, hchanged⟩ := h
    obtain ⟨f, hf⟩ := List.exists_mem_of_ne_nil _ hchanged
    obtain ⟨hf, hdiffers⟩ := List.mem_filter.1 hf
    obtain ⟨settings, options, found, hload, hresolve, hfound, rfl, hall⟩ :=
      upgradedFiles_eq_ok_iff.1 hfiles
    obtain ⟨hforce, hanswer⟩ := not_or.1 hrefused
    obtain rfl : force = false := by simpa using hforce
    exact .unagreed hcommand hanswer
      ⟨overrides, paths, settings, ho, hp, hload, hresolve, hfound⟩
      (List.mem_map_of_mem hf) (hall f hf).1 (hall f hf).2 (bne_iff_ne.1 hdiffers)

/-! ## What is written -/

/-- What is written are the files found that an upgrade changes, each with what the upgrade makes of
it, in the order in which they are found. -/
structure Rewrites (files : FileTree) (options : UpgradeOptions) (found : List Path)
    (written : List (Path × Text)) : Prop where
  mem_iff : ∀ path text, (path, text) ∈ written ↔ path ∈ found ∧ ∃ source report,
    files.read path = .ok source ∧ SchemaLift.upgrade options source = .ok report ∧
      report.output ≠ source ∧ text = report.output
  inOrder : (written.map Prod.fst).Sublist found

theorem rewrites_changed {options : UpgradeOptions} {results : List UpgradedFile}
    (h : ∀ f ∈ results, files.read f.path = .ok f.source ∧
      SchemaLift.upgrade options f.source = .ok f.report) :
    Rewrites files options (results.map UpgradedFile.path)
      ((results.filter UpgradedFile.changed).map fun f => (f.path, f.report.output)) where
  mem_iff path text := by
    simp only [List.mem_map, List.mem_filter, Prod.mk.injEq, UpgradedFile.changed, bne_iff_ne]
    constructor
    · rintro ⟨f, ⟨hf, hchanged⟩, rfl, rfl⟩
      exact ⟨⟨f, hf, rfl⟩, f.source, f.report, (h f hf).1, (h f hf).2, hchanged, rfl⟩
    · rintro ⟨⟨f, hf, rfl⟩, source, report, hread, hupgrade, hchanged, rfl⟩
      obtain ⟨hread', hupgrade'⟩ := h f hf
      obtain rfl := ok_unique hread hread'
      obtain rfl := ok_unique hupgrade hupgrade'
      exact ⟨f, ⟨hf, hchanged⟩, rfl, rfl⟩
  inOrder := by
    rw [List.map_map]
    exact List.filter_sublist.map UpgradedFile.path

/-- An upgrade that is to write, and does not fail, rewrites what it finds. -/
theorem Invocation.rewrites_transcript {force diff : Bool}
    (hcommand : inv.command = .upgrade paths true force diff overrides)
    (h : (inv.transcript lib files env).failure = none) :
    ∃ options found, inv.Finds lib files env options found ∧
      Rewrites files options found (inv.transcript lib files env).written := by
  have ho : inv.command.overrides? = some overrides := by rw [hcommand]; rfl
  have hp : inv.command.paths? = some paths := by rw [hcommand]; rfl
  obtain ⟨results, hresults⟩ := exists_upgradedFiles ho hp h
  obtain ⟨settings, options, found, hload, hresolve, hfound, rfl, hall⟩ :=
    upgradedFiles_eq_ok_iff.1 hresults
  refine ⟨options, _, ⟨overrides, paths, settings, ho, hp, hload, hresolve, hfound⟩, ?_⟩
  have hwritten : (inv.transcript lib files env).written =
      (results.filter UpgradedFile.changed).map fun f => (f.path, f.report.output) := by
    rw [transcript_upgrade hcommand hresults] at h ⊢
    rw [UpgradeRequest.written_run]
    rw [UpgradeRequest.failure_run_eq_none_iff] at h
    by_cases hagreed : UpgradeRequest.Agreed ⟨true, force, diff⟩ env.answer
    · exact if_pos ⟨rfl, hagreed⟩
    · rw [if_neg fun hboth => hagreed hboth.2, h rfl hagreed]
      rfl
  rw [hwritten]
  exact rewrites_changed hall

/-- Either nothing is written, or an upgrade that is told to write, and to which somebody agreed,
succeeds and writes all that it changes. Every fault leaves the files as they are, and the exit code
tells. -/
theorem run_all_or_nothing (lib : Libraries) (files : FileTree) (env : Environment)
    (words : List Text) :
    ((runWith lib files env words).1.written = [] ∨
      ∃ inv paths force diff overrides options found, lib.readArguments env words = .ok inv ∧
        inv.command = .upgrade paths true force diff overrides ∧
        (force = true ∨ env.answer = some .yes) ∧ (runWith lib files env words).2 = 0 ∧
        inv.Finds lib files env options found ∧
        Rewrites files options found (runWith lib files env words).1.written) ∧
    (∀ inv, lib.readArguments env words = .ok inv → Fault lib files env inv →
      (runWith lib files env words).1.written = [] ∧ (runWith lib files env words).2 ≠ 0) ∧
    (∀ inv paths force diff overrides, lib.readArguments env words = .ok inv →
      inv.command = .upgrade paths true force diff overrides → ¬ Fault lib files env inv →
        (runWith lib files env words).2 = 0 ∧ ∃ options found,
          inv.Finds lib files env options found ∧
          Rewrites files options found (runWith lib files env words).1.written) := by
  refine ⟨?_, fun inv hread hfault => ?_, fun inv paths force diff overrides hread hcommand hno => ?_⟩
  · cases hread : lib.readArguments env words with
    | error ending => exact .inl (written_of_ending hread)
    | ok inv =>
      rw [written_of_read hread, run_of_read hread]
      refine inv.written_transcript.imp_right ?_
      intro ⟨paths, force, diff, overrides, hcommand, hagreed, hnone⟩
      obtain ⟨options, found, hfinds, hrewrites⟩ := Invocation.rewrites_transcript hcommand hnone
      exact ⟨inv, paths, force, diff, overrides, options, found, rfl, hcommand, hagreed,
        Transcript.exitCode_eq_zero_iff.2 hnone, hfinds, hrewrites⟩
  · have hfailure := hfault.failure_ne_none
    rw [written_of_read hread, run_of_read hread]
    refine ⟨inv.written_transcript.resolve_right ?_, fun hcode =>
      hfailure (Transcript.exitCode_eq_zero_iff.1 hcode)⟩
    intro ⟨_, _, _, _, _, _, hnone⟩
    exact hfailure hnone
  · have hnone : (inv.transcript lib files env).failure = none := by
      by_contra hfailure
      exact hno (.of_failure hcommand hfailure)
    rw [written_of_read hread, run_of_read hread]
    exact ⟨Transcript.exitCode_eq_zero_iff.2 hnone,
      Invocation.rewrites_transcript hcommand hnone⟩

/-- An environment that says nothing. -/
def Environment.bare : Environment := ⟨none, none, none, none, none, none⟩

/-- An environment with somebody who gives an answer. -/
def Environment.answering (answer : Answer) : Environment :=
  { Environment.bare with answer := some answer }

/-- Two files, one with a definition of the old style. -/
def twoFiles : FileTree :=
  ⟨.directory [("a.rb".toList, .file (.text "A = GraphQL::ObjectType.define do\nend\n".toList)),
    ("b.rb".toList, .file (.text "puts 1\n".toList))], []⟩

/-- The two files with what becomes of them. -/
def twoResults : List UpgradedFile :=
  [⟨"a.rb".toList, "A = GraphQL::ObjectType.define do\nend\n".toList,
      ⟨"class A < Types::BaseObject\nend\n".toList, [(.typeDefinition, 1)], []⟩⟩,
    ⟨"b.rb".toList, "puts 1\n".toList, ⟨"puts 1\n".toList, [], []⟩⟩]

/-- Files that are named, and stand in order, are found whatever the pattern is. -/
theorem discover_of_isFile {settings : Settings} {paths : List Path} (hne : paths.isEmpty = false)
    (hfiles : ∀ p ∈ paths, files.isFile p = true) (horder : Path.inOrder paths = paths) :
    discover lib files settings paths = .ok paths := by
  have hat : ∀ ps : List Path, (∀ p ∈ ps, files.isFile p = true) →
      ps.mapM (filesAt lib files settings.filePattern) = .ok (ps.map List.singleton) := by
    intro ps hps
    refine mapM_eq_ok_iff.2 ?_
    rw [List.map_map]
    refine List.map_congr_left fun p hp => ?_
    rw [filesAt_eq, if_pos (hps p hp)]
    rfl
  have hsearched : searchedPaths settings paths = paths := by simp [searchedPaths, hne]
  refine bind_eq_ok_iff.2 ⟨paths.map List.singleton, ?_, ?_⟩
  · rw [hsearched]
    exact hat paths hfiles
  · have hflat : (paths.map List.singleton).flatten = paths := by
      rw [← List.flatMap_def]
      exact List.flatMap_singleton' paths
    rw [hflat, horder]
    rfl

theorem upgradedFiles_twoFiles (answer : Option Answer) :
    upgradedFiles lib twoFiles ⟨none, none, none, none, none, answer⟩ none .nothing
      ["a.rb".toList, "b.rb".toList] = .ok twoResults := by
  have horder : Path.inOrder (twoResults.map UpgradedFile.path) =
      twoResults.map UpgradedFile.path := by
    rw [Path.inOrder, List.mergeSort_of_pairwise (by decide +kernel)]
    decide +kernel
  exact upgradedFiles_eq_ok_iff.2 ⟨.standard, .standard, twoResults.map UpgradedFile.path, rfl, rfl,
    discover_of_isFile rfl (by decide +kernel) horder, rfl, by decide +kernel⟩

/-- An upgrade that is to write the two files. -/
def upgradeOfTwo (force : Bool) : Invocation :=
  ⟨none, .human, false, false, .upgrade ["a.rb".toList, "b.rb".toList] true force false .nothing⟩

def forcedWords : List Text := ["upgrade", "--write", "--force", "a.rb", "b.rb"].map String.toList

def unforcedWords : List Text := ["upgrade", "--write", "a.rb", "b.rb"].map String.toList

theorem transcript_upgradeOfTwo (lib : Libraries) (force : Bool) (answer : Option Answer) :
    (upgradeOfTwo force).transcript lib twoFiles ⟨none, none, none, none, none, answer⟩ =
      UpgradeRequest.run lib ⟨true, force, false⟩ answer
        ((upgradeOfTwo force).presentation ⟨none, none, none, none, none, answer⟩) twoResults :=
  Invocation.transcript_upgrade rfl (upgradedFiles_twoFiles answer)

/-- The first line writes what it changes; without `--force`, and with nobody to ask, the second one
writes nothing. -/
theorem run_all_or_nothing_twoFiles :
    (Libraries.standard.readArguments .bare forcedWords = .ok (upgradeOfTwo true) ∧
      ¬ Fault .standard twoFiles .bare (upgradeOfTwo true) ∧
      (run twoFiles .bare forcedWords).2 = 0 ∧
      (run twoFiles .bare forcedWords).1.written =
        [("a.rb".toList, "class A < Types::BaseObject\nend\n".toList)] ∧
      ∃ options found, (upgradeOfTwo true).Finds .standard twoFiles .bare options found ∧
        Rewrites twoFiles options found (run twoFiles .bare forcedWords).1.written) ∧
    (Libraries.standard.readArguments .bare unforcedWords = .ok (upgradeOfTwo false) ∧
      Fault .standard twoFiles .bare (upgradeOfTwo false) ∧
      (run twoFiles .bare unforcedWords).1.written = [] ∧
      (run twoFiles .bare unforcedWords).2 ≠ 0) := by
  have hforced : Libraries.standard.readArguments .bare forcedWords = .ok (upgradeOfTwo true) := rfl
  have hunforced : Libraries.standard.readArguments .bare unforcedWords =
      .ok (upgradeOfTwo false) := rfl
  have hno : ¬ Fault .standard twoFiles .bare (upgradeOfTwo true) := by
    intro h
    have hfailure := congrArg Transcript.failure (transcript_upgradeOfTwo .standard true none)
    refine h.failure_ne_none (hfailure.trans ?_)
    exact UpgradeRequest.failure_run_eq_none_iff.2 fun _ hno => absurd (.inl rfl) hno
  have hfault : Fault .standard twoFiles .bare (upgradeOfTwo false) := by
    refine .of_failure rfl fun h => ?_
    have hnone := (congrArg Transcript.failure (transcript_upgradeOfTwo .standard false none)).symm.trans h
    exact absurd (UpgradeRequest.failure_run_eq_none_iff.1 hnone rfl (by decide)) (by decide +kernel)
  have hwritten : (run twoFiles .bare forcedWords).1.written =
      [("a.rb".toList, "class A < Types::BaseObject\nend\n".toList)] := by
    refine (written_of_read hforced).trans
      ((congrArg Transcript.written (transcript_upgradeOfTwo .standard true none)).trans ?_)
    rw [UpgradeRequest.written_run]
    decide +kernel
  have hall := run_all_or_nothing .standard twoFiles .bare
  obtain ⟨hcode, hrewrites⟩ := (hall forcedWords).2.2 _ _ _ _ _ hforced rfl hno
  exact ⟨⟨hforced, hno, hcode, hwritten, hrewrites⟩, hunforced, hfault,
    (hall unforcedWords).2.1 _ hunforced hfault⟩

/-- One file of the old style, whose name is not that of a Ruby file. -/
def notesFile : FileTree :=
  ⟨.directory [("notes.txt".toList,
    .file (.text "A = GraphQL::ObjectType.define do\nend\n".toList))], []⟩

def notesWords : List Text := ["upgrade", "--write", "--force", "notes.txt"].map String.toList

def upgradeOfNotes : Invocation :=
  ⟨none, .human, false, false, .upgrade ["notes.txt".toList] true true false .nothing⟩

def notesResults : List UpgradedFile :=
  [⟨"notes.txt".toList, "A = GraphQL::ObjectType.define do\nend\n".toList,
    ⟨"class A < Types::BaseObject\nend\n".toList, [(.typeDefinition, 1)], []⟩⟩]

theorem upgradedFiles_notesFile :
    upgradedFiles lib notesFile .bare none .nothing ["notes.txt".toList] = .ok notesResults := by
  have horder : Path.inOrder ["notes.txt".toList] = ["notes.txt".toList] := by
    rw [Path.inOrder, List.mergeSort_of_pairwise (by decide +kernel)]
    decide +kernel
  exact upgradedFiles_eq_ok_iff.2 ⟨.standard, .standard, ["notes.txt".toList], rfl, rfl,
    discover_of_isFile rfl (by decide +kernel) horder, rfl, by decide +kernel⟩

/-- Whoever is asked may agree to what is not forced, and a file that is named is upgraded whatever its
name is. -/
theorem run_writes_agreed_and_named :
    ((run twoFiles (.answering .yes) unforcedWords).1.written =
        [("a.rb".toList, "class A < Types::BaseObject\nend\n".toList)] ∧
      (run twoFiles (.answering .yes) unforcedWords).2 = 0) ∧
    ((run notesFile .bare notesWords).1.written =
        [("notes.txt".toList, "class A < Types::BaseObject\nend\n".toList)] ∧
      (run notesFile .bare notesWords).2 = 0) := by
  have hasked : Libraries.standard.readArguments (.answering .yes) unforcedWords =
      .ok (upgradeOfTwo false) := rfl
  have hnotes : Libraries.standard.readArguments .bare notesWords = .ok upgradeOfNotes := rfl
  have htwo := transcript_upgradeOfTwo .standard false (some .yes)
  have hone : upgradeOfNotes.transcript .standard notesFile .bare = _ :=
    Invocation.transcript_upgrade rfl upgradedFiles_notesFile
  refine ⟨⟨(written_of_read hasked).trans ((congrArg Transcript.written htwo).trans ?_),
      (congrArg Prod.snd (run_of_read hasked)).trans (Transcript.exitCode_eq_zero_iff.2
        ((congrArg Transcript.failure htwo).trans ?_))⟩,
    (written_of_read hnotes).trans ((congrArg Transcript.written hone).trans ?_),
      (congrArg Prod.snd (run_of_read hnotes)).trans (Transcript.exitCode_eq_zero_iff.2
        ((congrArg Transcript.failure hone).trans ?_))⟩
  · rw [UpgradeRequest.written_run]
    decide +kernel
  · exact UpgradeRequest.failure_run_eq_none_iff.2 fun _ hno => absurd (.inr rfl) hno
  · rw [UpgradeRequest.written_run]
    decide +kernel
  · exact UpgradeRequest.failure_run_eq_none_iff.2 fun _ hno => absurd (.inl rfl) hno

end SchemaLift.Console
