import Mathlib.Logic.Relation
import SchemaLift.Proofs.Console.Agreement
import SchemaLift.Proofs.Files.Path

/-!
# Runs in any order

A run upgrades its files in tasks, one for each file, and the results come in as the tasks complete.
Sorted, they are those of the files one after the other (`Tasks.collects_iff`). Two runs that search
the same paths in different orders, some of them repeatedly, upgrade the same files and come to the
same end (`run_in_any_order`). Only the spelling of a path that is spelled in two ways depends on
which comes first, and that can be seen in the output (`run_not_in_any_order`).
-/

namespace SchemaLift.Console

variable {lib : Libraries} {files : FileTree} {env : Environment} {words : List Text}
  {settings : Settings}
  {options : UpgradeOptions} {found : List Path} {results : List UpgradedFile}

/-! ## Tasks -/

/-- The files whose tasks have not completed, and the results of the others as they came in. -/
structure Tasks where
  running : List Path
  done : List UpgradedFile

namespace Tasks

/-- Any of the tasks completes, and does not fail. -/
inductive Step (lib : Libraries) (files : FileTree) (options : UpgradeOptions) :
    Tasks → Tasks → Prop
  | complete {before after : List Path} {path : Path} {done : List UpgradedFile} {f : UpgradedFile}
      (upgraded : upgradeFile lib files options path = .ok f) :
      Step lib files options ⟨before ++ path :: after, done⟩ ⟨before ++ after, done ++ [f]⟩

abbrev Reaches (lib : Libraries) (files : FileTree) (options : UpgradeOptions) :=
  Relation.ReflTransGen (Step lib files options)

/-- Results in the order of their paths. -/
def sorted (results : List UpgradedFile) : List UpgradedFile :=
  results.mergeSort fun f g => Path.precedes f.path g.path

theorem pairwise_sorted (results : List UpgradedFile) :
    (sorted results).Pairwise fun f g => Path.precedes f.path g.path = true :=
  List.pairwise_mergeSort (fun f g h => Path.precedes_trans f.path g.path h.path)
    (fun f g => Path.precedes_total f.path g.path) results

/-- What is collected when all tasks have completed. -/
def Collects (lib : Libraries) (files : FileTree) (options : UpgradeOptions) (found : List Path)
    (results : List UpgradedFile) : Prop :=
  ∃ done, Reaches lib files options ⟨found, []⟩ ⟨[], done⟩ ∧ results = sorted done

/-- The tasks of the files that are found, some of them completed. -/
structure Inv (lib : Libraries) (files : FileTree) (options : UpgradeOptions) (found : List Path)
    (t : Tasks) : Prop where
  perm : (t.done.map UpgradedFile.path ++ t.running).Perm found
  upgraded : ∀ f ∈ t.done, upgradeFile lib files options f.path = .ok f

theorem Inv.initial : Inv lib files options found ⟨found, []⟩ := ⟨.refl found, nofun⟩

theorem Inv.step {t t' : Tasks} (h : Inv lib files options found t)
    (hstep : Step lib files options t t') : Inv lib files options found t' := by
  cases hstep with
  | @complete before after path done f hf =>
    have hpath : f.path = path := (upgradeFile_eq_ok_iff.1 hf).1
    refine ⟨List.Perm.trans ?_ h.perm, fun g hg => ?_⟩
    · rw [List.map_append, List.append_assoc, List.map_singleton, hpath]
      have hmiddle : (before ++ path :: after).Perm (path :: (before ++ after)) := List.perm_middle
      exact .append_left _ hmiddle.symm
    · rcases List.mem_append.1 hg with hg | hg
      · exact h.upgraded g hg
      · obtain rfl := List.mem_singleton.1 hg
        rw [hpath]
        exact hf

theorem Inv.reaches {t t' : Tasks} (h : Inv lib files options found t)
    (hreaches : Reaches lib files options t t') : Inv lib files options found t' := by
  induction hreaches with
  | refl => exact h
  | tail _ hstep ih => exact ih.step hstep

/-- Tasks may complete in every order. -/
theorem reaches_of_perm {running order : List Path} {done : List UpgradedFile}
    (hperm : order.Perm running) (h : order.mapM (upgradeFile lib files options) = .ok results) :
    Reaches lib files options ⟨running, done⟩ ⟨[], done ++ results⟩ := by
  induction order generalizing running done results with
  | nil =>
    obtain rfl := hperm.nil_eq
    obtain rfl : results = [] := (Except.ok.inj h).symm
    rw [List.append_nil]
  | cons path rest ih =>
    obtain ⟨before, after, rfl⟩ := List.append_of_mem (hperm.subset List.mem_cons_self)
    rw [List.mapM_cons] at h
    obtain ⟨f, hf, h⟩ := bind_eq_ok_iff.1 h
    obtain ⟨fs, hfs, h⟩ := bind_eq_ok_iff.1 h
    obtain rfl := Except.ok.inj h
    have hrest : rest.Perm (before ++ after) := (hperm.trans List.perm_middle).cons_inv
    have hreaches :
        Reaches lib files options ⟨before ++ after, done ++ [f]⟩ ⟨[], done ++ [f] ++ fs⟩ :=
      ih hrest hfs
    rw [List.append_assoc, List.singleton_append] at hreaches
    exact .head (.complete hf) hreaches

theorem mapM_upgradeFile_eq_ok_iff : found.mapM (upgradeFile lib files options) = .ok results ↔
    results.map UpgradedFile.path = found ∧
      ∀ f ∈ results, upgradeFile lib files options f.path = .ok f :=
  mapM_eq_ok_iff_of_inverse fun _ _ h => (upgradeFile_eq_ok_iff.1 h).1

/-- In whatever order the tasks complete, the results are those of the files one after the other. -/
theorem collects_iff (hfound : found.Pairwise Path.Before) :
    Collects lib files options found results ↔
      found.mapM (upgradeFile lib files options) = .ok results := by
  constructor
  · rintro ⟨done, hreaches, rfl⟩
    have hinv : Inv lib files options found ⟨[], done⟩ := Inv.initial.reaches hreaches
    have hsorted : (sorted done).Perm done := List.mergeSort_perm _ _
    have hperm : ((sorted done).map UpgradedFile.path).Perm found := by
      have := hinv.perm
      rw [List.append_nil] at this
      exact (hsorted.map _).trans this
    have hle : ((sorted done).map UpgradedFile.path).Pairwise fun p q => Path.precedes p q = true :=
      List.pairwise_map.2 (pairwise_sorted done)
    refine mapM_upgradeFile_eq_ok_iff.2 ⟨?_, fun f hf => hinv.upgraded f (hsorted.subset hf)⟩
    refine List.Perm.eq_of_pairwise (fun p q hp hq hpq hqp => ?_) hle (hfound.imp And.left) hperm
    exact Path.eq_of_parts hfound (hperm.subset hp) hq (Path.leParts_antisymm hpq hqp)
  · intro h
    refine ⟨results, reaches_of_perm (.refl found) h, ?_⟩
    obtain ⟨rfl, -⟩ := mapM_upgradeFile_eq_ok_iff.1 h
    exact (List.mergeSort_of_pairwise ((List.pairwise_map.1 hfound).imp And.left)).symm

end Tasks

/-! ## What is found -/

/-- The files that the paths stand for, one path after the other, each as it is spelled there. -/
def givenFiles (lib : Libraries) (files : FileTree) (settings : Settings) (paths : List Path) :
    List Path :=
  (searchedPaths settings paths).flatMap fun path =>
    ((filesAt lib files settings.filePattern path).toOption).getD []

variable {paths paths' : List Path}

theorem discover_eq_ok (h : discover lib files settings paths = .ok found) :
    found = Path.inOrder (givenFiles lib files settings paths) := by
  obtain ⟨lists, hlists, h⟩ := bind_eq_ok_iff.1 h
  obtain rfl := Except.ok.inj h
  have hgiven : givenFiles lib files settings paths =
      ((searchedPaths settings paths).map (filesAt lib files settings.filePattern)).flatMap
        fun found => found.toOption.getD [] := by
    rw [givenFiles, List.flatMap_map]
  rw [hgiven, mapM_eq_ok_iff.1 hlists, List.flatMap_map]
  exact congrArg Path.inOrder List.flatMap_id.symm

theorem mem_searchedPaths (h : ∀ p, p ∈ paths' ↔ p ∈ paths) {p : Path} :
    p ∈ searchedPaths settings paths' ↔ p ∈ searchedPaths settings paths := by
  have hempty : paths'.isEmpty = paths.isEmpty := by
    rw [Bool.eq_iff_iff, List.isEmpty_iff, List.isEmpty_iff, List.eq_nil_iff_forall_not_mem,
      List.eq_nil_iff_forall_not_mem]
    simp only [h]
  rw [searchedPaths, searchedPaths, hempty]
  split
  · rfl
  · exact h p

theorem mem_givenFiles (h : ∀ p, p ∈ paths' ↔ p ∈ paths) {p : Path} :
    p ∈ givenFiles lib files settings paths' ↔ p ∈ givenFiles lib files settings paths := by
  simp only [givenFiles, List.mem_flatMap, mem_searchedPaths h]

/-- Paths that are searched with success may be searched in any order. -/
theorem discover_of_mem_iff (hmem : ∀ p, p ∈ paths' ↔ p ∈ paths)
    (h : discover lib files settings paths = .ok found) :
    ∃ found', discover lib files settings paths' = .ok found' := by
  cases h' : discover lib files settings paths' with
  | ok found' => exact ⟨found', rfl⟩
  | error f =>
    obtain ⟨path, hpath, hat⟩ := exists_discover_eq_error_iff.1 ⟨f, h'⟩
    obtain ⟨f', hf'⟩ := exists_discover_eq_error_iff.2 ⟨path, (mem_searchedPaths hmem).1 hpath, hat⟩
    rw [h] at hf'
    cases hf'

/-! ## The same files in other spellings -/

/-- The same file with the same upgrade, its path perhaps in another spelling. -/
structure SameFile (f g : UpgradedFile) : Prop where
  parts : Path.parts g.path = Path.parts f.path
  source : g.source = f.source
  report : g.report = f.report

theorem SameFile.changed {f g : UpgradedFile} (h : SameFile f g) : g.changed = f.changed := by
  rw [UpgradedFile.changed, UpgradedFile.changed, h.source, h.report]

theorem forall₂_changed {results' : List UpgradedFile} (h : List.Forall₂ SameFile results results') :
    List.Forall₂ SameFile (results.filter UpgradedFile.changed)
      (results'.filter UpgradedFile.changed) :=
  List.rel_filter (fun f g hfg => by show f.changed = true ↔ g.changed = true; rw [hfg.changed]) h

/-- A path in another spelling is upgraded in the same way. -/
theorem exists_sameFile {f : UpgradedFile} {p : Path}
    (hf : upgradeFile lib files options f.path = .ok f) (hfile : files.isFile f.path = true)
    (hp : files.isFile p = true) (h : Path.parts p = Path.parts f.path) :
    ∃ g, upgradeFile lib files options p = .ok g ∧ SameFile f g := by
  obtain ⟨-, hread, hupgrade⟩ := upgradeFile_eq_ok_iff.1 hf
  refine ⟨⟨p, f.source, f.report⟩, upgradeFile_eq_ok_iff.2 ⟨rfl, ?_, hupgrade⟩, h, rfl, rfl⟩
  rw [FileTree.read_congr hp hfile h]
  exact hread

theorem exists_forall₂_sameFile {found' : List Path}
    (h : found.mapM (upgradeFile lib files options) = .ok results)
    (hparts : found'.map Path.parts = found.map Path.parts)
    (hfiles : ∀ p ∈ found, files.isFile p = true) (hfiles' : ∀ p ∈ found', files.isFile p = true) :
    ∃ results', found'.mapM (upgradeFile lib files options) = .ok results' ∧
      List.Forall₂ SameFile results results' := by
  induction found' generalizing found results with
  | nil =>
    obtain rfl := List.map_eq_nil_iff.1 hparts.symm
    obtain rfl : results = [] := (Except.ok.inj h).symm
    exact ⟨[], rfl, .nil⟩
  | cons p' found' ih =>
    obtain ⟨p, rest, rfl, hp, hrest⟩ := List.map_eq_cons_iff.1 hparts.symm
    rw [List.mapM_cons] at h
    obtain ⟨f, hf, h⟩ := bind_eq_ok_iff.1 h
    obtain ⟨fs, hfs, h⟩ := bind_eq_ok_iff.1 h
    obtain rfl := Except.ok.inj h
    obtain rfl : f.path = p := (upgradeFile_eq_ok_iff.1 hf).1
    obtain ⟨g, hg, hsame⟩ := exists_sameFile hf (hfiles _ List.mem_cons_self)
      (hfiles' _ List.mem_cons_self) hp.symm
    obtain ⟨gs, hgs, hall⟩ := ih hfs hrest.symm (fun q hq => hfiles q (List.mem_cons_of_mem _ hq))
      fun q hq => hfiles' q (List.mem_cons_of_mem _ hq)
    exact ⟨g :: gs, by rw [List.mapM_cons, hg]; simp only [hgs, bind, Except.bind]; rfl,
      .cons hsame hall⟩

theorem eq_of_forall₂_sameFile {results' : List UpgradedFile}
    (h : List.Forall₂ SameFile results results')
    (hpaths : results'.map UpgradedFile.path = results.map UpgradedFile.path) : results' = results := by
  induction h with
  | nil => rfl
  | @cons f g fs gs hfg _ ih =>
    obtain ⟨hpath, hrest⟩ := List.cons.inj hpaths
    have heq : g = f := by
      cases f
      cases g
      rw [UpgradedFile.mk.injEq]
      exact ⟨hpath, hfg.source, hfg.report⟩
    rw [heq, ih hrest]

/-- Files that are upgraded when the paths are searched in one order are upgraded in any other. -/
theorem exists_upgradedFiles_of_mem_iff {config : Option Path} {overrides : Overrides}
    (hmem : ∀ p, p ∈ paths' ↔ p ∈ paths)
    (h : upgradedFiles lib files env config overrides paths = .ok results) :
    ∃ settings results', loadSettings lib files env config = .ok settings ∧
      upgradedFiles lib files env config overrides paths' = .ok results' ∧
      List.Forall₂ SameFile results results' ∧
      results.map UpgradedFile.path = Path.inOrder (givenFiles lib files settings paths) ∧
      results'.map UpgradedFile.path = Path.inOrder (givenFiles lib files settings paths') := by
  obtain ⟨settings, options, found, hload, hresolve, hfound, hpaths, hall⟩ :=
    upgradedFiles_eq_ok_iff.1 h
  obtain ⟨found', hfound'⟩ := discover_of_mem_iff hmem hfound
  have hupgraded : found.mapM (upgradeFile lib files options) = .ok results :=
    Tasks.mapM_upgradeFile_eq_ok_iff.2
      ⟨hpaths, fun f hf => upgradeFile_eq_ok_iff.2 ⟨rfl, hall f hf⟩⟩
  have hparts : found'.map Path.parts = found.map Path.parts := by
    rw [discover_eq_ok hfound, discover_eq_ok hfound']
    exact Path.map_parts_inOrder fun a => by simp only [List.mem_map, mem_givenFiles hmem]
  obtain ⟨results', hupgraded', hsame⟩ := exists_forall₂_sameFile hupgraded hparts
    (fun p hp => isFile_of_mem_discover hfound hp) fun p hp => isFile_of_mem_discover hfound' hp
  obtain ⟨hpaths', hall'⟩ := Tasks.mapM_upgradeFile_eq_ok_iff.1 hupgraded'
  have hfiles' : upgradedFiles lib files env config overrides paths' = .ok results' :=
    upgradedFiles_eq_ok_iff.2 ⟨settings, options, found', hload, hresolve, hfound', hpaths',
      fun f hf => (upgradeFile_eq_ok_iff.1 (hall' f hf)).2⟩
  exact ⟨settings, results', hload, hfiles', hsame, hpaths.trans (discover_eq_ok hfound),
    hpaths'.trans (discover_eq_ok hfound')⟩

/-- If no path is found in two spellings, the order of paths does not depend on where they stand. -/
theorem inOrder_givenFiles_congr (hmem : ∀ p, p ∈ paths' ↔ p ∈ paths)
    (hspelled : ∀ p ∈ givenFiles lib files settings paths,
      ∀ q ∈ givenFiles lib files settings paths, Path.parts p = Path.parts q → p = q) :
    Path.inOrder (givenFiles lib files settings paths') =
      Path.inOrder (givenFiles lib files settings paths) := by
  refine Path.eq_of_map_parts
    (Path.map_parts_inOrder fun a => by simp only [List.mem_map, mem_givenFiles hmem]) ?_
  intro p hp q hq
  exact hspelled p ((mem_givenFiles hmem).1 (Path.mem_of_mem_inOrder hp)) q
    (Path.mem_of_mem_inOrder hq)

/-! ## What the commands make of the results -/

/-- What a command on files makes of the results. -/
def Command.work? (lib : Libraries) (answer : Option Answer) (p : Presentation) :
    Command → Option (List UpgradedFile → Transcript)
  | upgrade _ write force diff _ => some (UpgradeRequest.run lib ⟨write, force, diff⟩ answer p)
  | check _ _ => some (runCheck lib p)
  | rules _ | completions _ => none

/-- The same command for other paths. -/
def Command.withPaths (paths : List Path) : Command → Command
  | upgrade _ write force diff overrides => upgrade paths write force diff overrides
  | check _ overrides => check paths overrides
  | rules overrides => rules overrides
  | completions shell => completions shell

def Invocation.withPaths (inv : Invocation) (paths : List Path) : Invocation :=
  { inv with command := inv.command.withPaths paths }

section

variable {inv : Invocation} {overrides : Overrides} {work : List UpgradedFile → Transcript}
  {p : Presentation}

theorem Command.overrides_withPaths (c : Command) : (c.withPaths paths).overrides? = c.overrides? := by
  cases c <;> rfl

theorem Command.paths_withPaths {c : Command} (h : c.paths? = some paths) :
    (c.withPaths paths').paths? = some paths' := by
  cases c <;> cases h <;> rfl

theorem Command.work_withPaths (c : Command) :
    (c.withPaths paths).work? lib answer p = c.work? lib answer p := by
  cases c <;> rfl

theorem Command.exists_work {c : Command} (h : c.paths? = some paths) :
    ∃ work, c.work? lib answer p = some work := by
  cases c <;> cases h <;> exact ⟨_, rfl⟩

theorem Invocation.transcript_of_work (ho : inv.command.overrides? = some overrides)
    (hp : inv.command.paths? = some paths)
    (hwork : inv.command.work? lib env.answer (inv.presentation env) = some work)
    (h : upgradedFiles lib files env inv.config overrides paths = .ok results) :
    inv.transcript lib files env = work results := by
  obtain ⟨config, format, quiet, noColor, command⟩ := inv
  cases command <;> cases ho <;> cases hp <;> cases hwork
  · exact transcript_upgrade rfl h
  · exact transcript_check rfl h

/-- Whether leave is refused depends on no more than whether there are changes. -/
theorem UpgradeRequest.ask_congr {r : UpgradeRequest} {answer : Option Answer}
    {changed changed' : List UpgradedFile} (h : changed'.isEmpty = changed.isEmpty) :
    (r.ask lib answer p changed').2 = (r.ask lib answer p changed).2 := by
  unfold ask confirm
  rw [h]
  cases r.write && !changed.isEmpty <;> cases r.force <;> cases answer <;> rfl

/-- The same path, perhaps in another spelling, with the same text. -/
structure SameWritten (w w' : Path × Text) : Prop where
  parts : Path.parts w'.1 = Path.parts w.1
  text : w'.2 = w.2

/-- How a command ends, and what it writes, depends on the files and not on their spelling. -/
theorem Command.work_same {c : Command} {results' : List UpgradedFile}
    (hwork : c.work? lib answer p = some work) (h : List.Forall₂ SameFile results results') :
    (work results').failure = (work results).failure ∧
      List.Forall₂ SameWritten (work results).written (work results').written := by
  have hchanged := forall₂_changed h
  have hwritten : List.Forall₂ SameWritten
      ((results.filter UpgradedFile.changed).map fun f => (f.path, f.report.output))
      ((results'.filter UpgradedFile.changed).map fun f => (f.path, f.report.output)) :=
    List.forall₂_map_left_iff.2 (List.forall₂_map_right_iff.2
      (hchanged.imp fun f g hfg => ⟨hfg.parts, congrArg Report.output hfg.report⟩))
  have hlength := hchanged.length_eq
  cases c with
  | upgrade paths write force diff overrides =>
    obtain rfl := Option.some.inj hwork
    constructor
    · have hempty : (results'.filter UpgradedFile.changed).isEmpty =
          (results.filter UpgradedFile.changed).isEmpty := by
        rw [Bool.eq_iff_iff, List.isEmpty_iff_length_eq_zero, List.isEmpty_iff_length_eq_zero, hlength]
      rw [UpgradeRequest.failure_run, UpgradeRequest.failure_run]
      exact UpgradeRequest.ask_congr hempty
    · rw [UpgradeRequest.written_run, UpgradeRequest.written_run]
      split
      · exact hwritten
      · exact .nil
  | check paths overrides =>
    obtain rfl := Option.some.inj hwork
    constructor
    · simp only [failure_runCheck, ← List.length_eq_zero_iff, hlength]
    · rw [written_runCheck, written_runCheck]
      exact .nil
  | rules | completions => cases hwork

end

/-! ## Runs -/

/-- The run of a command on files may end so, if its tasks complete in some order and none fails. -/
def Ends (lib : Libraries) (files : FileTree) (env : Environment) (words : List Text)
    (e : Transcript × Nat) : Prop :=
  ∃ inv options found results work, lib.readArguments env words = .ok inv ∧
    inv.Finds lib files env options found ∧ Tasks.Collects lib files options found results ∧
    inv.command.work? lib env.answer (inv.presentation env) = some work ∧
    e = ((inv.presentation env).close lib (work results), (work results).exitCode)

/-- The results have every given path once, in order, in the spelling that was given first. -/
structure OnceInOrder (given : List Path) (results : List UpgradedFile) : Prop where
  ascending : results.Pairwise fun f g => Path.Before f.path g.path
  once : ∀ path ∈ given, results.countP (fun f => Path.same path f.path) = 1
  first : ∀ f ∈ results, given.find? (Path.same f.path) = some f.path

theorem onceInOrder_of_inOrder {given : List Path}
    (h : results.map UpgradedFile.path = Path.inOrder given) : OnceInOrder given results := by
  have hascending : results.Pairwise fun f g => Path.Before f.path g.path :=
    List.pairwise_map.1 (h ▸ Path.pairwise_inOrder given)
  have hmem (f : UpgradedFile) (hf : f ∈ results) : f.path ∈ Path.inOrder given :=
    h ▸ List.mem_map_of_mem hf
  refine ⟨hascending, fun path hpath => ?_, fun f hf => Path.mem_inOrder_iff.1 (hmem f hf)⟩
  have hparts : Path.parts path ∈ (Path.inOrder given).map Path.parts :=
    Path.mem_map_parts_inOrder.2 (List.mem_map_of_mem hpath)
  have hnodup : ((Path.inOrder given).map Path.parts).Nodup :=
    List.pairwise_map.2 ((Path.pairwise_inOrder given).imp And.right)
  rw [← List.count_eq_one_of_mem hnodup hparts, ← h, List.map_map, List.count, List.countP_map]
  exact List.countP_congr fun f _ => by rw [Path.same_iff]; exact beq_iff_eq.symm

/-- Every order in which the tasks complete leads to the run. -/
theorem ends_iff {inv : Invocation} {overrides : Overrides}
    (hwords : lib.readArguments env words = .ok inv)
    (ho : inv.command.overrides? = some overrides) (hp : inv.command.paths? = some paths)
    (hfiles : upgradedFiles lib files env inv.config overrides paths = .ok results)
    (e : Transcript × Nat) : Ends lib files env words e ↔ e = runWith lib files env words := by
  obtain ⟨settings, options, found, hload, hresolve, hfound, hpaths, hall⟩ :=
    upgradedFiles_eq_ok_iff.1 hfiles
  obtain ⟨work, hwork⟩ := Command.exists_work hp
  have hascending : found.Pairwise Path.Before := by
    rw [discover_eq_ok hfound]
    exact Path.pairwise_inOrder _
  have hupgraded : found.mapM (upgradeFile lib files options) = .ok results :=
    Tasks.mapM_upgradeFile_eq_ok_iff.2
      ⟨hpaths, fun f hf => upgradeFile_eq_ok_iff.2 ⟨rfl, hall f hf⟩⟩
  rw [run_of_read hwords, Invocation.transcript_of_work ho hp hwork hfiles]
  constructor
  · rintro ⟨inv', options', found', results', work', hwords', hfinds, hcollects, hwork', rfl⟩
    obtain rfl := ok_unique hwords hwords'
    obtain rfl := Option.some.inj (hwork.symm.trans hwork')
    obtain ⟨overrides', paths', settings', ho', hp', hload', hresolve', hfound'⟩ := hfinds
    obtain rfl := Option.some.inj (ho.symm.trans ho')
    obtain rfl := Option.some.inj (hp.symm.trans hp')
    obtain rfl := ok_unique hload hload'
    obtain rfl := ok_unique hresolve hresolve'
    obtain rfl := ok_unique hfound hfound'
    obtain rfl := ok_unique hupgraded ((Tasks.collects_iff hascending).1 hcollects)
    rfl
  · rintro rfl
    exact ⟨inv, options, found, results, work, hwords,
      ⟨overrides, paths, settings, ho, hp, hload, hresolve, hfound⟩,
      (Tasks.collects_iff hascending).2 hupgraded, hwork, rfl⟩

/-- What two runs have in common that search the same paths in different orders. -/
structure OrderFree (lib : Libraries) (files : FileTree) (env : Environment)
    (words words' : List Text) (given given' : List Path) (results results' : List UpgradedFile) :
    Prop where
  ends : ∀ e, Ends lib files env words e ↔ e = runWith lib files env words
  ends' : ∀ e, Ends lib files env words' e ↔ e = runWith lib files env words'
  once : OnceInOrder given results
  once' : OnceInOrder given' results'
  same : List.Forall₂ SameFile results results'
  exitCode : (runWith lib files env words').2 = (runWith lib files env words).2
  written : List.Forall₂ SameWritten (runWith lib files env words).1.written
    (runWith lib files env words').1.written
  printed : ∃ inv work, lib.readArguments env words = .ok inv ∧
    inv.command.work? lib env.answer (inv.presentation env) = some work ∧
    (runWith lib files env words).1 = (inv.presentation env).close lib (work results) ∧
    (runWith lib files env words').1 = (inv.presentation env).close lib (work results')
  equal : (∀ p ∈ given, ∀ q ∈ given, Path.parts p = Path.parts q → p = q) →
    runWith lib files env words' = runWith lib files env words

/-- **Order makes no difference.** Of two command lines that differ in the order of the paths, and in
how often each is given, both runs process every file once, in order, and come to the same end, in
whatever order their tasks complete. What they print is made in the same way of the same results; these
differ in no more than the spelling of paths that are given in several, and in nothing if none is. -/
theorem run_in_any_order (lib : Libraries) (files : FileTree) (env : Environment)
    (words words' : List Text) (inv : Invocation) (overrides : Overrides) (paths paths' : List Path)
    (results : List UpgradedFile) (hwords : lib.readArguments env words = .ok inv)
    (ho : inv.command.overrides? = some overrides) (hp : inv.command.paths? = some paths)
    (hwords' : lib.readArguments env words' = .ok (inv.withPaths paths'))
    (hmem : ∀ p, p ∈ paths' ↔ p ∈ paths)
    (hfiles : upgradedFiles lib files env inv.config overrides paths = .ok results) :
    ∃ settings results', loadSettings lib files env inv.config = .ok settings ∧
      OrderFree lib files env words words' (givenFiles lib files settings paths)
        (givenFiles lib files settings paths') results results' := by
  obtain ⟨settings, results', hload, hfiles', hsame, hpaths, hpaths'⟩ :=
    exists_upgradedFiles_of_mem_iff hmem hfiles
  have ho' : (inv.withPaths paths').command.overrides? = some overrides :=
    (Command.overrides_withPaths inv.command).trans ho
  have hp' : (inv.withPaths paths').command.paths? = some paths' := Command.paths_withPaths hp
  obtain ⟨work, hwork⟩ := Command.exists_work hp
  have hwork' :
      (inv.withPaths paths').command.work? lib env.answer (inv.presentation env) = some work :=
    (Command.work_withPaths inv.command).trans hwork
  obtain ⟨hfailure, hwritten⟩ := Command.work_same hwork hsame
  have hrun : runWith lib files env words =
      ((inv.presentation env).close lib (work results), (work results).exitCode) := by
    rw [run_of_read hwords, Invocation.transcript_of_work ho hp hwork hfiles]
  have hrun' : runWith lib files env words' =
      ((inv.presentation env).close lib (work results'), (work results').exitCode) := by
    rw [run_of_read hwords', Invocation.transcript_of_work ho' hp' hwork' hfiles']
    rfl
  refine ⟨settings, results', hload, ends_iff hwords ho hp hfiles, ends_iff hwords' ho' hp' hfiles',
    onceInOrder_of_inOrder hpaths, onceInOrder_of_inOrder hpaths', hsame, ?_, ?_,
    ⟨inv, work, hwords, hwork, by rw [hrun], by rw [hrun']⟩, fun hspelled => ?_⟩
  · rw [hrun, hrun', Transcript.exitCode, Transcript.exitCode, hfailure]
  · rw [hrun, hrun']
    exact hwritten
  · have hequal : results' = results := eq_of_forall₂_sameFile hsame
      (hpaths'.trans ((inOrder_givenFiles_congr hmem hspelled).trans hpaths.symm))
    rw [hrun, hrun', hequal]

/-- The two files in the other order, one of them twice. -/
def shuffledWords : List Text :=
  ["upgrade", "--write", "--force", "b.rb", "a.rb", "b.rb"].map String.toList

def shuffledPaths : List Path := ["b.rb", "a.rb", "b.rb"].map String.toList

/-- No path is spelled in two ways here, so both runs are the same. -/
theorem run_in_any_order_twoFiles :
    Libraries.standard.readArguments .bare forcedWords = .ok (upgradeOfTwo true) ∧
      Libraries.standard.readArguments .bare shuffledWords =
        .ok ((upgradeOfTwo true).withPaths shuffledPaths) ∧
      upgradedFiles .standard twoFiles .bare none .nothing ["a.rb".toList, "b.rb".toList] =
        .ok twoResults ∧
      (∃ settings results', loadSettings .standard twoFiles .bare none = .ok settings ∧
        OrderFree .standard twoFiles .bare forcedWords shuffledWords
          (givenFiles .standard twoFiles settings ["a.rb".toList, "b.rb".toList])
          (givenFiles .standard twoFiles settings shuffledPaths) twoResults results') ∧
      run twoFiles .bare shuffledWords = run twoFiles .bare forcedWords := by
  have hwords : Libraries.standard.readArguments .bare forcedWords = .ok (upgradeOfTwo true) := rfl
  have hwords' : Libraries.standard.readArguments .bare shuffledWords =
      .ok ((upgradeOfTwo true).withPaths shuffledPaths) := rfl
  have hmem : ∀ p, p ∈ shuffledPaths ↔ p ∈ ["a.rb".toList, "b.rb".toList] := by
    intro p
    simp only [shuffledPaths, List.map_cons, List.map_nil, List.mem_cons, List.not_mem_nil, or_false]
    tauto
  have hfree := run_in_any_order .standard twoFiles .bare forcedWords shuffledWords
    (upgradeOfTwo true) .nothing ["a.rb".toList, "b.rb".toList] shuffledPaths twoResults hwords rfl
    rfl hwords' hmem (upgradedFiles_twoFiles none)
  refine ⟨hwords, hwords', upgradedFiles_twoFiles none, hfree, ?_⟩
  obtain ⟨settings, results', hload, hfree⟩ := hfree
  obtain rfl : Settings.standard = settings := Except.ok.inj hload
  exact hfree.equal (by decide +kernel)

/-- A file that is named in two spellings. -/
def nestedFile : FileTree :=
  ⟨.directory [("types".toList, .directory
    [("a.rb".toList, .file (.text "A = GraphQL::ObjectType.define do\nend\n".toList))])], []⟩

def spelledWords (first second : Path) : List Text :=
  ["check", "--format", "plain"].map String.toList ++ [first, second]

def spelledResults (path : Path) : List UpgradedFile :=
  [⟨path, "A = GraphQL::ObjectType.define do\nend\n".toList,
    ⟨"class A < Types::BaseObject\nend\n".toList, [(.typeDefinition, 1)], []⟩⟩]

theorem output_spelledWords {first second : Path}
    (hwords : Libraries.standard.readArguments .bare (spelledWords first second) =
      .ok ⟨none, .plain, false, false, .check [first, second] .nothing⟩)
    (hat : [first, second].mapM (filesAt .standard nestedFile Settings.standard.filePattern) =
      .ok [[first], [second]])
    (hread : nestedFile.read first = .ok "A = GraphQL::ObjectType.define do\nend\n".toList)
    (hsame : Path.parts first = Path.parts second) :
    (run nestedFile .bare (spelledWords first second)).1.output =
      Presentation.lineText (Path.shown first) := by
  have horder : Path.inOrder [first, second] = [first] := by
    have hle : Path.precedes first second = true := by
      rw [Path.precedes_eq, hsame]
      exact Path.leParts_refl _
    rw [Path.inOrder, List.mergeSort_of_pairwise (List.pairwise_pair.2 hle)]
    exact if_pos hsame
  have hupgrade : SchemaLift.upgrade .standard "A = GraphQL::ObjectType.define do\nend\n".toList =
      .ok ⟨"class A < Types::BaseObject\nend\n".toList, [(.typeDefinition, 1)], []⟩ := by
    decide +kernel
  have hfiles : upgradedFiles .standard nestedFile .bare none .nothing [first, second] =
      .ok (spelledResults first) :=
    upgradedFiles_eq_ok_iff.2 ⟨.standard, .standard, [first], rfl, rfl,
      bind_eq_ok_iff.2 ⟨_, hat, congrArg Except.ok horder⟩, rfl,
      fun f hf => List.mem_singleton.1 hf ▸ ⟨hread, hupgrade⟩⟩
  have htranscript : Invocation.transcript .standard nestedFile .bare
      ⟨none, .plain, false, false, .check [first, second] .nothing⟩ = _ :=
    Invocation.transcript_check rfl hfiles
  have hrun : run nestedFile .bare (spelledWords first second) = _ := run_of_read hwords
  rw [hrun, htranscript]
  show (runCheck .standard ⟨.plain, false, false⟩ (spelledResults first)).output = _
  rw [output_runCheck]
  exact List.append_nil _

/-- The check prints the spelling that it meets first. -/
theorem run_not_in_any_order :
    (spelledWords "types//a.rb".toList "types/a.rb".toList).Perm
        (spelledWords "types/a.rb".toList "types//a.rb".toList) ∧
      (run nestedFile .bare (spelledWords "types//a.rb".toList "types/a.rb".toList)).1.output =
        "types//a.rb\n".toList ∧
      (run nestedFile .bare (spelledWords "types/a.rb".toList "types//a.rb".toList)).1.output =
        "types/a.rb\n".toList :=
  ⟨.append_left _ (.swap _ _ _),
    output_spelledWords rfl (by decide +kernel) (by decide +kernel) (by decide +kernel),
    output_spelledWords rfl (by decide +kernel) (by decide +kernel) (by decide +kernel)⟩

end SchemaLift.Console
