import SchemaLift.Console.Discovery
import SchemaLift.Proofs.Upgrade.Settings

/-!
# Files that a run upgrades

The files of a run are found first, then each is read and upgraded, and the first failure ends the
run. `upgradedFiles` are the stages that the commands on files share, from the settings to the last
upgrade; `upgradedFiles_eq_ok_iff` says what there is when none of them fails. What makes a stage fail
is said of each by itself.
-/

namespace SchemaLift

/-! ## Computations that may fail -/

section

variable {ε ε' α β : Type}

theorem ok_unique {x : Except ε α} {a b : α} (ha : x = .ok a) (hb : x = .ok b) : a = b :=
  Except.ok.inj (ha.symm.trans hb)

theorem bind_eq_error_iff {x : Except ε α} {f : α → Except ε β} {e : ε} :
    (x >>= f) = .error e ↔ x = .error e ∨ ∃ a, x = .ok a ∧ f a = .error e := by
  cases x <;> simp [bind, Except.bind]

theorem mapError_eq_ok_iff {x : Except ε α} {f : ε → ε'} {a : α} :
    x.mapError f = .ok a ↔ x = .ok a := by
  cases x <;> simp [Except.mapError]

theorem mapError_eq_error_iff {x : Except ε α} {f : ε → ε'} {e : ε'} :
    x.mapError f = .error e ↔ ∃ e', x = .error e' ∧ f e' = e := by
  cases x <;> simp [Except.mapError]

/-- Where each result tells what it was made of, the list of the results does. -/
theorem mapM_eq_ok_iff_of_inverse {f : α → Except ε β} {g : β → α}
    (hg : ∀ a b, f a = .ok b → g b = a) {as : List α} {bs : List β} :
    as.mapM f = .ok bs ↔ bs.map g = as ∧ ∀ b ∈ bs, f (g b) = .ok b := by
  rw [mapM_eq_ok_iff]
  constructor
  · intro h
    induction as generalizing bs with
    | nil => simp_all
    | cons a as ih =>
      obtain ⟨b, bs, rfl, hb, hbs⟩ := List.map_eq_cons_iff.1 h.symm
      obtain ⟨rfl, hall⟩ := ih hbs.symm
      have hab := hg a b hb.symm
      exact ⟨by rw [List.map_cons, hab], List.forall_mem_cons.2 ⟨hab ▸ hb.symm, hall⟩⟩
  · rintro ⟨rfl, h⟩
    simpa using h

theorem exists_mapM_eq_error {f : α → Except ε β} {as : List α} {a : α} {e : ε} (ha : a ∈ as)
    (h : f a = .error e) : ∃ e, as.mapM f = .error e := by
  cases hall : as.mapM f with
  | error e => exact ⟨e, rfl⟩
  | ok bs =>
    have hat := List.mem_map_of_mem (f := f) ha
    rw [mapM_eq_ok_iff.1 hall, h] at hat
    simp at hat

theorem exists_of_mapM_eq_error {f : α → Except ε β} {as : List α} {e : ε}
    (h : as.mapM f = .error e) : ∃ a ∈ as, f a = .error e := by
  induction as with
  | nil => cases h
  | cons a as ih =>
    rw [List.mapM_cons] at h
    rcases bind_eq_error_iff.1 h with h | ⟨b, -, h⟩
    · exact ⟨a, List.mem_cons_self, h⟩
    · rcases bind_eq_error_iff.1 h with h | ⟨bs, -, h⟩
      · obtain ⟨a', ha', h⟩ := ih h
        exact ⟨a', List.mem_cons_of_mem a ha', h⟩
      · cases h

end

/-! ## Names of rules -/

namespace Settings

variable {settings : Settings} {overrides : Overrides}

/-- Settings without options have a rule to leave out that is none. -/
theorem exists_of_resolve_eq_error {u : Rule.Unknown} (h : settings.resolve overrides = .error u) :
    ∃ name ∈ settings.disabledRules ++ overrides.disable, Rule.named? name = none := by
  obtain ⟨name, hmem, hname⟩ := exists_resolve_eq_error_iff.1 ⟨u, h⟩
  exact ⟨name, hmem, Rule.named?_eq_none_iff.2 hname⟩

/-- Options leave out only rules that there are. -/
theorem named?_of_resolve_eq_ok {options : UpgradeOptions} {name : Text}
    (h : settings.resolve overrides = .ok options)
    (hname : name ∈ settings.disabledRules ++ overrides.disable) : Rule.named? name ≠ none := by
  intro hnone
  obtain ⟨u, hu⟩ := exists_resolve_eq_error_iff.2 ⟨name, hname, Rule.named?_eq_none_iff.1 hnone⟩
  rw [h] at hu
  cases hu

end Settings

/-! ## Reading files -/

/-- A file can be read unless its bytes are no text. -/
theorem FileTree.read_of_isFile {files : FileTree} {path : Path} (h : files.isFile path = true) :
    (∃ s, files.read path = .ok s) ∨ files.node? path = some (.file .binary) := by
  obtain ⟨node, hnode, hfile⟩ := (Option.any_eq_true _ _).1 h
  cases hplace : files.resolve path with
  | error e => simp [FileTree.node?, hplace] at hnode
  | ok place =>
    have hat : files.nodeAt? place = some node := by simpa [FileTree.node?, hplace] using hnode
    match node, hfile with
    | .file (.text s), _ =>
      exact .inl ⟨s, by simp [FileTree.read, hplace, hat, bind, Except.bind]⟩
    | .file .binary, _ => exact .inr hnode

theorem FileTree.read_of_binary {files : FileTree} {path : Path}
    (h : files.node? path = some (.file .binary)) : files.read path = .error .notText := by
  cases hplace : files.resolve path with
  | error e => simp [FileTree.node?, hplace] at h
  | ok place =>
    have hat : files.nodeAt? place = some (.file .binary) := by
      simpa [FileTree.node?, hplace] using h
    simp [FileTree.read, hplace, hat, bind, Except.bind]

/-! ## Finding files -/

namespace Path

theorem mem_of_mem_consDistinct {p q : Path} {rest : List Path} (h : p ∈ consDistinct q rest) :
    p = q ∨ p ∈ rest := by
  cases rest with
  | nil => simpa [consDistinct] using h
  | cons q' rest => grind [consDistinct]

theorem mem_of_mem_inOrder {p : Path} {ps : List Path} (h : p ∈ inOrder ps) : p ∈ ps := by
  have hfold : ∀ qs : List Path, p ∈ qs.foldr consDistinct [] → p ∈ qs := by
    intro qs hmem
    induction qs with
    | nil => exact hmem
    | cons q qs ih => exact List.mem_cons.2 ((mem_of_mem_consDistinct hmem).imp_right ih)
  exact List.mem_mergeSort.1 (hfold _ h)

end Path

namespace Console

variable {lib : Libraries} {files : FileTree} {env : Environment} {settings : Settings}
  {config : Option Path} {overrides : Overrides} {options : UpgradeOptions} {paths found : List Path}
  {path : Path} {pattern : Text}

theorem isFile_of_mem_matchingFiles (h : matchingFiles lib files pattern path = .ok found)
    {p : Path} (hp : p ∈ found) : files.isFile p = true := by
  obtain ⟨entries, -, h⟩ := bind_eq_ok_iff.1 h
  obtain ⟨all, -, h⟩ := bind_eq_ok_iff.1 h
  cases h
  exact (List.mem_filter.1 hp).2

/-- Looking for matches fails of the pattern, or of something that cannot be looked at. -/
theorem exists_matchingFiles_eq_error_iff :
    (∃ f, matchingFiles lib files pattern path = .error f) ↔
      (∃ problem, lib.glob files (Path.join path pattern) = .error problem) ∨
        ∃ entries message, lib.glob files (Path.join path pattern) = .ok entries ∧
          .error message ∈ entries := by
  unfold matchingFiles
  cases hglob : lib.glob files (Path.join path pattern) with
  | error problem => simp [Except.mapError, bind, Except.bind]
  | ok entries =>
    simp only [reduceCtorEq, exists_false, false_or, Except.ok.injEq, bind_eq_error_iff,
      mapError_eq_error_iff, mapError_eq_ok_iff, false_and, exists_eq_left', pure, Except.pure,
      and_false, or_false]
    constructor
    · rintro ⟨f, h⟩
      obtain ⟨entry, hentry, h⟩ := exists_of_mapM_eq_error h
      obtain ⟨message, rfl, -⟩ := mapError_eq_error_iff.1 h
      exact ⟨entries, message, rfl, hentry⟩
    · rintro ⟨_, message, rfl, hmem⟩
      exact exists_mapM_eq_error hmem rfl

theorem filesAt_eq :
    filesAt lib files pattern path =
      if files.isFile path then .ok [path]
      else if !files.isDirectory path then .error (.noRubyFiles path)
      else match matchingFiles lib files pattern path with
        | .error f => .error f
        | .ok found => if found.isEmpty then .error (.noRubyFiles path) else .ok found := by
  unfold filesAt
  cases files.isFile path <;> cases files.isDirectory path <;>
    cases matchingFiles lib files pattern path <;> rfl

theorem isFile_of_mem_filesAt (h : filesAt lib files pattern path = .ok found)
    {p : Path} (hp : p ∈ found) : files.isFile p = true := by
  rw [filesAt_eq] at h
  grind [isFile_of_mem_matchingFiles]

/-- A path stands for no files exactly if it is none, and no directory with one that matches. -/
theorem exists_filesAt_eq_error_iff :
    (∃ f, filesAt lib files pattern path = .error f) ↔
      files.isFile path = false ∧ (files.isDirectory path = true →
        (∃ f, matchingFiles lib files pattern path = .error f) ∨
          matchingFiles lib files pattern path = .ok []) := by
  rw [filesAt_eq]
  cases files.isFile path <;> cases files.isDirectory path <;>
    cases matchingFiles lib files pattern path <;> simp
  rename_i found
  cases found <;> simp

/-- What is found are files. -/
theorem isFile_of_mem_discover (h : discover lib files settings paths = .ok found)
    (hp : path ∈ found) : files.isFile path = true := by
  obtain ⟨lists, hlists, heq⟩ := bind_eq_ok_iff.1 h
  cases heq
  obtain ⟨list, hlist, hmem⟩ := List.mem_flatten.1 (Path.mem_of_mem_inOrder hp)
  have hat := List.mem_map_of_mem (f := Except.ok (ε := Failure)) hlist
  rw [← mapM_eq_ok_iff.1 hlists] at hat
  obtain ⟨start, -, hstart⟩ := List.mem_map.1 hat
  exact isFile_of_mem_filesAt hstart hmem

theorem exists_discover_eq_error_iff :
    (∃ f, discover lib files settings paths = .error f) ↔
      ∃ path ∈ searchedPaths settings paths, ∃ f,
        filesAt lib files settings.filePattern path = .error f := by
  constructor
  · rintro ⟨f, h⟩
    rcases bind_eq_error_iff.1 h with h | ⟨lists, -, h⟩
    · obtain ⟨path, hpath, h⟩ := exists_of_mapM_eq_error h
      exact ⟨path, hpath, f, h⟩
    · cases h
  · rintro ⟨path, hpath, f, h⟩
    obtain ⟨f, h⟩ := exists_mapM_eq_error hpath h
    exact ⟨f, bind_eq_error_iff.2 (.inl h)⟩

/-! ## Upgrading files -/

theorem upgradeFile_eq_ok_iff {f : UpgradedFile} :
    upgradeFile lib files options path = .ok f ↔
      f.path = path ∧ files.read path = .ok f.source ∧
        SchemaLift.upgrade options f.source = .ok f.report := by
  unfold upgradeFile
  simp only [bind_eq_ok_iff, mapError_eq_ok_iff, pure, Except.pure, Except.ok.injEq]
  constructor
  · rintro ⟨source, hread, report, hupgrade, rfl⟩
    exact ⟨rfl, hread, hupgrade⟩
  · rintro ⟨rfl, hread, hupgrade⟩
    exact ⟨f.source, hread, f.report, hupgrade, rfl⟩

theorem exists_upgradeFile_eq_error_iff :
    (∃ f, upgradeFile lib files options path = .error f) ↔
      (∃ e, files.read path = .error e) ∨ ∃ source m, files.read path = .ok source ∧
        SchemaLift.upgrade options source = .error m := by
  unfold upgradeFile
  simp only [bind_eq_error_iff, mapError_eq_error_iff, mapError_eq_ok_iff, pure, Except.pure]
  grind

/-- The stages that the commands on files share. -/
def upgradedFiles (lib : Libraries) (files : FileTree) (env : Environment) (config : Option Path)
    (overrides : Overrides) (paths : List Path) : Except Failure (List UpgradedFile) := do
  upgradeFiles lib files (← loadSettings lib files env config) overrides paths

/-- Every file that is found is upgraded, in the order in which they are found. -/
theorem upgradedFiles_eq_ok_iff {results : List UpgradedFile} :
    upgradedFiles lib files env config overrides paths = .ok results ↔
      ∃ settings options found, loadSettings lib files env config = .ok settings ∧
        settings.resolve overrides = .ok options ∧ discover lib files settings paths = .ok found ∧
        results.map UpgradedFile.path = found ∧
        ∀ f ∈ results, files.read f.path = .ok f.source ∧
          SchemaLift.upgrade options f.source = .ok f.report := by
  have hinverse : ∀ options path (f : UpgradedFile),
      upgradeFile lib files options path = .ok f → f.path = path :=
    fun options path f h => (upgradeFile_eq_ok_iff.1 h).1
  simp only [upgradedFiles, upgradeFiles, bind_eq_ok_iff, mapError_eq_ok_iff,
    mapM_eq_ok_iff_of_inverse (hinverse _), upgradeFile_eq_ok_iff, true_and]
  grind

end Console

end SchemaLift
