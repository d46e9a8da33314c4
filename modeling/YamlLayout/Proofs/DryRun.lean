import Mathlib.Data.Set.Card
import YamlLayout.Proofs.MemoryFiles
import YamlLayout.Proofs.QuietCommands

/-!
# Dry runs

Files are repaired one after the other, each from its own text. A run that only looks at
them counts what the other one changes.
-/
namespace YamlLayout

theorem Suite.ne_of_fix {suite : Suite} {path : Path} {text fixed : List Char}
    (h : suite.fix ⟨path, text⟩ = some fixed) : fixed ≠ text := by
  unfold Suite.fix at h
  dsimp only at h
  split at h
  · cases h
  · rename_i hne
    rw [← Option.some.inj h]
    simpa using hne

namespace Memory

variable {α β : Type}

/-- Runs a command on files in memory. -/
def perform (s : Memory) (command : ExceptT CommandError (StateM Memory) α) :
    Except CommandError α × Memory :=
  command.run.run s

variable {s t : Memory} {command : ExceptT CommandError (StateM Memory) α} {path : Path}

theorem perform_bind {a : α} (h : s.perform command = (.ok a, t))
    (next : α → ExceptT CommandError (StateM Memory) β) :
    s.perform (command >>= next) = t.perform (next a) := by
  have hrun : s.perform (command >>= next) =
      (ExceptT.bindCont next (s.perform command).1).run (s.perform command).2 := rfl
  rw [hrun, h]
  rfl

theorem QuietCommand.perform_eq {a : α} (h : QuietCommand command)
    (hok : (s.perform command).1 = .ok a) : s.perform command = (.ok a, s) :=
  Prod.ext hok (h s)

theorem perform_attempt {action : StateM Memory (Except FileError α)} {a : α}
    (h : action.run s = (.ok a, t)) (failure : FileError → CommandError) :
    s.perform (Command.attempt failure action) = (.ok a, t) := by
  unfold perform Command.attempt
  rw [ExceptT.run_mk, StateT.run_bind, h]
  rfl

theorem run_readText {text : List Char} (h : s.text? path = some text) :
    (readText path : StateM Memory _).run s = (.ok text, s) := by
  obtain ⟨content, hcontent, hdecoded⟩ := Option.bind_eq_some_iff.mp h
  obtain ⟨string, hstring, rfl⟩ := Option.map_eq_some_iff.mp hdecoded
  have hread : s.read path = .ok content := by
    cases hresult : s.read path with
    | error e => simp [hresult, Except.toOption] at hcontent
    | ok bytes => simpa [hresult, Except.toOption] using hcontent
  have hrun : (Host.read path : StateM Memory _).run s = (s.read path, s) := rfl
  unfold readText
  rw [StateT.run_bind, hrun, hread]
  dsimp only [bind]
  rw [hstring]
  rfl

theorem run_writeText {names : List String} {old : ByteArray}
    (hlocate : s.locate path = .ok names) (hfile : s.fileAt? names = some old)
    (text : List Char) :
    (writeText path text : StateM Memory _).run s =
      (.ok (), { s with root := s.root.put names (.file (String.ofList text).toUTF8) }) := by
  unfold writeText
  simp only [Host.write, StateT.run_bind, StateT.run_get, pure_bind]
  rw [write_eq hlocate hfile]
  rfl

theorem perform_print (line : String) :
    s.perform (Command.print line) = (.ok (), { s with output := s.output ++ [line] }) := rfl

/-- The text that repairing gives to a file, if it changes the file. -/
def repaired? (s : Memory) (suite : Suite) (path : Path) : Option (List Char) :=
  (s.text? path).bind fun text => suite.fix ⟨path, text⟩

/-- What becomes of the files when those at some paths are repaired, or only looked at. -/
structure Repairs (s : Memory) (suite : Suite) (check : Bool) (paths : List Path) (t : Memory) :
    Prop where
  samePlaces : s.SamePlaces t
  root_eq : check = true → t.root = s.root
  text?_eq : check = false → ∀ path ∈ paths, ∀ fixed, s.repaired? suite path = some fixed →
    t.text? path = some fixed
  fileAt?_eq : ∀ names,
    (∀ path ∈ paths, s.locate path = .ok names → s.repaired? suite path = none) →
      t.fileAt? names = s.fileAt? names

variable {suite : Suite} {check : Bool} {paths : List Path} {fixed : List Char}

theorem repairs_self (h : ∀ path ∈ paths, s.repaired? suite path = none) :
    s.Repairs suite check paths s := by
  refine ⟨.refl s, fun _ => rfl, fun _ path hpath fixed hfixed => ?_, fun _ _ => rfl⟩
  rw [h path hpath] at hfixed
  cases hfixed

/-- Telling that a file would change leaves it as it is. -/
theorem repairs_of_output (output : List String) :
    s.Repairs suite true paths { s with output := output } :=
  ⟨⟨fun _ => rfl, rfl⟩, fun _ => rfl, fun h => Bool.noConfusion h, fun _ _ => rfl⟩

theorem repairs_of_overwrites {names : List String} (hlocate : s.locate path = .ok names)
    (hfixed : s.repaired? suite path = some fixed)
    (h : s.Overwrites names (String.ofList fixed).toUTF8 t) : s.Repairs suite false [path] t := by
  refine ⟨h.samePlaces, fun h => Bool.noConfusion h, fun _ p hp new hnew => ?_,
    fun other hother => h.fileAt?_of_ne other ?_⟩
  · rw [List.mem_singleton.mp hp, hfixed, Option.some.injEq] at hnew
    rw [List.mem_singleton.mp hp, ← hnew, text?_eq_some_iff, h.samePlaces.locate_eq]
    exact ⟨names, hlocate, h.fileAt?_self⟩
  · rintro rfl
    rw [hother path (List.mem_singleton.mpr rfl) hlocate] at hfixed
    cases hfixed

/-- One file is read, and written if it changes and is not only looked at. -/
theorem exists_repairs_step (suite : Suite) (check : Bool) (h : (s.text? path).isSome = true) :
    ∃ t, s.Repairs suite check [path] t ∧ ∀ tally paths,
      s.perform (Command.fixFiles suite check tally (path :: paths)) =
        t.perform (Command.fixFiles suite check ⟨tally.checked + 1,
          tally.changed + if (s.repaired? suite path).isSome then 1 else 0⟩ paths) := by
  obtain ⟨text, htext⟩ := Option.isSome_iff_exists.mp h
  obtain ⟨names, hlocate, hfile⟩ := text?_eq_some_iff.mp htext
  have hrepaired : s.repaired? suite path = suite.fix ⟨path, text⟩ := by
    rw [repaired?, htext, Option.bind_some]
  rw [hrepaired]
  cases hfix : suite.fix ⟨path, text⟩ with
  | none =>
    refine ⟨s, repairs_self (by simp [hrepaired, hfix]), fun tally paths => ?_⟩
    rw [Command.fixFiles, perform_bind (perform_attempt (run_readText htext) _), hfix]
    rfl
  | some fixed =>
    rw [hfix] at hrepaired
    cases check with
    | true =>
      refine ⟨{ s with output := s.output ++ ["Would fix: " ++ path.text] },
        repairs_of_output _, fun tally paths => ?_⟩
      rw [Command.fixFiles, perform_bind (perform_attempt (run_readText htext) _), hfix]
      exact perform_bind (perform_print _) _
    | false =>
      refine ⟨{ s with
          root := s.root.put names (.file (String.ofList fixed).toUTF8)
          output := s.output ++ ["Fixed: " ++ path.text] },
        repairs_of_overwrites hlocate hrepaired (overwrites_of_root_eq hfile rfl rfl),
        fun tally paths => ?_⟩
      rw [Command.fixFiles, perform_bind (perform_attempt (run_readText htext) _), hfix]
      exact (perform_bind (perform_attempt (run_writeText hlocate hfile fixed) _) _).trans
        (perform_bind (perform_print _) _)

theorem text?_congr (hplaces : s.SamePlaces t)
    (hfile : ∀ names, s.locate path = .ok names → t.fileAt? names = s.fileAt? names) :
    t.text? path = s.text? path := by
  apply Option.ext
  intro text
  rw [text?_eq_some_iff, text?_eq_some_iff, hplaces.locate_eq]
  constructor
  · rintro ⟨names, hlocate, hcontent⟩
    exact ⟨names, hlocate, by rw [← hfile names hlocate, hcontent]⟩
  · rintro ⟨names, hlocate, hcontent⟩
    exact ⟨names, hlocate, by rw [hfile names hlocate, hcontent]⟩

/-- A file apart from those that are repaired keeps its text. -/
theorem Repairs.text?_of_apart (h : s.Repairs suite check paths t)
    (hapart : ∀ p ∈ paths, s.locate p ≠ s.locate path) : t.text? path = s.text? path := by
  refine text?_congr h.samePlaces fun names hlocate => h.fileAt?_eq names fun p hp hsame => ?_
  exact absurd (hsame.trans hlocate.symm) (hapart p hp)

theorem Repairs.text?_of_ne {other : Path} (h : s.Repairs suite check [path] t)
    (hne : s.locate path ≠ s.locate other) : t.text? other = s.text? other := by
  apply h.text?_of_apart
  intro p hp
  rw [List.mem_singleton.mp hp]
  exact hne

theorem Repairs.cons {u : Memory} (hfirst : s.Repairs suite check [path] u)
    (hrest : u.Repairs suite check paths t)
    (hapart : ∀ p ∈ paths, s.locate path ≠ s.locate p) :
    s.Repairs suite check (path :: paths) t := by
  have hlocate := hfirst.samePlaces.locate_eq
  have hsame : ∀ p ∈ paths, u.repaired? suite p = s.repaired? suite p := by
    intro p hp
    rw [repaired?, repaired?, hfirst.text?_of_ne (hapart p hp)]
  refine ⟨hfirst.samePlaces.trans hrest.samePlaces, fun hcheck => ?_,
    fun hcheck p hp fixed hp' => ?_, fun names hnames => ?_⟩
  · rw [hrest.root_eq hcheck, hfirst.root_eq hcheck]
  · rcases List.mem_cons.mp hp with rfl | hp
    · have hkept : t.text? p = u.text? p := by
        apply hrest.text?_of_apart
        intro q hq
        rw [hlocate, hlocate]
        exact (hapart q hq).symm
      rw [hkept]
      exact hfirst.text?_eq hcheck p (List.mem_singleton.mpr rfl) fixed hp'
    · exact hrest.text?_eq hcheck p hp fixed (by rw [hsame p hp, hp'])
  · rw [hrest.fileAt?_eq names, hfirst.fileAt?_eq names]
    · intro p hp hp'
      rw [List.mem_singleton.mp hp] at hp' ⊢
      exact hnames path List.mem_cons_self hp'
    · intro p hp hp'
      rw [hlocate] at hp'
      rw [hsame p hp]
      exact hnames p (List.mem_cons_of_mem _ hp) hp'

/-- Repairing files that are apart from each other counts them, and those that change. -/
theorem exists_repairs (suite : Suite) (check : Bool) (tally : Tally)
    (hapart : paths.Pairwise fun p q => s.locate p ≠ s.locate q)
    (hreadable : ∀ p ∈ paths, (s.text? p).isSome = true) :
    ∃ t, s.Repairs suite check paths t ∧
      s.perform (Command.fixFiles suite check tally paths) =
        (.ok ⟨tally.checked + paths.length,
          tally.changed + paths.countP fun p => (s.repaired? suite p).isSome⟩, t) := by
  induction paths generalizing s tally with
  | nil => exact ⟨s, repairs_self (by simp), rfl⟩
  | cons path paths ih =>
    obtain ⟨hfirst, hrest⟩ := List.pairwise_cons.mp hapart
    obtain ⟨u, hstep, hrun⟩ := exists_repairs_step suite check (hreadable path List.mem_cons_self)
    have hlocate := hstep.samePlaces.locate_eq
    have htext : ∀ p ∈ paths, u.text? p = s.text? p := fun p hp => hstep.text?_of_ne (hfirst p hp)
    have hrest' : paths.Pairwise fun p q => u.locate p ≠ u.locate q := by
      simpa only [hlocate] using hrest
    have hreadable' : ∀ p ∈ paths, (u.text? p).isSome = true := by
      intro p hp
      rw [htext p hp]
      exact hreadable p (List.mem_cons_of_mem _ hp)
    have hcount : (paths.countP fun p => (u.repaired? suite p).isSome) =
        paths.countP fun p => (s.repaired? suite p).isSome :=
      List.countP_congr fun p hp => by rw [repaired?, repaired?, htext p hp]
    obtain ⟨t, hrepairs, hperform⟩ := ih ⟨tally.checked + 1,
      tally.changed + if (s.repaired? suite path).isSome then 1 else 0⟩ hrest' hreadable'
    refine ⟨t, hstep.cons hrepairs hfirst, ?_⟩
    rw [hrun, hperform, hcount, List.countP_cons, List.length_cons]
    refine congrArg (fun tally => (Except.ok tally, t)) ?_
    rw [Tally.mk.injEq]
    constructor <;> dsimp only <;> omega

/-- Messages make no difference to the files. -/
theorem Repairs.of_root_eq {u : Memory} (h : s.Repairs suite check paths t)
    (hroot : u.root = t.root) (hdirectory : u.directory = t.directory) :
    s.Repairs suite check paths u := by
  have hplaces : t.SamePlaces u := ⟨fun names => by rw [hroot], hdirectory⟩
  have hfile : ∀ names, u.fileAt? names = t.fileAt? names := by
    intro names
    rw [fileAt?, fileAt?, hroot]
  refine ⟨h.samePlaces.trans hplaces, fun hcheck => ?_, fun hcheck path hpath fixed hfixed => ?_,
    fun names hnames => ?_⟩
  · rw [hroot, h.root_eq hcheck]
  · rw [text?_congr hplaces fun names _ => hfile names]
    exact h.text?_eq hcheck path hpath fixed hfixed
  · rw [hfile, h.fileAt?_eq names hnames]

variable {request : FixRequest} {settings : Option Settings}

/-- The whole command repairs the files that it collects, or only looks at them. -/
theorem exists_repairs_fix
    (hsettings : (s.perform (Command.loadSettings request.settings)).1 = .ok settings)
    (hpaths : (s.perform (Command.files (Suite.ofSettings settings).watched request.paths)).1 =
      .ok paths)
    (hapart : paths.Pairwise fun p q => s.locate p ≠ s.locate q)
    (hreadable : ∀ p ∈ paths, (s.text? p).isSome = true) (check : Bool) :
    ∃ t, s.Repairs (Suite.ofSettings settings) check paths t ∧
      s.perform (Command.fix { request with check := check }) =
        (.ok ⟨paths.length,
          paths.countP fun p => (s.repaired? (Suite.ofSettings settings) p).isSome⟩, t) := by
  have hload := (quiet_loadSettings request.settings).perform_eq hsettings
  have hcollect := (quiet_files _ request.paths).perform_eq hpaths
  rw [Command.fix, perform_bind hload, perform_bind hcollect]
  by_cases hnil : paths = []
  · subst hnil
    exact ⟨{ s with warnings := s.warnings ++ ["No files found"] },
      (repairs_self (by simp)).of_root_eq rfl rfl, rfl⟩
  · obtain ⟨t, hrepairs, hrun⟩ :=
      exists_repairs (Suite.ofSettings settings) check ⟨0, 0⟩ hapart hreadable
    rw [Nat.zero_add, Nat.zero_add] at hrun
    rw [if_neg (by simpa using hnil), perform_bind hrun, perform_bind (perform_print _)]
    refine ⟨_, ?_, rfl⟩
    exact hrepairs.of_root_eq rfl rfl

theorem Repairs.fileAt?_ne {names : List String} (h : s.Repairs suite false paths t)
    (hpath : path ∈ paths) (hlocate : s.locate path = .ok names)
    (hfixed : s.repaired? suite path = some fixed) : t.fileAt? names ≠ s.fileAt? names := by
  obtain ⟨text, htext, hfix⟩ := Option.bind_eq_some_iff.mp hfixed
  have hlocate' : t.locate path = .ok names := by rw [h.samePlaces.locate_eq, hlocate]
  rw [fileAt?_eq_of_text? hlocate htext,
    fileAt?_eq_of_text? hlocate' (h.text?_eq rfl path hpath fixed hfixed)]
  intro hsame
  have hstring : String.ofList fixed = String.ofList text :=
    String.toByteArray_inj.mp (Option.some.inj hsame)
  exact Suite.ne_of_fix hfix (String.ofList_inj.mp hstring)

/-- The files that change are those that paths with a repair lead to. -/
theorem Repairs.fileAt?_ne_iff {names : List String} (h : s.Repairs suite false paths t)
    (hreadable : ∀ p ∈ paths, (s.text? p).isSome = true) :
    t.fileAt? names ≠ s.fileAt? names ↔
      ∃ p ∈ paths, (s.repaired? suite p).isSome = true ∧ s.located p = names := by
  constructor
  · intro hne
    by_contra hnone
    refine hne (h.fileAt?_eq names fun p hp hlocate => ?_)
    by_contra hrepaired
    rw [locate_eq_located (hreadable p hp), Except.ok.injEq] at hlocate
    exact hnone ⟨p, hp, Option.isSome_iff_ne_none.mpr hrepaired, hlocate⟩
  · rintro ⟨p, hp, hsome, rfl⟩
    obtain ⟨fixed, hfixed⟩ := Option.isSome_iff_exists.mp hsome
    exact h.fileAt?_ne hp (locate_eq_located (hreadable p hp)) hfixed

/-- The files that change are as many as the collected paths with a repair. -/
theorem Repairs.ncard_eq (h : s.Repairs suite false paths t)
    (hapart : paths.Pairwise fun p q => s.locate p ≠ s.locate q)
    (hreadable : ∀ p ∈ paths, (s.text? p).isSome = true) :
    {names | t.fileAt? names ≠ s.fileAt? names}.ncard =
      paths.countP fun p => (s.repaired? suite p).isSome := by
  let changed := paths.filter fun p => (s.repaired? suite p).isSome
  have hset : {names | t.fileAt? names ≠ s.fileAt? names} =
      ↑(changed.map s.located).toFinset := by
    ext names
    rw [Set.mem_ofPred_eq, h.fileAt?_ne_iff hreadable]
    simp [changed, and_assoc]
  -- Paths with the same names behind them would lead to the same file.
  have hnodup : (changed.map s.located).Nodup := by
    refine List.pairwise_map.mpr ((hapart.filter _).imp_of_mem fun hp hq hne hsame => hne ?_)
    rw [locate_eq_located (hreadable _ (List.mem_filter.mp hp).1),
      locate_eq_located (hreadable _ (List.mem_filter.mp hq).1), hsame]
  rw [hset, Set.ncard_coe_finset, List.toFinset_card_of_nodup hnodup, List.length_map,
    List.countP_eq_length_filter]

/-- Repairing files with `check` is a dry run of repairing them without it, wherever the paths
that are collected lead to different files and these are texts. It leaves every file as it is
and gives the same answer. The other run gives each collected file the repaired form of its
own text, if that is another text, and leaves all other files as they are. Both count the
collected files, and those whose content differs after the real run. -/
theorem fix_check_dryRun
    (hsettings : (s.perform (Command.loadSettings request.settings)).1 = .ok settings)
    (hpaths : (s.perform (Command.files (Suite.ofSettings settings).watched request.paths)).1 =
      .ok paths)
    (hapart : paths.Pairwise fun p q => s.locate p ≠ s.locate q)
    (hreadable : ∀ p ∈ paths, (s.text? p).isSome = true) :
    ∃ tally dry real,
      s.perform (Command.fix { request with check := true }) = (.ok tally, dry) ∧
      s.perform (Command.fix { request with check := false }) = (.ok tally, real) ∧
      dry.root = s.root ∧
      (∀ p ∈ paths, ∀ text fixed, s.text? p = some text →
        (Suite.ofSettings settings).fix ⟨p, text⟩ = some fixed → real.text? p = some fixed) ∧
      (∀ names, (∀ p ∈ paths, ∀ text, s.locate p = .ok names → s.text? p = some text →
        (Suite.ofSettings settings).fix ⟨p, text⟩ = none) →
          real.fileAt? names = s.fileAt? names) ∧
      s.SamePlaces real ∧
      tally.checked = paths.length ∧
      tally.changed = {names | real.fileAt? names ≠ s.fileAt? names}.ncard := by
  obtain ⟨dry, hdry, hlooked⟩ := exists_repairs_fix hsettings hpaths hapart hreadable true
  obtain ⟨real, hreal, hrepaired⟩ := exists_repairs_fix hsettings hpaths hapart hreadable false
  refine ⟨_, dry, real, hlooked, hrepaired, hdry.root_eq rfl, ?_, ?_, hreal.samePlaces, rfl, ?_⟩
  · intro p hp text fixed htext hfix
    exact hreal.text?_eq rfl p hp fixed (by rw [repaired?, htext, Option.bind_some, hfix])
  · intro names hnames
    refine hreal.fileAt?_eq names fun p hp hlocate => ?_
    obtain ⟨text, htext⟩ := Option.isSome_iff_exists.mp (hreadable p hp)
    rw [repaired?, htext, Option.bind_some, hnames p hp text hlocate htext]
  · rw [hreal.ncard_eq hapart hreadable]

/-- A file that is repaired, one that needs no repair and one that is not collected. -/
theorem fix_check_dryRun_three :
    let s : Memory := {
      root := .directory [("a.yml", .file " a\n".toUTF8),
        ("d", .directory [("b.yml", .file "b: 1\n".toUTF8), ("c.txt", .file " c\n".toUTF8)])]
      directory := []
      output := []
      warnings := [] }
    let request : FixRequest := ⟨[⟨"a.yml"⟩, ⟨"d/b.yml"⟩], none, false⟩
    ∃ tally dry real,
      s.perform (Command.fix { request with check := true }) = (.ok tally, dry) ∧
      s.perform (Command.fix { request with check := false }) = (.ok tally, real) ∧
      dry.root = s.root ∧ real.text? ⟨"a.yml"⟩ = some "a\n".toList ∧
      real.fileAt? ["d", "b.yml"] = s.fileAt? ["d", "b.yml"] ∧
      real.fileAt? ["d", "c.txt"] = s.fileAt? ["d", "c.txt"] ∧ tally.checked = 2 := by
  intro s request
  have hsettings : (s.perform (Command.loadSettings request.settings)).1 = .ok none := by
    have hnone : (s.perform (Command.loadSettings request.settings)).1.toOption.map
        Option.isNone = some true := by
      decide +kernel
    cases hload : (s.perform (Command.loadSettings request.settings)).1 with
    | error e => simp [hload, Except.toOption] at hnone
    | ok settings => simpa [hload, Except.toOption] using hnone
  have hfound : (s.perform (request.paths.mapM
      (Command.filesAt (Suite.ofSettings none).watched))).1 =
        .ok [[⟨"a.yml"⟩], [⟨"d/b.yml"⟩]] := by
    decide +kernel
  have hsort : Path.sort request.paths = request.paths := by
    rw [Path.sort, List.mergeSort_of_pairwise (by decide +kernel)]
    decide +kernel
  have hpaths : (s.perform (Command.files (Suite.ofSettings none).watched request.paths)).1 =
      .ok request.paths := by
    rw [Command.files, perform_bind ((quiet_mapM_filesAt _ _).perform_eq hfound)]
    exact congrArg Except.ok hsort
  have hlocate : s.locate ⟨"a.yml"⟩ = .ok ["a.yml"] ∧
      s.locate ⟨"d/b.yml"⟩ = .ok ["d", "b.yml"] := by
    decide +kernel
  obtain ⟨tally, dry, real, hdry, hreal, hroot, hfixed, hkept, -, hchecked, -⟩ :=
    fix_check_dryRun hsettings hpaths (by decide +kernel) (by decide +kernel)
  refine ⟨tally, dry, real, hdry, hreal, hroot, ?_, hkept _ ?_, hkept _ ?_, hchecked⟩
  · exact hfixed _ List.mem_cons_self " a\n".toList _ (by decide +kernel) (by decide +kernel)
  · intro p hp text hnames htext
    rcases List.mem_pair.mp hp with rfl | rfl
    · simp [hlocate.1] at hnames
    · have hsecond : s.text? ⟨"d/b.yml"⟩ = some "b: 1\n".toList := by decide +kernel
      rw [hsecond, Option.some.injEq] at htext
      rw [← htext]
      decide +kernel
  · intro p hp text hnames
    rcases List.mem_pair.mp hp with rfl | rfl
    · simp [hlocate.1] at hnames
    · simp [hlocate.2] at hnames

end Memory

end YamlLayout
