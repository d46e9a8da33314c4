import Mathlib.Data.List.Basic
import YamlLayout.Suite

/-!
# Watched files

The files of a directory are chosen by the extensions that the checkers of a suite name,
and each checker looks at the files that it applies to. The two choices are the same for
every suite with checkers, as long as no file is left to checkers that name no extensions
beside others that do.
-/
namespace YamlLayout

namespace Checker

/-- The checker names no extensions and looks at every file. -/
def isUniversal (c : Checker) : Bool := c.profile.extensions.isEmpty

theorem appliesTo_of_isUniversal {c : Checker} (h : c.isUniversal = true) (path : Path) :
    c.appliesTo path = true := by
  rw [isUniversal] at h
  rw [appliesTo, h, Bool.true_or]

theorem appliesTo_iff {c : Checker} (h : c.isUniversal = false) (path : Path) :
    c.appliesTo path = true ↔
      ∃ e, path.extension? = some e ∧
        ∃ known ∈ c.profile.extensions, lowercase known.toList = lowercase e := by
  rw [isUniversal] at h
  rw [appliesTo, h, Bool.false_or]
  cases path.extension? <;> simp

end Checker

namespace Suite

variable {s : Suite} {path : Path}

@[simp] theorem foldl_add (s : Suite) (checkers : List Checker) :
    checkers.foldl add s = ⟨s.checkers ++ checkers⟩ := by
  induction checkers generalizing s with
  | nil => simp
  | cons c cs ih => simp [ih, add]

/-- The extensions that checkers name, in lower case. -/
def named (s : Suite) : List String :=
  s.checkers.flatMap fun c => c.profile.extensions.map fun e => String.ofList (lowercase e.toList)

theorem named_eq_nil_iff : s.named = [] ↔ ∀ c ∈ s.checkers, c.isUniversal = true := by
  simp [named, Checker.isUniversal]

theorem watched_eq_none (h : ∀ c ∈ s.checkers, c.isUniversal = true) : s.watched = none := by
  have hnil : s.named = [] := named_eq_nil_iff.mpr h
  exact if_pos (List.isEmpty_iff.mpr hnil)

theorem watched_eq_some (h : ∃ c ∈ s.checkers, c.isUniversal = false) :
    s.watched = some (s.named.eraseDups.mergeSort fun a b => decide (a ≤ b)) := by
  obtain ⟨c, hc, hnarrow⟩ := h
  have hne : s.named ≠ [] := by
    intro hnil
    rw [named_eq_nil_iff.mp hnil c hc] at hnarrow
    cases hnarrow
  exact if_neg (mt List.isEmpty_iff.mp hne)

/-- As soon as one checker names extensions, the watched files are those that such a checker
applies to. -/
theorem isWatched_iff (h : ∃ c ∈ s.checkers, c.isUniversal = false) (path : Path) :
    path.isWatched s.watched = true ↔
      ∃ c ∈ s.checkers, c.isUniversal = false ∧ c.appliesTo path = true := by
  have hmem : path.isWatched s.watched = true ↔
      ∃ e, path.extension? = some e ∧ String.ofList (lowercase e) ∈ s.named := by
    rw [watched_eq_some h, Path.isWatched]
    cases path.extension? <;> simp [List.mem_mergeSort, List.mem_eraseDups]
  rw [hmem]
  constructor
  · rintro ⟨e, he, hnamed⟩
    obtain ⟨c, hc, hknown⟩ := List.mem_flatMap.mp hnamed
    obtain ⟨known, hin, heq⟩ := List.mem_map.mp hknown
    have hnarrow : c.isUniversal = false := List.isEmpty_eq_false_iff.mpr (List.ne_nil_of_mem hin)
    exact ⟨c, hc, hnarrow,
      (Checker.appliesTo_iff hnarrow path).mpr ⟨e, he, known, hin, String.ofList_inj.mp heq⟩⟩
  · rintro ⟨c, hc, hnarrow, happlies⟩
    obtain ⟨e, he, known, hin, heq⟩ := (Checker.appliesTo_iff hnarrow path).mp happlies
    refine ⟨e, he, List.mem_flatMap.mpr ⟨c, hc, List.mem_map.mpr ⟨known, hin, ?_⟩⟩⟩
    rw [heq]

theorem fix_eq_none (h : ∀ c ∈ s.checkers, c.appliesTo path = false) (text : List Char) :
    s.fix ⟨path, text⟩ = none := by
  have hstays : s.checkers.foldl (fixStep path) text = text := by
    refine List.foldlRecOn (motive := (· = text)) s.checkers (fixStep path) rfl ?_
    intro now hnow c hc
    rw [fixStep, h c hc, Bool.and_false]
    exact hnow
  rw [fix, hstays]
  exact if_pos BEq.rfl

theorem enforce_eq_nil (h : ∀ c ∈ s.checkers, c.appliesTo path = false) (text : List Char) :
    s.enforce [⟨path, text⟩] = [] := by
  rw [enforce, List.flatMap_eq_nil_iff]
  intro c hc
  simp [h c hc]

/-- Some checkers name extensions and others look at every file, and the path is left to the
latter. -/
structure LeavesToUniversal (s : Suite) (path : Path) : Prop where
  narrow : ∃ c ∈ s.checkers, c.isUniversal = false
  universal : ∃ c ∈ s.checkers, c.isUniversal = true
  only : ∀ c ∈ s.checkers, c.appliesTo path = true → c.isUniversal = true

/-- A path that is not left to universal checkers needs no others than those that name
extensions. -/
theorem exists_narrow_appliesTo (hnarrow : ∃ c ∈ s.checkers, c.isUniversal = false)
    (hleft : ¬s.LeavesToUniversal path) (h : ∃ c ∈ s.checkers, c.appliesTo path = true) :
    ∃ c ∈ s.checkers, c.isUniversal = false ∧ c.appliesTo path = true := by
  by_contra hnone
  have honly : ∀ c ∈ s.checkers, c.appliesTo path = true → c.isUniversal = true := by
    intro c hc happlies
    by_contra huniversal
    exact hnone ⟨c, hc, Bool.eq_false_iff.mpr huniversal, happlies⟩
  obtain ⟨c, hc, happlies⟩ := h
  exact hleft ⟨hnarrow, ⟨c, hc, honly c hc happlies⟩, honly⟩

theorem isWatched_iff_of_not_leavesToUniversal (hne : s.checkers ≠ [])
    (hleft : ¬s.LeavesToUniversal path) :
    path.isWatched s.watched = true ↔ ∃ c ∈ s.checkers, c.appliesTo path = true := by
  by_cases hnarrow : ∃ c ∈ s.checkers, c.isUniversal = false
  · rw [isWatched_iff hnarrow]
    constructor
    · rintro ⟨c, hc, -, happlies⟩
      exact ⟨c, hc, happlies⟩
    · exact exists_narrow_appliesTo hnarrow hleft
  · -- No checker narrows the choice down, and there is one.
    have huniversal : ∀ c ∈ s.checkers, c.isUniversal = true := by simpa using hnarrow
    obtain ⟨c, hc⟩ := List.exists_mem_of_ne_nil _ hne
    have happlies := Checker.appliesTo_of_isUniversal (huniversal c hc) path
    rw [watched_eq_none huniversal]
    exact ⟨fun _ => ⟨c, hc, happlies⟩, fun _ => rfl⟩

/-- A path is watched if and only if a checker of the suite applies to it, whatever checkers
the suite was made of, unless there are none or the path is left to checkers that name no
extensions beside some that do. So nothing would be said about a file that is passed over. A
suite without checkers watches every path. -/
theorem isWatched_iff_appliesTo (checkers : List Checker) (path : Path) :
    let s := checkers.foldl add empty
    (checkers = [] → path.isWatched s.watched = true) ∧
      (checkers ≠ [] → ¬s.LeavesToUniversal path →
        (path.isWatched s.watched = true ↔ ∃ c ∈ checkers, c.appliesTo path = true) ∧
          ∀ text, path.isWatched s.watched = false →
            s.enforce [⟨path, text⟩] = [] ∧ s.fix ⟨path, text⟩ = none) := by
  intro s
  have hs : s.checkers = checkers := by simp [s, empty]
  rw [← hs]
  refine ⟨fun hnil => ?_, fun hne hleft => ?_⟩
  · rw [watched_eq_none (by simp [hnil])]
    rfl
  have hiff := isWatched_iff_of_not_leavesToUniversal hne hleft
  refine ⟨hiff, fun text hwatched => ?_⟩
  have hnone : ∀ c ∈ s.checkers, c.appliesTo path = false := by
    intro c hc
    by_contra happlies
    rw [hiff.mpr ⟨c, hc, Bool.not_eq_false _ ▸ happlies⟩] at hwatched
    cases hwatched
  exact ⟨enforce_eq_nil hnone text, fix_eq_none hnone text⟩

/-- Two checkers that name extensions, in either case, and a file that the second one is for. -/
theorem isWatched_iff_appliesTo_json :
    let checkers : List Checker :=
      [.yaml .default,
        ⟨"json", ⟨"1", "", ["conf", "Json"], [.lint]⟩, fun _ _ => [], fun _ _ => none⟩]
    checkers ≠ [] ∧ ¬(checkers.foldl add empty).LeavesToUniversal ⟨"a/b.jSON"⟩ ∧
      (⟨"a/b.jSON"⟩ : Path).isWatched (checkers.foldl add empty).watched = true := by
  intro checkers
  have hne : checkers ≠ [] := List.cons_ne_nil _ _
  have hleft : ¬(checkers.foldl add empty).LeavesToUniversal ⟨"a/b.jSON"⟩ := by
    rintro ⟨-, huniversal, -⟩
    revert huniversal
    decide +kernel
  have hwatched := ((isWatched_iff_appliesTo checkers ⟨"a/b.jSON"⟩).2 hne hleft).1
  exact ⟨hne, hleft, hwatched.mpr (by decide +kernel)⟩

/-- A suite without checkers watches a file that none applies to, and a checker that names
extensions keeps a suite from watching a file that another checker applies to. -/
theorem isWatched_ne_appliesTo :
    let universal : Checker := ⟨"any", ⟨"1", "", [], [.lint]⟩, fun _ _ => [], fun _ _ => none⟩
    let mixed := (empty.add universal).add (.yaml .default)
    ((⟨"notes.txt"⟩ : Path).isWatched empty.watched = true ∧
        ¬∃ c ∈ empty.checkers, c.appliesTo ⟨"notes.txt"⟩ = true) ∧
      (⟨"notes.txt"⟩ : Path).isWatched mixed.watched = false ∧
        ∃ c ∈ mixed.checkers, c.appliesTo ⟨"notes.txt"⟩ = true := by
  intro universal mixed
  refine ⟨⟨by decide +kernel, by decide +kernel⟩, ?_, by decide +kernel⟩
  have hnarrow : ∃ c ∈ mixed.checkers, c.isUniversal = false := by decide +kernel
  rw [Bool.eq_false_iff, Ne, isWatched_iff hnarrow]
  decide +kernel

end Suite

end YamlLayout
