import Mathlib.Data.List.TakeWhile
import YamlLayout.Proofs.BlockBody
import YamlLayout.Proofs.OpenColumns

/-!
# Runs of comments

Comments are placed run by run, from the top to the bottom. What the lines around a run leave
open to its comments can be read off the placed lines: the column above it from the lines that
come before it, comments included, and the column below it from those that follow, where other
comments do not count.
-/
namespace YamlLayout

namespace Placement

/-! ## Placing run by run -/

/-- A comment belongs at the nearest of the columns that are allowed, if there are any. -/
def snapTo (allowed : List Int) (c : LineMeasure) : LineMeasure :=
  if allowed.isEmpty then c else { c with expected := snap allowed c.actual }

/-- The columns open to comments between two parts of the lines, with the first part latest
line first. -/
def openBetween (unit : Int) (before after : List LineMeasure) : List Int :=
  steps (above before) (after.findSome? (·.expected)) unit

/-- `out` are the lines `rest` with their comments placed, below the lines `before`, which are
placed and come latest first. -/
inductive Placed (unit : Int) : List LineMeasure → List LineMeasure → List LineMeasure → Prop
  | nil {before : List LineMeasure} : Placed unit before [] []
  | line {before rest out : List LineMeasure} {m : LineMeasure} (hm : isCommentLine m = false)
      (h : Placed unit (m :: before) rest out) : Placed unit before (m :: rest) (m :: out)
  | run {before run rest out : List LineMeasure} (hne : run ≠ [])
      (hrun : ∀ c ∈ run, isCommentLine c = true)
      (hrest : ∀ m, rest.head? = some m → isCommentLine m = false)
      (h : Placed unit ((run.map (snapTo (openBetween unit before rest))).reverse ++ before)
        rest out) :
      Placed unit before (run ++ rest) (run.map (snapTo (openBetween unit before rest)) ++ out)

variable {unit : Int} {before rest out : List LineMeasure} {c : LineMeasure}

/-- Nothing of a comment changes but the column at which it belongs. -/
theorem exists_snapTo_eq (allowed : List Int) (c : LineMeasure) :
    ∃ expected, snapTo allowed c = { c with expected } := by
  cases allowed with
  | nil => exact ⟨c.expected, rfl⟩
  | cons s rest => exact ⟨snap (s :: rest) c.actual, rfl⟩

@[simp]
theorem isCommentLine_snapTo (allowed : List Int) (c : LineMeasure) :
    isCommentLine (snapTo allowed c) = isCommentLine c := by
  obtain ⟨expected, heq⟩ := exists_snapTo_eq allowed c
  rw [heq]
  rfl

@[simp]
theorem actual_snapTo (allowed : List Int) (c : LineMeasure) :
    (snapTo allowed c).actual = c.actual := by
  obtain ⟨expected, heq⟩ := exists_snapTo_eq allowed c
  rw [heq]

/-- A comment without a column is given the one it snaps to, if there is one. -/
theorem expected_snapTo (allowed : List Int) (h : c.expected = none) :
    (snapTo allowed c).expected = snap allowed c.actual := by
  unfold snapTo
  cases allowed with
  | nil => exact h
  | cons s rest => rfl

theorem exists_placed (unit : Int) (before rest : List LineMeasure) :
    ∃ out, comments unit before rest = before.reverse ++ out ∧ Placed unit before rest out := by
  fun_induction comments unit before rest with
  | case1 before => exact ⟨[], by simp, .nil⟩
  | case2 before m ms hcomment after allowed placed ih =>
    obtain ⟨out, heq, hout⟩ := ih
    have hms : m :: ms = (m :: ms.takeWhile isCommentLine) ++ after := by
      rw [List.cons_append, List.takeWhile_append_dropWhile]
    refine ⟨placed ++ out, by simp [heq], ?_⟩
    rw [hms]
    refine .run (List.cons_ne_nil _ _) ?_ ?_ hout
    · exact List.forall_mem_cons.mpr ⟨hcomment, fun c hc => List.mem_takeWhile_imp hc⟩
    · intro n hn
      have hhead := List.head?_dropWhile_not isCommentLine ms
      rw [hn] at hhead
      simpa using hhead
  | case3 before m ms hcomment ih =>
    obtain ⟨out, heq, hout⟩ := ih
    exact ⟨m :: out, by simp [heq], .line (Bool.eq_false_iff.mpr hcomment) hout⟩

theorem Placed.comments_eq (h : Placed unit before rest out) :
    comments unit before rest = before.reverse ++ out := by
  induction h with
  | nil => simp [comments]
  | line hm h ih =>
    rw [comments, if_neg (by simp [hm]), ih]
    simp
  | @run before run rest out hne hrun hrest h ih =>
    obtain ⟨m, ms, rfl⟩ := List.exists_cons_of_ne_nil hne
    obtain ⟨hm, hms⟩ := List.forall_mem_cons.mp hrun
    have htake := takeWhile_append_of_stop hms hrest
    have hdrop : (ms ++ rest).dropWhile isCommentLine = rest := by
      have hsplit := List.takeWhile_append_dropWhile (p := isCommentLine) (l := ms ++ rest)
      rwa [htake, List.append_cancel_left_eq] at hsplit
    rw [List.cons_append, comments, if_pos hm]
    simp only [htake, hdrop]
    refine ih.trans ?_
    simp

/-- Placing changes nothing but the columns at which comments belong. -/
theorem Placed.map_eq {γ : Type} {g : LineMeasure → γ} (h : Placed unit before rest out)
    (hg : ∀ c expected, isCommentLine c = true → g { c with expected } = g c) :
    out.map g = rest.map g := by
  induction h with
  | nil => rfl
  | line hm h ih => rw [List.map_cons, List.map_cons, ih]
  | @run before run rest out hne hrun hrest h ih =>
    rw [List.map_append, List.map_append, ih, List.map_map, List.append_cancel_right_eq]
    refine List.map_congr_left fun c hc => ?_
    obtain ⟨expected, heq⟩ := exists_snapTo_eq (openBetween unit before rest) c
    rw [Function.comp_apply, heq, hg c expected (hrun c hc)]

/-- What placing one comment keeps, placing all comments keeps. -/
theorem Placed.forall_mem {P : LineMeasure → Prop} (h : Placed unit before rest out)
    (hstep : ∀ c expected, isCommentLine c = true → P c → P { c with expected })
    (hrest : ∀ m ∈ rest, P m) : ∀ m ∈ out, P m := by
  induction h with
  | nil => exact hrest
  | line hm h ih =>
    obtain ⟨hhead, htail⟩ := List.forall_mem_cons.mp hrest
    exact List.forall_mem_cons.mpr ⟨hhead, ih htail⟩
  | @run before run rest out hne hrun hhead h ih =>
    obtain ⟨hcomments, htail⟩ := List.forall_mem_append.mp hrest
    refine List.forall_mem_append.mpr ⟨fun n hn => ?_, ih htail⟩
    obtain ⟨c, hc, rfl⟩ := List.mem_map.mp hn
    obtain ⟨expected, heq⟩ := exists_snapTo_eq (openBetween unit before rest) c
    exact heq ▸ hstep c expected (hrun c hc) (hcomments c hc)

theorem Placed.map_isCommentLine (h : Placed unit before rest out) :
    out.map isCommentLine = rest.map isCommentLine :=
  h.map_eq fun _ _ _ => rfl

theorem Placed.length_eq (h : Placed unit before rest out) : out.length = rest.length := by
  simpa using congrArg List.length h.map_isCommentLine

/-- If the same lines are comments, the first line is a comment in both cases. -/
theorem head_of_map_isCommentLine {lines other : List LineMeasure}
    (h : other.map isCommentLine = lines.map isCommentLine)
    (hlines : ∀ m, lines.head? = some m → isCommentLine m = false) :
    ∀ m, other.head? = some m → isCommentLine m = false := by
  intro m hm
  have hsame := congrArg List.head? h
  rw [List.head?_map, List.head?_map, hm, Option.map_some] at hsame
  obtain ⟨n, hn, heq⟩ := Option.map_eq_some_iff.mp hsame.symm
  exact heq ▸ hlines n hn

/-! ## The run between two parts of the placed lines -/

/-- What follows a line that is no comment is placed on its own. -/
theorem Placed.exists_rest {pre post : List LineMeasure}
    (h : Placed unit before rest (pre ++ post))
    (hpre : ∀ m, pre.getLast? = some m → isCommentLine m = false) :
    ∃ rest', rest' <:+ rest ∧ Placed unit (pre.reverse ++ before) rest' post := by
  generalize hout : pre ++ post = out at h
  induction h generalizing pre with
  | nil =>
    obtain ⟨rfl, rfl⟩ := List.append_eq_nil_iff.mp hout
    exact ⟨[], List.suffix_refl _, .nil⟩
  | @line before rest out m hm h ih =>
    cases pre with
    | nil =>
      subst hout
      exact ⟨m :: rest, List.suffix_refl _, .line hm h⟩
    | cons x pre =>
      obtain ⟨rfl, htail⟩ := List.cons.inj hout
      obtain ⟨rest', hsuffix, hplaced⟩ := ih
        (fun n hn => hpre n (by simp [List.getLast?_cons, hn])) htail
      exact ⟨rest', hsuffix.trans (List.suffix_cons ..), by simpa using hplaced⟩
  | @run before run rest out hne hrun hrest h ih =>
    have hmap : ∀ c ∈ run.map (snapTo (openBetween unit before rest)), isCommentLine c = true := by
      simpa using hrun
    rcases List.append_eq_append_iff.mp hout with ⟨tail, hsplit, rfl⟩ | ⟨pre', rfl, htail⟩
    · -- A run is not cut in two: its first part would end in a comment.
      cases hlast : pre.getLast? with
      | none =>
        obtain rfl := List.getLast?_eq_none_iff.mp hlast
        refine ⟨run ++ rest, List.suffix_refl _, ?_⟩
        rw [List.nil_append] at hsplit
        exact hsplit ▸ .run hne hrun hrest h
      | some m =>
        have hm := hmap m (hsplit ▸ List.mem_append_left _ (List.mem_of_getLast? hlast))
        rw [hpre m hlast] at hm
        cases hm
    · obtain ⟨rest', hsuffix, hplaced⟩ := ih
        (fun n hn => hpre n (by simp [List.getLast?_append, hn])) htail.symm
      exact ⟨rest', hsuffix.trans (List.suffix_append ..), by simpa using hplaced⟩

/-- A run of comments that starts the placed lines and goes as far as it can was placed at
once. -/
theorem Placed.exists_run {run post : List LineMeasure}
    (h : Placed unit before rest (run ++ post)) (hne : run ≠ [])
    (hrun : ∀ c ∈ run, isCommentLine c = true)
    (hpost : ∀ m, post.head? = some m → isCommentLine m = false) :
    ∃ run' rest', rest = run' ++ rest' ∧ run = run'.map (snapTo (openBetween unit before rest')) ∧
      Placed unit (run.reverse ++ before) rest' post := by
  generalize hout : run ++ post = out at h
  cases h with
  | nil => exact absurd (List.append_eq_nil_iff.mp hout).1 hne
  | line hm h =>
    obtain ⟨c, cs, rfl⟩ := List.exists_cons_of_ne_nil hne
    obtain ⟨rfl, -⟩ := List.cons.inj hout
    rw [hrun c (List.mem_cons_self ..)] at hm
    cases hm
  | @run _ run' rest' out hne' hrun' hrest' h =>
    have hhead := head_of_map_isCommentLine h.map_isCommentLine hrest'
    obtain ⟨rfl, rfl⟩ := append_inj_of_stop hout hrun hpost (by simpa using hrun') hhead
    exact ⟨run', rest', rfl, rfl, h⟩

/-- The first column at which a line below a run of comments belongs, other comments apart. -/
def columnBelow (after : List LineMeasure) : Option Int :=
  (after.filter (!isCommentLine ·)).findSome? (·.expected)

/-- No comment has a column yet. -/
def Unplaced (lines : List LineMeasure) : Prop :=
  ∀ m ∈ lines, isCommentLine m = true → m.expected = none

theorem Placed.findSome?_expected (h : Placed unit before rest out) (hopen : Unplaced rest) :
    rest.findSome? (·.expected) = columnBelow out := by
  induction h with
  | nil => rfl
  | @line before rest out m hm h ih =>
    have htail := ih fun n hn => hopen n (List.mem_cons_of_mem _ hn)
    rw [columnBelow, List.filter_cons_of_pos (by simp [hm]), List.findSome?_cons,
      List.findSome?_cons, htail]
    rfl
  | @run before run rest out hne hrun hrest h ih =>
    have htail := ih fun n hn => hopen n (List.mem_append_right _ hn)
    have hnone : run.findSome? (·.expected) = none :=
      List.findSome?_eq_none_iff.mpr fun c hc => hopen c (List.mem_append_left _ hc) (hrun c hc)
    have hfilter : (run.map (snapTo (openBetween unit before rest))).filter
        (!isCommentLine ·) = [] := by
      simpa using hrun
    rw [List.findSome?_append, hnone, Option.none_or, htail, columnBelow, columnBelow,
      List.filter_append, hfilter, List.nil_append]

/-- The lines of `run` are comments that follow one another, and there are no more of them
above or below. -/
structure IsRun (lines pre run post : List LineMeasure) : Prop where
  lines_eq : lines = pre ++ run ++ post
  ne_nil : run ≠ []
  comment : ∀ c ∈ run, isCommentLine c = true
  last_pre : ∀ m, pre.getLast? = some m → isCommentLine m = false
  head_post : ∀ m, post.head? = some m → isCommentLine m = false

/-- Each comment of a run belongs at the column it snaps to, of those that the lines around
the run leave open. -/
theorem expected_of_isRun {lines pre run post : List LineMeasure} (hopen : Unplaced lines)
    (hrun : IsRun (comments unit [] lines) pre run post) (hc : c ∈ run) :
    c.expected = snap (steps (above pre.reverse) (columnBelow post) unit) c.actual := by
  obtain ⟨out, hout, hplaced⟩ := exists_placed unit [] lines
  obtain rfl : out = pre ++ (run ++ post) := by
    rw [← List.append_assoc, ← hrun.lines_eq, hout, List.reverse_nil, List.nil_append]
  obtain ⟨rest, hsuffix, hrest⟩ := hplaced.exists_rest hrun.last_pre
  obtain ⟨run', rest', rfl, rfl, hpost⟩ :=
    hrest.exists_run hrun.ne_nil hrun.comment hrun.head_post
  have hmem : ∀ m ∈ run' ++ rest', m ∈ lines := fun m hm => hsuffix.mem hm
  obtain ⟨b, hb, rfl⟩ := List.mem_map.mp hc
  have hnone : b.expected = none :=
    hopen b (hmem b (List.mem_append_left _ hb)) (by simpa using hrun.comment _ hc)
  have hbelow : rest'.findSome? (·.expected) = columnBelow post :=
    hpost.findSome?_expected fun m hm => hopen m (hmem m (List.mem_append_right _ hm))
  rw [expected_snapTo _ hnone, actual_snapTo, openBetween, List.append_nil, hbelow]

end Placement

end YamlLayout
