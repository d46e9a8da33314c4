import Mathlib.Data.List.Forall2
import YamlLayout.Check
import YamlLayout.Proofs.CommentRuns
import YamlLayout.Proofs.Measured

/-!
# Moved comments

Comments see of each other, and of all other lines, only what they are and where they belong.
Where one of them stands matters for its own column alone. So when comments are moved to where
they belong and all lines are placed anew, every line belongs where it did: the moved comments
stand at open columns, which snap to themselves.
-/
namespace YamlLayout

namespace Placement

variable {unit : Int} {before rest out : List LineMeasure} {m : LineMeasure}

/-! ## What comments see -/

/-- What the comments around it see of a line. -/
def seen (m : LineMeasure) : Option Int × LineRole := (m.expected, m.role)

section Seen

variable {lines other : List LineMeasure}

theorem isCommentLine_eq_of_seen {n : LineMeasure} (h : seen m = seen n) :
    isCommentLine m = isCommentLine n := by
  have hrole : m.role = n.role := congrArg Prod.snd h
  rw [isCommentLine, isCommentLine, hrole]

theorem exists_of_map_seen (h : other.map seen = lines.map seen) {n : LineMeasure}
    (hn : n ∈ other) : ∃ m ∈ lines, seen m = seen n :=
  List.mem_map.mp (h ▸ List.mem_map_of_mem hn)

theorem map_isCommentLine_of_seen (h : other.map seen = lines.map seen) :
    other.map isCommentLine = lines.map isCommentLine := by
  have hrole := congrArg (List.map fun s => s.2 == .comment) h
  rwa [List.map_map, List.map_map] at hrole

theorem Unplaced.of_map_seen (h : Unplaced lines) (hseen : other.map seen = lines.map seen) :
    Unplaced other := by
  intro n hn hcomment
  obtain ⟨m, hm, heq⟩ := exists_of_map_seen hseen hn
  rw [← isCommentLine_eq_of_seen heq] at hcomment
  exact (congrArg Prod.fst heq).symm.trans (h m hm hcomment)

theorem above_eq_find?_seen (lines : List LineMeasure) :
    above lines = ((lines.map seen).find? fun s => s.1.isSome || s.2.isBlockBody).bind
      fun s => if s.2.isBlockBody then none else s.1 := by
  have hsees : (fun s : Option Int × LineRole => s.1.isSome || s.2.isBlockBody) ∘ seen =
      fun m => m.expected.isSome || m.role.isBlockBody := rfl
  rw [List.find?_map, hsees, above]
  cases lines.find? fun m => m.expected.isSome || m.role.isBlockBody <;> rfl

theorem openBetween_eq_of_seen {before' after after' : List LineMeasure}
    (hbefore : before'.map seen = before.map seen) (hafter : after'.map seen = after.map seen) :
    openBetween unit before' after' = openBetween unit before after := by
  have habove : above before' = above before := by
    rw [above_eq_find?_seen, above_eq_find?_seen, hbefore]
  have hbelow := congrArg (List.findSome? Prod.fst) hafter
  rw [List.findSome?_map, List.findSome?_map] at hbelow
  rw [openBetween, openBetween, habove]
  exact congrArg (steps (above before) · unit) hbelow

end Seen

/-! ## Placing comments again -/

/-- `moved` is the line `m`, or the comment `m` after it was moved to the column at which
`placed` belongs. -/
def Moves (m placed moved : LineMeasure) : Prop :=
  moved = m ∨ isCommentLine m = true ∧ ∃ x leading, placed.expected = some x ∧
    moved = { m with actual := x, leading }

/-- Each line of `moved` is a line of `lines`, or a comment among them after it was moved to
where the line of `placed` belongs. -/
def MovedTo (placed lines moved : List LineMeasure) : Prop :=
  List.Forall₂ (fun p m => Moves p.1 p.2 m) (lines.zip placed) moved

theorem map_eq_of_forall₂ {α β γ : Type} {R : α → β → Prop} {f : α → γ} {g : β → γ}
    {as : List α} {bs : List β} (h : List.Forall₂ R as bs) (hR : ∀ a b, R a b → g b = f a) :
    bs.map g = as.map f := by
  induction h with
  | nil => rfl
  | cons hab _ ih => rw [List.map_cons, List.map_cons, hR _ _ hab, ih]

theorem exists_append_of_forall₂ {α β : Type} {R : α → β → Prop} {as as' : List α}
    {bs : List β} (h : List.Forall₂ R (as ++ as') bs) :
    ∃ cs cs', bs = cs ++ cs' ∧ List.Forall₂ R as cs ∧ List.Forall₂ R as' cs' := by
  refine ⟨bs.take as.length, bs.drop as.length, (List.take_append_drop ..).symm, ?_, ?_⟩
  · simpa using List.forall₂_take as.length h
  · simpa using List.forall₂_drop as.length h

section Moved

variable {placed lines moved : List LineMeasure}

theorem MovedTo.map_eq {γ : Type} {g : LineMeasure → γ} (h : MovedTo placed lines moved)
    (hlength : placed.length = lines.length)
    (hg : ∀ m actual leading, isCommentLine m = true → g { m with actual, leading } = g m) :
    moved.map g = lines.map g := by
  have hmoves : ∀ (p : LineMeasure × LineMeasure) (n : LineMeasure), Moves p.1 p.2 n →
      g n = g p.1 := by
    rintro p n (rfl | ⟨hp, x, leading, -, rfl⟩)
    · rfl
    · exact hg p.1 x leading hp
  rw [map_eq_of_forall₂ (f := g ∘ Prod.fst) h hmoves, ← List.map_map,
    List.map_fst_zip hlength.ge]

theorem MovedTo.map_seen (h : MovedTo placed lines moved)
    (hlength : placed.length = lines.length) : moved.map seen = lines.map seen :=
  h.map_eq hlength fun _ _ _ _ => rfl

/-- A comment that was moved to where it belongs snaps to its place. -/
theorem Moves.seen_snapTo {allowed : List Int} {n : LineMeasure}
    (h : Moves m (snapTo allowed m) n) : seen (snapTo allowed n) = seen (snapTo allowed m) := by
  rcases h with rfl | ⟨-, x, leading, hx, rfl⟩
  · rfl
  · cases allowed with
    | nil => rfl
    | cons s rest =>
      have hsnap : snap (s :: rest) m.actual = some x := hx
      have hagain : snap (s :: rest) x = some x := snap_of_snap hsnap
      simp [seen, snapTo, hsnap, hagain]

/-- The lines below a run, and those above it by induction, show what they did before. So the
same columns are open to the run. -/
theorem Placed.again {before' : List LineMeasure} (h : Placed unit before rest out)
    (hbefore : before'.map seen = before.map seen) (hmoved : MovedTo out rest moved) :
    ∃ out', Placed unit before' moved out' ∧ out'.map seen = out.map seen := by
  induction h generalizing before' moved with
  | nil =>
    obtain rfl : moved = [] := by simpa [MovedTo] using hmoved
    exact ⟨[], .nil, rfl⟩
  | @line before rest out m hm h ih =>
    obtain ⟨n, moved, hn, htail, rfl⟩ := List.forall₂_cons_left_iff.mp hmoved
    obtain rfl : n = m := hn.resolve_right (by simp [hm])
    have habove : (n :: before').map seen = (n :: before).map seen := by simp [hbefore]
    obtain ⟨out', hout', hseen⟩ := ih habove htail
    exact ⟨n :: out', .line hm hout', by simp [hseen]⟩
  | @run before run rest out hne hrun hrest h ih =>
    rw [MovedTo, List.zip_append (by simp)] at hmoved
    obtain ⟨run', rest', rfl, hmovedRun, hmovedRest⟩ := exists_append_of_forall₂ hmoved
    have hseenRun : run'.map seen = run.map seen := MovedTo.map_seen hmovedRun (by simp)
    have hseenRest : rest'.map seen = rest.map seen := MovedTo.map_seen hmovedRest h.length_eq
    have hopen : openBetween unit before' rest' = openBetween unit before rest :=
      openBetween_eq_of_seen hbefore hseenRest
    have hsnapped : (run'.map (snapTo (openBetween unit before' rest'))).map seen =
        (run.map (snapTo (openBetween unit before rest))).map seen := by
      rw [← List.map_prod_left_eq_zip, List.forall₂_map_left_iff] at hmovedRun
      rw [hopen, List.map_map, List.map_map]
      exact map_eq_of_forall₂ hmovedRun fun c n hn => hn.seen_snapTo
    have habove : ((run'.map (snapTo (openBetween unit before' rest'))).reverse ++ before').map
        seen = ((run.map (snapTo (openBetween unit before rest))).reverse ++ before).map seen := by
      rw [List.map_append, List.map_append, List.map_reverse, List.map_reverse, hsnapped, hbefore]
    obtain ⟨out', hout', hseen⟩ := ih habove hmovedRest
    refine ⟨_, .run ?_ ?_ ?_ hout', by rw [List.map_append, List.map_append, hsnapped, hseen]⟩
    · rintro rfl
      exact hne (List.map_eq_nil_iff.mp hseenRun.symm)
    · intro n hn
      obtain ⟨c, hc, heq⟩ := exists_of_map_seen hseenRun hn
      rw [← isCommentLine_eq_of_seen heq]
      exact hrun c hc
    · exact head_of_map_isCommentLine (map_isCommentLine_of_seen hseenRest) hrest

theorem comments_moved (h : MovedTo (comments unit [] lines) lines moved) :
    (comments unit [] moved).map seen = (comments unit [] lines).map seen := by
  obtain ⟨out, hout, hplaced⟩ := exists_placed unit [] lines
  rw [hout, List.reverse_nil, List.nil_append] at h ⊢
  obtain ⟨out', hout', hseen⟩ := hplaced.again rfl h
  rw [hout'.comments_eq, List.reverse_nil, List.nil_append, hseen]

end Moved

/-! ## Lines that do not depend on comments -/

section Interiors

variable {tokens : Array Token} {layout : Layout} {column : TokenId → Option Int}
  {lines : List LineMeasure}

theorem continuation_of_comment (align : Bool) (h : isCommentLine m = true) :
    continuation tokens column align m = m := by
  have hrole : m.role = .comment := by simpa [isCommentLine] using h
  simp [continuation, hrole]

theorem bodyLine_of_comment (h : isCommentLine m = true) :
    bodyLine tokens layout column lines m = m := by
  have hrole : m.role = .comment := by simpa [isCommentLine] using h
  simp [bodyLine, hrole]

theorem isCommentLine_continuation (align : Bool) (m : LineMeasure) :
    isCommentLine (continuation tokens column align m) = isCommentLine m := by
  rw [isCommentLine, isCommentLine, (LineMeasure.unplaced_inj (unplaced_continuation ..)).2.1]

theorem isCommentLine_bodyLine (m : LineMeasure) :
    isCommentLine (bodyLine tokens layout column lines m) = isCommentLine m := by
  rw [isCommentLine, isCommentLine, (LineMeasure.unplaced_inj (unplaced_bodyLine ..)).2.1]

theorem Unplaced.map_continuation (h : Unplaced lines) (align : Bool) :
    Unplaced (lines.map (continuation tokens column align)) := by
  intro n hn hcomment
  obtain ⟨m, hm, rfl⟩ := List.mem_map.mp hn
  rw [isCommentLine_continuation] at hcomment
  rw [continuation_of_comment _ hcomment]
  exact h m hm hcomment

/-- A line without the column at which it stands, if it is a comment. -/
def adrift (m : LineMeasure) : LineMeasure :=
  if isCommentLine m then { m with actual := 0, leading := 0 } else m

theorem line_adrift (m : LineMeasure) : (adrift m).line = m.line := by
  unfold adrift
  split <;> rfl

theorem role_adrift (m : LineMeasure) : (adrift m).role = m.role := by
  unfold adrift
  split <;> rfl

theorem isPinned_map_adrift (k n : Nat) (header : TokenId) (h : Unplaced lines) :
    isPinned layout k header ((lines.map adrift).takeWhile (·.line < n)) =
      isPinned layout k header (lines.takeWhile (·.line < n)) := by
  have hwhile : (lines.map adrift).takeWhile (·.line < n) =
      (lines.takeWhile (·.line < n)).map adrift := by
    rw [List.takeWhile_map]
    simp only [Function.comp_def, line_adrift]
  have hfind : ((lines.takeWhile (·.line < n)).map adrift).find? (·.line == k) =
      ((lines.takeWhile (·.line < n)).find? (·.line == k)).map adrift := by
    rw [List.find?_map]
    simp only [Function.comp_def, line_adrift]
  rw [isPinned, isPinned, hwhile, hfind]
  cases hfound : (lines.takeWhile (·.line < n)).find? (·.line == k) with
  | none => rfl
  | some m =>
    have hm : m ∈ lines := (List.takeWhile_sublist _).mem (List.mem_of_find?_eq_some hfound)
    cases hcomment : isCommentLine m with
    | false => simp [adrift, hcomment]
    | true => simp [adrift, hcomment, h m hm hcomment]

theorem find?_map_adrift {role : LineRole} (hrole : role ≠ .comment) (k : Nat) :
    (lines.map adrift).find? (fun r => r.role == role && r.line == k) =
      lines.find? fun r => r.role == role && r.line == k := by
  rw [List.find?_map]
  simp only [Function.comp_def, line_adrift, role_adrift]
  cases hfound : lines.find? fun r => r.role == role && r.line == k with
  | none => rfl
  | some m =>
    have hm := List.find?_some hfound
    rw [Bool.and_eq_true, beq_iff_eq] at hm
    simp [adrift, isCommentLine, hm.1, hrole]

/-- Where comments stand does not matter for the bodies of block scalars. -/
theorem bodyLine_map_adrift (h : Unplaced lines) :
    bodyLine tokens layout column (lines.map adrift) = bodyLine tokens layout column lines := by
  funext m
  unfold bodyLine
  split
  · rename_i header body hrole
    have hcomment : m.role ≠ .comment := by simp [hrole]
    simp only [isPinned_map_adrift _ _ _ h, find?_map_adrift hcomment]
  · rfl

end Interiors

end Placement

/-! ## All lines of a stream -/

namespace Stream

open Placement

/-- The lines of a stream as they are before comments are placed. -/
def interiorsPlaced (s : Stream) (layout : Layout) (style : Style)
    (measures : List LineMeasure) : List LineMeasure :=
  let columns := layout.columns s.tokens
  let column := fun t => columns[t]?.join
  let continued := measures.map (continuation s.tokens column style.alignScalars)
  continued.map (bodyLine s.tokens layout column continued)

theorem place_eq_comments (s : Stream) (layout : Layout) (style : Style)
    (measures : List LineMeasure) :
    s.place layout style measures =
      comments (Style.columns style.unit) [] (s.interiorsPlaced layout style measures) := rfl

variable {measures moved : List LineMeasure}

theorem unplaced_interiorsPlaced (s : Stream) (layout : Layout) (style : Style)
    (h : Unplaced measures) : Unplaced (s.interiorsPlaced layout style measures) := by
  intro n hn hcomment
  obtain ⟨c, hc, rfl⟩ := List.mem_map.mp hn
  rw [isCommentLine_bodyLine] at hcomment
  rw [bodyLine_of_comment hcomment]
  exact h.map_continuation _ c hc hcomment

theorem movedTo_interiorsPlaced (s : Stream) (layout : Layout) (style : Style)
    {placed : List LineMeasure} (hopen : Unplaced measures)
    (hlength : placed.length = measures.length) (h : MovedTo placed measures moved) :
    MovedTo placed (s.interiorsPlaced layout style measures)
      (s.interiorsPlaced layout style moved) := by
  let column := fun t : TokenId => (layout.columns s.tokens)[t]?.join
  let follow := continuation s.tokens column style.alignScalars
  have hfollow : ∀ m, isCommentLine m = true → follow m = m :=
    fun m hm => continuation_of_comment _ hm
  have hadrift : (moved.map follow).map adrift = (measures.map follow).map adrift := by
    rw [List.map_map, List.map_map]
    refine h.map_eq hlength fun m actual leading hm => ?_
    have hmoved : isCommentLine { m with actual, leading } = true := hm
    simp only [Function.comp_apply, hfollow _ hm, hfollow _ hmoved, adrift, hm, hmoved, if_true]
  have hopenMoved : Unplaced moved := hopen.of_map_seen (h.map_seen hlength)
  have hbody : bodyLine s.tokens layout column (moved.map follow) =
      bodyLine s.tokens layout column (measures.map follow) := by
    rw [← bodyLine_map_adrift (hopenMoved.map_continuation _), hadrift,
      bodyLine_map_adrift (hopen.map_continuation _)]
  change MovedTo placed ((measures.map follow).map (bodyLine s.tokens layout column _))
    ((moved.map follow).map (bodyLine s.tokens layout column _))
  rw [hbody, MovedTo, List.map_map, List.map_map, List.zip_map_left, List.forall₂_map_left_iff,
    List.forall₂_map_right_iff]
  refine List.Forall₂.imp (fun p n hn => ?_) h
  rcases hn with rfl | ⟨hp, x, leading, hx, rfl⟩
  · exact .inl rfl
  · have hmoved : isCommentLine { p.1 with actual := x, leading } = true := hp
    refine .inr ⟨?_, x, leading, hx, ?_⟩
    · simpa [hfollow _ hp, bodyLine_of_comment hp] using hp
    · simp [hfollow _ hp, hfollow _ hmoved, bodyLine_of_comment hp, bodyLine_of_comment hmoved]

/-- Where comments were moved to where they belong, every line belongs where it did. -/
theorem map_expected_place_moved (s : Stream) (layout : Layout) (style : Style)
    (hopen : Unplaced measures) (h : MovedTo (s.place layout style measures) measures moved) :
    (s.place layout style moved).map (·.expected) =
      (s.place layout style measures).map (·.expected) := by
  have hlength : (s.place layout style measures).length = measures.length := by
    simpa using congrArg List.length (s.map_unplaced_place layout style measures)
  have hmoved := movedTo_interiorsPlaced s layout style hopen hlength h
  rw [place_eq_comments] at hmoved ⊢
  have hexpected := congrArg (List.map Prod.fst) (comments_moved hmoved)
  rwa [List.map_map, List.map_map] at hexpected

/-- Lines are measured without columns for comments. -/
theorem unplaced_measures (s : Stream) (layout : Layout) : Unplaced (s.measures layout) := by
  intro m hm hcomment
  obtain ⟨i, -, hline⟩ := List.mem_filterMap.mp hm
  unfold Measure.line? at hline
  dsimp only at hline
  split at hline
  · exact Option.some.inj hline ▸ rfl
  · exact Option.some.inj hline ▸ rfl
  · split at hline
    · cases hline
    · rw [Option.some.injEq] at hline
      unfold Measure.ofTokens at hline
      dsimp only at hline
      split at hline
      · exact hline ▸ rfl
      · rw [← hline] at hcomment
        cases hcomment

end Stream

namespace Placement

/-- Snapping keeps comments in order and settles them. The columns open between two neighbours
are listed in falling order, a column snaps to the nearest of them and to the larger one of two,
an open column snaps to itself, and the larger of two columns never snaps to the smaller one.
So the comments of a run belong in the order in which they stand, and where some of them were
moved to where they belong, they and all other lines belong where they did before. -/
theorem snapping_keeps_order :
    (∀ (before after : Option Int) (unit : Int),
      (∀ b ∈ before, 0 ≤ b) → (∀ a ∈ after, 0 ≤ a) →
      let allowed := steps before after unit
      (∀ s, s ∈ allowed ↔ IsOpen before after unit s) ∧
      (allowed ≠ [] ↔ before ≠ none ∨ after ≠ none) ∧
      allowed.Pairwise (· > ·) ∧ (∀ s ∈ allowed, 0 ≤ s) ∧
      (allowed ≠ [] → ∀ actual, ∃ s, snap allowed actual = some s ∧
        IsNearest allowed actual s) ∧
      (∀ s ∈ allowed, snap allowed s = some s) ∧
      ∀ a b s t, a ≤ b → snap allowed a = some s → snap allowed b = some t → s ≤ t) ∧
    ∀ (stream : Stream) (layout : Layout) (style : Style) (measures : List LineMeasure),
      Unplaced measures →
      let placed := stream.place layout style measures
      (∀ pre run post, IsRun placed pre run post →
        let allowed := steps (above pre.reverse) (columnBelow post) (Style.columns style.unit)
        (∀ c ∈ run, c.expected = snap allowed c.actual) ∧
        (allowed ≠ [] → ∀ c ∈ run, ∀ d ∈ run, c.actual ≤ d.actual →
          ∃ s t, c.expected = some s ∧ d.expected = some t ∧ s ≤ t)) ∧
      ∀ moved, MovedTo placed measures moved →
        (stream.place layout style moved).map (·.expected) = placed.map (·.expected) := by
  refine ⟨fun before after unit hbefore hafter => ?_,
    fun stream layout style measures hopen => ?_⟩
  · refine ⟨fun s => mem_steps_iff, steps_ne_nil_iff hbefore hafter, pairwise_steps ..,
      fun s => nonneg_of_mem_steps hafter, exists_snap, fun s => snap_of_mem, ?_⟩
    intro a b s t hab hs ht
    exact (snap_eq_some_iff.mp hs).mono (snap_eq_some_iff.mp ht) hab
  · refine ⟨fun pre run post hrun => ?_,
      fun moved => stream.map_expected_place_moved layout style hopen⟩
    have hexpected := fun c (hc : c ∈ run) =>
      expected_of_isRun (stream.unplaced_interiorsPlaced layout style hopen) hrun hc
    refine ⟨hexpected, fun hne c hc d hd hle => ?_⟩
    obtain ⟨s, hs, hnears⟩ := exists_snap hne c.actual
    obtain ⟨t, ht, hneart⟩ := exists_snap hne d.actual
    exact ⟨s, t, (hexpected c hc).trans hs, (hexpected d hd).trans ht, hnears.mono hneart hle⟩

/-- Of three comments below a deeper line the last one stands between two open columns and is
moved to the one on the right. -/
theorem snapping_keeps_order_tie :
    let solid := fun (line column : Nat) =>
      { LineMeasure.bare line .structural column with expected := some (column : Int) }
    let note := fun (line column : Nat) (expected : Option Int) =>
      { LineMeasure.bare line .comment column with expected }
    let measures := [solid 1 0, solid 2 2, note 3 3 none, note 4 0 none, note 5 1 none, solid 6 0]
    let run := [note 3 3 (some 2), note 4 0 (some 0), note 5 1 (some 2)]
    let moved := [solid 1 0, solid 2 2, note 3 3 none, note 4 0 none, note 5 2 none, solid 6 0]
    (∃ s, snap (steps (some 7) (some 2) 2) 4 = some s ∧
      IsNearest (steps (some 7) (some 2) 2) 4 s) ∧
    ∃ stream, parse "a:\n  b: 1\n   # x\n# y\n # z\nc: 2\n".toList = .ok stream ∧
      let layout := Layout.ofStream stream .default
      stream.measures layout = measures ∧
      IsRun (stream.place layout .default measures) [solid 1 0, solid 2 2] run [solid 6 0] ∧
      (∀ c ∈ run, ∀ d ∈ run, c.actual ≤ d.actual →
        ∃ s t, c.expected = some s ∧ d.expected = some t ∧ s ≤ t) ∧
      MovedTo (stream.place layout .default measures) measures moved ∧
      (stream.place layout .default moved).map (·.expected) =
        [some 0, some 2, some 2, some 0, some 2, some 0] := by
  intro solid note measures run moved
  have hopen : steps (some 7) (some 2) 2 ≠ [] := List.ne_nil_of_mem (mem_steps_iff.mpr (.inl rfl))
  obtain ⟨-, -, -, -, hnearest, -, -⟩ :=
    snapping_keeps_order.1 (some 7) (some 2) 2 (by simp) (by simp)
  refine ⟨hnearest hopen 4, ?_⟩
  have h : (parse "a:\n  b: 1\n   # x\n# y\n # z\nc: 2\n".toList).toOption.map
      (fun stream => (stream.measures (Layout.ofStream stream .default),
        stream.place (Layout.ofStream stream .default) .default measures)) =
      some (measures, [solid 1 0, solid 2 2] ++ run ++ [solid 6 0]) := by
    decide +kernel
  cases hparse : parse "a:\n  b: 1\n   # x\n# y\n # z\nc: 2\n".toList with
  | error e =>
    rw [hparse] at h
    cases h
  | ok stream =>
    rw [hparse] at h
    obtain ⟨hmeasures, hplaced⟩ := Prod.mk.inj (Option.some.inj h)
    obtain ⟨hruns, hmoves⟩ := snapping_keeps_order.2 stream (Layout.ofStream stream .default)
      .default measures (hmeasures ▸ Stream.unplaced_measures _ _)
    have hrun : IsRun (stream.place (Layout.ofStream stream .default) .default measures)
        [solid 1 0, solid 2 2] run [solid 6 0] :=
      ⟨hplaced, by decide, by decide, by decide, by decide⟩
    have hmoved : MovedTo (stream.place (Layout.ofStream stream .default) .default measures)
        measures moved := by
      rw [hplaced]
      exact .cons (.inl rfl) (.cons (.inl rfl) (.cons (.inl rfl) (.cons (.inl rfl)
        (.cons (.inr ⟨rfl, 2, 2, rfl, rfl⟩) (.cons (.inl rfl) .nil)))))
    refine ⟨stream, rfl, hmeasures, hrun, (hruns _ _ _ hrun).2 ?_, hmoved, ?_⟩
    · decide +kernel
    · rw [hmoves moved hmoved, hplaced]
      rfl

end Placement

end YamlLayout
