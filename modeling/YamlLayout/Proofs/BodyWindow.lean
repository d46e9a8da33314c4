import YamlLayout.Proofs.BodyMeasures
import YamlLayout.Proofs.RepairEdits

/-!
# Bodies move as a whole

The lines of a block scalar's body lie in one document and belong at one column, so a
repair moves all of them or none.
-/
namespace YamlLayout

section Sorted

variable {α : Type} {f : α → Int} {p : α → Bool} {lines : List α} {x y : α}

/-- A line is reached when nothing in front of it stops the search. -/
theorem mem_takeWhile_of_forall (hsorted : lines.Pairwise fun a b => f a < f b)
    (hx : x ∈ lines) (hp : ∀ a ∈ lines, f a ≤ f x → p a = true) : x ∈ lines.takeWhile p := by
  induction lines with
  | nil => cases hx
  | cons a rest ih =>
    obtain ⟨hhead, htail⟩ := List.pairwise_cons.mp hsorted
    have hle : f a ≤ f x := by
      rcases List.mem_cons.mp hx with rfl | hx
      · exact Int.le_refl _
      · exact Int.le_of_lt (hhead x hx)
    rw [List.takeWhile_cons_of_pos (hp a (List.mem_cons_self ..) hle)]
    rcases List.mem_cons.mp hx with rfl | hx
    · exact List.mem_cons_self ..
    · exact List.mem_cons_of_mem _
        (ih htail hx fun b hb => hp b (List.mem_cons_of_mem _ hb))

/-- Nothing in front of a line that is reached stops the search. -/
theorem forall_of_mem_takeWhile (hsorted : lines.Pairwise fun a b => f a < f b)
    (hx : x ∈ lines.takeWhile p) (hy : y ∈ lines) (hle : f y < f x) : p y = true := by
  induction lines with
  | nil => cases hy
  | cons a rest ih =>
    obtain ⟨hhead, htail⟩ := List.pairwise_cons.mp hsorted
    by_cases ha : p a = true
    · rw [List.takeWhile_cons_of_pos ha] at hx
      rcases List.mem_cons.mp hy with rfl | hrest
      · exact ha
      rcases List.mem_cons.mp hx with heq | hx
      · have hlt := hhead y hrest
        rw [heq] at hle
        omega
      · exact ih htail hx hrest
    · rw [List.takeWhile_cons_of_neg ha] at hx
      cases hx

/-- The search does not stop between lines on which it goes on. -/
theorem mem_takeWhile_of_mem {low high : Int} (hsorted : lines.Pairwise fun a b => f a < f b)
    (hx : x ∈ lines.takeWhile p) (hy : y ∈ lines)
    (hp : ∀ a ∈ lines, low ≤ f a → f a ≤ high → p a = true) (hlow : low ≤ f x)
    (hhigh : f y ≤ high) : y ∈ lines.takeWhile p := by
  apply mem_takeWhile_of_forall hsorted hy
  intro a ha hle
  by_cases hlt : f a < f x
  · exact forall_of_mem_takeWhile hsorted hx ha hlt
  · exact hp a ha (by omega) (by omega)

end Sorted

namespace Stream

variable {stream : Stream} {s : ParseState} {layout : Layout} {i : Nat} {t : Token}

theorem ReadTo.lineOf_start {j : Nat} {a : Token} (h : stream.ReadTo s)
    (ha : stream.tokens[j]? = some a) : stream.lines.lineOf a.range.start = a.startLine := by
  obtain ⟨before, value, after, hstands⟩ := h.exists_stands ha
  exact hstands.lineOf_start

theorem ReadTo.startLine_le_lineOf_last {j : Nat} {a : Token} (h : stream.ReadTo s)
    (ha : stream.tokens[j]? = some a) :
    a.startLine ≤ stream.lines.lineOf (a.range.stop - 1) := by
  obtain ⟨before, value, after, hstands⟩ := h.exists_stands ha
  rw [Stream.lines, hstands.lineOf_last, hstands.startLine_eq, List.count_append]
  omega

/-- A document holds all lines of a body or none of them. -/
theorem BodyAt.contains_eq {range : LineRange} {m n : Nat} (h : stream.BodyAt i t)
    (hread : stream.ReadTo s) (hrange : range ∈ (RepairContext.ofStream stream layout).documents)
    (hm : t.startLine ≤ m ∧ m ≤ t.endLine) (hn : t.startLine ≤ n ∧ n ≤ t.endLine) :
    range.contains m = range.contains n := by
  obtain ⟨d, hd, rfl⟩ := List.mem_map.mp hrange
  obtain ⟨j, past, hspans, -⟩ := hread.tiled.exists_spans (List.mem_reverse.mpr hd)
  obtain ⟨k, a, b, -, hjk, -, ha, hb, -, hspan, -⟩ := hspans.exists_ends
  rw [Array.getElem?_toList] at ha hb
  have hlt := hread.start_lt_stop hjk ha hb
  have hmax : max (d.span.stop - 1) d.span.start = b.range.stop - 1 := by
    rw [hspan]
    dsimp only
    omega
  have hstart : d.span.start = a.range.start := by rw [hspan]
  rw [hmax, hstart, hread.lineOf_start ha]
  have hfirst : i < j ∨ a.startLine ≤ t.startLine := by
    rcases Nat.lt_trichotomy j i with hj | rfl | hj
    · exact .inr (Nat.le_of_lt (h.before j a hj ha).1)
    · rw [h.token_eq, Option.some.injEq] at ha
      exact .inr (ha ▸ Nat.le_refl _)
    · exact .inl hj
  have hlast : k < i ∨ t.endLine ≤ stream.lines.lineOf (b.range.stop - 1) := by
    rcases Nat.lt_trichotomy k i with hk | rfl | hk
    · exact .inl hk
    · rw [h.token_eq, Option.some.injEq] at hb
      exact .inr (hb ▸ h.last_le)
    · have hafter := h.after k b hk hb
      have hle := hread.startLine_le_lineOf_last hb
      exact .inr (by omega)
  simp only [LineRange.contains]
  rcases hfirst with hj | hfirst
  · have hafter := h.after j a hj ha
    have hmout : ¬a.startLine ≤ m := by omega
    have hnout : ¬a.startLine ≤ n := by omega
    simp [hmout, hnout]
  rcases hlast with hk | hlast
  · have hbefore := (h.before k b hk hb).2.2
    have hmout : ¬m ≤ stream.lines.lineOf (b.range.stop - 1) := by omega
    have hnout : ¬n ≤ stream.lines.lineOf (b.range.stop - 1) := by omega
    simp [hmout, hnout]
  · have hmin : a.startLine ≤ m ∧ m ≤ stream.lines.lineOf (b.range.stop - 1) := by omega
    have hnin : a.startLine ≤ n ∧ n ≤ stream.lines.lineOf (b.range.stop - 1) := by omega
    simp [hmin, hnin]

/-- What lies in the same document does so with all lines of the body. -/
theorem BodyAt.mem_sameDocument {lines : List LineMeasure} {g g' : LineMeasure} {line : Nat}
    (h : stream.BodyAt i t) (hread : stream.ReadTo s)
    (hg : t.startLine ≤ g.line ∧ g.line ≤ t.endLine)
    (hg' : t.startLine ≤ g'.line ∧ g'.line ≤ t.endLine) (hmem : g' ∈ lines)
    (hdocument : line = g.line ∨
      g ∈ (RepairContext.ofStream stream layout).sameDocument line lines) :
    g' ∈ (RepairContext.ofStream stream layout).sameDocument line lines := by
  unfold RepairContext.sameDocument at hdocument ⊢
  cases hfound : (RepairContext.ofStream stream layout).documents.find? (·.contains line) with
  | none => exact hmem
  | some range =>
    simp only [hfound] at hdocument
    have hrange := List.mem_of_find?_eq_some hfound
    have hcontains : range.contains g.line = true := by
      rcases hdocument with rfl | hdocument
      · simpa using List.find?_some hfound
      · exact (List.mem_filter.mp hdocument).2
    refine List.mem_filter.mpr ⟨hmem, ?_⟩
    rw [h.contains_eq hread hrange hg' hg]
    exact hcontains

end Stream

/-- How far the lines of a window move: a pinned line stays, and one that belongs at a
column moves there. -/
theorem Shift.exists_delta {scopes : List Scope} {window : List LineMeasure}
    {deltas : List Int} (h : deltasFrom scopes window = some deltas) :
    window.length = deltas.length ∧ ∀ m d, (m, d) ∈ window.zip deltas →
      0 ≤ (m.leading : Int) + d ∧ (m.pinned = true → d = 0) ∧
        ∀ e, m.pinned = false → m.expected = some e → d = e - m.actual := by
  induction window generalizing scopes deltas with
  | nil =>
    cases h
    exact ⟨rfl, by simp⟩
  | cons n rest ih =>
    unfold deltasFrom at h
    dsimp only at h
    split at h
    · cases h
    rename_i hnonneg
    obtain ⟨others, hothers, rfl⟩ := Option.map_eq_some_iff.mp h
    obtain ⟨hlength, hrest⟩ := ih hothers
    refine ⟨by simp [hlength], ?_⟩
    intro m d hmem
    rw [List.zip_cons_cons] at hmem
    rcases List.mem_cons.mp hmem with heq | hmem
    · rw [Prod.mk.injEq] at heq
      obtain ⟨rfl, rfl⟩ := heq
      refine ⟨by omega, ?_, ?_⟩
      · intro hpinned
        simp [step, hpinned]
      · intro e hpinned hexpected
        simp [step, hpinned, hexpected]
    · exact hrest m d hmem

namespace Stream

variable {stream : Stream} {s : ParseState} {layout : Layout} {i : Nat} {t : Token}

/-- On one side of a line, the lines of the body are all reached or none of them is. All
are if the body starts right there. -/
theorem BodyAt.mem_side {side : List LineMeasure} {m g g' : LineMeasure} {expected : Int}
    {target : Option Int} {f : LineMeasure → Int} {low high : Int} (h : stream.BodyAt i t)
    (hread : stream.ReadTo s) (hsorted : side.Pairwise fun a b => f a < f b)
    (hinside : ∀ a : LineMeasure,
      (low ≤ f a ∧ f a ≤ high) ↔ (t.startLine ≤ a.line ∧ a.line ≤ t.endLine))
    (htarget : ∀ a ∈ side, t.startLine ≤ a.line ∧ a.line ≤ t.endLine → a.expected = target)
    (hg : t.startLine ≤ g.line ∧ g.line ≤ t.endLine) (hmem : g' ∈ side)
    (hg' : t.startLine ≤ g'.line ∧ g'.line ≤ t.endLine)
    (hreach : g ∈ ((RepairContext.ofStream stream layout).sameDocument m.line side).takeWhile
        (!·.belongsLeftOf expected) ∨
      (g = m ∧ target = some expected ∧ ∀ a ∈ side, low ≤ f a)) :
    g' ∈ ((RepairContext.ofStream stream layout).sameDocument m.line side).takeWhile
      (!·.belongsLeftOf expected) := by
  have hsublist := RepairContext.sublist_sameDocument (RepairContext.ofStream stream layout)
    m.line side
  have hhere := hsorted.sublist hsublist
  have hfound : g' ∈ (RepairContext.ofStream stream layout).sameDocument m.line side := by
    apply h.mem_sameDocument hread hg hg' hmem
    rcases hreach with hreach | ⟨rfl, -⟩
    · exact .inr ((List.takeWhile_sublist _).mem hreach)
    · exact .inl rfl
  have hpass : target.any (· < expected) = false := by
    rcases hreach with hreach | ⟨-, rfl, -⟩
    · have hside := RepairContext.mem_of_reached hreach
      have hkept := List.mem_takeWhile_imp hreach
      rw [LineMeasure.belongsLeftOf, htarget g hside hg] at hkept
      simpa using hkept
    · simp
  have hp : ∀ a ∈ (RepairContext.ofStream stream layout).sameDocument m.line side,
      low ≤ f a → f a ≤ high → (!a.belongsLeftOf expected) = true := by
    intro a ha hlow hhigh
    rw [LineMeasure.belongsLeftOf,
      htarget a (hsublist.mem ha) ((hinside a).mp ⟨hlow, hhigh⟩), hpass]
    rfl
  have hhigh := ((hinside g').mpr hg').2
  rcases hreach with hreach | ⟨-, -, hfar⟩
  · exact mem_takeWhile_of_mem hhere hreach hfound hp ((hinside g).mpr hg).1 hhigh
  · apply mem_takeWhile_of_forall hhere hfound
    intro a ha hle
    exact hp a ha (hfar a (hsublist.mem ha)) (Int.le_trans hle hhigh)

/-- A window holds all lines of a body or none of them. -/
theorem BodyAt.mem_window {pre post window : List LineMeasure} {m g g' : LineMeasure}
    {expected : Int} {target : Option Int} (h : stream.BodyAt i t) (hread : stream.ReadTo s)
    (hsorted : (pre ++ m :: post).Pairwise fun a b => a.line < b.line)
    (htarget : ∀ a ∈ pre ++ m :: post, t.startLine ≤ a.line ∧ a.line ≤ t.endLine →
      a.expected = target)
    (hexpected : m.expected = some expected)
    (hwindow : RepairContext.window? expected
      ((RepairContext.ofStream stream layout).sameDocument m.line pre.reverse) m
      ((RepairContext.ofStream stream layout).sameDocument m.line post) = some window)
    (hgw : g ∈ window) (hg : t.startLine ≤ g.line ∧ g.line ≤ t.endLine)
    (hmem : g' ∈ pre ++ m :: post) (hg' : t.startLine ≤ g'.line ∧ g'.line ≤ t.endLine) :
    g' ∈ window := by
  obtain ⟨hpre, hpost, hcross⟩ := List.pairwise_append.mp hsorted
  obtain ⟨hafter, hpost⟩ := List.pairwise_cons.mp hpost
  have hbefore : ∀ a ∈ pre, a.line < m.line := fun a ha => hcross a ha m (List.mem_cons_self ..)
  -- The lines before are searched from the last one on, so their order is turned round.
  have hdown : pre.reverse.Pairwise fun a b => -(a.line : Int) < -(b.line : Int) := by
    rw [List.pairwise_reverse]
    refine hpre.imp fun hab => ?_
    omega
  have hup : post.Pairwise fun a b => (a.line : Int) < (b.line : Int) := by
    refine hpost.imp fun hab => ?_
    omega
  have hdownInside : ∀ a : LineMeasure, (-(t.endLine : Int) ≤ -(a.line : Int) ∧
      -(a.line : Int) ≤ -(t.startLine : Int)) ↔ (t.startLine ≤ a.line ∧ a.line ≤ t.endLine) := by
    intro a
    omega
  have hupInside : ∀ a : LineMeasure, ((t.startLine : Int) ≤ (a.line : Int) ∧
      (a.line : Int) ≤ (t.endLine : Int)) ↔ (t.startLine ≤ a.line ∧ a.line ≤ t.endLine) := by
    intro a
    omega
  have hcentre : t.startLine ≤ m.line ∧ m.line ≤ t.endLine → target = some expected := by
    intro hm
    rw [← htarget m (by simp) hm, hexpected]
  have hearlier : ∀ x : LineMeasure, t.startLine ≤ x.line ∧ x.line ≤ t.endLine → g' ∈ pre →
      x ∈ ((RepairContext.ofStream stream layout).sameDocument m.line pre.reverse).takeWhile
        (!·.belongsLeftOf expected) ∨ x = m → g' ∈ window := by
    intro x hx hmem hreach
    rw [RepairContext.mem_window?_iff hwindow]
    left
    apply h.mem_side hread hdown hdownInside (fun a ha => htarget a (List.mem_append_left _
      (List.mem_reverse.mp ha))) hx (List.mem_reverse.mpr hmem) hg'
    rcases hreach with hreach | rfl
    · exact .inl hreach
    · refine .inr ⟨rfl, hcentre hx, fun a ha => ?_⟩
      have hlt := hbefore a (List.mem_reverse.mp ha)
      omega
  have hlater : ∀ x : LineMeasure, t.startLine ≤ x.line ∧ x.line ≤ t.endLine → g' ∈ post →
      x ∈ ((RepairContext.ofStream stream layout).sameDocument m.line post).takeWhile
        (!·.belongsLeftOf expected) ∨ x = m → g' ∈ window := by
    intro x hx hmem hreach
    rw [RepairContext.mem_window?_iff hwindow]
    right
    right
    apply h.mem_side hread hup hupInside (fun a ha => htarget a (by simp [ha])) hx hmem hg'
    rcases hreach with hreach | rfl
    · exact .inl hreach
    · refine .inr ⟨rfl, hcentre hx, fun a ha => ?_⟩
      have hlt := hafter a ha
      omega
  have hself : m ∈ window := by
    rw [RepairContext.mem_window?_iff hwindow]
    exact .inr (.inl rfl)
  rcases List.mem_append.mp hmem with hleft | hright
  · rcases (RepairContext.mem_window?_iff hwindow).mp hgw with hgw | rfl | hgw
    · exact hearlier g hg hleft (.inl hgw)
    · exact hearlier g hg hleft (.inr rfl)
    · -- The line itself lies between the two, so it is one of the body.
      have hgpost := RepairContext.mem_of_reached hgw
      have hgt := hafter g hgpost
      have hlt := hbefore g' hleft
      exact hearlier m (by omega) hleft (.inr rfl)
  rcases List.mem_cons.mp hright with rfl | hlast
  · exact hself
  · rcases (RepairContext.mem_window?_iff hwindow).mp hgw with hgw | rfl | hgw
    · have hgpre := RepairContext.mem_of_reached hgw
      have hlt := hbefore g (List.mem_reverse.mp hgpre)
      have hgt := hafter g' hlast
      exact hlater m (by omega) hlast (.inr rfl)
    · exact hlater g hg hlast (.inr rfl)
    · exact hlater g hg hlast (.inl hgw)

end Stream

end YamlLayout
