import YamlLayout.Proofs.Substitution

/-!
# Overlapping edits

Whether any two of several edits overlap shows in the neighbours among them once they are
sorted by their ranges. Overlapping is not transitive, and an insertion overlaps only what
lies around it, so this rests on the order: sorted edits whose neighbours lie apart come one
after the other.
-/
namespace YamlLayout

namespace Edit

variable {edits : List Edit}

theorem neighboursOverlap_of_apart (h : Repair.Apart edits) : neighboursOverlap edits = false := by
  induction edits with
  | nil => rfl
  | cons a rest ih =>
    obtain ⟨hhead, htail⟩ := List.pairwise_cons.mp h
    cases rest with
    | nil => rfl
    | cons b rest =>
      rw [neighboursOverlap, hhead b (List.mem_cons_self ..), Bool.false_or]
      exact ih htail

/-- Of sorted edits no two overlap if no neighbours do. -/
theorem neighboursOverlap_eq_false_iff (hstart : ∀ e ∈ edits, e.range.start ≤ e.range.stop)
    (hsorted : edits.Pairwise fun a b => a.le b = true) :
    neighboursOverlap edits = false ↔ Repair.Apart edits := by
  refine ⟨fun h => ?_, neighboursOverlap_of_apart⟩
  exact (pairwise_precedes hstart hsorted h).imp fun hprecedes => hprecedes.overlaps_eq_false

theorem not_apart_iff :
    ¬Repair.Apart edits ↔ ∃ (i j : Nat) (a b : Edit), i ≠ j ∧ edits[i]? = some a ∧
      edits[j]? = some b ∧ a.range.overlaps b.range = true := by
  rw [Repair.Apart, List.pairwise_iff_getElem]
  constructor
  · intro h
    simp only [not_forall, Bool.not_eq_false] at h
    obtain ⟨i, j, hi, hj, hlt, hoverlap⟩ := h
    exact ⟨i, j, _, _, Nat.ne_of_lt hlt, List.getElem?_eq_getElem hi,
      List.getElem?_eq_getElem hj, hoverlap⟩
  · rintro ⟨i, j, a, b, hne, ha, hb, hoverlap⟩ h
    obtain ⟨hi, rfl⟩ := List.getElem?_eq_some_iff.mp ha
    obtain ⟨hj, rfl⟩ := List.getElem?_eq_some_iff.mp hb
    rcases Nat.lt_or_gt_of_ne hne with hlt | hgt
    · have hapart : edits[i].overlaps edits[j] = false := h i j hi hj hlt
      rw [overlaps, hoverlap] at hapart
      cases hapart
    · have hapart : edits[j].overlaps edits[i] = false := h j i hj hi hgt
      rw [overlaps_comm, overlaps, hoverlap] at hapart
      cases hapart

/-- Sorting edits by their ranges and looking at neighbours only finds every overlap. -/
theorem neighboursOverlap_sort_iff (h : ∀ e ∈ edits, e.range.start ≤ e.range.stop) :
    (neighboursOverlap (sort edits) = true ↔
        ∃ (i j : Nat) (a b : Edit), i ≠ j ∧ edits[i]? = some a ∧ edits[j]? = some b ∧
          a.range.overlaps b.range = true) ∧
      (sort edits).Perm edits ∧
      (sort edits).Pairwise fun a b => a.range.start < b.range.start ∨
        (a.range.start = b.range.start ∧ a.range.stop ≤ b.range.stop) := by
  have hperm : (sort edits).Perm edits := perm_sortBy le edits
  have hsorted := pairwise_sort edits
  refine ⟨?_, hperm, hsorted.imp le_iff.mp⟩
  have hapart : neighboursOverlap (sort edits) = false ↔ Repair.Apart edits := by
    rw [neighboursOverlap_eq_false_iff (fun e he => h e (hperm.mem_iff.mp he)) hsorted]
    exact ⟨fun hsort => hsort.perm hperm, fun hedits => hedits.perm hperm.symm⟩
  rw [← not_apart_iff, ← hapart, Bool.not_eq_false]

/-- The first edit overlaps the third one, and sorting puts an insertion between the two. -/
theorem neighboursOverlap_sort_iff_insertion :
    let edits : List Edit := [⟨⟨6, 8⟩, ""⟩, ⟨⟨4, 4⟩, "x"⟩, ⟨⟨0, 7⟩, ""⟩]
    (∀ e ∈ edits, e.range.start ≤ e.range.stop) ∧ neighboursOverlap (sort edits) = true := by
  intro edits
  have hstart : ∀ e ∈ edits, e.range.start ≤ e.range.stop := by decide
  refine ⟨hstart, (neighboursOverlap_sort_iff hstart).1.mpr ?_⟩
  exact ⟨0, 2, _, _, by decide, rfl, rfl, by decide⟩

end Edit

end YamlLayout
