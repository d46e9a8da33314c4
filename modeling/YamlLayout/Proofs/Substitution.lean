import Mathlib.Data.List.Sort
import YamlLayout.Edit

/-!
# Repairs as simultaneous substitution

The edits that `applyRepairs` makes lie apart from each other. Making them one by one
from the end of the text is therefore the same as making them all at once:
`Patched before edits text result` says that `result` is `text` with every edit made,
where `before` is what comes before `text`.
-/
namespace YamlLayout

namespace Text

/-- A byte offset cuts a text in one way only. -/
theorem eq_of_byteLength_eq {a b c d : List Char} (h : a ++ b = c ++ d)
    (hlen : byteLength a = byteLength c) : a = c ∧ b = d := by
  have hleft : splitAt? (a ++ b) (byteLength a) = some (a, b) :=
    splitAt?_eq_some_iff.mpr ⟨rfl, rfl⟩
  have hright : splitAt? (a ++ b) (byteLength a) = some (c, d) :=
    splitAt?_eq_some_iff.mpr ⟨h.symm, hlen.symm⟩
  rw [hleft, Option.some.injEq, Prod.mk.injEq] at hright
  exact hright

theorem byteLength_eq_zero {a : List Char} (h : byteLength a = 0) : a = [] := by
  cases a with
  | nil => rfl
  | cons c cs =>
    have := Char.utf8Size_pos c
    simp only [byteLength] at h
    omega

/-- Of two places in a text, the one at the smaller offset comes first. -/
theorem exists_append_of_byteLength_le {a b c d : List Char} (h : a ++ b = c ++ d)
    (hlen : byteLength a ≤ byteLength c) : ∃ e, c = a ++ e ∧ b = e ++ d := by
  rcases List.append_eq_append_iff.mp h with ⟨e, hc, hb⟩ | ⟨e, ha, hd⟩
  · exact ⟨e, hc, hb⟩
  · have hnil : e = [] := by
      apply byteLength_eq_zero
      rw [ha, byteLength_append] at hlen
      omega
    subst hnil
    exact ⟨[], by simpa using ha.symm, by simpa using hd.symm⟩

end Text

namespace Edit

/-- The edit replaces `old`, which stands between `before` and `after`. -/
structure Replaces (e : Edit) (text before old after : List Char) : Prop where
  text_eq : text = before ++ (old ++ after)
  range_eq : e.range = ⟨Text.byteLength before, Text.byteLength before + Text.byteLength old⟩

/-- The range of the edit lies in the text and cuts no character. -/
def Fits (e : Edit) (text : List Char) : Prop :=
  ∃ before old after, e.Replaces text before old after

/-- The edit lies in front of another one, and not at the same empty place. -/
def Precedes (a b : Edit) : Prop :=
  a.range.stop ≤ b.range.start ∧ a.range.start < b.range.stop

variable {e a b : Edit} {text before old after : List Char} {edits : List Edit}

theorem Replaces.start_le_stop (h : e.Replaces text before old after) :
    e.range.start ≤ e.range.stop := by
  rw [h.range_eq]
  exact Nat.le_add_right ..

theorem Replaces.unique {before' old' after' : List Char} (h : e.Replaces text before old after)
    (h' : e.Replaces text before' old' after') :
    before = before' ∧ old = old' ∧ after = after' := by
  have hrange := h.range_eq.symm.trans h'.range_eq
  simp only [Span.mk.injEq] at hrange
  obtain ⟨hbefore, hold⟩ := hrange
  obtain ⟨rfl, hrest⟩ := Text.eq_of_byteLength_eq (h.text_eq.symm.trans h'.text_eq) hbefore
  obtain ⟨rfl, rfl⟩ := Text.eq_of_byteLength_eq hrest (by omega)
  exact ⟨rfl, rfl, rfl⟩

theorem Replaces.apply_eq (h : e.Replaces text before old after) :
    e.apply text = before ++ (e.text.toList ++ after) := by
  have hstart : Text.splitAt? text e.range.start = some (before, old ++ after) := by
    rw [Text.splitAt?_eq_some_iff, h.range_eq]
    exact ⟨h.text_eq.symm, rfl⟩
  have hstop : Text.splitAt? text e.range.stop = some (before ++ old, after) := by
    rw [Text.splitAt?_eq_some_iff, h.range_eq]
    exact ⟨by simp [h.text_eq], by simp⟩
  unfold Edit.apply Text.replace
  rw [hstart, hstop]
  simp only [h.start_le_stop, if_true, List.append_assoc]

theorem insertBy_eq (le : Edit → Edit → Bool) (e : Edit) (edits : List Edit) :
    insertBy le e edits = edits.orderedInsert (fun a b => le a b = true) e := by
  induction edits with
  | nil => rfl
  | cons f fs ih => simp only [insertBy, List.orderedInsert, ih]

theorem sortBy_eq (le : Edit → Edit → Bool) (edits : List Edit) :
    sortBy le edits = edits.insertionSort (fun a b => le a b = true) := by
  induction edits with
  | nil => rfl
  | cons e edits ih =>
    rw [sortBy, List.foldr_cons, List.insertionSort_cons, insertBy_eq, ← ih]
    rfl

theorem perm_sortBy (le : Edit → Edit → Bool) (edits : List Edit) :
    (sortBy le edits).Perm edits := by
  rw [sortBy_eq]
  exact List.perm_insertionSort ..

/-- Sorting by an order that compares any two edits puts them in that order. -/
theorem pairwise_sortBy (le : Edit → Edit → Bool) (htotal : ∀ a b, (le a b || le b a) = true)
    (htrans : ∀ a b c, le a b = true → le b c = true → le a c = true) (edits : List Edit) :
    (sortBy le edits).Pairwise fun a b => le a b = true := by
  have : Std.Total (fun a b : Edit => le a b = true) :=
    ⟨fun a b => by simpa using htotal a b⟩
  have : IsTrans Edit (fun a b => le a b = true) := ⟨htrans⟩
  rw [sortBy_eq]
  exact List.pairwise_insertionSort ..

theorem pairwise_sort (edits : List Edit) :
    (sort edits).Pairwise fun a b => a.le b = true :=
  pairwise_sortBy le (fun _ _ => Span.le_total ..) (fun _ _ _ => Span.le_trans) edits

theorem le_iff :
    a.le b = true ↔ a.range.start < b.range.start ∨
      (a.range.start = b.range.start ∧ a.range.stop ≤ b.range.stop) := by
  simp [le, Span.le]

theorem precedes_of_le (ha : a.range.start ≤ a.range.stop) (hb : b.range.start ≤ b.range.stop)
    (hle : a.le b = true) (hapart : a.overlaps b = false) : a.Precedes b := by
  rw [le_iff] at hle
  unfold Edit.overlaps Span.overlaps at hapart
  unfold Precedes
  by_cases hempty : (a.range.isEmpty && b.range.isEmpty) = true
  · rw [if_pos hempty, beq_eq_false_iff_ne] at hapart
    simp only [Bool.and_eq_true, Span.isEmpty_iff] at hempty
    omega
  · rw [if_neg hempty] at hapart
    simp only [Bool.and_eq_true, Span.isEmpty_iff, not_and_or, Nat.not_le] at hempty
    simp only [Bool.and_eq_false_iff, decide_eq_false_iff_not, Nat.not_lt] at hapart
    omega

/-- Sorted edits whose neighbours do not overlap lie in front of each other. -/
theorem pairwise_precedes (hstart : ∀ e ∈ edits, e.range.start ≤ e.range.stop)
    (hsorted : edits.Pairwise fun a b => a.le b = true)
    (hapart : neighboursOverlap edits = false) : edits.Pairwise Precedes := by
  induction edits with
  | nil => exact .nil
  | cons a rest ih =>
    cases rest with
    | nil => exact List.pairwise_singleton ..
    | cons b rest =>
      simp only [neighboursOverlap, Bool.or_eq_false_iff] at hapart
      have htail := ih (fun e he => hstart e (List.mem_cons_of_mem _ he)) hsorted.tail hapart.2
      have hab : a.Precedes b := by
        refine precedes_of_le (hstart a (by simp)) (hstart b (by simp)) ?_ hapart.1
        exact (List.pairwise_cons.mp hsorted).1 b (by simp)
      refine List.pairwise_cons.mpr ⟨fun c hc => ?_, htail⟩
      rcases List.mem_cons.mp hc with rfl | hc
      · exact hab
      · have hbc : b.Precedes c := (List.pairwise_cons.mp htail).1 c hc
        have hb := hstart b (by simp)
        have hc := hstart c (by simp [hc])
        unfold Precedes at hab hbc ⊢
        omega

theorem overlaps_comm (a b : Edit) : a.overlaps b = b.overlaps a := Span.overlaps_comm ..

theorem Precedes.overlaps_eq_false (h : a.Precedes b) : a.overlaps b = false := by
  obtain ⟨hstop, hstart⟩ := h
  unfold Edit.overlaps Span.overlaps
  by_cases hempty : (a.range.isEmpty && b.range.isEmpty) = true
  · rw [if_pos hempty, beq_eq_false_iff_ne]
    simp only [Bool.and_eq_true, Span.isEmpty_iff] at hempty
    omega
  · rw [if_neg hempty, Bool.and_eq_false_iff, decide_eq_false_iff_not, decide_eq_false_iff_not]
    omega

end Edit

namespace Repair

/-- No two edits of the list overlap. -/
def Apart (edits : List Edit) : Prop := edits.Pairwise fun a b => a.overlaps b = false

theorem Apart.perm {edits others : List Edit} (h : Apart edits) (hperm : edits.Perm others) :
    Apart others :=
  (hperm.pairwise_iff fun hab => by rwa [Edit.overlaps_comm]).mp h

theorem edits_of_ofEdits? {edits : List Edit} {r : Repair} (h : ofEdits? edits = some r) :
    r.edits = Edit.sort edits ∧ Edit.neighboursOverlap r.edits = false := by
  unfold ofEdits? at h
  dsimp only at h
  split at h
  · cases h
  · rename_i hapart
    rw [Option.some.injEq] at h
    subst h
    exact ⟨rfl, by simpa using hapart⟩

theorem perm_of_ofEdits? {edits : List Edit} {r : Repair} (h : ofEdits? edits = some r) :
    r.edits.Perm edits := by
  rw [(edits_of_ofEdits? h).1]
  exact Edit.perm_sortBy ..

theorem apart_of_ofEdits? {edits : List Edit} {r : Repair} (h : ofEdits? edits = some r)
    (hstart : ∀ e ∈ edits, e.range.start ≤ e.range.stop) : Apart r.edits := by
  obtain ⟨hsort, hneighbours⟩ := edits_of_ofEdits? h
  have hsorted : r.edits.Pairwise fun a b => a.le b = true := by
    rw [hsort]
    exact Edit.pairwise_sort edits
  have hmem : ∀ e ∈ r.edits, e.range.start ≤ e.range.stop :=
    fun e he => hstart e ((perm_of_ofEdits? h).mem_iff.mp he)
  exact (Edit.pairwise_precedes hmem hsorted hneighbours).imp fun h => h.overlaps_eq_false

/-- Taking a repair keeps what is taken apart. -/
theorem apart_accept {taken : List Edit} {r : Repair} (htaken : Apart taken)
    (hr : Apart r.edits) : Apart (accept taken r) := by
  unfold accept
  split
  · exact htaken
  · rename_i hclash
    refine List.pairwise_append.mpr ⟨htaken, hr, fun a ha b hb => ?_⟩
    simp only [clashes, List.any_eq_true, not_exists, not_and] at hclash
    simpa using hclash b hb a ha

theorem apart_accepted {repairs : List Repair} (h : ∀ r ∈ repairs, Apart r.edits) :
    Apart (accepted repairs) := by
  have hfold : ∀ taken, Apart taken → Apart (repairs.foldl accept taken) := by
    induction repairs with
    | nil => exact fun taken htaken => htaken
    | cons r rs ih =>
      intro taken htaken
      exact ih (fun r hr => h r (List.mem_cons_of_mem _ hr)) _
        (apart_accept htaken (h r (List.mem_cons_self ..)))
  exact hfold [] .nil

theorem exists_of_mem_accepted {repairs : List Repair} {e : Edit} (h : e ∈ accepted repairs) :
    ∃ r ∈ repairs, e ∈ r.edits := by
  have hfold : ∀ taken, e ∈ repairs.foldl accept taken →
      e ∈ taken ∨ ∃ r ∈ repairs, e ∈ r.edits := by
    clear h
    induction repairs with
    | nil => exact fun taken he => .inl he
    | cons r rs ih =>
      intro taken he
      rcases ih (accept taken r) he with he | ⟨q, hq, heq⟩
      · unfold accept at he
        split at he
        · exact .inl he
        · rcases List.mem_append.mp he with he | he
          · exact .inl he
          · exact .inr ⟨r, List.mem_cons_self .., he⟩
      · exact .inr ⟨q, List.mem_cons_of_mem _ hq, heq⟩
  rcases hfold [] h with h | h
  · cases h
  · exact h

end Repair

/-- All edits are made at once, in the order of the text. -/
inductive Patched : List Char → List Edit → List Char → List Char → Prop
  | done (before text : List Char) : Patched before [] text text
  | keep {before : List Char} {edits : List Edit} {text result : List Char} (c : Char)
      (h : Patched (before ++ [c]) edits text result) :
      Patched before edits (c :: text) (c :: result)
  | swap {before : List Char} {edits : List Edit} {text result : List Char} {e : Edit}
      (old : List Char) (hrange : e.range =
        ⟨Text.byteLength before, Text.byteLength before + Text.byteLength old⟩)
      (h : Patched (before ++ old) edits text result) :
      Patched before (e :: edits) (old ++ text) (e.text.toList ++ result)

namespace Patched

variable {before text result : List Char} {edits : List Edit}

theorem keep_append (kept : List Char) (h : Patched (before ++ kept) edits text result) :
    Patched before edits (kept ++ text) (kept ++ result) := by
  induction kept generalizing before with
  | nil => simpa using h
  | cons c cs ih => exact .keep c (ih (by simpa using h))

/-- Edits made from the last one to the first are made at once. -/
theorem foldr_apply (before text : List Char) (hprecedes : edits.Pairwise Edit.Precedes)
    (hfits : ∀ e ∈ edits, e.Fits (before ++ text))
    (hstart : ∀ e ∈ edits, Text.byteLength before ≤ e.range.start) :
    ∃ result, edits.foldr (fun e t => e.apply t) (before ++ text) = before ++ result ∧
      Patched before edits text result := by
  induction edits generalizing before text with
  | nil => exact ⟨text, rfl, .done before text⟩
  | cons e edits ih =>
    obtain ⟨hhead, htail⟩ := List.pairwise_cons.mp hprecedes
    obtain ⟨front, old, after, hreplaces⟩ := hfits e (List.mem_cons_self ..)
    have hle := hstart e (List.mem_cons_self ..)
    rw [hreplaces.range_eq] at hle
    obtain ⟨kept, rfl, rfl⟩ := Text.exists_append_of_byteLength_le hreplaces.text_eq hle
    -- The later edits leave everything up to the end of this one as it is.
    have hsplit : before ++ (kept ++ (old ++ after)) = (before ++ kept ++ old) ++ after := by simp
    obtain ⟨result, hfold, hpatched⟩ := ih (before ++ kept ++ old) after htail
      (fun f hf => by
        rw [← hsplit]
        exact hfits f (List.mem_cons_of_mem _ hf))
      (fun f hf => by
        have hstop := (hhead f hf).1
        rw [hreplaces.range_eq] at hstop
        simpa [Nat.add_assoc] using hstop)
    refine ⟨kept ++ (e.text.toList ++ result), ?_, ?_⟩
    · rw [List.foldr_cons, hsplit, hfold]
      have hlater : e.Replaces (before ++ kept ++ old ++ result) (before ++ kept) old result :=
        ⟨by simp, hreplaces.range_eq⟩
      rw [hlater.apply_eq]
      simp
    · exact keep_append kept (.swap old hreplaces.range_eq hpatched)

end Patched

/-- The edits that repairs make are made at once. -/
theorem exists_patched_applyRepairs {text : List Char} {repairs : List Repair}
    (hapart : ∀ r ∈ repairs, Repair.Apart r.edits)
    (hfits : ∀ r ∈ repairs, ∀ e ∈ r.edits, e.Fits text) :
    ∃ edits, edits.Perm (Repair.accepted repairs) ∧ edits.Pairwise Edit.Precedes ∧
      Patched [] edits text (applyRepairs text repairs) := by
  let made := Edit.sortBy (fun a b => b.le a) (Repair.accepted repairs)
  have hperm : made.reverse.Perm (Repair.accepted repairs) :=
    (List.reverse_perm _).trans (Edit.perm_sortBy ..)
  have hfit : ∀ e ∈ made.reverse, e.Fits text := by
    intro e he
    obtain ⟨r, hr, her⟩ := Repair.exists_of_mem_accepted (hperm.mem_iff.mp he)
    exact hfits r hr e her
  have hstart : ∀ e ∈ made.reverse, e.range.start ≤ e.range.stop := by
    intro e he
    obtain ⟨before, old, after, hreplaces⟩ := hfit e he
    exact hreplaces.start_le_stop
  have hsorted : made.reverse.Pairwise fun a b => a.le b = true := by
    rw [List.pairwise_reverse]
    exact Edit.pairwise_sortBy (fun a b => b.le a) (fun a b => Span.le_total ..)
      (fun a b c hab hbc => Span.le_trans hbc hab) _
  have hprecedes : made.reverse.Pairwise Edit.Precedes := by
    have hall := hsorted.and ((Repair.apart_accepted hapart).perm hperm.symm)
    refine hall.imp_of_mem fun ha hb hab => ?_
    exact Edit.precedes_of_le (hstart _ ha) (hstart _ hb) hab.1 hab.2
  obtain ⟨result, hfold, hpatched⟩ := Patched.foldr_apply [] text
    hprecedes hfit (fun e _ => Nat.zero_le _)
  have hresult : applyRepairs text repairs = result := by
    rw [List.foldr_reverse] at hfold
    exact hfold
  exact ⟨made.reverse, hperm, hprecedes, hresult ▸ hpatched⟩

end YamlLayout
