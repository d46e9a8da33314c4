import YamlLayout.Proofs.PatchedRows

/-!
# Repairs made at once

A repair is made whole or not at all, and the edits that are made are made at once:
`Edit.atOnce` walks through a text and says of every offset what is written there and
whether the character there stays. It looks edits up by their ranges only, so the order
of edits that lie apart does not matter.
-/
namespace YamlLayout

namespace Edit

/-- What edits write at an offset: first what they insert there, then what they put for
the range that starts there. -/
def writtenAt (edits : List Edit) (offset : Nat) : List Char :=
  (edits.filter fun e => e.range == ⟨offset, offset⟩).flatMap (·.text.toList) ++
    (edits.filter fun e => e.range.start == offset && offset < e.range.stop).flatMap
      (·.text.toList)

/-- One of the edits takes away the character at an offset. -/
def takesAway (edits : List Edit) (offset : Nat) : Bool :=
  edits.any fun e => e.range.start ≤ offset && offset < e.range.stop

/-- The text that starts at an offset, with all edits made at once. -/
def atOnce (edits : List Edit) (offset : Nat) : List Char → List Char
  | [] => writtenAt edits offset
  | c :: text =>
    writtenAt edits offset ++ ((if takesAway edits offset then [] else [c]) ++
      atOnce edits (offset + c.utf8Size) text)

variable {e : Edit} {edits others : List Edit} {offset : Nat}

theorem fits_iff {text : List Char} : e.Fits text ↔ (Text.slice? text e.range).isSome = true := by
  constructor
  · rintro ⟨before, old, after, hreplaces⟩
    have hfront : Text.splitAt? text (Text.byteLength before) = some (before, old ++ after) :=
      Text.splitAt?_eq_some_iff.mpr ⟨hreplaces.text_eq.symm, rfl⟩
    have hold : Text.splitAt? (old ++ after) (Text.byteLength old) = some (old, after) :=
      Text.splitAt?_eq_some_iff.mpr ⟨rfl, rfl⟩
    simp [Text.slice?, hreplaces.range_eq, hfront, hold]
  · intro hslice
    obtain ⟨old, hslice⟩ := Option.isSome_iff_exists.mp hslice
    simp only [Text.slice?, Option.bind_eq_bind, Option.bind_eq_some_iff, Prod.exists] at hslice
    obtain ⟨before, back, hfront, middle, after, hback, hle⟩ := hslice
    rw [Text.splitAt?_eq_some_iff] at hfront hback
    split at hle
    · rename_i hordered
      refine ⟨before, middle, after, by rw [hback.1, hfront.1], ?_⟩
      rw [hfront.2, hback.2, Nat.add_sub_cancel' hordered]
    · cases hle

instance (text : List Char) : Decidable (e.Fits text) := decidable_of_iff _ fits_iff.symm

theorem atOnce_nil (offset : Nat) (text : List Char) : atOnce [] offset text = text := by
  induction text generalizing offset with
  | nil => rfl
  | cons c text ih => simp [atOnce, writtenAt, takesAway, ih]

theorem writtenAt_of_lt (h : ∀ f ∈ edits, offset < f.range.start) :
    writtenAt edits offset = [] := by
  have hinserts : edits.filter (fun f => f.range == ⟨offset, offset⟩) = [] := by
    rw [List.filter_eq_nil_iff]
    intro f hf hrange
    have hlt := h f hf
    rw [eq_of_beq hrange] at hlt
    exact Nat.lt_irrefl _ hlt
  have hstarts : edits.filter (fun f => f.range.start == offset && offset < f.range.stop) = [] := by
    rw [List.filter_eq_nil_iff]
    intro f hf hrange
    rw [Bool.and_eq_true, beq_iff_eq] at hrange
    exact Nat.ne_of_gt (h f hf) hrange.1
  rw [writtenAt, hinserts, hstarts]
  rfl

theorem takesAway_of_lt (h : ∀ f ∈ edits, offset < f.range.start) :
    takesAway edits offset = false := by
  rw [takesAway, List.any_eq_false]
  intro f hf hcovers
  rw [Bool.and_eq_true, decide_eq_true_eq] at hcovers
  exact Nat.not_le.mpr (h f hf) hcovers.1

/-- In front of all edits the text stays as it is. -/
theorem atOnce_cons_of_lt {c : Char} {text : List Char}
    (h : ∀ f ∈ edits, offset < f.range.start) :
    atOnce edits offset (c :: text) = c :: atOnce edits (offset + c.utf8Size) text := by
  rw [atOnce, writtenAt_of_lt h, takesAway_of_lt h]
  rfl

/-- An edit that starts at another offset writes nothing here. -/
theorem writtenAt_cons_of_ne (h : e.range.start ≠ offset) :
    writtenAt (e :: edits) offset = writtenAt edits offset := by
  have hinsert : (e.range == ⟨offset, offset⟩) = false := by
    rw [beq_eq_false_iff_ne]
    intro hrange
    rw [hrange] at h
    exact h rfl
  have hstart : (e.range.start == offset) = false := beq_eq_false_iff_ne.mpr h
  simp [writtenAt, hinsert, hstart]

theorem takesAway_cons (e : Edit) (edits : List Edit) (offset : Nat) :
    takesAway (e :: edits) offset =
      ((decide (e.range.start ≤ offset) && decide (offset < e.range.stop)) ||
        takesAway edits offset) := rfl

/-- An edit that is passed has nothing to do with the text that follows. -/
theorem atOnce_cons_of_passed {text : List Char} (hstart : e.range.start < offset)
    (hstop : e.range.stop ≤ offset) :
    atOnce (e :: edits) offset text = atOnce edits offset text := by
  have hwritten : writtenAt (e :: edits) offset = writtenAt edits offset :=
    writtenAt_cons_of_ne (Nat.ne_of_lt hstart)
  induction text generalizing offset with
  | nil => exact hwritten
  | cons c text ih =>
    have hnext : e.range.start < offset + c.utf8Size := by omega
    have htail := ih hnext (by omega) (writtenAt_cons_of_ne (Nat.ne_of_lt hnext))
    have hkeeps : takesAway (e :: edits) offset = takesAway edits offset := by
      rw [takesAway_cons, decide_eq_false (Nat.not_lt.mpr hstop), Bool.and_false, Bool.false_or]
    rw [atOnce, atOnce, hwritten, hkeeps, htail]

/-- An insertion is written in front of all that the other edits write at its place. -/
theorem atOnce_cons_of_insertion {text : List Char} (hrange : e.range = ⟨offset, offset⟩) :
    atOnce (e :: edits) offset text = e.text.toList ++ atOnce edits offset text := by
  have hwritten : writtenAt (e :: edits) offset = e.text.toList ++ writtenAt edits offset := by
    simp [writtenAt, hrange]
  cases text with
  | nil => exact hwritten
  | cons c text =>
    have hkeeps : takesAway (e :: edits) offset = takesAway edits offset := by
      simp [takesAway_cons, hrange]
    have hsize := c.utf8Size_pos
    have htail : atOnce (e :: edits) (offset + c.utf8Size) text =
        atOnce edits (offset + c.utf8Size) text := by
      apply atOnce_cons_of_passed <;> rw [hrange] <;> dsimp only <;> omega
    rw [atOnce, atOnce, hwritten, hkeeps, htail, List.append_assoc]

/-- What is left of a range behind its first character is taken away. -/
theorem atOnce_cons_of_within {old text : List Char} (hstart : e.range.start < offset)
    (hstop : e.range.stop = offset + Text.byteLength old)
    (hlater : ∀ f ∈ edits, e.range.stop ≤ f.range.start) :
    atOnce (e :: edits) offset (old ++ text) = atOnce edits e.range.stop text := by
  induction old generalizing offset with
  | nil =>
    rw [Text.byteLength, Nat.add_zero] at hstop
    rw [List.nil_append, hstop]
    exact atOnce_cons_of_passed hstart (Nat.le_of_eq hstop)
  | cons c old ih =>
    have hsize := c.utf8Size_pos
    rw [Text.byteLength] at hstop
    have hfront : ∀ f ∈ edits, offset < f.range.start := by
      intro f hf
      have := hlater f hf
      omega
    have hwritten : writtenAt (e :: edits) offset = [] := by
      rw [writtenAt_cons_of_ne (Nat.ne_of_lt hstart), writtenAt_of_lt hfront]
    have htakes : takesAway (e :: edits) offset = true := by
      rw [takesAway_cons, decide_eq_true (Nat.le_of_lt hstart), decide_eq_true (by omega)]
      rfl
    rw [List.cons_append, atOnce, hwritten, htakes, if_pos rfl]
    exact ih (by omega) (by omega)

/-- A range that is not empty gives way to what its edit writes. -/
theorem atOnce_cons_of_range {old text : List Char} (hold : old ≠ [])
    (hrange : e.range = ⟨offset, offset + Text.byteLength old⟩)
    (hlater : ∀ f ∈ edits, e.range.stop ≤ f.range.start) :
    atOnce (e :: edits) offset (old ++ text) =
      e.text.toList ++ atOnce edits e.range.stop text := by
  obtain ⟨c, rest, rfl⟩ := List.exists_cons_of_ne_nil hold
  have hsize := c.utf8Size_pos
  have hstart : e.range.start = offset := by rw [hrange]
  have hstop : e.range.stop = offset + (c.utf8Size + Text.byteLength rest) := by
    rw [hrange]
    rfl
  have hfront : ∀ f ∈ edits, offset < f.range.start := by
    intro f hf
    have := hlater f hf
    omega
  have hwritten : writtenAt (e :: edits) offset = e.text.toList := by
    have hinsert : (e.range == ⟨offset, offset⟩) = false := by
      rw [beq_eq_false_iff_ne]
      intro hempty
      rw [hempty] at hstop
      dsimp only at hstop
      omega
    have hstarts : (e.range.start == offset && decide (offset < e.range.stop)) = true := by
      rw [hstart, beq_self_eq_true, decide_eq_true (by omega)]
      rfl
    have hnone := writtenAt_of_lt hfront
    rw [writtenAt, List.append_eq_nil_iff] at hnone
    simp only [writtenAt, List.filter_cons, hinsert, hstarts, Bool.false_eq_true, if_false, if_true,
      hnone.1, List.flatMap_cons, hnone.2, List.append_nil, List.nil_append]
  have htakes : takesAway (e :: edits) offset = true := by
    rw [takesAway_cons, decide_eq_true (Nat.le_of_eq hstart), decide_eq_true (by omega)]
    rfl
  rw [List.cons_append, atOnce, hwritten, htakes, if_pos rfl, List.nil_append,
    atOnce_cons_of_within (by omega) (by omega) hlater]

/-- Of edits that lie apart, those that overlap each other are at most one, so their
order does not matter. -/
theorem filter_eq_of_perm {p : Edit → Bool} (hperm : edits.Perm others)
    (hapart : Repair.Apart edits)
    (hp : ∀ a b, p a = true → p b = true → a.overlaps b = true) :
    edits.filter p = others.filter p := by
  have hfilter := hperm.filter p
  have hsub : (edits.filter p).Pairwise fun a b => a.overlaps b = false :=
    List.Pairwise.sublist List.filter_sublist hapart
  cases hcases : edits.filter p with
  | nil =>
    rw [hcases] at hfilter
    exact hfilter.nil_eq
  | cons a rest =>
    cases rest with
    | nil =>
      rw [hcases] at hfilter
      exact (List.perm_singleton.mp hfilter.symm).symm
    | cons b rest =>
      have hmem : ∀ x ∈ a :: b :: rest, p x = true := by
        intro x hx
        rw [← hcases] at hx
        exact (List.mem_filter.mp hx).2
      rw [hcases] at hsub
      have hnot := (List.pairwise_cons.mp hsub).1 b (by simp)
      rw [hp a b (hmem a (by simp)) (hmem b (by simp))] at hnot
      cases hnot

/-- Two edits that take the place of the same characters, or insert at the same place,
overlap. -/
theorem writtenAt_perm (hperm : edits.Perm others) (hapart : Repair.Apart edits) :
    writtenAt edits offset = writtenAt others offset := by
  have hinserts := @filter_eq_of_perm edits others (fun e => e.range == ⟨offset, offset⟩) hperm
    hapart (fun a b ha hb => by
      rw [overlaps, eq_of_beq ha, eq_of_beq hb]
      simp [Span.overlaps, Span.isEmpty])
  have hstarts := @filter_eq_of_perm edits others
    (fun e => e.range.start == offset && decide (offset < e.range.stop)) hperm hapart
    (fun a b ha hb => by
      simp only [Bool.and_eq_true, beq_iff_eq, decide_eq_true_eq] at ha hb
      simp only [overlaps, Span.overlaps, Span.isEmpty, ha.1, hb.1, ha.2, hb.2, Nat.not_le.mpr,
        decide_false, decide_true, Bool.and_self, Bool.false_eq_true, if_false])
  rw [writtenAt, writtenAt, hinserts, hstarts]

/-- Edits that lie apart can be made in any order. -/
theorem atOnce_perm {text : List Char} (hperm : edits.Perm others) (hapart : Repair.Apart edits) :
    atOnce edits offset text = atOnce others offset text := by
  have htakes : ∀ offset, takesAway edits offset = takesAway others offset := by
    intro offset
    exact hperm.any_eq
  induction text generalizing offset with
  | nil => exact writtenAt_perm hperm hapart
  | cons c text ih => rw [atOnce, atOnce, writtenAt_perm hperm hapart, htakes, ih]

end Edit

namespace Patched

variable {before text result : List Char} {edits : List Edit} {e : Edit}

theorem le_start_of_mem (h : Patched before edits text result) (he : e ∈ edits) :
    Text.byteLength before ≤ e.range.start := by
  obtain ⟨front, old, rest, -, hrange⟩ := h.exists_of_mem he
  rw [hrange, Text.byteLength_append]
  exact Nat.le_add_right ..

/-- Edits in the order of the text are made where their ranges say. -/
theorem eq_atOnce (h : Patched before edits text result) :
    result = Edit.atOnce edits (Text.byteLength before) text := by
  induction h with
  | done before text => exact (Edit.atOnce_nil ..).symm
  | @keep before edits text result c h ih =>
    have hsize := c.utf8Size_pos
    have hfront : ∀ f ∈ edits, Text.byteLength before < f.range.start := by
      intro f hf
      have hle := h.le_start_of_mem hf
      simp only [Text.byteLength_append, Text.byteLength] at hle
      omega
    rw [Edit.atOnce_cons_of_lt hfront, ih]
    simp [Text.byteLength]
  | @swap before edits text result e old hrange h ih =>
    have hstop : e.range.stop = Text.byteLength (before ++ old) := by
      rw [hrange, Text.byteLength_append]
    have hlater : ∀ f ∈ edits, e.range.stop ≤ f.range.start := by
      intro f hf
      rw [hstop]
      exact h.le_start_of_mem hf
    by_cases hold : old = []
    · subst hold
      rw [List.append_nil] at ih
      rw [List.nil_append, Edit.atOnce_cons_of_insertion hrange, ih]
    · rw [Edit.atOnce_cons_of_range hold hrange hlater, ih, hstop]

end Patched

namespace Repair

instance (edits : List Edit) : Decidable (Apart edits) :=
  inferInstanceAs (Decidable (List.Pairwise ..))

/-- No edit of the one repair overlaps an edit of the other. -/
def Independent (r q : Repair) : Prop := ∀ e ∈ r.edits, ∀ f ∈ q.edits, e.overlaps f = false

instance (r q : Repair) : Decidable (Independent r q) := inferInstanceAs (Decidable (∀ _ ∈ _, _))

/-- The repairs that are made among some in order of preference: each one, unless it
overlaps one made before it. -/
inductive Made : List Repair → List Repair → Prop
  | nil : Made [] []
  | whole {repairs made : List Repair} {r : Repair} (h : Made repairs made)
      (hfree : ∀ q ∈ made, q.Independent r) : Made (repairs ++ [r]) (made ++ [r])
  | leftOut {repairs made : List Repair} {r : Repair} (h : Made repairs made)
      (hclash : ∃ q ∈ made, ¬q.Independent r) : Made (repairs ++ [r]) made

theorem clashes_eq_false_iff {made : List Repair} {r : Repair} :
    clashes (made.flatMap (·.edits)) r = false ↔ ∀ q ∈ made, q.Independent r := by
  simp only [clashes, List.any_eq_false, List.mem_flatMap, Independent, Bool.not_eq_true]
  constructor
  · intro h q hq e he f hf
    exact h f hf e ⟨q, hq, he⟩
  · rintro h f hf e ⟨q, hq, he⟩
    exact h q hq e he f hf

theorem accepted_append (repairs : List Repair) (r : Repair) :
    accepted (repairs ++ [r]) = accept (accepted repairs) r := by
  rw [accepted, List.foldl_append]
  rfl

/-- The edits that are made are all edits of the repairs that are made. -/
theorem exists_made (repairs : List Repair) :
    ∃ made, Made repairs made ∧ accepted repairs = made.flatMap (·.edits) := by
  induction repairs using List.reverseRecOn with
  | nil => exact ⟨[], .nil, rfl⟩
  | append_singleton repairs r ih =>
    obtain ⟨made, hmade, hedits⟩ := ih
    rw [accepted_append, accept, hedits]
    cases hclash : clashes (made.flatMap (·.edits)) r with
    | false =>
      exact ⟨made ++ [r], .whole hmade (clashes_eq_false_iff.mp hclash), by simp⟩
    | true =>
      refine ⟨made, .leftOut hmade ?_, rfl⟩
      by_contra hnone
      rw [clashes_eq_false_iff.mpr] at hclash
      · cases hclash
      · intro q hq
        by_contra hother
        exact hnone ⟨q, hq, hother⟩

/-- Repairs that do not overlap are all made. -/
theorem Made.eq_of_pairwise {repairs made : List Repair} (h : Made repairs made)
    (hpairwise : repairs.Pairwise Independent) : made = repairs := by
  induction h with
  | nil => rfl
  | whole h hfree ih => rw [ih (List.pairwise_append.mp hpairwise).1]
  | leftOut h hclash ih =>
    obtain ⟨hfront, -, hacross⟩ := List.pairwise_append.mp hpairwise
    rw [ih hfront] at hclash
    obtain ⟨q, hq, hother⟩ := hclash
    exact absurd (hacross q hq _ (List.mem_singleton_self _)) hother

theorem accepted_of_pairwise {repairs : List Repair} (h : repairs.Pairwise Independent) :
    accepted repairs = repairs.flatMap (·.edits) := by
  obtain ⟨made, hmade, hedits⟩ := exists_made repairs
  rw [hedits, hmade.eq_of_pairwise h]

theorem Independent.symm {r q : Repair} (h : r.Independent q) : q.Independent r := by
  intro e he f hf
  rw [Edit.overlaps_comm]
  exact h f hf e he

end Repair

theorem applyRepairs_eq_atOnce {text : List Char} {repairs : List Repair}
    (hfits : ∀ r ∈ repairs, ∀ e ∈ r.edits, e.Fits text)
    (hapart : ∀ r ∈ repairs, Repair.Apart r.edits) :
    applyRepairs text repairs = Edit.atOnce (Repair.accepted repairs) 0 text := by
  obtain ⟨edits, hperm, -, hpatched⟩ := exists_patched_applyRepairs hapart hfits
  rw [hpatched.eq_atOnce, Edit.atOnce_perm hperm ((Repair.apart_accepted hapart).perm hperm.symm)]
  rfl

/-- Repairs that do not overlap can be made in any order. -/
theorem applyRepairs_perm {text : List Char} {repairs others : List Repair}
    (hfits : ∀ r ∈ repairs, ∀ e ∈ r.edits, e.Fits text)
    (hapart : ∀ r ∈ repairs, Repair.Apart r.edits)
    (hpairwise : repairs.Pairwise Repair.Independent) (hperm : others.Perm repairs) :
    applyRepairs text others = applyRepairs text repairs := by
  have hothers : others.Pairwise Repair.Independent :=
    (hperm.symm.pairwise_iff fun h => h.symm).mp hpairwise
  have hsame : (Repair.accepted others).Perm (Repair.accepted repairs) := by
    rw [Repair.accepted_of_pairwise hothers, Repair.accepted_of_pairwise hpairwise]
    exact hperm.flatMap_right _
  rw [applyRepairs_eq_atOnce hfits hapart, applyRepairs_eq_atOnce
    (fun r hr => hfits r (hperm.mem_iff.mp hr)) (fun r hr => hapart r (hperm.mem_iff.mp hr))]
  exact (Edit.atOnce_perm hsame.symm (Repair.apart_accepted hapart)).symm

/-- Making repairs whose own edits lie apart in the text is one substitution. The edits
that are made lie apart, every repair is made whole or left out for one made before it,
all ranges are replaced at once, and repairs that do not overlap can come in any order. -/
theorem applyRepairs_substitutes {text : List Char} {repairs : List Repair}
    (hfits : ∀ r ∈ repairs, ∀ e ∈ r.edits, e.Fits text)
    (hapart : ∀ r ∈ repairs, Repair.Apart r.edits) :
    Repair.Apart (Repair.accepted repairs) ∧
      (∃ made, Repair.Made repairs made ∧ Repair.accepted repairs = made.flatMap (·.edits)) ∧
      applyRepairs text repairs = Edit.atOnce (Repair.accepted repairs) 0 text ∧
      (repairs.Pairwise Repair.Independent → ∀ others : List Repair, others.Perm repairs →
        applyRepairs text others = applyRepairs text repairs) :=
  ⟨Repair.apart_accepted hapart, Repair.exists_made repairs, applyRepairs_eq_atOnce hfits hapart,
    fun hpairwise _ hperm => applyRepairs_perm hfits hapart hpairwise hperm⟩

/-- An insertion in front of a replaced letter of two bytes, and a repair that is left out
for its first edit. -/
theorem applyRepairs_substitutes_letter :
    let first : Repair := ⟨[⟨⟨1, 3⟩, "x"⟩, ⟨⟨4, 4⟩, "yy"⟩]⟩
    let second : Repair := ⟨[⟨⟨0, 3⟩, "z"⟩, ⟨⟨5, 5⟩, "w"⟩]⟩
    let third : Repair := ⟨[⟨⟨1, 1⟩, "i"⟩]⟩
    Repair.accepted [first, second, third] = first.edits ++ third.edits ∧
      applyRepairs "aé c\n".toList [first, second, third] = "aix yyc\n".toList ∧
      Edit.atOnce (first.edits ++ third.edits) 0 "aé c\n".toList = "aix yyc\n".toList ∧
      applyRepairs "aé c\n".toList [third, first] =
        applyRepairs "aé c\n".toList [first, third] := by
  intro first second third
  have hall := @applyRepairs_substitutes "aé c\n".toList [first, second, third] (by decide)
    (by decide)
  have hpair := @applyRepairs_substitutes "aé c\n".toList [first, third] (by decide) (by decide)
  have hedits : Repair.accepted [first, second, third] = first.edits ++ third.edits := by decide
  have hresult : Edit.atOnce (first.edits ++ third.edits) 0 "aé c\n".toList =
      "aix yyc\n".toList := by decide
  refine ⟨hedits, ?_, hresult, hpair.2.2.2 (by decide) _ (.swap ..)⟩
  rw [hall.2.2.1, hedits, hresult]

end YamlLayout
