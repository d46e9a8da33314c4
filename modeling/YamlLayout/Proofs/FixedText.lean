import Mathlib.Data.List.Forall2
import YamlLayout.Proofs.RepairEdits
import YamlLayout.Proofs.Settling

/-!
# What fixing leaves alone

Making exchanges all at once changes nothing but blanks and digits, and it keeps the
line breaks whole. So does one pass, and so does fixing, pass after pass.
-/
namespace YamlLayout

/-- The characters of a text that are no blanks. -/
def solid (text : List Char) : List Char := text.filter (!isBlank ·)

/-- The characters are the same, or both are digits of a block scalar header. -/
def Matches (a b : Char) : Prop := a = b ∨ (isIndentDigit a = true ∧ isIndentDigit b = true)

instance : Trans Matches Matches Matches where
  trans := by
    rintro a b c (rfl | hab) (rfl | hbc)
    · exact .inl rfl
    · exact .inr hbc
    · exact .inr hab
    · exact .inr ⟨hab.1, hbc.2⟩

@[simp] theorem solid_append (a b : List Char) : solid (a ++ b) = solid a ++ solid b :=
  List.filter_append ..

theorem solid_of_blanks {text : List Char} (h : ∀ c ∈ text, isBlank c = true) :
    solid text = [] := by
  rw [solid, List.filter_eq_nil_iff]
  intro c hc
  simp [h c hc]

theorem matches_refl (a : Char) : Matches a a := .inl rfl

theorem forall₂_matches_refl (text : List Char) : List.Forall₂ Matches text text :=
  List.forall₂_same.mpr fun c _ => matches_refl c

theorem forall₂_matches_trans {a b c : List Char} (hab : List.Forall₂ Matches a b)
    (hbc : List.Forall₂ Matches b c) : List.Forall₂ Matches a c := by
  induction hab generalizing c with
  | nil => exact hbc
  | cons h _ ih =>
    cases hbc with
    | cons h' hbc => exact .cons (Trans.trans h h') (ih hbc)

theorem isBlank_of_isIndentDigit {c : Char} (h : isIndentDigit c = true) : isBlank c = false := by
  rw [← Bool.not_eq_true]
  intro hblank
  simp only [isBlank, Bool.or_eq_true, beq_iff_eq] at hblank
  rcases hblank with rfl | rfl <;> cases h

/-- An exchange keeps all characters that are no blanks, digits apart. -/
theorem Exchange.solid_matches {old new : List Char} (h : Exchange old new) :
    List.Forall₂ Matches (solid old) (solid new) := by
  cases h with
  | blanks hold hnew =>
    rw [solid_of_blanks hold, solid_of_blanks hnew]
    exact .nil
  | digit ha hb =>
    have hkept : ∀ {c}, isIndentDigit c = true → solid [c] = [c] := by
      intro c hc
      simp [solid, isBlank_of_isIndentDigit hc]
    rw [hkept ha, hkept hb]
    exact .cons (.inr ⟨ha, hb⟩) .nil

theorem Exchange.not_mem_new {old new : List Char} (h : Exchange old new) : '\r' ∉ new := by
  cases h with
  | blanks hold hnew =>
    intro hmem
    cases hnew _ hmem
  | digit ha hb =>
    intro hmem
    rw [List.mem_singleton] at hmem
    rw [← hmem] at hb
    cases hb

theorem Text.ReturnsPaired.append {a b : List Char} (ha : '\r' ∉ a) (hb : ReturnsPaired b) :
    ReturnsPaired (a ++ b) := by
  induction a with
  | nil => exact hb
  | cons c cs ih =>
    refine ⟨fun hc => absurd (hc ▸ List.mem_cons_self) ha, ih fun hmem => ha ?_⟩
    exact List.mem_cons_of_mem _ hmem

namespace Patched

variable {before text result : List Char} {edits : List Edit}

theorem solid_matches (h : Patched before edits text result)
    (hquiet : ∀ e ∈ edits, e.Quiet (before ++ text)) :
    List.Forall₂ Matches (solid text) (solid result) := by
  induction h with
  | done before text => exact forall₂_matches_refl _
  | keep c h ih =>
    have htail := ih (by simpa using hquiet)
    by_cases hc : isBlank c = true
    · simpa [solid, hc] using htail
    · simpa [solid, hc] using List.Forall₂.cons (matches_refl c) htail
  | @swap before edits text result e old hrange h ih =>
    obtain ⟨_, _, _, hreplaces, hexchange, -⟩ := hquiet e (List.mem_cons_self ..)
    obtain ⟨rfl, rfl, rfl⟩ := hreplaces.unique ⟨rfl, hrange⟩
    have htail := ih fun f hf => by
      have := hquiet f (List.mem_cons_of_mem _ hf)
      simpa using this
    rw [solid_append, solid_append]
    exact List.rel_append hexchange.solid_matches htail

theorem head?_eq (h : Patched before edits text result)
    (hquiet : ∀ e ∈ edits, e.Quiet (before ++ text)) (hlast : before.getLast? = some '\r') :
    result.head? = text.head? := by
  cases h with
  | done => rfl
  | keep => rfl
  | swap old hrange h =>
    obtain ⟨_, _, _, hreplaces, -, hnot⟩ := hquiet _ (List.mem_cons_self ..)
    obtain ⟨rfl, -, -⟩ := hreplaces.unique ⟨rfl, hrange⟩
    exact absurd hlast hnot

theorem returnsPaired (h : Patched before edits text result)
    (hquiet : ∀ e ∈ edits, e.Quiet (before ++ text)) (hpaired : Text.ReturnsPaired text) :
    Text.ReturnsPaired result := by
  induction h with
  | done => exact hpaired
  | keep c h ih =>
    refine ⟨fun hc => ?_, ih (by simpa using hquiet) hpaired.2⟩
    rw [h.head?_eq (by simpa using hquiet) (by simp [hc])]
    exact hpaired.1 hc
  | @swap before edits text result e old hrange h ih =>
    obtain ⟨_, _, _, hreplaces, hexchange, -⟩ := hquiet e (List.mem_cons_self ..)
    obtain ⟨rfl, rfl, rfl⟩ := hreplaces.unique ⟨rfl, hrange⟩
    refine Text.ReturnsPaired.append hexchange.not_mem_new (ih ?_ hpaired.of_append)
    intro f hf
    have := hquiet f (List.mem_cons_of_mem _ hf)
    simpa using this

end Patched

variable {style : Style} {text next : List Char}

/-- The parts of a pass that changes a text. -/
theorem exists_of_fixPass? (h : fixPass? style text = some next) :
    ∃ stream result, parse text = .ok stream ∧ parse next = .ok result ∧
      next = applyRepairs text (stream.analyze style).repairs := by
  obtain ⟨⟨stream, hparse, -⟩, rfl, -, hok⟩ := fixPass?_eq_some_iff.mp h
  cases hnext : parse (repaired text style) with
  | error e =>
    rw [hnext] at hok
    cases hok
  | ok result => exact ⟨stream, result, hparse, rfl, repaired_of_parse hparse⟩

/-- One pass keeps all characters that are no blanks, digits apart. -/
theorem solid_fixPass? (hpaired : Text.ReturnsPaired text) (h : fixPass? style text = some next) :
    List.Forall₂ Matches (solid text) (solid next) ∧ Text.ReturnsPaired next := by
  obtain ⟨stream, -, hparse, -, rfl⟩ := exists_of_fixPass? h
  obtain ⟨rfl, s, hread⟩ := Stream.exists_readTo hparse
  have hrepair : ∀ r ∈ (stream.analyze style).repairs, ∀ e ∈ r.edits, e.Quiet stream.text :=
    fun r hr e he => hread.quiet_of_mem_edits hpaired hr he
  obtain ⟨edits, hperm, -, hpatched⟩ := exists_patched_applyRepairs
    (fun r hr => hread.apart_of_mem_repairs hr) fun r hr e he => (hrepair r hr e he).fits
  have hquiet : ∀ e ∈ edits, e.Quiet stream.text := by
    intro e he
    obtain ⟨r, hr, her⟩ := Repair.exists_of_mem_accepted (hperm.mem_iff.mp he)
    exact hrepair r hr e her
  exact ⟨hpatched.solid_matches hquiet, hpatched.returnsPaired hquiet hpaired⟩

theorem solid_fixPasses (n : Nat) (hpaired : Text.ReturnsPaired text) :
    List.Forall₂ Matches (solid text) (solid (fixPasses style n text)) ∧
      Text.ReturnsPaired (fixPasses style n text) := by
  induction n generalizing text with
  | zero => exact ⟨forall₂_matches_refl _, hpaired⟩
  | succ n ih =>
    cases hnext : fixPass? style text with
    | none =>
      rw [fixPasses_of_settled _ hnext]
      exact ⟨forall₂_matches_refl _, hpaired⟩
    | some next =>
      obtain ⟨hstep, hkept⟩ := solid_fixPass? hpaired hnext
      obtain ⟨hrest, hlast⟩ := ih hkept
      rw [fixPasses_succ_of_some n hnext]
      exact ⟨forall₂_matches_trans hstep hrest, hlast⟩

/-- Fixing keeps every character of a text that is no blank in its place among the
others; only a digit of a block scalar header can turn into another one. -/
theorem solid_fixText (text : List Char) (style : Style) (hpaired : Text.ReturnsPaired text) :
    List.Forall₂ Matches (solid text) (solid (fixText text style)) := by
  unfold fixText
  split
  · exact forall₂_matches_refl _
  · exact (solid_fixPasses maxPasses hpaired).1

theorem solid_fixText_nested :
    Text.ReturnsPaired "a: |1\r\n x\r\nb:\r\n    -   c\r\n".toList ∧
      fixText "a: |1\r\n x\r\nb:\r\n    -   c\r\n".toList .default =
        "a: |2\r\n  x\r\nb:\r\n  - c\r\n".toList ∧
      List.Forall₂ Matches (solid "a: |1\r\n x\r\nb:\r\n    -   c\r\n".toList)
        (solid "a: |2\r\n  x\r\nb:\r\n  - c\r\n".toList) := by
  have hpaired : Text.ReturnsPaired "a: |1\r\n x\r\nb:\r\n    -   c\r\n".toList := by
    decide +kernel
  have hfix : fixText "a: |1\r\n x\r\nb:\r\n    -   c\r\n".toList .default =
      "a: |2\r\n  x\r\nb:\r\n  - c\r\n".toList := by
    decide +kernel
  refine ⟨hpaired, hfix, ?_⟩
  rw [← hfix]
  exact solid_fixText _ .default hpaired

end YamlLayout
