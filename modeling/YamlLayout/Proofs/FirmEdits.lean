import YamlLayout.Proofs.PatchedRows
import YamlLayout.Proofs.Reading

/-!
# Edits that cannot cancel each other

A repair gives whole runs of blanks another width and writes digits for digits. Two such
runs never touch, so edits that leave a text as it is when they are made at once leave it
as it is one by one.
-/
namespace YamlLayout

theorem isBlank_of_isSpace {c : Char} (h : isSpace c = false) : isBlank c = false := by
  rw [isSpace, Bool.or_eq_false_iff] at h
  exact h.1

namespace Text

/-- The blanks between two parts of a text that cannot be longer: the spaces that a line
starts with, or all blanks between two tokens of a line. -/
inductive BlankRun : List Char → List Char → List Char → Prop
  | indentation {before after : List Char} (m : Nat) (hbefore : WholeLines before)
      (hafter : after.head? ≠ some ' ') : BlankRun before (List.replicate m ' ') after
  | gap {before old after : List Char} {c d : Char} (hbefore : before.getLast? = some c)
      (hc : isSpace c = false) (hold : ∀ x ∈ old, isBlank x = true) (hd : isSpace d = false) :
      BlankRun before old (d :: after)

namespace BlankRun

variable {before old new after rest : List Char}

theorem isBlank_of_mem (h : BlankRun before old after) {c : Char} (hc : c ∈ old) :
    isBlank c = true := by
  cases h with
  | indentation m => rw [List.eq_of_mem_replicate hc]; rfl
  | gap _ _ hold _ => exact hold c hc

/-- No blank stands in front of a run. -/
theorem isBlank_of_getLast? (h : BlankRun before old after) {c : Char}
    (hc : before.getLast? = some c) : isBlank c = false := by
  cases h with
  | indentation m hbefore =>
    rcases hbefore with rfl | hlast
    · cases hc
    · rw [hlast, Option.some.injEq] at hc
      rw [← hc]
      rfl
  | gap hbefore hd =>
    rw [hbefore, Option.some.injEq] at hc
    exact hc ▸ isBlank_of_isSpace hd

/-- Two runs touch only where both are empty. -/
theorem eq_nil_of_touching (h : BlankRun before old (new ++ after))
    (hnext : BlankRun (before ++ old) new after) : old = [] ∧ new = [] := by
  have hold : old = [] := by
    by_contra hne
    have hc := List.getLast?_eq_some_getLast hne
    have hlast := List.getLast?_append_of_ne_nil before hne
    rw [hc] at hlast
    have hblank := h.isBlank_of_mem (List.mem_of_mem_getLast? hc)
    rw [hnext.isBlank_of_getLast? hlast] at hblank
    cases hblank
  refine ⟨hold, ?_⟩
  by_contra hne
  obtain ⟨c, cs, rfl⟩ := List.exists_cons_of_ne_nil hne
  have hblank := hnext.isBlank_of_mem (List.mem_cons_self ..)
  generalize hall : c :: cs ++ after = all at h
  cases h with
  | indentation m hbefore hafter =>
    rw [hold, List.append_nil] at hnext
    generalize hrun : c :: cs = run at hnext
    cases hnext with
    | indentation n =>
      have hc : c = ' ' := List.eq_of_mem_replicate (hrun ▸ List.mem_cons_self ..)
      rw [← hall, hc] at hafter
      exact hafter rfl
    | gap hlast hc =>
      rcases hbefore with rfl | hfeed
      · cases hlast
      · rw [hfeed, Option.some.injEq] at hlast
        rw [← hlast] at hc
        cases hc
  | gap _ _ _ hd =>
    rw [List.cons_append, List.cons.injEq] at hall
    rw [← hall.1] at hd
    rw [isBlank_of_isSpace hd] at hblank
    cases hblank

/-- A run and spaces in its place, in front of the same character or one that is no blank,
make one text only if they are the same. -/
theorem append_inj {n : Nat} (h : BlankRun before old after)
    (hrest : ∀ c, rest.head? = some c → after.head? = some c ∨ isBlank c = false)
    (heq : old ++ after = List.replicate n ' ' ++ rest) :
    old = List.replicate n ' ' ∧ after = rest := by
  cases h with
  | indentation m hbefore hafter =>
    have hspaces : ∀ {k : Nat}, ∀ c ∈ List.replicate k ' ', (c == ' ') = true := by
      intro k c hc
      rw [List.eq_of_mem_replicate hc]
      rfl
    have hstop : ∀ c, after.head? = some c → (c == ' ') = false := by
      intro c hc
      rw [beq_eq_false_iff_ne]
      rintro rfl
      exact hafter hc
    apply append_inj_of_stop heq hspaces hstop hspaces
    intro c hc
    rcases hrest c hc with hsame | hblank
    · exact hstop c hsame
    · rw [beq_eq_false_iff_ne]
      rintro rfl
      cases hblank
  | @gap _ _ _ d hbefore hc hold hd =>
    have hblank : isBlank d = false := isBlank_of_isSpace hd
    apply append_inj_of_stop heq hold
    · intro c hc
      rw [List.head?_cons, Option.some.injEq] at hc
      exact hc ▸ hblank
    · intro c hc
      rw [List.eq_of_mem_replicate hc]
      rfl
    · intro c hc
      rcases hrest c hc with hsame | hnone
      · rw [List.head?_cons, Option.some.injEq] at hsame
        exact hsame ▸ hblank
      · exact hnone

end BlankRun

end Text

/-- The edit gives a whole run of blanks another width, or writes one character for
another. -/
inductive Edit.Firm (e : Edit) (text : List Char) : Prop
  | run {before old after : List Char} {n : Nat} (hreplaces : e.Replaces text before old after)
      (hrun : Text.BlankRun before old after) (hnew : e.text.toList = List.replicate n ' ')
  | letter {before after : List Char} {a b : Char} (hreplaces : e.Replaces text before [a] after)
      (hnew : e.text.toList = [b]) (hb : isBlank b = false)

namespace Patched

variable {before old text result : List Char} {edits : List Edit} {e : Edit}

/-- After a run the text starts as it did, or with a character that is no blank. -/
theorem head?_of_firm (h : Patched (before ++ old) edits text result)
    (hfirm : ∀ f ∈ edits, f.Firm (before ++ old ++ text)) (hrun : Text.BlankRun before old text)
    (hrange : e.range = ⟨Text.byteLength before, Text.byteLength before + Text.byteLength old⟩)
    (hprecedes : ∀ f ∈ edits, e.Precedes f) {c : Char} (hc : result.head? = some c) :
    text.head? = some c ∨ isBlank c = false := by
  generalize hfront : before ++ old = front at h hfirm
  cases h with
  | done => exact .inl hc
  | keep => exact .inl hc
  | @swap _ _ rest _ f new hspan h =>
    right
    have hthere : f.Replaces (front ++ (new ++ rest)) front new rest := ⟨rfl, hspan⟩
    cases hfirm f (List.mem_cons_self ..) with
    | run hreplaces hnext =>
      obtain ⟨rfl, rfl, rfl⟩ := hthere.unique hreplaces
      rw [← hfront] at hnext hspan
      obtain ⟨rfl, rfl⟩ := hrun.eq_nil_of_touching hnext
      -- Of two edits at one empty place neither precedes the other.
      have hlt := (hprecedes f (List.mem_cons_self ..)).2
      rw [hrange, hspan, List.append_nil] at hlt
      exact absurd hlt (Nat.lt_irrefl _)
    | letter hreplaces hnew hb =>
      rw [hnew, List.singleton_append, List.head?_cons, Option.some.injEq] at hc
      exact hc ▸ hb

/-- Edits that together leave a text as it is leave it so one by one. -/
theorem apply_eq_of_eq (h : Patched before edits text result)
    (hfirm : ∀ f ∈ edits, f.Firm (before ++ text)) (hprecedes : edits.Pairwise Edit.Precedes)
    (heq : result = text) (he : e ∈ edits) : e.apply (before ++ text) = before ++ text := by
  induction h with
  | done => cases he
  | @keep before _ _ _ c h ih =>
    rw [List.cons.injEq] at heq
    have happend : ∀ rest : List Char, before ++ c :: rest = before ++ [c] ++ rest := by simp
    rw [happend] at hfirm ⊢
    exact ih hfirm hprecedes heq.2 he
  | @swap before edits text result f old hrange h ih =>
    obtain ⟨hhead, htail⟩ := List.pairwise_cons.mp hprecedes
    have hthere : f.Replaces (before ++ (old ++ text)) before old text := ⟨rfl, hrange⟩
    have hlater : ∀ g ∈ edits, g.Firm (before ++ old ++ text) := by
      intro g hg
      rw [List.append_assoc]
      exact hfirm g (List.mem_cons_of_mem _ hg)
    have hsame : f.text.toList = old ∧ result = text := by
      cases hfirm f (List.mem_cons_self ..) with
      | run hreplaces hrun hnew =>
        obtain ⟨rfl, rfl, rfl⟩ := hthere.unique hreplaces
        rw [hnew] at heq ⊢
        obtain ⟨hold, hrest⟩ := hrun.append_inj
          (fun c hc => h.head?_of_firm hlater hrun hrange hhead hc) heq.symm
        exact ⟨hold.symm, hrest.symm⟩
      | letter hreplaces hnew hb =>
        obtain ⟨rfl, rfl, rfl⟩ := hthere.unique hreplaces
        rw [hnew] at heq ⊢
        rw [List.singleton_append, List.singleton_append, List.cons.injEq] at heq
        exact ⟨by rw [heq.1], heq.2⟩
    rcases List.mem_cons.mp he with rfl | he
    · rw [hthere.apply_eq, hsame.1]
    · rw [← List.append_assoc]
      exact ih hlater htail hsame.2 he

end Patched

end YamlLayout
