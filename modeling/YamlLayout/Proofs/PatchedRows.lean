import YamlLayout.Proofs.Lines
import YamlLayout.Proofs.Substitution

/-!
# Edits line by line

Edits that neither remove nor add a line feed change each line of a text by itself. So
a line on which no edit lies stays as it is, wherever else the text is edited.
-/
namespace YamlLayout

/-- The edit lies on one line, and no line feed is removed or added. -/
def Edit.OnLine (e : Edit) (text : List Char) (line : Nat) : Prop :=
  ∃ before old after, e.Replaces text before old after ∧ '\n' ∉ old ∧ '\n' ∉ e.text.toList ∧
    before.count '\n' + 1 = line

namespace Patched

variable {before text result x y : List Char} {edits : List Edit} {e : Edit}

theorem eq_of_nil (h : Patched before [] text result) : result = text := by
  generalize hnil : ([] : List Edit) = edits at h
  induction h with
  | done => rfl
  | keep c _ ih => rw [ih hnil]
  | swap => cases hnil

/-- Where an edit lies in the text. -/
theorem exists_of_mem (h : Patched before edits text result) (he : e ∈ edits) :
    ∃ front old rest, text = front ++ (old ++ rest) ∧
      e.range = ⟨Text.byteLength (before ++ front),
        Text.byteLength (before ++ front) + Text.byteLength old⟩ := by
  induction h with
  | done => cases he
  | keep c _ ih =>
    obtain ⟨front, old, rest, rfl, hrange⟩ := ih he
    exact ⟨c :: front, old, rest, rfl, by simpa using hrange⟩
  | swap old hrange _ ih =>
    rcases List.mem_cons.mp he with rfl | he
    · exact ⟨[], old, _, rfl, by simpa using hrange⟩
    · obtain ⟨front, inner, rest, rfl, hinner⟩ := ih he
      exact ⟨old ++ front, inner, rest, by simp, by simpa using hinner⟩

theorem exists_of_singleton (h : Patched before [e] text result) :
    ∃ front old rest, text = front ++ (old ++ rest) ∧
      result = front ++ (e.text.toList ++ rest) ∧
      e.range = ⟨Text.byteLength (before ++ front),
        Text.byteLength (before ++ front) + Text.byteLength old⟩ := by
  generalize hone : [e] = edits at h
  induction h with
  | done => cases hone
  | keep c _ ih =>
    obtain ⟨front, old, rest, rfl, rfl, hrange⟩ := ih hone
    exact ⟨c :: front, old, rest, rfl, rfl, by simpa using hrange⟩
  | swap old hrange h _ =>
    rw [List.cons.injEq] at hone
    obtain ⟨rfl, rfl⟩ := hone
    rw [eq_of_nil h]
    exact ⟨[], old, _, rfl, rfl, by simpa using hrange⟩

/-- Edits that remove no line feed fall into those before a line feed and those after it. -/
theorem exists_feed (h : Patched before edits (x ++ '\n' :: y) result)
    (hfree : ∀ e ∈ edits, ∀ b old a, e.Replaces (before ++ (x ++ '\n' :: y)) b old a →
      '\n' ∉ old) :
    ∃ left right rx ry, edits = left ++ right ∧ result = rx ++ '\n' :: ry ∧
      Patched before left x rx ∧ Patched (before ++ (x ++ ['\n'])) right y ry := by
  generalize htext : x ++ '\n' :: y = text at h hfree
  induction h generalizing x with
  | done before text =>
    subst htext
    exact ⟨[], [], x, y, rfl, rfl, .done .., .done ..⟩
  | @keep before edits text result c h ih =>
    rcases x with _ | ⟨d, x⟩
    · rw [List.nil_append, List.cons.injEq] at htext
      obtain ⟨rfl, rfl⟩ := htext
      exact ⟨[], edits, [], result, rfl, rfl, .done .., h⟩
    · rw [List.cons_append, List.cons.injEq] at htext
      obtain ⟨rfl, htext⟩ := htext
      obtain ⟨left, right, rx, ry, rfl, rfl, hleft, hright⟩ := ih htext (by simpa using hfree)
      exact ⟨left, right, d :: rx, ry, rfl, rfl, .keep d hleft, by simpa using hright⟩
  | @swap before edits text result e old hrange h ih =>
    have hold : '\n' ∉ old :=
      hfree e (List.mem_cons_self ..) before old text ⟨rfl, hrange⟩
    -- The line feed is not part of what is replaced, so that ends before it.
    obtain ⟨rest, rfl⟩ : ∃ rest, x = old ++ rest := by
      rcases List.append_eq_append_iff.mp htext.symm with ⟨rest, hx, -⟩ | ⟨rest, hold', hrest⟩
      · exact ⟨rest, hx⟩
      · rcases rest with _ | ⟨d, rest⟩
        · exact ⟨[], by simpa using hold'.symm⟩
        · rw [List.cons_append, List.cons.injEq] at hrest
          refine absurd ?_ hold
          rw [hold', hrest.1]
          simp
    rw [List.append_assoc, List.append_cancel_left_eq] at htext
    obtain ⟨left, right, rx, ry, rfl, rfl, hleft, hright⟩ := ih htext
      (fun f hf => by simpa using hfree f (List.mem_cons_of_mem _ hf))
    exact ⟨e :: left, right, e.text.toList ++ rx, ry, rfl, by simp, .swap old hrange hleft,
      by simpa using hright⟩

/-- The number of line feeds stays the same. -/
theorem count_feed (h : Patched before edits text result)
    (hlines : ∀ e ∈ edits, ∃ line, e.OnLine (before ++ text) line) :
    result.count '\n' = text.count '\n' := by
  induction h with
  | done => rfl
  | keep c _ ih =>
    rw [List.count_cons, List.count_cons, ih (by simpa using hlines)]
  | @swap before edits text result e old hrange _ ih =>
    obtain ⟨line, b, o, a, hreplaces, hold, hnew, -⟩ := hlines e (List.mem_cons_self ..)
    have hhere : e.Replaces (before ++ (old ++ text)) before old text := ⟨rfl, hrange⟩
    obtain ⟨-, rfl, -⟩ := hreplaces.unique hhere
    rw [List.count_append, List.count_append, List.count_eq_zero_of_not_mem hold,
      List.count_eq_zero_of_not_mem hnew,
      ih (fun f hf => by simpa using hlines f (List.mem_cons_of_mem _ hf))]

/-- The line of an edit is that of the place where it lies. -/
theorem line_eq_of_mem {line : Nat} {after : List Char} (h : Patched before edits text result)
    (he : e ∈ edits) (hline : e.OnLine (before ++ (text ++ after)) line) :
    ∃ front, front <+: text ∧ line = (before ++ front).count '\n' + 1 := by
  obtain ⟨front, old, rest, rfl, hrange⟩ := h.exists_of_mem he
  obtain ⟨b, o, a, hreplaces, -, -, hcount⟩ := hline
  have hhere : e.Replaces (before ++ (front ++ (old ++ rest) ++ after)) (before ++ front) old
      (rest ++ after) := ⟨by simp, hrange⟩
  obtain ⟨rfl, -, -⟩ := hreplaces.unique hhere
  exact ⟨front, List.prefix_append .., hcount.symm⟩

theorem not_mem_old_of_onLine {line : Nat} (h : e.OnLine text line) {b old a : List Char}
    (hreplaces : e.Replaces text b old a) : '\n' ∉ old := by
  obtain ⟨b', old', a', hreplaces', hold, -⟩ := h
  obtain ⟨-, rfl, -⟩ := hreplaces'.unique hreplaces
  exact hold

/-- The line with which the text starts is edited by itself. -/
theorem exists_first {row after : List Char} (h : Patched before edits (row ++ after) result)
    (hrow : '\n' ∉ row) (hafter : after = [] ∨ ∃ rest, after = '\n' :: rest)
    (hlines : ∀ e ∈ edits, ∃ line, e.OnLine (before ++ (row ++ after)) line) :
    ∃ here later row' after', edits = here ++ later ∧ result = row' ++ after' ∧
      '\n' ∉ row' ∧ (after' = [] ∨ ∃ rest, after' = '\n' :: rest) ∧
      Patched before here row row' ∧
      ∀ e ∈ later, ¬e.OnLine (before ++ (row ++ after)) (before.count '\n' + 1) := by
  have hclean : ∀ {edits : List Edit} {row' : List Char}, Patched before edits row row' →
      (∀ e ∈ edits, ∃ line, e.OnLine (before ++ row) line) → '\n' ∉ row' := by
    intro edits row' hpatched hlines
    rw [← List.count_eq_zero, hpatched.count_feed hlines, List.count_eq_zero]
    exact hrow
  rcases hafter with rfl | ⟨rest, rfl⟩
  · rw [List.append_nil] at h hlines ⊢
    exact ⟨edits, [], result, [], by simp, by simp, hclean h hlines, .inl rfl, h, by simp⟩
  · obtain ⟨here, later, row', after', rfl, rfl, hhere, hlater⟩ := h.exists_feed
      (fun e he b old a hreplaces => by
        obtain ⟨line, hline⟩ := hlines e he
        exact not_mem_old_of_onLine hline hreplaces)
    refine ⟨here, later, row', '\n' :: after', rfl, rfl, hclean hhere ?_, .inr ⟨after', rfl⟩,
      hhere, ?_⟩
    · intro e he
      obtain ⟨line, b, old, a, hreplaces, hold, hnew, hcount⟩ :=
        hlines e (List.mem_append_left _ he)
      obtain ⟨front, o, r, hsplit, hrange⟩ := hhere.exists_of_mem he
      have hthere : e.Replaces (before ++ (row ++ '\n' :: rest)) (before ++ front) o
          (r ++ '\n' :: rest) := ⟨by simp [hsplit], hrange⟩
      obtain ⟨rfl, rfl, -⟩ := hreplaces.unique hthere
      exact ⟨line, before ++ front, old, r, ⟨by simp [hsplit], hrange⟩, hold, hnew, hcount⟩
    · intro e he hline
      have htotal : before ++ (row ++ '\n' :: rest) =
          (before ++ (row ++ ['\n'])) ++ (rest ++ []) := by simp
      rw [htotal] at hline
      obtain ⟨front, -, hcount⟩ := hlater.line_eq_of_mem he hline
      simp only [List.count_append, List.count_singleton_self] at hcount
      omega

/-- Each line of a text is edited by itself. -/
theorem exists_row {line : Nat} {pre row post : List Char} (h : Patched [] edits text result)
    (hlines : ∀ e ∈ edits, ∃ line, e.OnLine text line) (hrow : Text.Row text line pre row post) :
    ∃ here pre' row' post', here.Sublist edits ∧ Text.Row result line pre' row' post' ∧
      Patched pre here row row' ∧ ∀ e ∈ edits, e.OnLine text line → e ∈ here := by
  obtain ⟨rfl, hwhole, hline, hclean, hpost⟩ := hrow
  rcases hwhole with rfl | hlast
  · rw [List.nil_append] at h
    obtain ⟨here, later, row', post', rfl, rfl, hclean', hpost', hhere, hlater⟩ :=
      exists_first h hclean hpost hlines
    refine ⟨here, [], row', post', List.sublist_append_left .., ⟨rfl, Text.wholeLines_nil, hline,
      hclean', hpost'⟩, hhere, fun e he hon => ?_⟩
    rcases List.mem_append.mp he with he | he
    · exact he
    · exact absurd (hline ▸ hon) (hlater e he)
  · obtain ⟨front, rfl⟩ := List.getLast?_eq_some_iff.mp hlast
    have htotal : front ++ ['\n'] ++ (row ++ post) = front ++ '\n' :: (row ++ post) := by simp
    rw [htotal] at h
    obtain ⟨earlier, rest, front', result', rfl, rfl, hearlier, hrest⟩ := h.exists_feed
      (fun e he b old a hreplaces => by
        obtain ⟨line, hon⟩ := hlines e he
        rw [htotal] at hon
        exact not_mem_old_of_onLine hon hreplaces)
    obtain ⟨here, later, row', post', rfl, rfl, hclean', hpost', hhere, hlater⟩ :=
      exists_first hrest hclean hpost (fun e he => by
        simpa using hlines e (List.mem_append_right _ he))
    have hcount : front'.count '\n' = front.count '\n' := by
      refine hearlier.count_feed fun e he => ?_
      obtain ⟨line, b, old, a, hreplaces, hold, hnew, hcount⟩ :=
        hlines e (List.mem_append_left _ he)
      obtain ⟨inner, o, r, hsplit, hrange⟩ := hearlier.exists_of_mem he
      have hthere : e.Replaces (front ++ ['\n'] ++ (row ++ post)) ([] ++ inner) o
          (r ++ '\n' :: (row ++ post)) := ⟨by simp [hsplit], hrange⟩
      obtain ⟨rfl, rfl, -⟩ := hreplaces.unique hthere
      exact ⟨line, b, old, r, ⟨by simp [hsplit], hrange⟩, hold, hnew, hcount⟩
    refine ⟨here, front' ++ ['\n'], row', post', ?_, ?_, by simpa using hhere, ?_⟩
    · exact (List.sublist_append_left ..).trans (List.sublist_append_right ..)
    · refine ⟨by simp, Text.wholeLines_append_feed _, ?_, hclean', hpost'⟩
      rw [List.count_append, hcount, ← List.count_append]
      exact hline
    · intro e he hon
      rcases List.mem_append.mp he with he | he
      · exfalso
        rw [htotal] at hon
        obtain ⟨inner, hinner, hcount⟩ := hearlier.line_eq_of_mem he hon
        have hle : inner.count '\n' ≤ front.count '\n' := hinner.sublist.count_le _
        simp only [List.nil_append, List.count_append, List.count_singleton_self] at hcount hline
        omega
      rcases List.mem_append.mp he with he | he
      · exact he
      · refine absurd ?_ (hlater e he)
        simp only [List.nil_append]
        rw [hline]
        exact hon

/-- The edits made on a row lie on its line. -/
theorem onLine_of_row {line : Nat} {pre row post row' : List Char} {here : List Edit}
    (hrow : Text.Row text line pre row post) (h : Patched pre here row row') (he : e ∈ here)
    (hlines : ∃ line, e.OnLine text line) : e.OnLine text line := by
  obtain ⟨line', hline'⟩ := hlines
  have hplace := hline'
  rw [hrow.text_eq] at hplace
  obtain ⟨front, hfront, hcount⟩ := h.line_eq_of_mem he hplace
  have hclean : '\n' ∉ front := fun hmem => hrow.not_mem (hfront.subset hmem)
  have hline := hrow.line_eq
  rw [List.count_append, List.count_eq_zero_of_not_mem hclean, Nat.add_zero, hline] at hcount
  exact hcount ▸ hline'

/-- A line without an edit stays as it is. -/
theorem exists_row_of_none {line : Nat} {pre row post : List Char}
    (h : Patched [] edits text result) (hlines : ∀ e ∈ edits, ∃ line, e.OnLine text line)
    (hrow : Text.Row text line pre row post) (hnone : ∀ e ∈ edits, ¬e.OnLine text line) :
    ∃ pre' post', Text.Row result line pre' row post' := by
  obtain ⟨here, pre', row', post', hsublist, hrow', hpatched, -⟩ := h.exists_row hlines hrow
  have hempty : here = [] := by
    rw [List.eq_nil_iff_forall_not_mem]
    intro e he
    have hmem := hsublist.mem he
    exact hnone e hmem (onLine_of_row hrow hpatched he (hlines e hmem))
  subst hempty
  rw [eq_of_nil hpatched] at hrow'
  exact ⟨pre', post', hrow'⟩

/-- A line with one edit changes by that edit. -/
theorem exists_row_of_one {line : Nat} {pre row post : List Char}
    (h : Patched [] edits text result) (hlines : ∀ e ∈ edits, ∃ line, e.OnLine text line)
    (hrow : Text.Row text line pre row post) (hprecedes : edits.Pairwise Edit.Precedes)
    (he : e ∈ edits) (hon : e.OnLine text line)
    (honly : ∀ f ∈ edits, f.OnLine text line → f = e) :
    ∃ pre' row' post', Text.Row result line pre' row' post' ∧ Patched pre [e] row row' := by
  obtain ⟨here, pre', row', post', hsublist, hrow', hpatched, hall⟩ := h.exists_row hlines hrow
  have hsame : ∀ f ∈ here, f = e := by
    intro f hf
    have hmem := hsublist.mem hf
    exact honly f hmem (onLine_of_row hrow hpatched hf (hlines f hmem))
  have hone : here = [e] := by
    obtain ⟨f, rest, rfl⟩ := List.exists_cons_of_ne_nil (List.ne_nil_of_mem (hall e he hon))
    obtain rfl := hsame f (List.mem_cons_self ..)
    -- No edit lies in front of itself.
    have hnil : rest = [] := by
      rw [List.eq_nil_iff_forall_not_mem]
      intro g hg
      have hbefore := (List.pairwise_cons.mp (hprecedes.sublist hsublist)).1 g hg
      rw [hsame g (List.mem_cons_of_mem _ hg)] at hbefore
      unfold Edit.Precedes at hbefore
      omega
    rw [hnil]
  subst hone
  exact ⟨pre', row', post', hrow', hpatched⟩

end Patched

end YamlLayout
