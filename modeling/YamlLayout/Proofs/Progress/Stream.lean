import YamlLayout.Proofs.Progress.Block
import YamlLayout.Proofs.Reading.Stream

/-!
# Progress through the documents of a stream
-/
namespace YamlLayout

namespace ParseState

variable {s : ParseState}

theorem past_marker (h : s.atEndMarker = true ∨ s.atStartMarker = true) :
    s.Past (s.push .marker 3) := by
  refine past_push _ (by decide) fun hnil => ?_
  simp [atEndMarker, atStartMarker, hnil, Lexeme.isEndMarker, Lexeme.isStartMarker] at h

/-- Lines that hold no content are passed over up to content or the end of the text. -/
theorem atContent_skipLines (h : s.skipLines.cursor.rest ≠ []) : s.skipLines.AtContent := by
  obtain ⟨-, hclear, hpeek⟩ := skipLines_spec s
  exact ⟨hclear, h, hpeek⟩

end ParseState

namespace Production

open ParseState Parse

variable {c c' : Calls} {s t : ParseState} {done : List Document}

/-- A document that does not end with the text ends with a marker, which may be that of
the next document. -/
theorem documentEnd_settles (s : ParseState) :
    documentEnd.Settles s fun _ t =>
      s.Onward t ∧ (s.AtContent → s.atStartMarker = false → s.Past t) := by
  unfold documentEnd
  refine (advance_settles s).bind fun more t ht => ?_
  split
  swap
  · rename_i hnone
    exact .pure ⟨ht.1, fun hcontent => absurd (ht.2 hcontent).1 hnone⟩
  refine .get_bind ?_
  extract_lets left
  split
  · rename_i hmarker
    refine .emit_bind (.skipBlanks_bind (.get_bind ?_))
    extract_lets ended commented
    have hcommented : ∀ u, s.Past u → (commented ()).Settles u fun _ v =>
        s.Onward v ∧ (s.AtContent → s.atStartMarker = false → s.Past v) := by
      intro u hu
      refine .get_bind ?_
      split
      · exact .pure ⟨hu.onward, fun _ _ => hu⟩
      · exact .fail_bind (by decide)
    clear_value commented
    have hpast := (ht.1.trans_past (past_marker (.inl hmarker))).trans (onward_skipBlanks _)
    split
    · exact .modify_bind (hcommented _ (hpast.trans (onward_readComment _)))
    · exact hcommented _ hpast
  · split
    · rename_i hmarker
      refine .pure ⟨ht.1, fun hcontent hnot => ?_⟩
      rw [(ht.2 hcontent).2, hnot] at hmarker
      cases hmarker
    · exact .fail_bind (by decide)

theorem markedContent_agree (h : Serve c c' (documents done) s) (ht : s.Onward t) :
    (markedContent c).Agree (markedContent c') t fun _ u => t.Onward u := by
  unfold markedContent
  refine .skipBlanks_bind (.get_bind ?_)
  have hblanks := onward_skipBlanks t
  split
  · exact .pure hblanks
  · exact (h.below (.blockNode (-1) false) (ht.trans hblanks) (by simp [rank]) trivial).mono
      fun node u hu => hblanks.trans hu.1

theorem laterContent_agree (h : Serve c c' (documents done) s) (ht : s.Onward t) :
    (laterContent c).Agree (laterContent c') t fun _ u =>
      t.Onward u ∧ (t.AtContent → t.Past u ∨ u = t) := by
  unfold laterContent
  refine (advance_settles t).bind fun more u hu => ?_
  split
  swap
  · rename_i hnone
    exact .pure ⟨hu.1, fun hcontent => absurd (hu.2 hcontent).1 hnone⟩
  refine .get_bind ?_
  split
  · exact .pure ⟨hu.1, fun hcontent => .inr (hu.2 hcontent).2⟩
  · refine (h.below (.blockNode (-1) false) (ht.trans hu.1) (by simp [rank]) trivial).mono
      fun node v hv => ⟨hu.1.trans hv.1, fun hcontent => .inl ?_⟩
    have hstays := (hu.2 hcontent).2
    rw [hstays] at hv
    exact hv.2 hcontent

/-- A document does not start in front of content without reading some of it. -/
theorem document_agree (h : Serve c c' (documents done) s) (ht : s.Onward t)
    (hcontent : t.AtContent) (first : TokenId) :
    (document c first).Agree (document c' first) t fun _ u => t.Past u := by
  unfold document
  refine (h.below .directives ht (by simp [rank]) trivial).bind fun tokens u hu => .get_bind ?_
  extract_lets marked marked'
  -- Until something is read, the cursor is in front of content that is no start marker.
  have hmarked : ∀ marker v, t.Past v ∨ marker = none ∧ v = t ∧ t.atStartMarker = false →
      (marked marker).Agree (marked' marker) v fun _ w => t.Past w := by
    intro marker v hv
    dsimp -zeta only [marked, marked']
    extract_lets ended inlined inlined'
    have hended : ∀ content w, t.Past w ∨ w = t ∧ t.atStartMarker = false →
        (ended content).Settles w fun _ x => t.Past x := by
      intro content w hw
      refine (documentEnd_settles w).bind fun endMarker x hx => .get_bind (.pure ?_)
      obtain hpast | ⟨rfl, hnot⟩ := hw
      · exact hpast.trans hx.1
      · exact hx.2 hcontent hnot
    clear_value ended
    have hinlined : ∀ inline w, t.Past w ∨ w = t ∧ t.atStartMarker = false →
        (inlined inline).Agree (inlined' inline) w fun _ x => t.Past x := by
      intro inline w hw
      dsimp -zeta only [inlined, inlined']
      split
      · have honward : s.Onward w := by
          obtain hpast | ⟨rfl, -⟩ := hw
          · exact ht.trans hpast.onward
          · exact ht
        refine (laterContent_agree h honward).bind fun content x hx => hended content x ?_
        obtain hpast | ⟨rfl, hnot⟩ := hw
        · exact .inl (hpast.trans hx.1)
        · exact (hx.2 hcontent).imp_right fun hstays => ⟨hstays, hnot⟩
      · exact .pure_bind (hended _ w hw)
    clear_value inlined inlined'
    split
    · rename_i hsome
      obtain hpast | ⟨hnone, -⟩ := hv
      · exact (markedContent_agree h (ht.trans hpast.onward)).bind fun inline w hw =>
          hinlined inline w (.inl (hpast.trans hw))
      · simp [hnone] at hsome
    · exact .pure_bind (hinlined _ v (hv.imp_right And.right))
  clear_value marked marked'
  split
  · rename_i hmarker
    refine .map_bind (.emit_bind (hmarked _ _ (.inl ?_)))
    have hpast := past_marker (.inr hmarker)
    obtain hread | ⟨-, rfl⟩ := hu
    · exact hread.trans hpast.onward
    · exact hpast
  · rename_i hnot
    split
    · refine .pure_bind (hmarked _ u ?_)
      obtain hread | ⟨-, rfl⟩ := hu
      · exact .inl hread
      · exact .inr ⟨rfl, rfl, Bool.eq_false_iff.mpr hnot⟩
    · exact .fail_bind (by decide)

theorem directives_agree (h : Serve c c' directives s) :
    (body c directives).Agree (body c' directives) s (directives.Ends s) := by
  unfold body
  refine .get_bind ?_
  split
  swap
  · exact .pure (.inr ⟨rfl, rfl⟩)
  rename_i hmark
  simp only [Bool.and_eq_true, beq_iff_eq] at hmark
  obtain ⟨cs, hrest⟩ := List.head?_eq_some_iff.mp hmark.2
  have hpast : s.Past (s.push .directive (Lexeme.directive s.cursor.rest)) := by
    refine past_push _ ?_ (rest_ne_nil_of_peek? hmark.2)
    rw [hrest]
    exact Lexeme.directive_pos cs
  refine .emit_bind ?_
  extract_lets more more'
  refine (advance_settles _).bind fun found t ht => ?_
  split
  · have hnext : s.Past t := hpast.trans ht.1
    refine (h.behind .directives hnext (by simp [rank]) trivial).bind fun tokens u hu =>
      .pure (.inl ?_)
    obtain hread | ⟨-, rfl⟩ := hu
    · exact hnext.trans hread.onward
    · exact hnext
  · exact .fail_bind (by decide)

theorem documents_agree (h : Serve c c' (documents done) s) :
    (body c (documents done)).Agree (body c' (documents done)) s ((documents done).Ends s) := by
  unfold body
  refine .get_bind ?_
  extract_lets first read read'
  have hread : ∀ t, s.Onward t → (t.cursor.rest ≠ [] → t.AtContent) →
      (read ()).Agree (read' ()) t ((documents done).Ends s) := by
    intro t ht hcontent
    refine .get_bind ?_
    split
    · split
      · split
        · extract_lets span
          exact .pure ht
        · exact .pure ht
      · exact .pure ht
      · exact .pure ht
    · rename_i hrest
      rw [List.isEmpty_iff] at hrest
      refine (document_agree h ht (hcontent hrest) first).bind fun d u hu => ?_
      have hpast : s.Past u := ht.trans_past hu
      exact (h.behind (.documents (d :: done)) hpast (by simp [rank]) trivial).mono
        fun _ v hv => hpast.onward.trans hv
  clear_value read read'
  refine .get_bind ?_
  split
  · rename_i hstart
    exact hread s (.refl s) fun _ => atContent_of_atContentStart hstart
  · exact .modify_bind (hread _ (skipLines_spec s).1.onward atContent_skipLines)

end Production

end YamlLayout
