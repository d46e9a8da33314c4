import YamlLayout.Proofs.Progress.Productions
import YamlLayout.Proofs.Reading.Flow

/-!
# Readers that do the same

Two readers agree from a state if they do the same there and do not fail for want of
fuel. Followed through the rounds of a production, this shows that a production does the
same with any two ways to make its calls that agree where a call is made.
-/
namespace YamlLayout

namespace ParseState

variable {s t u : ParseState}

/-- The cursor has not moved back. -/
def Onward (s t : ParseState) : Prop := ∃ mid, s.Between mid t

/-- The cursor has moved on. -/
def Past (s t : ParseState) : Prop := ∃ mid, mid ≠ [] ∧ s.Between mid t

theorem Onward.refl (s : ParseState) : s.Onward s := ⟨[], rfl, rfl⟩

theorem Onward.trans (h : s.Onward t) (k : t.Onward u) : s.Onward u := by
  obtain ⟨mid, hmid⟩ := h
  obtain ⟨more, hmore⟩ := k
  exact ⟨mid ++ more, hmid.trans hmore⟩

theorem Past.onward (h : s.Past t) : s.Onward t := by
  obtain ⟨mid, -, hmid⟩ := h
  exact ⟨mid, hmid⟩

theorem Past.trans (h : s.Past t) (k : t.Onward u) : s.Past u := by
  obtain ⟨mid, hne, hmid⟩ := h
  obtain ⟨more, hmore⟩ := k
  exact ⟨mid ++ more, List.append_ne_nil_of_left_ne_nil hne _, hmid.trans hmore⟩

theorem Onward.trans_past (h : s.Onward t) (k : t.Past u) : s.Past u := by
  obtain ⟨mid, hmid⟩ := h
  obtain ⟨more, hne, hmore⟩ := k
  exact ⟨mid ++ more, List.append_ne_nil_of_right_ne_nil _ hne, hmid.trans hmore⟩

theorem Moves.onward (h : s.Moves t) : s.Onward t := h.exists_between

theorem Passes.onward (h : s.Passes t) : s.Onward t := h.moves.onward

theorem onward_push (s : ParseState) (kind : TokenKind) (n : Nat) : s.Onward (s.push kind n) :=
  ⟨_, between_push s kind n⟩

theorem onward_skip (s : ParseState) (n : Nat) : s.Onward (s.skip n) := ⟨_, between_skip s n⟩

theorem onward_skipBlanks (s : ParseState) : s.Onward s.skipBlanks := (passes_skipBlanks s).onward

theorem onward_readComment (s : ParseState) : s.Onward s.readComment :=
  (onward_push ..).trans (onward_skipBlanks _)

theorem past_skip {n : Nat} (hpos : 0 < n) (hrest : s.cursor.rest ≠ []) : s.Past (s.skip n) := by
  refine ⟨_, ?_, between_skip s n⟩
  simp [hrest, Nat.ne_of_gt hpos]

/-- A token that is not empty is behind the cursor. -/
theorem past_push {n : Nat} (kind : TokenKind) (hpos : 0 < n) (hrest : s.cursor.rest ≠ []) :
    s.Past (s.push kind n) := by
  refine ⟨_, ?_, between_push s kind n⟩
  simp [hrest, Nat.ne_of_gt hpos]

theorem rest_ne_nil_of_peek? {c : Char} (h : s.cursor.peek? = some c) : s.cursor.rest ≠ [] := by
  intro hnil
  simp [Cursor.peek?, hnil] at h

theorem Between.text_eq {mid : List Char} (h : s.Between mid t) :
    t.cursor.text = s.cursor.text := by
  simp [Cursor.text, h.rest_eq, h.before_eq]

theorem Between.offset_eq {mid : List Char} (h : s.Between mid t) :
    t.cursor.offset = s.cursor.offset + Text.byteLength mid := by
  simp [Cursor.offset, h.before_eq, Nat.add_comm]

theorem Onward.text_eq (h : s.Onward t) : t.cursor.text = s.cursor.text := by
  obtain ⟨mid, hmid⟩ := h
  exact hmid.text_eq

theorem Onward.offset_le (h : s.Onward t) : s.cursor.offset ≤ t.cursor.offset := by
  obtain ⟨mid, hmid⟩ := h
  rw [hmid.offset_eq]
  omega

/-- Content comes next. -/
structure AtContent (s : ParseState) : Prop where
  clear : s.Clear
  rest_ne : s.cursor.rest ≠ []
  peek_ne : s.cursor.peek? ≠ some '#'

theorem atContent_of_atContentStart (h : s.cursor.atContentStart = true) : s.AtContent := by
  refine ⟨clear_of_atContentStart h, ?_, ?_⟩
  · intro hnil
    simp [Cursor.atContentStart, hnil] at h
  · intro hpeek
    obtain ⟨cs, hrest⟩ := List.head?_eq_some_iff.mp hpeek
    simp [Cursor.atContentStart, hrest] at h

theorem AtContent.skipBlanks_eq (h : s.AtContent) : s.skipBlanks = s :=
  h.clear.clearOfBlanks.skipBlanks_eq

theorem AtContent.atBreak_eq (h : s.AtContent) : s.cursor.atBreak = false := by
  obtain ⟨c, cs, hrest⟩ := List.exists_cons_of_ne_nil h.rest_ne
  have hspace := h.clear c (by simp [Cursor.peek?, hrest])
  simp only [isSpace, Bool.or_eq_false_iff] at hspace
  simp [Cursor.atBreak, hrest, hspace.2]

end ParseState

namespace Production

open ParseState

variable {p q : Production} {s t : ParseState}

theorem mayCall_of_past (h : s.Past t) : p.MayCall s q t := by
  obtain ⟨mid, hne, hmid⟩ := h
  refine ⟨hmid.text_eq, .inl ?_⟩
  obtain ⟨c, cs, rfl⟩ := List.exists_cons_of_ne_nil hne
  have hsize := c.utf8Size_pos
  rw [hmid.offset_eq, Text.byteLength]
  omega

theorem mayCall_of_onward (h : s.Onward t) (hrank : q.rank < p.rank) : p.MayCall s q t := by
  obtain ⟨mid, hmid⟩ := h
  by_cases hnil : mid = []
  · refine ⟨hmid.text_eq, .inr ⟨?_, hrank⟩⟩
    rw [hmid.offset_eq, hnil, Text.byteLength, Nat.add_zero]
  · exact mayCall_of_past ⟨mid, hnil, hmid⟩

end Production

namespace Parse

/-- The run has ended with `Q`, or with an error that is no want of fuel. -/
def Settled {α : Type} (Q : α → ParseState → Prop) : Except ParseError (α × ParseState) → Prop
  | .ok r => Q r.1 r.2
  | .error e => e.cause ≠ .exhausted

/-- Both readers do the same from `s`, and it is settled with `Q`. -/
structure Agree {α : Type} (m m' : Parse α) (s : ParseState) (Q : α → ParseState → Prop) :
    Prop where
  eq : m s = m' s
  settled : Settled Q (m s)

/-- What the reader does from `s` is settled with `Q`. -/
abbrev Settles {α : Type} (m : Parse α) (s : ParseState) (Q : α → ParseState → Prop) : Prop :=
  m.Agree m s Q

namespace Agree

variable {α β : Type} {s : ParseState} {P Q : α → ParseState → Prop} {R : β → ParseState → Prop}

theorem mono {m m' : Parse α} (hm : m.Agree m' s P) (h : ∀ a t, P a t → Q a t) :
    m.Agree m' s Q := by
  refine ⟨hm.eq, ?_⟩
  have hsettled := hm.settled
  cases hs : m s with
  | error e =>
    rw [hs] at hsettled
    exact hsettled
  | ok r =>
    rw [hs] at hsettled
    exact h r.1 r.2 hsettled

theorem pure {a : α} (h : Q a s) : (Pure.pure a : Parse α).Agree (Pure.pure a) s Q := ⟨rfl, h⟩

theorem bind {m m' : Parse α} {f f' : α → Parse β} (hm : m.Agree m' s P)
    (hf : ∀ a t, P a t → (f a).Agree (f' a) t R) : (m >>= f).Agree (m' >>= f') s R := by
  have hsettled := hm.settled
  have heq := hm.eq
  cases hs : m s with
  | error e =>
    rw [hs] at hsettled heq
    refine ⟨(bind_of_error hs).trans (bind_of_error heq.symm).symm, ?_⟩
    rw [bind_of_error hs]
    exact hsettled
  | ok r =>
    rw [hs] at hsettled heq
    have hleft : (m >>= f) s = f r.1 r.2 := bind_of_ok hs
    have hright : (m' >>= f') s = f' r.1 r.2 := bind_of_ok heq.symm
    have hrest := hf r.1 r.2 hsettled
    refine ⟨hleft.trans (hrest.eq.trans hright.symm), ?_⟩
    rw [hleft]
    exact hrest.settled

theorem pure_bind {a : α} {f f' : α → Parse β} (h : (f a).Agree (f' a) s R) :
    ((Pure.pure a : Parse α) >>= f).Agree (Pure.pure a >>= f') s R := ⟨h.eq, h.settled⟩

theorem get_bind {f f' : ParseState → Parse α} (h : (f s).Agree (f' s) s Q) :
    ((get : Parse ParseState) >>= f).Agree (get >>= f') s Q := ⟨h.eq, h.settled⟩

theorem set_bind {u : ParseState} {f f' : PUnit → Parse α} (h : (f ()).Agree (f' ()) u Q) :
    ((set u : Parse PUnit) >>= f).Agree (set u >>= f') s Q := ⟨h.eq, h.settled⟩

theorem modify_bind {g : ParseState → ParseState} {f f' : PUnit → Parse α}
    (h : (f ()).Agree (f' ()) (g s) Q) :
    ((modify g : Parse PUnit) >>= f).Agree (modify g >>= f') s Q := ⟨h.eq, h.settled⟩

theorem fail {cause : ParseCause} (h : cause ≠ .exhausted) :
    (Parse.fail cause : Parse α).Agree (Parse.fail cause) s Q := ⟨rfl, h⟩

theorem fail_bind {cause : ParseCause} {f f' : α → Parse β} (h : cause ≠ .exhausted) :
    ((Parse.fail cause : Parse α) >>= f).Agree (Parse.fail cause >>= f') s R := ⟨rfl, h⟩

theorem skipBlanks_bind {f f' : Unit → Parse α} (h : (f ()).Agree (f' ()) s.skipBlanks Q) :
    (Parse.skipBlanks >>= f).Agree (Parse.skipBlanks >>= f') s Q := ⟨h.eq, h.settled⟩

theorem emit_bind {kind : TokenKind} {n : Nat} {f f' : TokenId → Parse α}
    (h : (f s.next).Agree (f' s.next) (s.push kind n) Q) :
    (Parse.emit kind n >>= f).Agree (Parse.emit kind n >>= f') s Q := ⟨h.eq, h.settled⟩

theorem map_bind {γ : Type} {m m' : Parse α} {g : α → γ} {f f' : γ → Parse β}
    (h : (m >>= fun a => f (g a)).Agree (m' >>= fun a => f' (g a)) s R) :
    ((g <$> m) >>= f).Agree ((g <$> m') >>= f') s R := by
  rw [bind_map_left, bind_map_left]
  exact h

end Agree

open ParseState

variable {s : ParseState}

theorem onward_skipFlowSpace (s : ParseState) :
    match s.skipFlowSpace with
    | .ok t => s.Onward t
    | .error e => e.cause ≠ .exhausted := by
  fun_induction ParseState.skipFlowSpace s with
  | case1 s after hrest => exact onward_skipBlanks s
  | case2 s after c cs hrest hbreak broken hmarker => simp
  | case3 s after c cs hrest hbreak broken hmarker ih =>
    have hbroken : s.Onward broken :=
      (onward_skipBlanks s).trans (passes_skipBreak after).onward
    split at ih
    · exact hbroken.trans ih
    · exact ih
  | case4 s after c cs hrest hbreak hcomment ih =>
    have hread : s.Onward after.readComment :=
      (onward_skipBlanks s).trans (onward_readComment after)
    split at ih
    · exact hread.trans ih
    · exact ih
  | case5 s after c cs hrest hbreak hcomment => exact onward_skipBlanks s

theorem skipFlowSpace_settles (s : ParseState) :
    Parse.skipFlowSpace.Settles s fun _ t => s.Onward t := by
  refine ⟨rfl, ?_⟩
  have hspace := onward_skipFlowSpace s
  cases hs : s.skipFlowSpace with
  | error e =>
    have hfails : Parse.skipFlowSpace s = .error e := by
      simp only [Parse.skipFlowSpace, hs, Bind.bind, Except.bind]
    rw [hs] at hspace
    rw [hfails]
    exact hspace
  | ok u =>
    have hgoes : Parse.skipFlowSpace s = .ok ((), u) := by
      simp only [Parse.skipFlowSpace, hs, Bind.bind, Except.bind]
      rfl
    rw [hs] at hspace
    rw [hgoes]
    exact hspace

/-- In front of content there is no line to leave. -/
theorem advance_settles (s : ParseState) :
    advance.Settles s fun found t => s.Onward t ∧ (s.AtContent → found = true ∧ t = s) := by
  unfold advance
  refine .get_bind ?_
  extract_lets last checked commented
  have hlast : ∀ t, s.Onward t → ¬s.AtContent → (last ()).Settles t fun found t =>
      s.Onward t ∧ (s.AtContent → found = true ∧ t = s) := by
    intro t ht hnot
    exact .modify_bind (.get_bind (.pure
      ⟨ht.trans (skipLines_spec t).1.onward, fun hcontent => absurd hcontent hnot⟩))
  clear_value last
  have hchecked : ∀ t, s.Onward t → (s.AtContent → t.cursor.atBreak = false) →
      (checked ()).Settles t fun found t =>
        s.Onward t ∧ (s.AtContent → found = true ∧ t = s) := by
    intro t ht hbreak
    refine .get_bind ?_
    split
    · rename_i hends
      refine hlast t ht fun hcontent => ?_
      rw [hbreak hcontent] at hends
      cases hends
    · exact .fail_bind (by decide)
  clear_value checked
  split
  · exact .pure ⟨.refl s, fun _ => ⟨rfl, rfl⟩⟩
  refine .skipBlanks_bind (.get_bind ?_)
  split
  · rename_i hnumber
    split
    · refine .modify_bind (hchecked _ ((onward_skipBlanks s).trans (onward_readComment _)) ?_)
      intro hcontent
      rw [hcontent.skipBlanks_eq, beq_iff_eq] at hnumber
      exact absurd hnumber hcontent.peek_ne
    · exact .fail_bind (by decide)
  · refine hchecked _ (onward_skipBlanks s) fun hcontent => ?_
    rw [hcontent.skipBlanks_eq]
    exact hcontent.atBreak_eq

theorem property_settles (kind : TokenKind) (flow : Bool) (hrest : s.cursor.rest ≠ []) :
    (property kind flow).Settles s fun _ t => s.Past t := by
  obtain ⟨c, cs, hcons⟩ := List.exists_cons_of_ne_nil hrest
  have hpos : 0 < Lexeme.property flow s.cursor.rest := by
    rw [hcons]
    exact Lexeme.property_pos ..
  exact .get_bind (.emit_bind (.pure (past_push kind hpos hrest)))

theorem decorate_settles (p : Properties) (id : TokenId) (node : Node) (s : ParseState) :
    (decorate p id node).Settles s fun _ t => t = s := by
  unfold decorate
  split
  · exact .pure rfl
  · exact .get_bind (.pure rfl)

theorem scalar_settles (style : ScalarStyle) {n : Nat} (hpos : 0 < n)
    (hrest : s.cursor.rest ≠ []) : (scalar style n).Settles s fun _ t => s.Past t :=
  .get_bind (.emit_bind (.get_bind (.pure (past_push _ hpos hrest))))

theorem quoted_settles (s : ParseState) : quoted.Settles s fun _ t => s.Past t := by
  unfold quoted
  refine .get_bind ?_
  split
  · exact .fail (by decide)
  rename_i quote rest hrest
  have hne : s.cursor.rest ≠ [] := by
    rw [hrest]
    exact List.cons_ne_nil _ _
  split
  · exact .fail (by decide)
  split <;> extract_lets crossed
  · split
    · exact .fail_bind (by decide)
    · exact scalar_settles _ (Nat.succ_pos _) hne
  · split
    · exact .fail_bind (by decide)
    · exact scalar_settles _ (Nat.succ_pos _) hne

theorem reference_settles (flow : Bool) (hrest : s.cursor.rest ≠ []) :
    (reference flow).Settles s fun _ t => s.Past t := by
  obtain ⟨c, cs, hcons⟩ := List.exists_cons_of_ne_nil hrest
  have hpos : 0 < Lexeme.reference flow s.cursor.rest := by
    rw [hcons]
    exact Lexeme.reference_pos ..
  exact .get_bind (.emit_bind (.get_bind (.pure (past_push _ hpos hrest))))

theorem blockScalar_settles (parent : Int) (hrest : s.cursor.rest ≠ []) :
    (blockScalar parent).Settles s fun _ t => s.Past t := by
  unfold blockScalar
  refine .get_bind ?_
  extract_lets header named
  split
  · exact .set_bind (.fail_bind (by decide))
  refine .emit_bind ?_
  have hpast : s.Past (s.push .punctuator (header.length + 1)) :=
    past_push _ (Nat.succ_pos _) hrest
  refine .get_bind ?_
  extract_lets blank answered bodied commented
  have hcommented : ∀ t, s.Past t → (commented ()).Settles t fun _ t => s.Past t := by
    intro t ht
    refine .get_bind ?_
    split
    swap
    · exact .fail_bind (by decide)
    refine .get_bind ?_
    split
    · exact .pure_bind (.get_bind (.pure ht))
    · refine .modify_bind (.map_bind (.emit_bind (.get_bind (.pure ?_))))
      exact (ht.trans (onward_skip ..)).trans (onward_push ..)
  clear_value commented
  refine .skipBlanks_bind (.get_bind ?_)
  have hblanks := hpast.trans (onward_skipBlanks _)
  split
  · exact .modify_bind (hcommented _ (hblanks.trans (onward_readComment _)))
  · exact hcommented _ hblanks

end Parse

namespace Production

open ParseState

/-- Where a production is called: in front of its first mark, if it starts with one. -/
def Ready : Production → ParseState → Prop
  | blockEntries _, s => s.cursor.rest ≠ []
  | flowCollection, s => s.cursor.rest ≠ []
  | _, _ => True

/-- How far a production moves the cursor. -/
def Ends : (p : Production) → ParseState → p.Answer → ParseState → Prop
  | documents _, s, _, t => s.Onward t
  | directives, s, tokens, t => s.Past t ∨ tokens = [] ∧ t = s
  | blockNode .., s, _, t => s.Onward t ∧ (s.AtContent → s.Past t)
  | nodeStart .., s, start, t =>
    s.Onward t ∧ (s.AtContent → s.Past t ∨ start.found = true ∧ t = s)
  | blockEntries _, s, _, t => s.Past t
  | blockPairs .., s, _, t => s.Past t
  | implicitKey .., s, _, t => s.Onward t
  | flowCollection, s, _, t => s.Past t
  | flowItems _, s, _, t => s.Onward t
  | flowItem _, s, _, t => s.Onward t
  | flowNode, s, _, t => s.Onward t
  | properties .., s, _, t => s.Onward t ∧
    (s.cursor.peek? = some '&' ∨ s.cursor.peek? = some '!' → s.Past t)
  | plainTail .., s, _, t => s.Onward t

/-- Two ways to make the calls of a production that has started in `s` agree. -/
def Serve (c c' : Calls) (p : Production) (s : ParseState) : Prop :=
  ∀ q t, p.MayCall s q t → q.rank ≤ p.rank + 3 → q.Ready t → (c q).Agree (c' q) t (q.Ends t)

variable {c c' : Calls} {p : Production} {s t : ParseState}

/-- A call behind the start of the round. -/
theorem Serve.behind (h : Serve c c' p s) (q : Production) (hpast : s.Past t)
    (hrank : q.rank ≤ p.rank + 3) (hready : q.Ready t) : (c q).Agree (c' q) t (q.Ends t) :=
  h q t (mayCall_of_past hpast) hrank hready

/-- A call of a lower rank. -/
theorem Serve.below (h : Serve c c' p s) (q : Production) (honward : s.Onward t)
    (hrank : q.rank < p.rank) (hready : q.Ready t) : (c q).Agree (c' q) t (q.Ends t) :=
  h q t (mayCall_of_onward honward hrank) (Nat.le_of_lt (Nat.lt_add_right 3 hrank)) hready

end Production

end YamlLayout
