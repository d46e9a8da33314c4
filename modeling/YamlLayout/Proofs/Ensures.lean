import YamlLayout.Grammar.State

/-!
# Postconditions of reading

`m.Ensures s Q` says that whatever `m` answers when it starts in `s`, the answer
and the state it leaves satisfy `Q`. Nothing is said about runs that fail.
`m.Answers s Q` says in addition that `m` does answer.
-/
namespace YamlLayout.Parse

section Bind

variable {α β : Type} {m : Parse α} {f : α → Parse β} {s t : ParseState}

theorem bind_of_ok {a : α} (h : m s = .ok (a, t)) : (m >>= f) s = f a t := by
  simp only [Bind.bind, StateT.bind, h, Except.bind]

theorem bind_of_error {e : ParseError} (h : m s = .error e) : (m >>= f) s = .error e := by
  simp only [Bind.bind, StateT.bind, h, Except.bind]

end Bind

/-- Every successful run of `m` from `s` ends with `Q`. -/
def Ensures {α : Type} (m : Parse α) (s : ParseState) (Q : α → ParseState → Prop) : Prop :=
  ∀ a t, m s = .ok (a, t) → Q a t

namespace Ensures

variable {α β : Type} {s : ParseState} {P Q : α → ParseState → Prop} {R : β → ParseState → Prop}

theorem mono {m : Parse α} (hm : m.Ensures s P) (h : ∀ a t, P a t → Q a t) : m.Ensures s Q :=
  fun a t hrun => h a t (hm a t hrun)

theorem and {m : Parse α} (hp : m.Ensures s P) (hq : m.Ensures s Q) :
    m.Ensures s fun a t => P a t ∧ Q a t :=
  fun a t hrun => ⟨hp a t hrun, hq a t hrun⟩

theorem pure {a : α} (h : Q a s) : (Pure.pure a : Parse α).Ensures s Q := by
  intro b t hrun
  cases hrun
  exact h

theorem bind {m : Parse α} {f : α → Parse β} (hm : m.Ensures s P)
    (hf : ∀ a t, P a t → (f a).Ensures t R) : (m >>= f).Ensures s R := by
  intro b u hrun
  cases hs : m s with
  | error e =>
    rw [bind_of_error hs] at hrun
    cases hrun
  | ok r =>
    rw [bind_of_ok hs] at hrun
    exact hf r.1 r.2 (hm r.1 r.2 hs) b u hrun

theorem map_bind {γ : Type} {m : Parse α} {g : α → γ} {f : γ → Parse β}
    (h : (m >>= fun a => f (g a)).Ensures s R) : ((g <$> m) >>= f).Ensures s R := by
  rw [bind_map_left]
  exact h

theorem get_bind {f : ParseState → Parse α} (h : (f s).Ensures s Q) :
    ((get : Parse ParseState) >>= f).Ensures s Q := h

theorem set_bind {u : ParseState} {f : PUnit → Parse α} (h : (f ()).Ensures u Q) :
    ((set u : Parse PUnit) >>= f).Ensures s Q := h

theorem modify_bind {g : ParseState → ParseState} {f : PUnit → Parse α}
    (h : (f ()).Ensures (g s) Q) : ((modify g : Parse PUnit) >>= f).Ensures s Q := h

theorem fail {cause : ParseCause} : (Parse.fail cause : Parse α).Ensures s Q := by
  intro a t hrun
  cases hrun

theorem fail_bind {cause : ParseCause} {f : α → Parse β} :
    ((Parse.fail cause : Parse α) >>= f).Ensures s R := by
  intro a t hrun
  cases hrun

/-- Blanks are passed over before the rest is read. -/
theorem skipBlanks_bind {f : Unit → Parse α} (h : (f ()).Ensures s.skipBlanks Q) :
    (Parse.skipBlanks >>= f).Ensures s Q := h

/-- A token is emitted before the rest is read. -/
theorem emit_bind {kind : TokenKind} {n : Nat} {f : TokenId → Parse α}
    (h : (f s.next).Ensures (s.push kind n) Q) : (Parse.emit kind n >>= f).Ensures s Q := h

end Ensures

/-- The run of `m` from `s` succeeds and ends with `Q`. -/
def Answers {α : Type} (m : Parse α) (s : ParseState) (Q : α → ParseState → Prop) : Prop :=
  ∃ a t, m s = .ok (a, t) ∧ Q a t

namespace Answers

variable {α β : Type} {s : ParseState} {a : α} {P Q : α → ParseState → Prop}
  {R : β → ParseState → Prop}

theorem pure (h : Q a s) : (Pure.pure a : Parse α).Answers s Q := ⟨a, s, rfl, h⟩

theorem mono {m : Parse α} (hm : m.Answers s P) (h : ∀ a t, P a t → Q a t) : m.Answers s Q := by
  obtain ⟨a, t, hrun, hP⟩ := hm
  exact ⟨a, t, hrun, h a t hP⟩

theorem bind {m : Parse α} {f : α → Parse β} (hm : m.Answers s P)
    (hf : ∀ a t, P a t → (f a).Answers t R) : (m >>= f).Answers s R := by
  obtain ⟨a, t, hrun, hP⟩ := hm
  obtain ⟨b, u, hrest, hR⟩ := hf a t hP
  refine ⟨b, u, ?_, hR⟩
  rw [bind_of_ok hrun]
  exact hrest

theorem get_bind {f : ParseState → Parse α} (h : (f s).Answers s Q) :
    ((get : Parse ParseState) >>= f).Answers s Q := h

theorem modify_bind {g : ParseState → ParseState} {f : PUnit → Parse α}
    (h : (f ()).Answers (g s) Q) : ((modify g : Parse PUnit) >>= f).Answers s Q := h

theorem skipBlanks_bind {f : Unit → Parse α} (h : (f ()).Answers s.skipBlanks Q) :
    (Parse.skipBlanks >>= f).Answers s Q := h

theorem emit_bind {kind : TokenKind} {n : Nat} {f : TokenId → Parse α}
    (h : (f s.next).Answers (s.push kind n) Q) : (Parse.emit kind n >>= f).Answers s Q := h

end Answers

end YamlLayout.Parse
