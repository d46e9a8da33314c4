import Mathlib.Logic.Relation
import YamlLayout.Proofs.Progress.Stream

/-!
# Reading always ends

A call that a production makes goes on: the cursor has moved, or has not moved and the
call is of a lower rank. What is left to read bounds the fuel that is needed, so the
reader does the same as the one that has no fuel and never runs out of it.
-/
namespace YamlLayout.Production

open ParseState Parse

variable {c c' : Calls} {p q : Production} {s t : ParseState}

theorem body_agree (hready : p.Ready s) (h : Serve c c' p s) :
    (p.body c).Agree (p.body c') s (p.Ends s) := by
  cases p with
  | documents done => exact documents_agree h
  | directives => exact directives_agree h
  | blockNode parent dashes => exact blockNode_agree h
  | nodeStart parent dashes p => exact nodeStart_agree h
  | blockEntries floor => exact blockEntries_agree h hready
  | blockPairs parent column p => exact blockPairs_agree h
  | implicitKey p first => exact implicitKey_agree h
  | flowCollection => exact flowCollection_agree h hready
  | flowItems isMapping => exact flowItems_agree h
  | flowItem isMapping => exact flowItem_agree h
  | flowNode => exact flowNode_agree h
  | properties flow p => exact properties_agree h
  | plainTail parent flow => exact plainTail_agree h

/-- No production moves the cursor back. -/
theorem Ends.onward {a : p.Answer} (h : p.Ends s a t) : s.Onward t := by
  cases p with
  | documents | implicitKey | flowItems | flowItem | flowNode | plainTail => exact h
  | blockNode | nodeStart | properties => exact h.1
  | blockEntries | blockPairs | flowCollection => exact Past.onward h
  | directives =>
    obtain hpast | ⟨-, rfl⟩ := h
    · exact hpast.onward
    · exact .refl t

/-- Fuel that covers a production: four for each character that is left. -/
def need (p : Production) (s : ParseState) : Nat := 4 * s.cursor.rest.length + p.rank

theorem MayCall.need_lt (h : p.MayCall s q t) (hrank : q.rank ≤ p.rank + 3) :
    q.need t < p.need s := by
  obtain ⟨htext, hlater | ⟨hsame, hlower⟩⟩ := h
  · have hless := Cursor.length_rest_lt_of_offset_lt htext hlater
    simp only [need]
    omega
  · rw [need, need, Cursor.rest_eq_of_offset_eq htext hsame]
    omega

/-- Makes the calls of `p` from `s` by `run`, as far as they go on. -/
def goingOn (p : Production) (s : ParseState) : Calls := fun q t =>
  if p.MayCall s q t then q.run t
  else .error ⟨.exhausted, t.cursor.offset, t.cursor.position⟩

theorem goingOn_eq (h : p.MayCall s q t) : p.goingOn s q t = q.run t := if_pos h

theorem run_eq (p : Production) (s : ParseState) : p.run s = p.body (p.goingOn s) s := by
  rw [run]
  rfl

/-- With enough fuel a production does what it does without. -/
theorem fuelled_agree {fuel : Nat} (hready : p.Ready s) (hfuel : p.need s < fuel) :
    (p.fuelled fuel).Agree p.run s (p.Ends s) := by
  induction hneed : p.need s using Nat.strong_induction_on generalizing p s fuel with
  | _ n ih =>
    have hcost : p.cost ≤ 1 := by cases p <;> simp [cost]
    obtain ⟨less, rfl⟩ : ∃ less, fuel = less + p.cost :=
      ⟨fuel - p.cost, (Nat.sub_add_cancel (by omega)).symm⟩
    have hserve : Serve (fuelled less) (p.goingOn s) p s := by
      intro q t hcall hrank hq
      have hlt := hcall.need_lt hrank
      have hagree : (q.fuelled less).Agree q.run t (q.Ends t) :=
        ih (q.need t) (by omega) hq (by omega) rfl
      exact ⟨hagree.eq.trans (goingOn_eq hcall).symm, hagree.settled⟩
    have hbody := body_agree hready hserve
    rw [fuelled_add_cost]
    exact ⟨hbody.eq.trans (run_eq p s).symm, hbody.settled⟩

theorem run_settles (hready : p.Ready s) : Parse.Settles p.run s (p.Ends s) := by
  have hagree := fuelled_agree hready (Nat.lt_succ_self (p.need s))
  refine ⟨rfl, ?_⟩
  rw [← hagree.eq]
  exact hagree.settled

open Classical in
/-- Makes calls by `run`, but for the one of `b`, which fails. -/
noncomputable def failingAt (b : Production × ParseState) (e : ParseError) : Calls := fun q t =>
  if (q, t) = b then .error e else q.run t

/-- In its round, `a` makes the call of `b`: if it fails, so does the round. -/
def Invokes (a b : Production × ParseState) : Prop :=
  ∀ e, a.1.body (failingAt b e) a.2 = .error e

theorem failingAt_self (b : Production × ParseState) (e : ParseError) :
    failingAt b e b.1 b.2 = .error e := if_pos rfl

/-- A document starts with its directives. -/
theorem documents_invokes {done : List Document} (h : s.cursor.atContentStart = true) :
    Invokes (documents done, s) (directives, s) := by
  intro e
  have hrest : ¬s.cursor.rest.isEmpty = true := by
    rw [List.isEmpty_iff]
    exact (atContent_of_atContentStart h).rest_ne
  have hdocument : document (failingAt (directives, s) e) s.next s = .error e :=
    bind_of_error (failingAt_self (directives, s) e)
  unfold body
  refine (bind_of_ok rfl).trans ((bind_of_ok rfl).trans ?_)
  rw [if_pos h]
  refine (bind_of_ok rfl).trans ?_
  rw [if_neg hrest]
  exact bind_of_error hdocument

/-- Behind a directive the next one is looked for. -/
theorem directives_invokes (hcolumn : s.cursor.column = 0) (hpeek : s.cursor.peek? = some '%')
    (hnext : advance (s.push .directive (Lexeme.directive s.cursor.rest)) = .ok (true, t)) :
    Invokes (directives, s) (directives, t) := by
  intro e
  unfold body
  refine (bind_of_ok rfl).trans ?_
  rw [if_pos (by simp [hcolumn, hpeek])]
  refine (bind_of_ok rfl).trans ((bind_of_ok hnext).trans ?_)
  exact bind_of_error (failingAt_self (directives, t) e)

/-- Each call that is made goes on, and finds its first mark. -/
theorem Invokes.goes_on {a b : Production × ParseState} (h : Invokes a b)
    (hready : a.1.Ready a.2) : a.1.MayCall a.2 b.1 b.2 ∧ b.1.Ready b.2 := by
  by_contra hnot
  let e : ParseError := ⟨.exhausted, b.2.cursor.offset, b.2.cursor.position⟩
  -- The call is none of those that decide about the round.
  have hserve : Serve (failingAt b e) run a.1 a.2 := by
    intro q t hcall hrank hq
    have hother : failingAt b e q t = q.run t := by
      refine if_neg fun hb => hnot ?_
      rw [← hb]
      exact ⟨hcall, hq⟩
    refine ⟨hother, ?_⟩
    rw [hother]
    exact (run_settles hq).settled
  have hsettled := (body_agree hready hserve).settled
  rw [h e] at hsettled
  exact hsettled rfl

/-- Calls inside calls go on, and get to a production of the same rank or a higher one
only with the cursor moved. -/
theorem goes_on_of_transGen {a b : Production × ParseState}
    (h : Relation.TransGen Invokes a b) (hready : a.1.Ready a.2) :
    a.1.MayCall a.2 b.1 b.2 ∧ b.1.Ready b.2 := by
  induction h with
  | single hab => exact hab.goes_on hready
  | tail _ hbc ih =>
    obtain ⟨⟨htext, hmoved⟩, hb⟩ := ih
    obtain ⟨⟨htext', hmoved'⟩, hc⟩ := hbc.goes_on hb
    refine ⟨⟨htext'.trans htext, ?_⟩, hc⟩
    omega

theorem goes_on_of_reflTransGen {a b : Production × ParseState}
    (h : Relation.ReflTransGen Invokes a b) (hready : a.1.Ready a.2) :
    b.2.cursor.text = a.2.cursor.text ∧ b.1.Ready b.2 := by
  obtain rfl | h := Relation.reflTransGen_iff_eq_or_transGen.mp h
  · exact ⟨rfl, hready⟩
  · obtain ⟨hcall, hb⟩ := goes_on_of_transGen h hready
    exact ⟨hcall.1, hb⟩

/-- Every reader of a text does the same with its fuel as without, and has enough of it. -/
theorem documents_agree_run {text : List Char} {fuel : Nat} (h : 4 * text.length + 4 < fuel) :
    (Parse.documents fuel []).Agree (documents []).run (.ofText text)
      ((documents []).Ends (.ofText text)) :=
  fuelled_agree (p := documents []) trivial h

/-- Reading makes progress. It is `run`, which has no fuel, with any fuel above four times
the length of the text. Of the calls made on the way, each starts and ends within the text,
and none fails for want of fuel. Calls inside calls that lead back to the same production,
or to another of its rank or above, have moved the cursor on: rounds of one loop do, and so
does a recursion through several productions. -/
theorem parse_makes_progress (text : List Char) :
    parse text = ((documents []).run (.ofText text)).map (fun r =>
      { text, tokens := r.2.emitted.reverse.toArray, documents := r.1 }) ∧
    (∀ e, parse text = .error e → e.cause ≠ .exhausted) ∧
    (∀ fuel, 4 * Text.byteLength text + 4 < fuel →
      Parse.documents fuel [] (.ofText text) = (documents []).run (.ofText text)) ∧
    ∀ a, Relation.ReflTransGen Invokes (documents [], .ofText text) a →
      a.2.cursor.offset ≤ Text.byteLength text ∧
      Settled (fun _ t => a.2.cursor.offset ≤ t.cursor.offset ∧
        t.cursor.offset ≤ Text.byteLength text) (a.1.run a.2) ∧
      ∀ b, Relation.TransGen Invokes a b → a.1.rank ≤ b.1.rank →
        a.2.cursor.offset < b.2.cursor.offset := by
  have hfuel : 4 * text.length + 4 < Parse.fuelFor text.length := by
    rw [Parse.fuelFor]
    omega
  have hown := documents_agree_run hfuel
  have hparse : parse text = ((documents []).run (.ofText text)).map (fun r =>
      { text, tokens := r.2.emitted.reverse.toArray, documents := r.1 }) := by
    unfold parse
    rw [StateT.run, hown.eq]
    cases (documents []).run (.ofText text) <;> rfl
  refine ⟨hparse, fun e he => ?_, fun fuel hfuel => ?_, fun a ha => ?_⟩
  · have hsettled := hown.settled
    rw [hown.eq] at hsettled
    rw [hparse] at he
    cases hrun : (documents []).run (.ofText text) with
    | error e' =>
      rw [hrun] at hsettled he
      obtain rfl : e' = e := by simpa [Except.map] using he
      exact hsettled
    | ok r =>
      rw [hrun] at he
      cases he
  · have hlength := Text.length_le_byteLength text
    exact (documents_agree_run (by omega)).eq
  · obtain ⟨htext, hready⟩ := goes_on_of_reflTransGen ha trivial
    have hwithin : ∀ t : ParseState, t.cursor.text = a.2.cursor.text →
        t.cursor.offset ≤ Text.byteLength text := by
      intro t ht
      have hall : Text.byteLength t.cursor.text = Text.byteLength text := by
        rw [ht, htext]
        rfl
      rw [← hall]
      simp [Cursor.offset, Cursor.text]
    refine ⟨hwithin a.2 rfl, ?_, fun b hab hrank => ?_⟩
    · have hends := (run_settles hready).mono fun _ t hends =>
        (⟨hends.onward.offset_le, hwithin t hends.onward.text_eq⟩ : _ ∧ _)
      exact hends.settled
    · obtain ⟨⟨-, hmoved⟩, -⟩ := goes_on_of_transGen hab hready
      omega

/-- A round for each of two directives, the later one inside the other. -/
theorem parse_makes_progress_directives :
    ∃ t, Relation.ReflTransGen Invokes (documents [], .ofText "%a\n%b\n---\n".toList)
        (directives, .ofText "%a\n%b\n---\n".toList) ∧
      Relation.TransGen Invokes (directives, .ofText "%a\n%b\n---\n".toList) (directives, t) ∧
      (ParseState.ofText "%a\n%b\n---\n".toList).cursor.offset < t.cursor.offset := by
  have hadvance : (advance ((ParseState.ofText "%a\n%b\n---\n".toList).push .directive
      (Lexeme.directive "%a\n%b\n---\n".toList))).toOption.map (·.1) = some true := by
    decide +kernel
  cases hnext : advance ((ParseState.ofText "%a\n%b\n---\n".toList).push .directive
      (Lexeme.directive "%a\n%b\n---\n".toList)) with
  | error e =>
    rw [hnext] at hadvance
    cases hadvance
  | ok r =>
    obtain ⟨more, t⟩ := r
    rw [hnext] at hadvance
    obtain rfl : more = true := Option.some.inj hadvance
    have hfirst : Relation.ReflTransGen Invokes (documents [], .ofText "%a\n%b\n---\n".toList)
        (directives, .ofText "%a\n%b\n---\n".toList) := .single (documents_invokes rfl)
    have hsecond := Relation.TransGen.single (directives_invokes rfl rfl hnext)
    exact ⟨t, hfirst, hsecond,
      ((parse_makes_progress "%a\n%b\n---\n".toList).2.2.2 _ hfirst).2.2 _ hsecond (Nat.le_refl _)⟩

end YamlLayout.Production
