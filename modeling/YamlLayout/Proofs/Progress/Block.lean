import YamlLayout.Proofs.Progress.Flow

/-!
# Progress in block collections

A node in front of content either moves the cursor or fails. The entries and pairs of a
collection always move it, so that a collection ends.
-/
namespace YamlLayout.Production

open ParseState Parse

variable {c c' : Calls} {s t : ParseState} {parent : Int} {dashes : Bool} {p : Properties}

theorem inlineNode_agree {q : Production} (h : Serve c c' q s) (hrank : 0 < q.rank)
    (ht : s.Onward t) :
    (inlineNode c parent).Agree (inlineNode c' parent) t fun _ u => t.Past u := by
  unfold inlineNode
  refine .get_bind ?_
  split
  · exact .fail (by decide)
  rename_i d hpeek
  have hrest := rest_ne_nil_of_peek? hpeek
  split
  · exact reference_settles false hrest
  split
  · exact quoted_settles t
  split
  · exact h.below .flowCollection ht hrank hrest
  split
  · exact .fail (by decide)
  · exact plain_agree h hrank ht (by decide) hrest

theorem nodeStart_agree (h : Serve c c' (nodeStart parent dashes p) s) :
    (body c (nodeStart parent dashes p)).Agree (body c' (nodeStart parent dashes p)) s
      ((nodeStart parent dashes p).Ends s) := by
  -- Properties are behind the cursor before the start of the node is looked for again.
  have hmarked : ∀ t, s.Onward t →
      t.cursor.peek? = some '&' ∨ t.cursor.peek? = some '!' →
      (c (.properties false p) >>= fun p => c (.nodeStart parent dashes p)).Agree
        (c' (.properties false p) >>= fun p => c' (.nodeStart parent dashes p)) t
        ((nodeStart parent dashes p).Ends s) := by
    intro t ht hmark
    refine (h.below (.properties false p) ht (by simp [rank]) trivial).bind fun q u hu => ?_
    have hpast : s.Past u := ht.trans_past (hu.2 hmark)
    refine (h.behind (.nodeStart parent dashes q) hpast (by simp [rank]) trivial).mono
      fun start v hv => ?_
    have hend := hpast.trans hv.1
    exact ⟨hend.onward, fun _ => .inl hend⟩
  unfold body
  refine .get_bind ?_
  extract_lets found found'
  have hfound : ∀ t, s.Onward t → (s.AtContent → t = s) →
      (found ()).Agree (found' ()) t ((nodeStart parent dashes p).Ends s) := by
    intro t ht hstays
    refine .get_bind ?_
    split
    · rename_i hpeek
      exact hmarked t ht (.inl hpeek)
    · rename_i hpeek
      exact hmarked t ht (.inr hpeek)
    · exact .pure ⟨ht, fun hcontent => .inr ⟨rfl, hstays hcontent⟩⟩
  clear_value found found'
  split
  · rename_i hends
    have hnot : ¬s.AtContent := by
      intro hcontent
      simp [hcontent.atBreak_eq, hcontent.peek_ne] at hends
    refine (advance_settles s).bind fun more t ht => ?_
    have hleft : ∀ start, (nodeStart parent dashes p).Ends s start t :=
      fun _ => ⟨ht.1, fun hcontent => absurd hcontent hnot⟩
    split
    swap
    · exact .pure (hleft _)
    refine .get_bind ?_
    split
    · exact .pure (hleft _)
    extract_lets column
    split
    · exact hfound t ht.1 fun hcontent => absurd hcontent hnot
    · exact .pure (hleft _)
  · exact hfound s (.refl s) fun _ => rfl

theorem implicitKey_agree {first : TokenId} (h : Serve c c' (implicitKey p first) s) :
    (body c (implicitKey p first)).Agree (body c' (implicitKey p first)) s
      ((implicitKey p first).Ends s) := by
  unfold body
  refine (h.below (.properties false p) (.refl s) (by simp [rank]) trivial).bind fun q t ht =>
    .get_bind ?_
  extract_lets decorated
  have hdecorated : ∀ node u, s.Onward u →
      (decorated node).Settles u ((implicitKey p first).Ends s) :=
    fun node u hu => (decorate_settles q first node u).mono fun _ v hv => hv ▸ hu
  clear_value decorated
  have hmarks : s.Onward t := ht.1
  split
  · exact .fail_bind (by decide)
  rename_i d hpeek
  have hrest := rest_ne_nil_of_peek? hpeek
  split
  · exact .pure_bind (hdecorated _ t hmarks)
  split
  · exact (reference_settles false hrest).bind fun node u hu =>
      hdecorated node u (hmarks.trans hu.onward)
  split
  · exact (quoted_settles t).bind fun node u hu => hdecorated node u (hmarks.trans hu.onward)
  split
  · exact (h.below .flowCollection hmarks (by simp [rank]) hrest).bind fun node u hu =>
      hdecorated node u (hmarks.trans hu.onward)
  split
  · exact .fail_bind (by decide)
  · rename_i n hn
    exact (scalar_settles .plain (Nat.pos_of_ne_zero hn) hrest).bind fun node u hu =>
      hdecorated node u (hmarks.trans hu.onward)

theorem blockNode_agree (h : Serve c c' (blockNode parent dashes) s) :
    (body c (blockNode parent dashes)).Agree (body c' (blockNode parent dashes)) s
      ((blockNode parent dashes).Ends s) := by
  unfold body
  refine .get_bind ?_
  extract_lets first
  refine .skipBlanks_bind ?_
  have hblanks := onward_skipBlanks s
  refine (h.below (.nodeStart parent dashes .none) hblanks (by simp [rank]) trivial).bind
    fun start t ht => ?_
  have hstart : s.Onward t := hblanks.trans ht.1
  obtain ⟨q, found⟩ := start
  dsimp only
  split
  · rename_i hnot
    refine (decorate_settles q first .empty t).mono fun _ u hu => ?_
    rw [hu]
    refine ⟨hstart, fun hcontent => ?_⟩
    have hends := ht.2
    rw [hcontent.skipBlanks_eq] at hends
    obtain hpast | ⟨hfound, -⟩ := hends hcontent
    · exact hpast
    · simp_all
  have hend : ∀ {u}, t.Past u → s.Onward u ∧ (s.AtContent → s.Past u) := by
    intro u hu
    have hpast := hstart.trans_past hu
    exact ⟨hpast.onward, fun _ => hpast⟩
  have hdecorated : ∀ node u, t.Past u →
      (decorate q first node).Settles u ((blockNode parent dashes).Ends s) :=
    fun node u hu => (decorate_settles q first node u).mono fun _ v hv => hv ▸ hend hu
  have hpairs : ∀ column q, (c (.blockPairs parent column q)).Agree
      (c' (.blockPairs parent column q)) t fun _ u => t.Past u :=
    fun column q => h.below (.blockPairs parent column q) hstart (by simp [rank]) trivial
  refine .get_bind ?_
  split
  · rename_i hdash
    have hrest := rest_ne_nil_of_peek? (peek?_of_atIndicator hdash)
    exact (h.below (.blockEntries _) hstart (by simp [rank]) hrest).bind fun entries u hu =>
      .get_bind (hdecorated _ u hu)
  split
  · exact (hpairs _ .none).bind fun pairs u hu => .get_bind (hdecorated _ u hu)
  split
  · rename_i hbar
    have hrest : t.cursor.rest ≠ [] := by
      simp only [Bool.or_eq_true, beq_iff_eq] at hbar
      obtain hpeek | hpeek := hbar
      · exact rest_ne_nil_of_peek? hpeek
      · exact rest_ne_nil_of_peek? hpeek
    exact (blockScalar_settles parent hrest).bind fun node u hu => hdecorated node u hu
  split
  · split
    · rename_i mark hmark
      split
      · exact (hpairs _ q).bind fun pairs u hu => .get_bind (.pure (hend hu))
      · exact (hpairs _ .none).bind fun pairs u hu => .get_bind (hdecorated _ u hu)
    · exact (hpairs _ .none).bind fun pairs u hu => .get_bind (.pure (hend hu))
  · exact (inlineNode_agree h (by simp [rank]) hstart).bind fun node u hu => hdecorated node u hu

theorem blockEntries_agree {floor : Int} (h : Serve c c' (blockEntries floor) s)
    (hrest : s.cursor.rest ≠ []) :
    (body c (blockEntries floor)).Agree (body c' (blockEntries floor)) s
      ((blockEntries floor).Ends s) := by
  unfold body
  refine .get_bind (.emit_bind ?_)
  have hdash : s.Past (s.push .punctuator 1) := past_push _ Nat.one_pos hrest
  refine (h.behind (.blockNode _ false) hdash (by simp [rank]) trivial).bind fun value t ht => ?_
  extract_lets entry
  refine (advance_settles t).bind fun more u hu => ?_
  have hpast : s.Past u := (hdash.trans ht.1).trans hu.1
  split
  swap
  · exact .pure hpast
  refine .get_bind ?_
  split
  · rename_i hnext
    simp only [Bool.and_eq_true] at hnext
    have hmore := rest_ne_nil_of_peek? (peek?_of_atIndicator hnext.1.2)
    exact (h.behind (.blockEntries floor) hpast (by simp [rank]) hmore).bind fun entries v hv =>
      .pure (hpast.trans hv.onward)
  · exact .pure hpast

theorem blockPairs_agree {column : Int} (h : Serve c c' (blockPairs parent column p) s) :
    (body c (blockPairs parent column p)).Agree (body c' (blockPairs parent column p)) s
      ((blockPairs parent column p).Ends s) := by
  unfold body
  refine .get_bind ?_
  extract_lets first pairColumn paired keyed paired' keyed'
  have hpaired : ∀ pair t, s.Past t →
      (paired pair).Agree (paired' pair) t ((blockPairs parent column p).Ends s) := by
    intro pair t ht
    refine (advance_settles t).bind fun more u hu => ?_
    have hpast : s.Past u := ht.trans hu.1
    split
    swap
    · exact .pure hpast
    refine .get_bind ?_
    split
    · exact .pure hpast
    extract_lets next
    split
    · exact (h.behind (.blockPairs parent column .none) hpast (by simp [rank]) trivial).bind
        fun pairs v hv => .pure (hpast.trans hv.onward)
    · exact .pure hpast
  clear_value paired paired'
  have hkeyed : ∀ key t, s.Onward t →
      (keyed key).Agree (keyed' key) t ((blockPairs parent column p).Ends s) := by
    intro key t ht
    refine .get_bind ?_
    extract_lets valued valued'
    have hvalued : t.cursor.rest ≠ [] →
        (valued ()).Agree (valued' ()) t ((blockPairs parent column p).Ends s) := by
      intro hrest
      have hcolon : s.Past (t.push .punctuator 1) := ht.trans_past (past_push _ Nat.one_pos hrest)
      refine .emit_bind ?_
      exact (h.behind (.blockNode pairColumn true) hcolon (by simp [rank]) trivial).bind
        fun value u hu => .get_bind (.pure_bind (hpaired _ u (hcolon.trans hu.1)))
    clear_value valued valued'
    split
    · rename_i hmark
      apply hvalued
      obtain hcolon | hcolon := Bool.or_eq_true_iff.mp hmark
      · exact rest_ne_nil_of_peek? (peek?_of_atIndicator hcolon)
      · exact rest_ne_nil_of_peek? (peek?_of_atAdjacentColon hcolon)
    · exact .fail_bind (by decide)
  clear_value keyed keyed'
  split
  · rename_i hmark
    have hquestion : s.Past (s.push .punctuator 1) :=
      past_push _ Nat.one_pos (rest_ne_nil_of_peek? (peek?_of_atIndicator hmark))
    refine .emit_bind ?_
    refine (h.behind (.blockNode pairColumn false) hquestion (by simp [rank]) trivial).bind
      fun key t ht => ?_
    refine (advance_settles t).bind fun more u hu => .get_bind ?_
    have hpast : s.Past u := (hquestion.trans ht.1).trans hu.1
    split
    · have hcolon : s.Past (u.push .punctuator 1) := hpast.trans (onward_push ..)
      refine .emit_bind ?_
      exact (h.behind (.blockNode pairColumn true) hcolon (by simp [rank]) trivial).bind
        fun value v hv => .get_bind (.pure_bind (hpaired _ v (hcolon.trans hv.1)))
    · exact .pure_bind (hpaired _ u hpast)
  · split
    · exact .pure_bind (hkeyed _ s (.refl s))
    · refine (h.below (.implicitKey p first) (.refl s) (by simp [rank]) trivial).bind
        fun key t ht => .skipBlanks_bind (.pure_bind ?_)
      exact hkeyed key _ (ht.trans (onward_skipBlanks t))

end YamlLayout.Production
