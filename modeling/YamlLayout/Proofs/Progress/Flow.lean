import YamlLayout.Proofs.Progress.Agreement

/-!
# Progress in flow collections
-/
namespace YamlLayout.Production

open ParseState Parse

variable {c c' : Calls} {s : ParseState}

theorem flowCollection_agree (h : Serve c c' flowCollection s) (hrest : s.cursor.rest ≠ []) :
    (body c flowCollection).Agree (body c' flowCollection) s (flowCollection.Ends s) := by
  unfold body
  refine .get_bind ?_
  extract_lets isMapping
  refine .emit_bind ?_
  have hpast : s.Past (s.push .punctuator 1) := past_push _ Nat.one_pos hrest
  refine (h.behind (.flowItems isMapping) hpast (by simp [rank]) trivial).bind fun inside t ht =>
    .get_bind ?_
  have hend := hpast.trans ht
  split
  · exact .pure hend
  · exact .pure hend

theorem flowItems_agree {isMapping : Bool} (h : Serve c c' (flowItems isMapping) s) :
    (body c (flowItems isMapping)).Agree (body c' (flowItems isMapping)) s
      ((flowItems isMapping).Ends s) := by
  unfold body
  refine (skipFlowSpace_settles s).bind fun _ t ht => .get_bind ?_
  split
  · exact .fail (by decide)
  rename_i d hpeek
  split
  · exact .emit_bind (.pure (ht.trans (onward_push ..)))
  extract_lets more more'
  have hmore : (more ()).Agree (more' ()) t ((flowItems isMapping).Ends s) := by
    refine (h.below (.flowItem isMapping) ht (by simp [rank]) trivial).bind fun item u hu => ?_
    refine (skipFlowSpace_settles u).bind fun _ v hv => .get_bind ?_
    have hread := (ht.trans hu).trans hv
    split
    · exact .fail (by decide)
    rename_i d hpeek
    split
    · have hpast : s.Past (v.push .punctuator 1) :=
        hread.trans_past (past_push _ Nat.one_pos (rest_ne_nil_of_peek? hpeek))
      refine .emit_bind ?_
      exact (h.behind (.flowItems isMapping) hpast (by simp [rank]) trivial).bind fun rest w hw =>
        .pure (hpast.trans hw).onward
    · split
      · exact .emit_bind (.pure (hread.trans (onward_push ..)))
      · exact .fail (by decide)
  clear_value more more'
  split
  · exact .fail_bind (by decide)
  · exact hmore

theorem flowItem_agree {isMapping : Bool} (h : Serve c c' (flowItem isMapping) s) :
    (body c (flowItem isMapping)).Agree (body c' (flowItem isMapping)) s
      ((flowItem isMapping).Ends s) := by
  unfold body
  refine .get_bind ?_
  extract_lets first asked asked'
  have hasked : ∀ question t, s.Onward t →
      (asked question).Agree (asked' question) t ((flowItem isMapping).Ends s) := by
    intro question t ht
    refine .get_bind ?_
    extract_lets keyed keyed'
    have hkeyed : ∀ key u, s.Onward u →
        (keyed key).Agree (keyed' key) u ((flowItem isMapping).Ends s) := by
      intro key u hu
      refine (skipFlowSpace_settles u).bind fun _ v hv => .get_bind ?_
      have hread := hu.trans hv
      split
      · refine .emit_bind ?_
        refine (skipFlowSpace_settles _).bind fun _ w hw => .get_bind ?_
        extract_lets valued
        have hvalued : ∀ value x, s.Onward x →
            (valued value).Settles x ((flowItem isMapping).Ends s) := fun value x hx =>
          .get_bind (.pure hx)
        clear_value valued
        have hmark : s.Onward w := (hread.trans (onward_push ..)).trans hw
        split
        · exact .pure_bind (hvalued _ w hmark)
        · exact .pure_bind (hvalued _ w hmark)
        · exact .pure_bind (hvalued _ w hmark)
        · exact (h.below .flowNode hmark (by simp [rank]) trivial).bind fun value x hx =>
            hvalued value x (hmark.trans hx)
      · split
        · extract_lets lone
          split
          · exact .fail_bind (by decide)
          · exact .pure hread
        · exact .pure hread
    clear_value keyed keyed'
    split
    · exact .pure_bind (hkeyed _ t ht)
    · exact (h.below .flowNode ht (by simp [rank]) trivial).bind fun key u hu =>
        hkeyed key u (ht.trans hu)
  clear_value asked asked'
  refine .get_bind ?_
  split
  · refine .emit_bind ?_
    refine (skipFlowSpace_settles _).bind fun _ t ht => .pure_bind ?_
    exact hasked _ t ((onward_push ..).trans ht)
  · exact .pure_bind (hasked _ s (.refl s))

theorem plain_agree {p : Production} {parent : Int} {flow : Bool} {cause : ParseCause}
    {t : ParseState} (h : Serve c c' p s) (hrank : 0 < p.rank) (ht : s.Onward t)
    (hcause : cause ≠ .exhausted) (hrest : t.cursor.rest ≠ []) :
    (plain c parent flow cause).Agree (plain c' parent flow cause) t fun _ u => t.Past u := by
  unfold plain
  refine .get_bind ?_
  extract_lets width
  refine .set_bind ?_
  refine (h.below (.plainTail parent flow) (ht.trans (onward_skip t width)) hrank trivial).bind
    fun more u _ => .set_bind ?_
  split
  · exact .fail hcause
  · rename_i n hn
    exact scalar_settles _ (Nat.pos_of_ne_zero hn) hrest

theorem flowNode_agree (h : Serve c c' flowNode s) :
    (body c flowNode).Agree (body c' flowNode) s (flowNode.Ends s) := by
  unfold body
  refine .get_bind ?_
  extract_lets first
  refine (h.below (.properties true .none) (.refl s) (by simp [rank]) trivial).bind fun p t ht => ?_
  extract_lets decorated read read'
  have hdecorated : ∀ node u, s.Onward u → (decorated node).Settles u (flowNode.Ends s) :=
    fun node u hu => (decorate_settles p first node u).mono fun _ v hv => hv ▸ hu
  clear_value decorated
  have hread : ∀ u, s.Onward u → (read ()).Agree (read' ()) u (flowNode.Ends s) := by
    intro u hu
    refine .get_bind ?_
    split
    · exact .pure_bind (hdecorated _ u hu)
    rename_i d hpeek
    have hrest := rest_ne_nil_of_peek? hpeek
    split
    · exact .pure_bind (hdecorated _ u hu)
    split
    · exact (reference_settles true hrest).bind fun node v hv =>
        hdecorated node v (hu.trans hv.onward)
    split
    · exact (quoted_settles u).bind fun node v hv => hdecorated node v (hu.trans hv.onward)
    split
    · exact (h.below .flowCollection hu (by simp [rank]) hrest).bind fun node v hv =>
        hdecorated node v (hu.trans hv.onward)
    · exact (plain_agree h (by simp [rank]) hu (by decide) hrest).bind fun node v hv =>
        hdecorated node v (hu.trans hv.onward)
  clear_value read read'
  split
  · exact hread t ht.1
  · exact (skipFlowSpace_settles t).bind fun _ u hu => hread u (ht.1.trans hu)

theorem properties_agree {flow : Bool} {p : Properties} (h : Serve c c' (properties flow p) s) :
    (body c (properties flow p)).Agree (body c' (properties flow p)) s
      ((properties flow p).Ends s) := by
  -- The cursor is behind a property before the next one is looked for.
  have hnext : ∀ q t, s.Past t → (c (.properties flow q)).Agree (c' (.properties flow q))
      t.skipBlanks ((properties flow p).Ends s) := by
    intro q t ht
    have hpast : s.Past t.skipBlanks := ht.trans (onward_skipBlanks t)
    refine (h.behind (.properties flow q) hpast (by simp [rank]) trivial).mono fun _ u hu => ?_
    have hend := hpast.trans hu.1
    exact ⟨hend.onward, fun _ => hend⟩
  unfold body
  refine .get_bind ?_
  split
  · rename_i hpeek
    split
    · exact .fail (by decide)
    · exact (property_settles .anchor flow (rest_ne_nil_of_peek? hpeek)).bind fun mark t ht =>
        .skipBlanks_bind (hnext _ t ht)
  · rename_i hpeek
    split
    · exact .fail (by decide)
    · exact (property_settles .tag flow (rest_ne_nil_of_peek? hpeek)).bind fun mark t ht =>
        .skipBlanks_bind (hnext _ t ht)
  · rename_i hanchor htag
    refine .pure ⟨.refl s, fun hmark => ?_⟩
    obtain hmark | hmark := hmark
    · exact absurd hmark hanchor
    · exact absurd hmark htag

theorem plainTail_agree {parent : Int} {flow : Bool} (h : Serve c c' (plainTail parent flow) s) :
    (body c (plainTail parent flow)).Agree (body c' (plainTail parent flow)) s
      ((plainTail parent flow).Ends s) := by
  unfold body
  refine .get_bind ?_
  split
  · exact .pure (.refl s)
  rename_i n hn
  refine .set_bind ?_
  obtain ⟨hpos, hle⟩ := Lexeme.continuation?_bounds hn
  have hrest : s.cursor.rest ≠ [] := List.ne_nil_of_length_pos (Nat.lt_of_lt_of_le hpos hle)
  have hpast : s.Past (s.skip n) := past_skip hpos hrest
  exact (h.behind (.plainTail parent flow) hpast (by simp [rank]) trivial).bind fun more t ht =>
    .pure (hpast.trans ht).onward

end YamlLayout.Production
