import YamlLayout.Proofs.Alignment
import YamlLayout.Proofs.ChangingRepairs
import YamlLayout.Proofs.Reading.BlockMarks

/-!
# What the marks of block collections introduce

A dash introduces the value of its entry, a question mark the key of its pair and a colon
the value. The tokens of the node stand right behind the mark, and if there are none,
nothing but comments follows on the line of the mark.
-/
namespace YamlLayout

namespace Node

/-- The marks of a row with the nodes they introduce. -/
def introduced : Node → List (TokenId × Node)
  | pair _ question key colon value =>
    question.toList.map (·, key) ++ colon.toList.map (·, value)
  | entry dash value => [(dash, value)]
  | _ => []

mutual

/-- The dashes, question marks and colons of block collections with the nodes they
introduce. -/
def introductions (flow : Bool) : Node → List (TokenId × Node)
  | empty => []
  | scalar .. => []
  | reference .. => []
  | block .. => []
  | decorated _ _ _ inner => inner.introductions flow
  | pair span question key colon value =>
    (if flow then [] else (pair span question key colon value).introduced) ++
      key.introductions flow ++ value.introductions flow
  | entry dash value => (entry dash value).introduced ++ value.introductions flow
  | mapping _ brackets pairs => introductionsOf (flow || brackets.isSome) pairs
  | sequence _ brackets items => introductionsOf (flow || brackets.isSome) items

def introductionsOf (flow : Bool) : List Node → List (TokenId × Node)
  | [] => []
  | node :: nodes => node.introductions flow ++ introductionsOf flow nodes

end

mutual

/-- The marks that introduce nodes are the indicators. -/
theorem map_introductions (flow : Bool) : (node : Node) →
    (node.introductions flow).map (·.1) = node.indicators flow
  | empty => rfl
  | scalar .. => rfl
  | reference .. => rfl
  | block .. => rfl
  | decorated _ _ _ inner => map_introductions flow inner
  | pair _ question key colon value => by
    cases flow <;> simp [introductions, introduced, indicators, map_introductions _ key,
      map_introductions _ value, Function.comp_def]
  | entry dash value => by
    simp [introductions, introduced, indicators, map_introductions flow value]
  | mapping _ brackets pairs => map_introductionsOf (flow || brackets.isSome) pairs
  | sequence _ brackets items => map_introductionsOf (flow || brackets.isSome) items

theorem map_introductionsOf (flow : Bool) : (nodes : List Node) →
    (introductionsOf flow nodes).map (·.1) = indicatorsOf flow nodes
  | [] => rfl
  | node :: nodes => by
    simp [introductionsOf, indicatorsOf, map_introductions flow node,
      map_introductionsOf flow nodes]

end

variable {node part n : Node} {i : TokenId}

theorem mem_introductionsOf_iff {flow : Bool} {nodes : List Node} {x : TokenId × Node} :
    x ∈ introductionsOf flow nodes ↔ ∃ node ∈ nodes, x ∈ node.introductions flow := by
  induction nodes with
  | nil => simp [introductionsOf]
  | cons node nodes ih => simp [introductionsOf, ih]

/-- What is introduced inside a node is introduced by one of its own marks or inside one of
its parts. -/
theorem mem_introductions {flow : Bool} {x : TokenId × Node} (h : x ∈ node.introductions flow) :
    x ∈ node.introduced ∨ ∃ part ∈ node.parts, x ∈ part.introductions (node.holdsFlow flow) := by
  cases node with
  | decorated => exact .inr ⟨_, List.mem_singleton_self _, h⟩
  | pair =>
    simp only [introductions, List.mem_append] at h
    rcases h with (h | h) | h
    · split at h
      · cases h
      · exact .inl h
    · exact .inr ⟨_, List.mem_cons_self .., h⟩
    · exact .inr ⟨_, List.mem_cons_of_mem _ (List.mem_singleton_self _), h⟩
  | entry =>
    rcases List.mem_append.mp h with h | h
    · exact .inl h
    · exact .inr ⟨_, List.mem_singleton_self _, h⟩
  | mapping => exact .inr (mem_introductionsOf_iff.mp h)
  | sequence => exact .inr (mem_introductionsOf_iff.mp h)
  | _ => cases h

/-- Inside brackets no mark introduces anything that is laid out by columns. -/
theorem introductions_of_bracketed (h : node.Bracketed) : node.introductions true = [] := by
  induction node using parts_induction with
  | step node ih =>
    obtain ⟨hnode, hparts⟩ := every_iff.mp h
    rw [List.eq_nil_iff_forall_not_mem]
    intro x hx
    have hflow : node.holdsFlow true = true := by cases node <;> rfl
    cases node with
    | entry => cases hnode
    | pair _ question key colon value =>
      simp [introductions, ih key (by simp [parts]) (hparts key (by simp [parts])),
        ih value (by simp [parts]) (hparts value (by simp [parts]))] at hx
    | _ =>
      rcases mem_introductions hx with hown | ⟨part, hpart, hmem⟩
      · cases hown
      · rw [hflow, ih part hpart (hparts part hpart)] at hmem
        cases hmem

/-- The tokens of a part stand together in the node. -/
theorem infix_of_mem_parts (h : part ∈ node.parts) : part.ids <:+: node.ids := by
  have hitems : ∀ (commas : List TokenId) (items : List Node), part ∈ items →
      part.ids <:+: idsOf commas items := by
    intro commas items hpart
    induction items generalizing commas with
    | nil => cases hpart
    | cons item items ih =>
      obtain ⟨hhead, htail⟩ := infix_idsOf_cons commas item items
      rcases List.mem_cons.mp hpart with rfl | hpart
      · exact hhead
      · exact (ih _ hpart).trans htail
  cases node with
  | decorated _ anchor tag inner =>
    rw [List.mem_singleton.mp h, ids_decorated, ← List.append_assoc]
    exact (List.suffix_append ..).isInfix
  | pair _ question key colon value =>
    rw [ids_pair]
    rcases List.mem_pair.mp h with rfl | rfl
    · exact List.infix_append' ..
    · simp only [← List.append_assoc]
      exact (List.suffix_append ..).isInfix
  | entry dash value =>
    rw [List.mem_singleton.mp h, ids_entry]
    exact (List.suffix_cons ..).isInfix
  | mapping _ brackets pairs =>
    cases brackets with
    | none => exact hitems [] pairs h
    | some b =>
      rw [ids_mapping_some]
      exact (hitems b.commas pairs h).trans (infix_bracketedIds b pairs)
  | sequence _ brackets items =>
    cases brackets with
    | none => exact hitems [] items h
    | some b =>
      rw [ids_sequence_some]
      exact (hitems b.commas items h).trans (infix_bracketedIds b items)
  | _ => cases h

/-- A mark is the dash of an entry, the question mark of a pair or the colon of one. -/
theorem cases_of_mem_introduced {row : Node} (h : (i, n) ∈ row.introduced) :
    row = entry i n ∨ (∃ span colon value, row = pair span (some i) n colon value) ∨
      ∃ span question key, row = pair span question key (some i) n := by
  cases row with
  | pair span question key colon value =>
    simp only [introduced, List.mem_append, List.mem_map, Option.mem_toList, Prod.mk.injEq] at h
    rcases h with ⟨_, rfl, rfl, rfl⟩ | ⟨_, rfl, rfl, rfl⟩
    · exact .inr (.inl ⟨span, colon, value, rfl⟩)
    · exact .inr (.inr ⟨span, question, key, rfl⟩)
  | entry dash value =>
    simp only [introduced, List.mem_singleton, Prod.mk.injEq] at h
    obtain ⟨rfl, rfl⟩ := h
    exact .inl rfl
  | _ => cases h

/-- The tokens of what a mark introduces stand right behind the mark. -/
theorem infix_of_mem_introduced {row : Node} (h : (i, n) ∈ row.introduced) :
    i :: n.ids <:+: row.ids := by
  rcases cases_of_mem_introduced h with rfl | ⟨_, colon, value, rfl⟩ | ⟨_, question, key, rfl⟩
  · exact List.infix_refl _
  · rw [ids_pair, Option.toList_some, List.singleton_append, ← List.cons_append]
    exact (List.prefix_append ..).isInfix
  · rw [ids_pair, Option.toList_some, List.singleton_append, ← List.append_assoc]
    exact (List.suffix_append ..).isInfix

/-- The rules for what the marks of a row introduce. -/
def rowRules (ctx : LayoutContext) : Node → List Assignment
  | pair _ question key colon value => pairRules ctx false question key colon value
  | entry dash value =>
    Assignment.setOff value.first? (some dash) (ctx.entryOffset dash value.first?) none
  | _ => []

/-- A node of a stream outside of brackets: its tokens stand together, its rows have their
marks, and its columns are as the rules say. -/
structure LaidOut (stream : Stream) (style : Style) (node : Node) : Prop where
  proper : node.Proper
  marked : node.EveryRow (RowMarked stream.text stream.tokens.toList)
  fits : node.Every (Fits stream.tokens.toList)
  ids_infix : node.ids <:+: stream.ids
  obeyed : ∀ a ∈ node.rules (.ofStyle stream.tokens style) false ++
      node.rowRules (.ofStyle stream.tokens style),
    a.Obeyed stream.tokens ((Layout.ofStream stream style).column? stream.tokens)

theorem EveryRow.of_mem_parts {P : Node → Prop} (h : node.EveryRow P) (hpart : part ∈ node.parts)
    (hflow : node.holdsFlow false = false) : part.EveryRow P := by
  cases node with
  | decorated =>
    rw [List.mem_singleton.mp hpart]
    exact h
  | pair =>
    rcases List.mem_pair.mp hpart with rfl | rfl
    · exact h.2.1
    · exact h.2.2
  | entry =>
    rw [List.mem_singleton.mp hpart]
    exact h.2
  | mapping _ brackets =>
    cases brackets with
    | none => exact everyRowOf_iff.mp h part hpart
    | some => cases hflow
  | sequence _ brackets =>
    cases brackets with
    | none => exact everyRowOf_iff.mp h part hpart
    | some => cases hflow
  | _ => cases hpart

/-- The rules for what the marks of a part introduce are rules of the node. -/
theorem mem_rules_of_rowRules {ctx : LayoutContext} {a : Assignment} (hproper : node.Proper)
    (hpart : part ∈ node.parts) (hflow : node.holdsFlow false = false)
    (ha : a ∈ part.rowRules ctx) : a ∈ node.rules ctx false := by
  cases part with
  | pair =>
    refine (mem_rules_iff ctx false).mpr (.inr ⟨_, hpart, ?_⟩)
    rw [hflow]
    exact List.mem_append_left _ (List.mem_append_left _ ha)
  | entry dash value =>
    -- Only block sequences hold entries, and they give them their rules.
    cases node with
    | sequence _ brackets items =>
      cases brackets with
      | none =>
        refine List.mem_append_left _ (List.mem_flatMap.mpr ⟨_, hpart, ?_⟩)
        exact List.mem_append_right _ ha
      | some => cases hflow
    | decorated _ _ _ inner =>
      rw [← List.mem_singleton.mp hpart] at hproper
      cases hproper
    | pair _ _ key _ value =>
      rcases List.mem_pair.mp hpart with heq | heq
      · rw [← heq] at hproper
        cases hproper.1
      · rw [← heq] at hproper
        cases hproper.2.1
    | entry _ value =>
      rw [← List.mem_singleton.mp hpart] at hproper
      cases hproper
    | mapping _ _ pairs => cases formedAll_iff.mp hproper _ hpart
    | _ => cases hpart
  | _ => cases ha

variable {stream : Stream} {style : Style}

theorem LaidOut.of_mem_parts (h : node.LaidOut stream style) (hpart : part ∈ node.parts)
    (hflow : node.holdsFlow false = false) : part.LaidOut stream style where
  proper := h.proper.of_mem_parts hpart
  marked := h.marked.of_mem_parts hpart hflow
  fits := (every_iff.mp h.fits).2 part hpart
  ids_infix := (infix_of_mem_parts hpart).trans h.ids_infix
  obeyed a ha := by
    apply h.obeyed a
    apply List.mem_append_left
    rcases List.mem_append.mp ha with ha | ha
    · refine (mem_rules_iff _ false).mpr (.inr ⟨part, hpart, ?_⟩)
      rwa [hflow]
    · exact mem_rules_of_rowRules h.proper hpart hflow ha

theorem LaidOut.bracketed_of_mem_parts (h : node.LaidOut stream style) (hpart : part ∈ node.parts)
    (hflow : node.holdsFlow false = true) : part.Bracketed := by
  have hrows := h.marked
  cases node with
  | mapping _ brackets =>
    cases brackets with
    | none => cases hflow
    | some => exact everyOf_iff.mp hrows part hpart
  | sequence _ brackets =>
    cases brackets with
    | none => cases hflow
    | some => exact everyOf_iff.mp hrows part hpart
  | _ => cases hflow

/-- Whatever is introduced inside a node is introduced by a mark of some row in it. -/
theorem LaidOut.exists_row (h : node.LaidOut stream style)
    (hmem : (i, n) ∈ node.introductions false) :
    ∃ row : Node, row.LaidOut stream style ∧ (i, n) ∈ row.introduced := by
  induction node using parts_induction with
  | step node ih =>
    rcases mem_introductions hmem with hown | ⟨part, hpart, hmem⟩
    · exact ⟨node, h, hown⟩
    · cases hflow : node.holdsFlow false with
      | false =>
        rw [hflow] at hmem
        exact ih part hpart (h.of_mem_parts hpart hflow) hmem
      | true =>
        rw [hflow, introductions_of_bracketed (h.bracketed_of_mem_parts hpart hflow)] at hmem
        cases hmem

/-- A mark that introduces nothing ends its line. -/
theorem LaidOut.endsLine (h : node.LaidOut stream style) (hmem : (i, n) ∈ node.introduced)
    (hempty : n.isEmpty = true) : Token.EndsLine stream.tokens.toList i := by
  have hmarked := h.marked
  rcases cases_of_mem_introduced hmem with rfl | ⟨_, _, _, rfl⟩ | ⟨_, _, _, rfl⟩
  · exact hmarked.1.2 hempty
  · exact (hmarked.1.of_question i rfl).2 hempty
  · exact (hmarked.1.of_colon i rfl).2 hempty

theorem LaidOut.ids_ne_nil (h : node.LaidOut stream style) (hmem : (i, n) ∈ node.introduced)
    (hfull : n.isEmpty = false) : n.ids ≠ [] := by
  have hproper := h.proper
  have hfits := h.fits
  rcases cases_of_mem_introduced hmem with rfl | ⟨_, _, _, rfl⟩ | ⟨_, _, _, rfl⟩
  · exact ids_ne_nil_of_fits hproper hfits.2 hfull
  · exact ids_ne_nil_of_fits hproper.1 hfits.2.1 hfull
  · exact ids_ne_nil_of_fits hproper.2.1 hfits.2.2 hfull

end Node

namespace Stream

variable {stream : Stream} {s : ParseState} {style : Style} {i j k : TokenId} {a b : Token}
  {n row : Node}

/-- The contents of the documents are laid out. -/
theorem ReadTo.laidOut {text : List Char} (h : stream.ReadTo s) (hparse : parse text = .ok stream)
    (style : Style) {d : Document} (hd : d ∈ stream.documents) :
    d.content.LaidOut stream style where
  proper := (h.sound d hd).formed.proper
  marked := everyRow_of_parse hparse d hd
  fits := (h.sound d hd).fits
  ids_infix := by
    have hcontent : d.content.ids <:+: d.ids := by
      rw [Document.ids_eq, ← List.append_assoc]
      exact List.infix_append' ..
    obtain ⟨before, after, hdocuments⟩ := List.append_of_mem hd
    refine hcontent.trans ?_
    rw [ids_eq_flatMap, hdocuments, List.flatMap_append, List.flatMap_cons]
    exact List.infix_append' ..
  obeyed a ha := by
    have hrow : d.content.rowRules (.ofStyle stream.tokens style) ⊆
        d.content.rules (.ofStyle stream.tokens style) false := by
      have hformed := (h.sound d hd).formed
      cases hcontent : d.content with
      | entry =>
        rw [hcontent] at hformed
        cases hformed
      | pair => exact fun a ha => List.mem_append_left _ (List.mem_append_left _ ha)
      | _ => exact List.nil_subset _
    refine h.obeyed style hd (Document.mem_rules_of_content ?_)
    rcases List.mem_append.mp ha with ha | ha
    · exact ha
    · exact hrow ha

theorem ReadTo.startLine_le (h : stream.ReadTo s) (ha : stream.tokens[i]? = some a)
    (hb : stream.tokens[j]? = some b) (hij : i < j) : a.startLine ≤ b.startLine := by
  obtain ⟨_, _, _, _, _, hapart⟩ := h.exists_apart ha hb hij
  exact hapart.startLine_le

/-- Between two tokens that follow one another among those that are no comments there are
comments only. -/
theorem ReadTo.isComment_of_between {c : Token} (h : stream.ReadTo s)
    (hids : [i, j] <:+: stream.ids) (hik : i < k) (hkj : k < j)
    (hc : stream.tokens[k]? = some c) : c.isComment = true := by
  by_contra hcontent
  have hk : k ∈ stream.ids := (h.mem_ids_iff hc).mpr (by simpa using hcontent)
  obtain ⟨before, after, hall⟩ := hids
  have hsorted := h.pairwise_ids
  rw [← hall, List.append_assoc] at hk hsorted
  obtain ⟨-, hbehind, hbefore⟩ := List.pairwise_append.mp hsorted
  rcases List.mem_append.mp hk with hk | hk
  · exact absurd (hbefore k hk i (List.mem_cons_self ..)) (Nat.lt_asymm hik)
  rcases List.mem_cons.mp hk with rfl | hk
  · exact Nat.lt_irrefl _ hik
  rcases List.mem_cons.mp hk with rfl | hk
  · exact Nat.lt_irrefl _ hkj
  · have hjk := (List.pairwise_cons.mp (List.pairwise_cons.mp hbehind).2).1 k hk
    exact Nat.lt_asymm hkj hjk

/-- The token after a mark on its line is the first one of what the mark introduces. -/
theorem ReadTo.first?_of_introduced (h : stream.ReadTo s) (hrow : row.LaidOut stream style)
    (hmem : (i, n) ∈ row.introduced) (ha : stream.tokens[i]? = some a)
    (hb : stream.tokens[j]? = some b) (hij : i < j) (hline : a.startLine = b.startLine)
    (hcontent : b.isComment = false)
    (hbetween : ∀ (k : Nat) (c : Token), i < k → k < j → stream.tokens[k]? = some c →
      c.startLine = a.startLine → c.isComment = true) : n.first? = some j := by
  have hfull : n.isEmpty = false := by
    rw [← Bool.not_eq_true]
    intro hempty
    have hlt := hrow.endsLine hmem hempty j a b hij (by simpa using ha) (by simpa using hb) hcontent
    omega
  obtain ⟨k, ks, hids⟩ := List.exists_cons_of_ne_nil (hrow.ids_ne_nil hmem hfull)
  have hinfix := (Node.infix_of_mem_introduced hmem).trans hrow.ids_infix
  rw [hids] at hinfix
  have hpair : [i, k] <:+: stream.ids := (List.prefix_append [i, k] ks).isInfix.trans hinfix
  have hik : i < k := by
    have hsorted := h.pairwise_ids.sublist hpair.sublist
    exact (List.pairwise_cons.mp hsorted).1 k (List.mem_singleton_self k)
  have hjk : k ≤ j := by
    by_contra hlt
    rw [h.isComment_of_between hpair hij (Nat.not_le.mp hlt) hb] at hcontent
    cases hcontent
  rw [Node.first?_eq_head?, hids, List.head?_cons, Option.some.injEq]
  by_contra hne
  have hkj : k < j := Nat.lt_of_le_of_ne hjk hne
  have hk : k ∈ stream.ids := hpair.subset (List.mem_cons_of_mem _ (List.mem_singleton_self k))
  have hc := Array.getElem?_eq_getElem (h.lt_size_of_mem_ids hk)
  have hcomment := hbetween k _ hik hkj hc
    (Nat.le_antisymm (hline ▸ h.startLine_le hc hb hkj) (h.startLine_le ha hc hik))
  rw [(h.mem_ids_iff hc).mp hk] at hcomment
  cases hcomment

end Stream

end YamlLayout
