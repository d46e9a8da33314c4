import Mathlib.Data.List.Basic
import YamlLayout.Host.Memory

/-!
# Files in memory

Writing a file that is there changes its content and no other file. Paths lead where they
led before.
-/
namespace YamlLayout

namespace Tree

/-- The content of a file. -/
def content? : Tree → Option ByteArray
  | .file content => some content
  | .directory _ => none

@[simp] theorem get?_nil (t : Tree) : t.get? [] = some t := by rw [get?]

@[simp] theorem get?_file_cons (content : ByteArray) (name : String) (names : List String) :
    (file content).get? (name :: names) = none := by rw [get?]

theorem get?_directory_cons (entries : List (String × Tree)) (name : String)
    (names : List String) :
    (directory entries).get? (name :: names) = (entries.lookup name).bind (·.get? names) := by
  rw [get?]
  cases entries.lookup name <;> rfl

theorem lookup_cons_of_ne (entries : List (String × Tree)) {name key : String} (t : Tree)
    (h : name ≠ key) : ((key, t) :: entries).lookup name = entries.lookup name := by
  rw [List.lookup_cons, beq_false_of_ne h]

theorem lookup_putEntry_self (entries : List (String × Tree)) (name : String) (t : Tree) :
    (putEntry entries name t).lookup name = some t := by
  unfold putEntry
  split
  · rename_i hthere
    induction entries with
    | nil => simp at hthere
    | cons entry entries ih =>
      obtain ⟨key, old⟩ := entry
      by_cases hkey : key = name
      · simp [hkey]
      · have hne : name ≠ key := Ne.symm hkey
        rw [lookup_cons_of_ne entries old hne] at hthere
        simp only [List.map_cons, beq_false_of_ne hkey, Bool.false_eq_true, ↓reduceIte]
        rw [lookup_cons_of_ne _ old hne, ih hthere]
  · rename_i hmissing
    rw [List.lookup_append, Option.not_isSome_iff_eq_none.mp hmissing]
    simp

theorem lookup_putEntry_of_ne (entries : List (String × Tree)) {name other : String} (t : Tree)
    (h : other ≠ name) : (putEntry entries name t).lookup other = entries.lookup other := by
  unfold putEntry
  split
  · clear * - h
    induction entries with
    | nil => rfl
    | cons entry entries ih =>
      obtain ⟨key, old⟩ := entry
      by_cases hkey : key = name
      · rw [hkey, lookup_cons_of_ne entries old h, ← ih]
        simp [lookup_cons_of_ne _ t h]
      · simp only [List.map_cons, beq_false_of_ne hkey, Bool.false_eq_true, ↓reduceIte,
          List.lookup_cons, ih]
  · rw [List.lookup_append, lookup_cons_of_ne [] t h, List.lookup_nil, Option.or_none]

theorem get?_put_self (t : Tree) (names : List String) (new : Tree) :
    (t.put names new).get? names = some new := by
  induction names generalizing t with
  | nil => rw [put, get?_nil]
  | cons name names ih =>
    rw [put, get?_directory_cons, lookup_putEntry_self, Option.bind_some, ih]

/-- Where a file is put in place of another, everything else stays, up to what stands below
the directories on the way. -/
theorem get?_put_of_ne {t : Tree} {names other : List String} {old : ByteArray}
    (h : t.get? names = some (.file old)) (new : ByteArray) (hne : other ≠ names) :
    (t.put names (.file new)).get? other = t.get? other ∨
      ∃ before after, t.get? other = some (.directory before) ∧
        (t.put names (.file new)).get? other = some (.directory after) := by
  induction names generalizing t other with
  | nil =>
    rw [get?_nil, Option.some.injEq] at h
    subst h
    cases other with
    | nil => exact absurd rfl hne
    | cons first rest => exact .inl (by rw [put, get?_file_cons, get?_file_cons])
  | cons name names ih =>
    cases t with
    | file content => rw [get?_file_cons] at h; cases h
    | directory entries =>
      rw [get?_directory_cons] at h
      obtain ⟨child, hchild, hfile⟩ := Option.bind_eq_some_iff.mp h
      rw [put, Tree.entries, hchild, Option.getD_some]
      cases other with
      | nil => exact .inr ⟨_, _, get?_nil _, get?_nil _⟩
      | cons first rest =>
        by_cases hfirst : first = name
        · subst hfirst
          rw [get?_directory_cons, get?_directory_cons, lookup_putEntry_self, hchild]
          exact ih hfile fun hrest => hne (by rw [hrest])
        · left
          rw [get?_directory_cons, get?_directory_cons, lookup_putEntry_of_ne _ _ hfirst]

/-- A file other than the whole tree stands in a directory. -/
theorem get?_dropLast {t : Tree} {names : List String} {content : ByteArray}
    (h : t.get? names = some (.file content)) (hne : names ≠ []) :
    ∃ entries, t.get? names.dropLast = some (.directory entries) := by
  induction names generalizing t with
  | nil => exact absurd rfl hne
  | cons name names ih =>
    cases t with
    | file content => rw [get?_file_cons] at h; cases h
    | directory entries =>
      rw [get?_directory_cons] at h
      obtain ⟨child, hchild, hfile⟩ := Option.bind_eq_some_iff.mp h
      cases names with
      | nil => exact ⟨entries, get?_nil _⟩
      | cons next rest =>
        rw [List.dropLast_cons_cons, get?_directory_cons, hchild]
        exact ih hfile (List.cons_ne_nil _ _)

end Tree

namespace Memory

variable {s t : Memory} {path : Path} {names : List String} {content : ByteArray}

/-- The content of the file at a sequence of names. -/
def fileAt? (s : Memory) (names : List String) : Option ByteArray :=
  (s.root.get? names).bind Tree.content?

theorem fileAt?_eq_some_iff :
    s.fileAt? names = some content ↔ s.root.get? names = some (.file content) := by
  unfold fileAt?
  cases s.root.get? names with
  | none => simp
  | some tree => cases tree <;> simp [Tree.content?]

/-- Files and directories stand where they stood. -/
structure SamePlaces (s t : Memory) : Prop where
  kind_eq : ∀ names, (t.root.get? names).map Tree.kind = (s.root.get? names).map Tree.kind
  directory_eq : t.directory = s.directory

theorem SamePlaces.refl (s : Memory) : s.SamePlaces s := ⟨fun _ => rfl, rfl⟩

theorem SamePlaces.trans {u : Memory} (h : s.SamePlaces t) (k : t.SamePlaces u) :
    s.SamePlaces u :=
  ⟨fun names => (k.kind_eq names).trans (h.kind_eq names), k.directory_eq.trans h.directory_eq⟩

theorem SamePlaces.step_eq (h : s.SamePlaces t) (names : List String) (segment : List Char) :
    step t.root names segment = step s.root names segment := by
  have hkind := h.kind_eq names
  unfold step
  cases hs : s.root.get? names with
  | none =>
    rw [hs, Option.map_none, Option.map_eq_none_iff] at hkind
    rw [hkind]
  | some before =>
    rw [hs, Option.map_some, Option.map_eq_some_iff] at hkind
    obtain ⟨after, ht, hsame⟩ := hkind
    rw [ht]
    cases before with
    | file =>
      cases after with
      | file => rfl
      | directory => cases hsame
    | directory =>
      cases after with
      | file => cases hsame
      | directory => rfl

theorem SamePlaces.locate_eq (h : s.SamePlaces t) (path : Path) :
    t.locate path = s.locate path := by
  have hstep : step t.root = step s.root := funext fun names => funext (h.step_eq names)
  unfold locate
  rw [hstep, h.directory_eq]

/-- Paths lead somewhere only if the tree is a directory. -/
theorem exists_directory_of_locate (h : s.locate path = .ok names) :
    ∃ entries, s.root = .directory entries := by
  cases hroot : s.root with
  | directory entries => exact ⟨entries, rfl⟩
  | file content =>
    have hstep : ∀ start segment, ∃ e, step (.file content) start segment = .error e := by
      intro start segment
      unfold step
      cases start <;> simp
    have hsegments : path.segments ≠ [] := Text.splitOn_ne_nil _ _
    obtain ⟨first, rest, hcons⟩ := List.exists_cons_of_ne_nil hsegments
    obtain ⟨e, he⟩ := hstep (if path.isAbsolute then [] else s.directory) first
    unfold locate at h
    rw [hroot, hcons, List.foldlM_cons, he] at h
    split_ifs at h
    cases h

theorem read_eq_ok_iff :
    s.read path = .ok content ↔
      ∃ names, s.locate path = .ok names ∧ s.fileAt? names = some content := by
  unfold read find
  cases hlocate : s.locate path with
  | error e => simp [bind, Except.bind]
  | ok names =>
    simp only [bind, Except.bind, Except.ok.injEq, exists_eq_left', fileAt?_eq_some_iff]
    cases s.root.get? names with
    | none => simp
    | some tree => cases tree <;> simp

/-- A file that is there can be written. -/
theorem write_eq {old : ByteArray} (hlocate : s.locate path = .ok names)
    (hfile : s.fileAt? names = some old) (new : ByteArray) :
    s.write path new = .ok { s with root := s.root.put names (.file new) } := by
  rw [fileAt?_eq_some_iff] at hfile
  have hne : names ≠ [] := by
    rintro rfl
    obtain ⟨entries, hroot⟩ := exists_directory_of_locate hlocate
    rw [hroot, Tree.get?_nil] at hfile
    cases hfile
  obtain ⟨entries, hparent⟩ := Tree.get?_dropLast hfile hne
  unfold write
  rw [hlocate]
  simp only [bind, Except.bind, hfile, hparent]

/-- What writing a file does. -/
structure Overwrites (s : Memory) (names : List String) (new : ByteArray) (t : Memory) : Prop where
  samePlaces : s.SamePlaces t
  fileAt?_self : t.fileAt? names = some new
  fileAt?_of_ne : ∀ other, other ≠ names → t.fileAt? other = s.fileAt? other

theorem overwrites_of_root_eq {old new : ByteArray} (hfile : s.fileAt? names = some old)
    (hroot : t.root = s.root.put names (.file new)) (hdirectory : t.directory = s.directory) :
    s.Overwrites names new t := by
  rw [fileAt?_eq_some_iff] at hfile
  have hself := Tree.get?_put_self s.root names (.file new)
  rw [← hroot] at hself
  have hother : ∀ other, other ≠ names → t.root.get? other = s.root.get? other ∨
      ∃ before after, s.root.get? other = some (.directory before) ∧
        t.root.get? other = some (.directory after) := by
    rw [hroot]
    exact fun other hne => Tree.get?_put_of_ne hfile new hne
  refine ⟨⟨fun other => ?_, hdirectory⟩, fileAt?_eq_some_iff.mpr hself, fun other hne => ?_⟩
  · by_cases hne : other = names
    · rw [hne, hself, hfile]
      rfl
    · rcases hother other hne with hsame | ⟨before, after, hbefore, hafter⟩
      · rw [hsame]
      · rw [hafter, hbefore]
        rfl
  · unfold fileAt?
    rcases hother other hne with hsame | ⟨before, after, hbefore, hafter⟩
    · rw [hsame]
    · rw [hafter, hbefore]
      rfl

/-- The text of the file that a path leads to. -/
def text? (s : Memory) (path : Path) : Option (List Char) :=
  (s.read path).toOption.bind fun content => (String.fromUTF8? content).map String.toList

theorem fromUTF8?_eq_some_iff {text : String} :
    String.fromUTF8? content = some text ↔ content = text.toUTF8 := by
  unfold String.fromUTF8?
  constructor
  · intro h
    split at h
    · cases h
      rfl
    · cases h
  · rintro rfl
    exact dif_pos text.isValidUTF8

theorem text?_eq_some_iff {text : List Char} :
    s.text? path = some text ↔
      ∃ names, s.locate path = .ok names ∧
        s.fileAt? names = some (String.ofList text).toUTF8 := by
  have hread : s.text? path = some text ↔ s.read path = .ok (String.ofList text).toUTF8 := by
    unfold text?
    cases s.read path with
    | error e => simp [Except.toOption]
    | ok content =>
      simp only [Except.toOption, Option.bind_some, Option.map_eq_some_iff, Except.ok.injEq,
        ← fromUTF8?_eq_some_iff]
      constructor
      · rintro ⟨string, hstring, rfl⟩
        rw [hstring, String.ofList_toList]
      · intro h
        exact ⟨_, h, String.toList_ofList⟩
  rw [hread, read_eq_ok_iff]

/-- The names that a path leads to, if it leads anywhere. -/
def located (s : Memory) (path : Path) : List String := (s.locate path).toOption.getD []

theorem locate_eq_located (h : (s.text? path).isSome = true) :
    s.locate path = .ok (s.located path) := by
  obtain ⟨text, htext⟩ := Option.isSome_iff_exists.mp h
  obtain ⟨names, hlocate, -⟩ := text?_eq_some_iff.mp htext
  rw [located, hlocate]
  rfl

theorem fileAt?_eq_of_text? {text : List Char} (hlocate : s.locate path = .ok names)
    (htext : s.text? path = some text) :
    s.fileAt? names = some (String.ofList text).toUTF8 := by
  obtain ⟨names', hlocate', hfile⟩ := text?_eq_some_iff.mp htext
  rw [hlocate, Except.ok.injEq] at hlocate'
  rw [hlocate', hfile]

end Memory

end YamlLayout
