import YamlLayout.Command
import YamlLayout.Host.Memory

/-!
# Quiet commands

Looking for settings and for files only reads: it leaves the memory, with its files and its
messages, as it is.
-/
namespace YamlLayout

namespace Memory

/-- The action leaves the memory as it is. -/
def Quiet {α : Type} (action : StateM Memory α) : Prop := ∀ s, (action.run s).2 = s

variable {α β : Type}

theorem quiet_pure (a : α) : Quiet (pure a) := fun _ => rfl

theorem Quiet.bind {action : StateM Memory α} {next : α → StateM Memory β} (h : Quiet action)
    (hnext : ∀ a, Quiet (next a)) : Quiet (action >>= next) := by
  intro s
  have hrun : ((action >>= next).run s) = (next (action.run s).1).run (action.run s).2 := rfl
  rw [hrun, h s, hnext]

theorem quiet_workingDirectory : Quiet Host.workingDirectory := fun _ => rfl

theorem quiet_resolve (path : Path) : Quiet (Host.resolve path) := fun _ => rfl

theorem quiet_kind (path : Path) : Quiet (Host.kind path) := fun _ => rfl

theorem quiet_read (path : Path) : Quiet (Host.read path) := fun _ => rfl

theorem quiet_entries (path : Path) : Quiet (Host.entries path) := fun _ => rfl

theorem quiet_readText (path : Path) : Quiet (readText path) := by
  unfold readText
  refine (quiet_read path).bind fun result => ?_
  split
  · exact quiet_pure _
  · split
    · exact quiet_pure _
    · exact quiet_pure _

theorem quiet_patternsAt (path : Path) : Quiet (Collect.patternsAt path) := by
  unfold Collect.patternsAt readLines
  refine Quiet.bind ((quiet_read path).bind fun result => ?_) fun _ => quiet_pure _
  split
  · exact quiet_pure _
  · exact quiet_pure _

theorem quiet_scopeAt (directory : Path) : Quiet (Collect.scopeAt directory) := by
  unfold Collect.scopeAt
  refine (quiet_patternsAt _).bind fun _ => (quiet_patternsAt _).bind fun _ => ?_
  exact (quiet_patternsAt _).bind fun _ => (quiet_kind _).bind fun _ => quiet_pure _

theorem quiet_scopesAbove (directory : Path) (names : List String) (scopes : List IgnoreScope) :
    Quiet (Collect.scopesAbove directory names scopes) := by
  induction names generalizing directory scopes with
  | nil => exact quiet_pure _
  | cons name names ih => exact (quiet_scopeAt directory).bind fun _ => ih _ _

theorem quiet_outerScopes (path : Path) : Quiet (Collect.outerScopes path) := by
  unfold Collect.outerScopes
  refine (quiet_resolve path).bind fun result => ?_
  split
  · exact quiet_pure _
  · exact quiet_scopesAbove _ _ _

theorem quiet_among {depth : Nat}
    (h : ∀ scopes directory, Quiet (Collect.below depth scopes directory))
    (scopes : List IgnoreScope) (directory : Path) (entries : List FileEntry) :
    Quiet (Collect.among depth scopes directory entries) := by
  induction entries with
  | nil =>
    rw [Collect.among]
    exact quiet_pure _
  | cons entry entries ih =>
    rw [Collect.among]
    -- However the entry is looked at, the same is done with what is found.
    split
    rotate_left
    split
    all_goals
      refine Quiet.bind (by first | exact quiet_pure _ | exact h _ _) fun here => ?_
      cases here with
      | error e => exact quiet_pure _
      | ok found =>
        refine ih.bind fun result => ?_
        cases result with
        | error e => exact quiet_pure _
        | ok more => exact quiet_pure _

theorem quiet_below (depth : Nat) (scopes : List IgnoreScope) (directory : Path) :
    Quiet (Collect.below depth scopes directory) := by
  induction depth generalizing scopes directory with
  | zero =>
    rw [Collect.below]
    exact quiet_pure _
  | succ depth ih =>
    rw [Collect.below]
    refine (quiet_entries directory).bind fun result => ?_
    split
    · exact quiet_pure _
    · exact (quiet_scopeAt directory).bind fun _ => quiet_among ih _ _ _

/-- The command leaves the memory as it is. -/
def QuietCommand (command : ExceptT CommandError (StateM Memory) α) : Prop := Quiet command.run

theorem QuietCommand.bind {command : ExceptT CommandError (StateM Memory) α}
    {next : α → ExceptT CommandError (StateM Memory) β} (h : QuietCommand command)
    (hnext : ∀ a, QuietCommand (next a)) : QuietCommand (command >>= next) := by
  show Quiet (command.run >>= ExceptT.bindCont next)
  refine Quiet.bind h fun result => ?_
  cases result with
  | error e => exact quiet_pure _
  | ok a => exact hnext a

theorem quiet_lift {action : StateM Memory α} (h : Quiet action) :
    QuietCommand (ExceptT.lift action) :=
  Quiet.bind h fun _ => quiet_pure _

theorem quiet_attempt {action : StateM Memory (Except FileError α)} (h : Quiet action)
    (failure : FileError → CommandError) : QuietCommand (Command.attempt failure action) := by
  refine Quiet.bind h fun result => ?_
  cases result with
  | error e => exact quiet_pure _
  | ok a => exact quiet_pure _

theorem quiet_readSettings (path : Path) (named : Option Path) :
    QuietCommand (Command.readSettings path named) := by
  unfold Command.readSettings
  refine (quiet_attempt (quiet_readText path) _).bind fun text => ?_
  split
  · exact quiet_pure _
  · exact quiet_pure _

theorem quiet_loadSettings (named : Option Path) : QuietCommand (Command.loadSettings named) := by
  unfold Command.loadSettings
  cases named with
  | some path => exact (quiet_readSettings path _).bind fun _ => quiet_pure _
  | none =>
    refine (quiet_lift quiet_workingDirectory).bind fun directory => ?_
    refine (quiet_lift (quiet_kind _)).bind fun kind => ?_
    cases kind with
    | error e => exact quiet_pure _
    | ok kind => exact (quiet_readSettings _ _).bind fun _ => quiet_pure _

theorem quiet_filesAt (extensions : Option (List String)) (path : Path) :
    QuietCommand (Command.filesAt extensions path) := by
  unfold Command.filesAt
  refine (quiet_attempt (quiet_kind path) _).bind fun kind => ?_
  split
  · exact quiet_pure _
  · refine (quiet_lift (quiet_outerScopes path)).bind fun scopes => ?_
    exact (quiet_attempt (quiet_below _ _ _) _).bind fun _ => quiet_pure _

theorem quiet_mapM_filesAt (extensions : Option (List String)) (paths : List Path) :
    QuietCommand (paths.mapM (Command.filesAt extensions)) := by
  induction paths with
  | nil => exact quiet_pure _
  | cons path paths ih =>
    rw [List.mapM_cons]
    exact (quiet_filesAt extensions path).bind fun _ => ih.bind fun _ => quiet_pure _

theorem quiet_files (extensions : Option (List String)) (paths : List Path) :
    QuietCommand (Command.files extensions paths) :=
  (quiet_mapM_filesAt extensions paths).bind fun _ => quiet_pure _

end Memory

end YamlLayout
