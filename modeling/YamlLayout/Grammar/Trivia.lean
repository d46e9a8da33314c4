import YamlLayout.Grammar.State

/-!
# Blank lines and comments

Between tokens lie blanks, line breaks and comments. Comments become tokens on the
way.
-/
namespace YamlLayout

namespace ParseState

/-- Reads a comment and the blanks that follow it, so that the line ends next. -/
def readComment (s : ParseState) : ParseState :=
  (s.push .comment (Lexeme.comment s.cursor.rest)).skipBlanks

/-- Passes over blanks and then a comment, if one starts there. -/
def finishLine (s : ParseState) : ParseState :=
  let s := s.skipBlanks
  if s.cursor.peek? == some '#' then s.readComment else s

theorem length_rest_skipBlanks_le (s : ParseState) :
    s.skipBlanks.cursor.rest.length ≤ s.cursor.rest.length := by
  simp only [skipBlanks, Cursor.rest_skipBlanks]
  exact (List.dropWhile_sublist _).length_le

theorem length_rest_readComment_le (s : ParseState) :
    s.readComment.cursor.rest.length ≤ s.cursor.rest.length := by
  refine Nat.le_trans (length_rest_skipBlanks_le _) ?_
  simp

theorem length_rest_readComment_lt {s : ParseState} {cs : List Char}
    (h : s.cursor.rest = '#' :: cs) : s.readComment.cursor.rest.length < s.cursor.rest.length := by
  refine Nat.lt_of_le_of_lt (length_rest_skipBlanks_le _) ?_
  have := Lexeme.comment_pos cs
  simp only [rest_push, h, List.length_drop, List.length_cons]
  omega

theorem length_rest_finishLine_le (s : ParseState) :
    s.finishLine.cursor.rest.length ≤ s.cursor.rest.length := by
  unfold finishLine
  dsimp only
  split
  · exact Nat.le_trans (length_rest_readComment_le _) (length_rest_skipBlanks_le s)
  · exact length_rest_skipBlanks_le s

/-- Moves to the next character that is neither a blank nor part of a line break or
a comment. -/
def skipLines (s : ParseState) : ParseState :=
  let ended := s.finishLine
  match _ : ended.cursor.rest with
  | [] => ended
  | c :: _ => if isBreak c then skipLines ended.skipBreak else ended
termination_by s.cursor.rest.length
decreasing_by
  rename_i rest isBreak
  exact Nat.lt_of_lt_of_le (Cursor.length_rest_skipBreak_lt rest isBreak)
    (length_rest_finishLine_le s)

end ParseState

namespace Parse

/-- Moves to the next line with content; `false` at the end of the text. Nothing but
a comment may follow on the line that is left. -/
def advance : Parse Bool := do
  let s ← get
  if s.cursor.atContentStart then return true
  Parse.skipBlanks
  let s ← get
  if s.cursor.peek? == some '#' then
    unless s.cursor.atLineStart || s.cursor.afterBlank do
      fail .attachedComment
    modify ParseState.readComment
  let s ← get
  unless s.cursor.atBreak do
    fail .unexpectedContent
  modify ParseState.skipLines
  return !(← get).cursor.rest.isEmpty

end Parse

/-- Passes over blanks, line breaks and comments inside a flow collection, which no
document marker may enter. A number sign starts a comment at the start of a line and
after blanks passed here, not after blanks that are already behind the cursor. -/
def ParseState.skipFlowSpace (s : ParseState) : Except ParseError ParseState :=
  let after := s.skipBlanks
  match _ : after.cursor.rest with
  | [] => .ok after
  | c :: _ =>
    if isBreak c then
      let broken := after.skipBreak
      if broken.atBoundary then
        .error ⟨.markerInFlow, broken.cursor.offset, broken.cursor.position⟩
      else skipFlowSpace broken
    else if c == '#' && (s.cursor.rest.head?.any isBlank || after.cursor.atLineStart) then
      skipFlowSpace after.readComment
    else .ok after
termination_by s.cursor.rest.length
decreasing_by
  · rename_i rest isBreak _
    exact Nat.lt_of_lt_of_le (Cursor.length_rest_skipBreak_lt rest isBreak)
      (ParseState.length_rest_skipBlanks_le s)
  · rename_i rest _ comment
    simp only [Bool.and_eq_true, beq_iff_eq] at comment
    rw [comment.1] at rest
    exact Nat.lt_of_lt_of_le (ParseState.length_rest_readComment_lt rest)
      (ParseState.length_rest_skipBlanks_le s)

def Parse.skipFlowSpace : Parse Unit := fun s => return ((), ← s.skipFlowSpace)

end YamlLayout
