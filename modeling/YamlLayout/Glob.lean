import YamlLayout.Text

/-!
# Globs

A glob describes paths. It is read from a text and compared with the bytes of a path:
a question mark and a bracket fit one byte each, and neither a question mark nor a star
fits a slash. Two stars between slashes fit any number of names.
-/
namespace YamlLayout

/-- A piece of a glob. -/
inductive GlobPiece where
  | byte (b : UInt8)
  /-- One byte, but no slash. -/
  | anyByte
  /-- Any bytes without a slash among them. -/
  | anyName
  /-- A byte in one of some ranges, or in none of them. -/
  | oneOf (negated : Bool) (ranges : List (UInt8 × UInt8))
  /-- Nothing, or anything that ends with a slash. -/
  | leading
  /-- A slash, or anything that starts with one slash and ends with another. -/
  | between
  /-- Anything that starts with a slash. -/
  | trailing
  /-- What one of some branches fits, nothing at all if there is none. -/
  | choice (branches : List (List GlobPiece))

namespace GlobPiece

def slash : UInt8 := 47

/-- Some rest of the bytes will do after leaving out bytes that may be left out. -/
def skipping (allowed : UInt8 → Bool) (rest : List UInt8 → Bool) : List UInt8 → Bool
  | [] => rest []
  | b :: bs => rest (b :: bs) || (allowed b && skipping allowed rest bs)

/-- The bytes start with one that is allowed, and those after it will do. -/
def next (allowed : UInt8 → Bool) (rest : List UInt8 → Bool) : List UInt8 → Bool
  | [] => false
  | b :: bs => allowed b && rest bs

/-- What follows some slash will do. -/
def afterSlash (rest : List UInt8 → Bool) : List UInt8 → Bool :=
  skipping (fun _ => true) (next (· == slash) rest)

def isOneOf (negated : Bool) (ranges : List (UInt8 × UInt8)) (b : UInt8) : Bool :=
  (ranges.any fun (low, high) => low ≤ b && b ≤ high) != negated

mutual

/-- The piece fits the start of the bytes, and `rest` holds of what follows. -/
def fits (rest : List UInt8 → Bool) : GlobPiece → List UInt8 → Bool
  | byte b, bs => next (· == b) rest bs
  | anyByte, bs => next (· != slash) rest bs
  | anyName, bs => skipping (· != slash) rest bs
  | oneOf negated ranges, bs => next (isOneOf negated ranges) rest bs
  | leading, bs => rest bs || afterSlash rest bs
  | between, bs => next (· == slash) (fun bs => rest bs || afterSlash rest bs) bs
  | trailing, bs => next (· == slash) (skipping (fun _ => true) rest) bs
  | choice branches, bs => if branches.isEmpty then rest bs else fitsSome rest branches bs

/-- The pieces fit one after the other. -/
def fitsAll (rest : List UInt8 → Bool) : List GlobPiece → List UInt8 → Bool
  | [], bs => rest bs
  | piece :: pieces, bs => piece.fits (fitsAll rest pieces) bs

/-- One of the branches fits. -/
def fitsSome (rest : List UInt8 → Bool) : List (List GlobPiece) → List UInt8 → Bool
  | [], _ => false
  | branch :: branches, bs => fitsAll rest branch bs || fitsSome rest branches bs

end

def ofChar (c : Char) : List GlobPiece := (String.utf8EncodeChar c).map byte

/-- The bytes that a range of characters stands for: the range goes from the last byte
of its low end to the first one of its high end, and the other bytes of both ends stand
for themselves. -/
def byteRanges : Char × Char → List (UInt8 × UInt8)
  | (low, high) =>
    let single := fun bs : List UInt8 => bs.map fun b => (b, b)
    let lows := String.utf8EncodeChar low
    let highs := String.utf8EncodeChar high
    if low == high then single lows
    else
      match lows.getLast?, highs with
      | some a, b :: bs => single lows.dropLast ++ (a, b) :: single bs
      | _, _ => []

/-- A branch that no text was written for. -/
def isBlankBranch (branch : List GlobPiece) : Bool :=
  branch.all fun
    | choice [] => true
    | _ => false

end GlobPiece

structure Glob where
  pieces : List GlobPiece

namespace Glob

open GlobPiece (slash)

/-- Two stars alone fit every path. -/
def fits (g : Glob) (path : List UInt8) : Bool :=
  match g.pieces with
  | [.leading] => true
  | pieces => GlobPiece.fitsAll List.isEmpty pieces path

inductive BracketFault where
  | unclosed
  /-- A range that ends before it starts. -/
  | backwards
deriving Repr, DecidableEq

/-- The characters and ranges up to a closing bracket, and what follows it. A bracket in
front is a character like any other, and so is a dash in front or at the end. Those
already read come latest first; `dash` says that a range has been started. -/
def members (first dash : Bool) (ranges : List (Char × Char)) :
    List Char → Except BracketFault (List (Char × Char) × List Char)
  | [] => .error .unclosed
  | c :: cs =>
    if c == ']' && !first then
      .ok ((if dash then ('-', '-') :: ranges else ranges).reverse, cs)
    else if c == '-' && !first && !dash then members false true ranges cs
    else
      match dash, ranges with
      | true, (low, _) :: more =>
        if c < low then .error .backwards else members false false ((low, c) :: more) cs
      | _, _ => members false false ((c, c) :: ranges) cs

/-- Reads what follows an opening bracket. -/
def bracket (cs : List Char) : Except BracketFault (GlobPiece × List Char) := do
  let negated := cs.head? == some '!' || cs.head? == some '^'
  let (ranges, rest) ← members true false [] (if negated then cs.drop 1 else cs)
  return (.oneOf negated (ranges.flatMap GlobPiece.byteRanges), rest)

/-- The pieces after a slash, latest first, when two stars follow it. -/
def withStars (stars : GlobPiece) : List GlobPiece → List GlobPiece
  | .leading :: pieces => .leading :: pieces
  | _ :: pieces => stars :: pieces
  | [] => [stars]

/-- The last piece ends with a slash. -/
def endsWithSlash : List GlobPiece → Bool
  | .byte b :: _ => b == slash
  | .leading :: _ => true
  | .between :: _ => true
  | _ => false

/-- Reads what follows a star, given the pieces before it, latest first. A second star
counts only where the two stand for whole names. -/
def star (inChoice : Bool) (pieces : List GlobPiece) : List Char → List GlobPiece × List Char
  | '*' :: rest =>
    if pieces.isEmpty then
      match rest with
      | [] => ([.leading], [])
      | c :: more => if c == '/' then ([.leading], more) else ([.anyName], rest)
    else if endsWithSlash pieces then
      match rest with
      | [] => (withStars .trailing pieces, [])
      | c :: more =>
        if c == '/' then (withStars .between pieces, more)
        else if inChoice && (c == ',' || c == '\x7d') then (withStars .trailing pieces, rest)
        else (.anyName :: pieces, rest)
    else (.anyName :: pieces, rest)
  | rest => (.anyName :: pieces, rest)

/-- A choice that has been opened: the pieces in front of it and its branches so far, both
latest first. -/
structure OpenChoice where
  before : List GlobPiece
  branches : List (List GlobPiece)

/-- The pieces up to the end of a choice whose last branch is given. -/
def OpenChoice.close (o : OpenChoice) (last : List GlobPiece) : List GlobPiece :=
  let branches := (last.reverse :: o.branches).reverse
  .choice (branches.filter fun branch => !GlobPiece.isBlankBranch branch) :: o.before

/-- Reads a glob on from some pieces, latest first, within choices that are open. Once a
bracket is found not to be closed, brackets are characters like any other. -/
def readFrom? : Nat → List OpenChoice → Bool → List GlobPiece → List Char → Option Glob
  | 0, _, _, _, _ => none
  | _, opened, _, pieces, [] => if opened.isEmpty then some ⟨pieces.reverse⟩ else none
  | fuel + 1, opened, plain, pieces, c :: cs =>
    let literal := fun (c : Char) => (GlobPiece.ofChar c).reverse ++ pieces
    if c == '?' then readFrom? fuel opened plain (.anyByte :: pieces) cs
    else if c == '*' then
      let (pieces, rest) := star (!opened.isEmpty) pieces cs
      readFrom? fuel opened plain pieces rest
    else if c == '[' && !plain then
      match bracket cs with
      | .ok (piece, rest) => readFrom? fuel opened plain (piece :: pieces) rest
      | .error .unclosed => readFrom? fuel opened true (literal c) cs
      | .error .backwards => none
    else if c == '\x7b' then readFrom? fuel (⟨pieces, []⟩ :: opened) plain [] cs
    else if c == '\x7d' then
      match opened with
      | [] => none
      | o :: opened => readFrom? fuel opened plain (o.close pieces) cs
    else if c == ',' then
      match opened with
      | [] => readFrom? fuel opened plain (literal c) cs
      | o :: opened =>
        readFrom? fuel ({ o with branches := pieces.reverse :: o.branches } :: opened) plain [] cs
    else if c == '\\' then
      match cs with
      | [] => none
      | d :: cs => readFrom? fuel opened plain (literal d) cs
    else readFrom? fuel opened plain (literal c) cs

/-- Reads a glob; nothing if a brace has no partner, a range runs backwards or nothing
follows a backslash. -/
def read? (text : List Char) : Option Glob := readFrom? (text.length + 1) [] false [] text

end Glob

end YamlLayout
