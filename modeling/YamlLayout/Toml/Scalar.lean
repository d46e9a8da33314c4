import YamlLayout.Toml.Value

/-!
# Words of TOML

Booleans, numbers and moments in time are written without quotes. `Value.ofWord?` says
which value a word is.
-/
namespace YamlLayout.Toml

/-- Digits, with single underscores between some of them. -/
def isGrouped (isDigit : Char → Bool) : List Char → Bool
  | [] => false
  | [c] => isDigit c
  | c :: '_' :: cs => isDigit c && isGrouped isDigit cs
  | c :: cs => isDigit c && isGrouped isDigit cs

def hexDigit? (c : Char) : Option Nat :=
  if c.isDigit then some (c.toNat - 48)
  else if 'a' ≤ c && c ≤ 'f' then some (c.toNat - 87)
  else if 'A' ≤ c && c ≤ 'F' then some (c.toNat - 55)
  else none

/-- A number in a base of at most sixteen. -/
def natural? (base : Nat) (cs : List Char) : Option Nat :=
  if isGrouped (fun c => (hexDigit? c).any (· < base)) cs then
    some (cs.foldl (fun n c => ((hexDigit? c).map (n * base + ·)).getD n) 0)
  else none

/-- A decimal number without zeros in front. -/
def decimal? (cs : List Char) : Option Nat :=
  if cs.head? == some '0' && cs.length != 1 then none else natural? 10 cs

/-- A sign, if there is one, and what follows it. -/
def signed : List Char → Option Bool × List Char
  | '-' :: cs => (some true, cs)
  | '+' :: cs => (some false, cs)
  | cs => (none, cs)

/-- Integers have up to 128 bits. -/
def isInteger (n : Int) : Bool := -(Nat.pow 2 127 : Int) ≤ n && n < (Nat.pow 2 128 : Int)

def integer? (cs : List Char) : Option Value := do
  let n ← match signed cs with
    | (none, '0' :: 'x' :: digits) => (natural? 16 digits).map Int.ofNat
    | (none, '0' :: 'o' :: digits) => (natural? 8 digits).map Int.ofNat
    | (none, '0' :: 'b' :: digits) => (natural? 2 digits).map Int.ofNat
    | (some true, digits) => (decimal? digits).map fun n => -(n : Int)
    | (_, digits) => (decimal? digits).map Int.ofNat
  if isInteger n then some (.integer n) else none

/-- The number `mantissa * 10 ^ exponent` lies at or past the middle between the largest
double and the power of two after it. -/
def exceedsDouble (mantissa : Nat) (exponent : Int) : Bool :=
  let limit := Nat.pow 2 1024 - Nat.pow 2 970
  let digits : Int := (Nat.toDigits 10 mantissa).length
  if mantissa == 0 || digits + exponent < 308 then false
  else if 310 < digits + exponent then true
  else if 0 ≤ exponent then limit ≤ mantissa * Nat.pow 10 exponent.toNat
  else limit * Nat.pow 10 (-exponent).toNat ≤ mantissa

/-- A number with a fraction, an exponent or both, or one of the words for infinity and
for no number. -/
def float? (cs : List Char) : Option Value := do
  let cs := (signed cs).2
  if cs == "inf".toList || cs == "nan".toList then return .float
  let whole := cs.takeWhile fun c => c.isDigit || c == '_'
  let tail := cs.drop whole.length
  let _ ← decimal? whole
  let fraction? : Option (List Char) := match tail with
    | '.' :: digits => some (digits.takeWhile fun c => c.isDigit || c == '_')
    | _ => none
  let fraction := fraction?.getD []
  if fraction?.any fun digits => !isGrouped Char.isDigit digits then failure
  let tail := match fraction? with
    | some digits => tail.drop (digits.length + 1)
    | none => tail
  let exponent ← match tail with
    | [] => if fraction?.isSome then some 0 else none
    | c :: power =>
      if c == 'e' || c == 'E' then
        match signed power with
        | (some true, digits) => (natural? 10 digits).map fun n => -(n : Int)
        | (_, digits) => (natural? 10 digits).map Int.ofNat
      else none
  let mantissa := (whole ++ fraction).filter (· != '_')
  let value ← natural? 10 mantissa
  if exceedsDouble value (exponent - (fraction.filter (· != '_')).length) then none
  else some .float

/-- Exactly `n` digits in front. -/
def fixedDigits? (n : Nat) (cs : List Char) : Option (Nat × List Char) :=
  let digits := cs.take n
  if digits.length == n && digits.all Char.isDigit then
    (natural? 10 digits).map (·, cs.drop n)
  else none

def daysOfMonth (year month : Nat) : Nat :=
  if month == 2 then
    if year % 4 == 0 && (year % 100 != 0 || year % 400 == 0) then 29 else 28
  else if month == 4 || month == 6 || month == 9 || month == 11 then 30
  else 31

/-- A date in front, and what follows it. -/
def date? (cs : List Char) : Option (List Char) := do
  let (year, cs) ← fixedDigits? 4 cs
  let '-' :: cs := cs | none
  let (month, cs) ← fixedDigits? 2 cs
  let '-' :: cs := cs | none
  let (day, cs) ← fixedDigits? 2 cs
  if 1 ≤ month && month ≤ 12 && 1 ≤ day && day ≤ daysOfMonth year month then some cs else none

/-- Hours and minutes in front, and what follows them. -/
def hourMinute? (cs : List Char) : Option (List Char) := do
  let (hour, cs) ← fixedDigits? 2 cs
  let ':' :: cs := cs | none
  let (minute, cs) ← fixedDigits? 2 cs
  if hour ≤ 23 && minute ≤ 59 then some cs else none

/-- A time of day in front, and what follows it. Seconds may be left out. -/
def time? (cs : List Char) : Option (List Char) := do
  let cs ← hourMinute? cs
  match cs with
  | ':' :: cs =>
    let (second, cs) ← fixedDigits? 2 cs
    if 60 < second then none
    else
      match cs with
      | '.' :: cs =>
        if cs.head?.any Char.isDigit then some (cs.dropWhile Char.isDigit) else none
      | cs => some cs
  | cs => some cs

/-- What may follow the time of a date: nothing, or the distance from universal time. -/
def isOffset : List Char → Bool
  | [] | ['Z'] | ['z'] => true
  | '+' :: cs | '-' :: cs => hourMinute? cs == some []
  | _ => false

def isDate (cs : List Char) : Bool := date? cs == some []

def isDateTime (cs : List Char) : Bool :=
  match date? cs with
  | some (c :: cs) => (c == 'T' || c == 't' || c == ' ') && (time? cs).any isOffset
  | _ => false

def isTime (cs : List Char) : Bool := time? cs == some []

/-- The value of a word that stands without quotes. -/
def Value.ofWord? (cs : List Char) : Option Value :=
  if cs == "true".toList then some (.boolean true)
  else if cs == "false".toList then some (.boolean false)
  else if isDate cs || isDateTime cs || isTime cs then some .dateTime
  else (integer? cs).orElse fun _ => float? cs

end YamlLayout.Toml
