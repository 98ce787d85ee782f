import TwigAlgebra.Toml.Basic

/-!
# Text, numbers and dates of configurations

Each reader takes what it reads from the front of a list of characters and answers the rest, or
nothing if the characters do not fit.

## Main definitions

* `Toml.text` — text in one of its four forms.
* `Toml.number` — whole numbers and doubles.
* `Toml.moment?` — dates and times.
-/

namespace TwigAlgebra.Toml

/-- Characters still to be read. -/
abbrev Chars := List Char

/-- A reader of one thing. -/
abbrev Reader (α : Type) := Chars → Option (α × Chars)

/-! ### Characters -/

/-- A blank within a line. -/
def isBlank (c : Char) : Bool := c = ' ' || c = '\t'

/-- A character of comments and text: no control character but the tabulator. -/
def isPrintable (c : Char) : Bool := c = '\t' || (32 ≤ c.toNat && c.toNat ≠ 127)

/-- The rest behind a line break. -/
def lineBreak : Chars → Option Chars
  | '\n' :: cs => some cs
  | '\r' :: '\n' :: cs => some cs
  | _ => none

/-- The value of a digit below `base`. -/
def digitBelow (base : Nat) (c : Char) : Option Nat :=
  let d :=
    if '0' ≤ c ∧ c ≤ '9' then c.toNat - '0'.toNat
    else if 'a' ≤ c ∧ c ≤ 'f' then c.toNat - 'a'.toNat + 10
    else if 'A' ≤ c ∧ c ≤ 'F' then c.toNat - 'A'.toNat + 10
    else 16
  if d < base then some d else none

/-- The number with the given digits, if they are digits below `base`. -/
def digitsNumber (base : Nat) (ds : List Char) : Option Nat :=
  ds.foldlM (fun n c => (digitBelow base c).map (base * n + ·)) 0

/-! ### Text -/

/-- The character with the code written in `count` hexadecimal digits. -/
def codePoint (count : Nat) (cs : Chars) : Option (Char × Chars) := do
  let ds := cs.take count
  let n ← digitsNumber 16 ds
  if ds.length = count ∧ n.isValidChar then return (Char.ofNat n, cs.drop count) else none

/-- The character written behind a backslash. -/
def escaped : Reader Char
  | 'b' :: cs => some ('\x08', cs)
  | 't' :: cs => some ('\t', cs)
  | 'n' :: cs => some ('\n', cs)
  | 'f' :: cs => some ('\x0c', cs)
  | 'r' :: cs => some ('\r', cs)
  | '"' :: cs => some ('"', cs)
  | '\\' :: cs => some ('\\', cs)
  | 'u' :: cs => codePoint 4 cs
  | 'U' :: cs => codePoint 8 cs
  | _ => none

/-- Text on one line up to its closing quote, with escapes if `escapes`; `acc` holds what is read,
backwards. -/
def lineText (quote : Char) (escapes : Bool) : Nat → List Char → Reader String
  | 0, _, _ => none
  | _ + 1, _, [] => none
  | fuel + 1, acc, c :: cs =>
    if c = quote then some (String.ofList acc.reverse, cs)
    else if escapes ∧ c = '\\' then do
      let (d, cs) ← escaped cs
      lineText quote escapes fuel (d :: acc) cs
    else if isPrintable c then lineText quote escapes fuel (c :: acc) cs
    else none

/-- Leaves out blanks and line breaks. -/
def skipSpace : Nat → Chars → Chars
  | 0, cs => cs
  | fuel + 1, cs =>
    match cs.dropWhile isBlank with
    | '\n' :: rest => skipSpace fuel rest
    | '\r' :: '\n' :: rest => skipSpace fuel rest
    | rest => rest

/-- The rest behind a backslash that ends a line, with the blanks and line breaks that follow. -/
def lineEnd (cs : Chars) : Option Chars :=
  (lineBreak (cs.dropWhile isBlank)).map fun rest => skipSpace (rest.length + 1) rest

/-- Text over several lines up to three closing quotes; one or two more quotes belong to the
text. -/
def blockText (quote : Char) (escapes : Bool) : Nat → List Char → Reader String
  | 0, _, _ => none
  | _ + 1, _, [] => none
  | fuel + 1, acc, c :: cs =>
    if c = quote then
      let run := (c :: cs).takeWhile (· = quote)
      let rest := (c :: cs).dropWhile (· = quote)
      -- fewer than three quotes belong to the text, and so do the first two of five
      if run.length < 3 then blockText quote escapes fuel (run ++ acc) rest
      else if run.length ≤ 5 then
        some (String.ofList ((run.drop 3 ++ acc).reverse), rest)
      else none
    else if escapes ∧ c = '\\' then
      match lineEnd cs with
      | some rest => blockText quote escapes fuel acc rest
      | none => do
        let (d, cs) ← escaped cs
        blockText quote escapes fuel (d :: acc) cs
    else
      match lineBreak (c :: cs) with
      | some rest => blockText quote escapes fuel ('\n' :: acc) rest
      | none => if isPrintable c then blockText quote escapes fuel (c :: acc) cs else none

/-- Text over several lines; a line break right behind the opening quotes is left out. -/
def block (quote : Char) (escapes : Bool) (cs : Chars) : Option (String × Chars) :=
  blockText quote escapes (cs.length + 1) [] ((lineBreak cs).getD cs)

/-- Text in one of its four forms: between single or double quotes, on one line or over several.
Escapes stand between double quotes only. -/
def text : Reader String
  | '"' :: '"' :: '"' :: cs => block '"' true cs
  | '\'' :: '\'' :: '\'' :: cs => block '\'' false cs
  | '"' :: cs => lineText '"' true (cs.length + 1) [] cs
  | '\'' :: cs => lineText '\'' false (cs.length + 1) [] cs
  | _ => none

/-! ### Numbers -/

/-- Digits below `base`, at least one, among which single underscores may stand. -/
def digitRun (base : Nat) : Chars → Option (List Char × Chars)
  | [] => none
  | c :: '_' :: rest =>
    if (digitBelow base c).isSome then (digitRun base rest).map fun r => (c :: r.1, r.2) else none
  | c :: cs =>
    if (digitBelow base c).isSome then
      match digitRun base cs with
      | some (ds, rest) => some (c :: ds, rest)
      | none => some ([c], cs)
    else none

/-- An optional sign; true stands for minus. -/
def sign : Chars → Option Bool × Chars
  | '-' :: cs => (some true, cs)
  | '+' :: cs => (some false, cs)
  | cs => (none, cs)

/-- Decimal digits; a zero at the front stands alone. -/
def decimalRun : Chars → Option (List Char × Chars)
  | '0' :: cs => some (['0'], cs)
  | cs => digitRun 10 cs

/-- The digits behind a point, if there is a point. -/
def fraction : Chars → Option (Option (List Char) × Chars)
  | '.' :: cs => (digitRun 10 cs).map fun r => (some r.1, r.2)
  | cs => some (none, cs)

/-- The exponent, if there is one. -/
def exponent : Chars → Option (Option Int × Chars)
  | c :: cs =>
    if c = 'e' ∨ c = 'E' then do
      let (s, cs) := sign cs
      let (ds, rest) ← digitRun 10 cs
      let n ← digitsNumber 10 ds
      return (some (if s = some true then -(n : Int) else n), rest)
    else some (none, c :: cs)
  | [] => some (none, [])

/-- A whole number that fits 64 bits. -/
def wholeNumber (negative : Bool) (n : Nat) : Option Toml :=
  if negative then if n ≤ UInt64.size / 2 then some (.integer (-n)) else none
  else if n < UInt64.size / 2 then some (.integer n) else none

/-- A double; numbers beyond the greatest are refused. -/
def double (negative : Bool) (digits : Nat) (e : Int) : Option Toml :=
  let x := Binary64.ofDecimal negative digits e
  if x.isFinite ∨ negative then some (.float x) else none

/-- A decimal number behind its sign. -/
def decimalNumber (negative : Bool) (cs : Chars) : Option (Toml × Chars) := do
  let (ds, rest) ← decimalRun cs
  let (fs, rest) ← fraction rest
  let (e, rest) ← exponent rest
  match fs, e with
  | none, none => return (← wholeNumber negative (← digitsNumber 10 ds), rest)
  | _, _ =>
    let fs := fs.getD []
    return (← double negative (← digitsNumber 10 (ds ++ fs)) (e.getD 0 - fs.length), rest)

/-- A whole number in another base, behind the letter that announces it. -/
def basedNumber (base : Nat) (cs : Chars) : Option (Toml × Chars) := do
  let (ds, rest) ← digitRun base cs
  return (← wholeNumber false (← digitsNumber base ds), rest)

/-- An infinity or what is no number, behind its sign. -/
def specialNumber (negative : Bool) : Reader Toml
  | 'i' :: 'n' :: 'f' :: cs => some (.float (.infinity negative), cs)
  | 'n' :: 'a' :: 'n' :: cs => some (.float (.notANumber negative), cs)
  | _ => none

/-- A number in one of its forms. -/
def number : Reader Toml
  | '0' :: 'x' :: cs => basedNumber 16 cs
  | '0' :: 'o' :: cs => basedNumber 8 cs
  | '0' :: 'b' :: cs => basedNumber 2 cs
  | cs =>
    let (s, rest) := sign cs
    let negative := s = some true
    match specialNumber negative rest with
    | some r => some r
    | none => decimalNumber negative rest

/-! ### Dates and times -/

/-- A number of exactly `count` digits between two bounds. -/
def fixedDigits (count low high : Nat) (cs : Chars) : Option (Nat × Chars) := do
  let ds := cs.take count
  let n ← digitsNumber 10 ds
  if ds.length = count ∧ low ≤ n ∧ n ≤ high then return (n, cs.drop count) else none

/-- The rest behind a fixed character. -/
def expect (c : Char) : Chars → Option Chars
  | d :: cs => if c = d then some cs else none
  | [] => none

/-- The number of days of a month. -/
def daysOfMonth (year month : Nat) : Nat :=
  if month = 2 then
    if year % 4 = 0 ∧ (year % 100 ≠ 0 ∨ year % 400 = 0) then 29 else 28
  else if month = 4 ∨ month = 6 ∨ month = 9 ∨ month = 11 then 30
  else 31

/-- The rest behind a date. -/
def date (cs : Chars) : Option Chars := do
  let (year, cs) ← fixedDigits 4 0 9999 cs
  let cs ← expect '-' cs
  let (month, cs) ← fixedDigits 2 1 12 cs
  let cs ← expect '-' cs
  let (_, cs) ← fixedDigits 2 1 (daysOfMonth year month) cs
  return cs

/-- The rest behind the fraction of a second, if there is one. -/
def secondFraction : Chars → Option Chars
  | '.' :: cs =>
    if (cs.takeWhile Char.isDigit).isEmpty then none else some (cs.dropWhile Char.isDigit)
  | cs => some cs

/-- The rest behind a time of day; a minute may have a leap second. -/
def time (cs : Chars) : Option Chars := do
  let (_, cs) ← fixedDigits 2 0 23 cs
  let cs ← expect ':' cs
  let (_, cs) ← fixedDigits 2 0 59 cs
  let cs ← expect ':' cs
  let (_, cs) ← fixedDigits 2 0 60 cs
  secondFraction cs

/-- The rest behind the distance from universal time, if there is one. -/
def offset (cs : Chars) : Option Chars :=
  match cs with
  | 'Z' :: cs => some cs
  | 'z' :: cs => some cs
  | _ =>
    match sign cs with
    | (none, _) => some cs
    | (some _, cs) => do
      let (_, cs) ← fixedDigits 2 0 23 cs
      let cs ← expect ':' cs
      let (_, cs) ← fixedDigits 2 0 59 cs
      return cs

/-- Whether a time follows what parts it from a date. -/
def startsTime : Chars → Bool
  | a :: b :: ':' :: _ => a.isDigit && b.isDigit
  | _ => false

/-- Whether a character parts a date from a time. -/
def isTimeMark (c : Char) : Bool := c = 'T' || c = 't' || c = ' '

/-- The rest behind a date, a time or both. -/
def momentEnd (cs : Chars) : Option Chars :=
  if startsTime cs then time cs
  else do
    let cs ← date cs
    match cs with
    | c :: rest =>
      if isTimeMark c && startsTime rest then offset (← time rest) else return c :: rest
    | [] => return []

/-- Whether a date or a time begins here. -/
def startsMoment (cs : Chars) : Bool :=
  startsTime cs || ((cs.take 4).all Char.isDigit && cs[4]? == some '-')

/-- A date, a time or both, if one begins here. -/
def moment? (cs : Chars) : Option (Toml × Chars) := do
  let rest ← momentEnd cs
  return (.moment (String.ofList (cs.take (cs.length - rest.length))), rest)

end TwigAlgebra.Toml
