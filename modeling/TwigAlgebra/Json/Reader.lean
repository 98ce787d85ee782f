import TwigAlgebra.Json.Basic

/-!
# Reading structured values

A value is read from the front of a list of characters.  A number without point and exponent that
fits 64 bits is a whole number and every other number a double.  When a record repeats a name, its
last field counts.

Every step takes at least one character, so the length of the text bounds the reading.

## Main definitions

* `Json.parse` — reads a text that holds one value.
-/

namespace TwigAlgebra.Json

/-- The rest of a reading. -/
abbrev Rest := List Char

/-- Blanks between values. -/
def isBlank (c : Char) : Bool := c = ' ' || c = '\t' || c = '\n' || c = '\r'

/-- Leaves out the blanks at the front. -/
def skip (cs : Rest) : Rest := cs.dropWhile isBlank

/-- The number written by some digits, going on from `n`. -/
def digitsValue (n : Nat) (ds : List Char) : Nat :=
  ds.foldl (fun n d => 10 * n + (d.toNat - '0'.toNat)) n

/-- The value of a hexadecimal digit. -/
def hexValue (c : Char) : Option Nat :=
  if '0' ≤ c ∧ c ≤ '9' then some (c.toNat - '0'.toNat)
  else if 'a' ≤ c ∧ c ≤ 'f' then some (c.toNat - 'a'.toNat + 10)
  else if 'A' ≤ c ∧ c ≤ 'F' then some (c.toNat - 'A'.toNat + 10)
  else none

/-- Four hexadecimal digits. -/
def hexWord : Rest → Option (Nat × Rest)
  | a :: b :: c :: d :: rest => do
    return (((← hexValue a) * 16 + (← hexValue b)) * 256 + (← hexValue c) * 16 + (← hexValue d),
      rest)
  | _ => none

/-- The code point behind the letter that announces one; two halves of a pair are joined. -/
def codePoint (cs : Rest) : Option (Char × Rest) := do
  let (n, rest) ← hexWord cs
  if 0xD800 ≤ n ∧ n < 0xDC00 then
    match rest with
    -- the first half of a pair, which is nothing without the second
    | '\\' :: 'u' :: rest =>
      let (m, rest) ← hexWord rest
      if 0xDC00 ≤ m ∧ m < 0xE000 then
        return (Char.ofNat (0x10000 + (n - 0xD800) * 1024 + (m - 0xDC00)), rest)
      else none
    | _ => none
  else if 0xDC00 ≤ n ∧ n < 0xE000 then none
  else return (Char.ofNat n, rest)

/-- The character that a letter behind a backslash stands for. -/
def plainEscape : Char → Option Char
  | '"' => some '"'
  | '\\' => some '\\'
  | '/' => some '/'
  | 'b' => some '\x08'
  | 'f' => some '\x0c'
  | 'n' => some '\n'
  | 'r' => some '\r'
  | 't' => some '\t'
  | _ => none

/-- The rest of a text behind its opening quote, at most `fuel` characters; `acc` holds what is
read, backwards. -/
def stringBody : Nat → List Char → Rest → Option (String × Rest)
  | 0, _, _ => none
  | _ + 1, acc, '"' :: rest => some (String.ofList acc.reverse, rest)
  | fuel + 1, acc, '\\' :: 'u' :: rest => do
    let (c, rest) ← codePoint rest
    stringBody fuel (c :: acc) rest
  | fuel + 1, acc, '\\' :: c :: rest => do stringBody fuel ((← plainEscape c) :: acc) rest
  | fuel + 1, acc, c :: rest => if c.toNat < 32 then none else stringBody fuel (c :: acc) rest
  | _ + 1, _, [] => none

/-- The exponent of a number: a sign and digits, if there is one at all. -/
def exponent (cs : Rest) : Option (Option Int × Rest) :=
  let digits (negative : Bool) (cs : Rest) : Option (Option Int × Rest) :=
    let ds := cs.takeWhile Char.isDigit
    if ds.isEmpty then none
    else
      let n : Int := digitsValue 0 ds
      some (some (if negative then -n else n), cs.dropWhile Char.isDigit)
  match cs with
  | e :: '-' :: rest => if e = 'e' ∨ e = 'E' then digits true rest else some (none, cs)
  | e :: '+' :: rest => if e = 'e' ∨ e = 'E' then digits false rest else some (none, cs)
  | e :: rest => if e = 'e' ∨ e = 'E' then digits false rest else some (none, cs)
  | [] => some (none, cs)

/-- The digits behind the point of a number, if there is a point. -/
def places : Rest → Option (Option (List Char) × Rest)
  | '.' :: rest =>
    let ds := rest.takeWhile Char.isDigit
    if ds.isEmpty then none else some (some ds, rest.dropWhile Char.isDigit)
  | cs => some (none, cs)

/-- A number without point and exponent. -/
def wholeNumber (negative : Bool) (n : Nat) : Json :=
  if negative then
    -- minus zero is no whole number, and negative ones have half of the range
    if n = 0 ∨ UInt64.size / 2 < n then float (.ofDecimal true n 0) else int (-n)
  else if n < UInt64.size then int n else float (.ofDecimal false n 0)

/-- A number behind its sign. -/
def number (negative : Bool) (cs : Rest) : Option (Json × Rest) := do
  let ds := cs.takeWhile Char.isDigit
  -- a zero is not followed by other digits
  if ds.isEmpty ∨ (ds.head? = some '0' ∧ 1 < ds.length) then none
  else
    let (fraction, rest) ← places (cs.dropWhile Char.isDigit)
    let (e, rest) ← exponent rest
    match fraction, e with
    | none, none => return (wholeNumber negative (digitsValue 0 ds), rest)
    | _, _ =>
      let fs := fraction.getD []
      return (float (.ofDecimal negative (digitsValue (digitsValue 0 ds) fs)
        (e.getD 0 - fs.length)), rest)

/-- Sets a field, which replaces an earlier one with its name. -/
def setField (fields : List (String × Json)) (name : String) (j : Json) : List (String × Json) :=
  fields.filter (fun f => f.1 ≠ name) ++ [(name, j)]

/-- The characters behind a fixed word at the front. -/
def expect (w : List Char) (cs : Rest) : Option Rest :=
  if w.isPrefixOf cs then some (cs.drop w.length) else none

mutual

/-- Reads a value, with at most `fuel` steps. -/
def readValue : Nat → Rest → Option (Json × Rest)
  | 0, _ => none
  | fuel + 1, cs =>
    match skip cs with
    | '"' :: rest => do
      let (s, rest) ← stringBody (rest.length + 1) [] rest
      return (str s, rest)
    | '[' :: rest =>
      match skip rest with
      | ']' :: rest => some (arr [], rest)
      | rest => readItems fuel [] rest
    | '\x7b' :: rest =>
      match skip rest with
      | '\x7d' :: rest => some (obj [], rest)
      | rest => readFields fuel [] rest
    | '-' :: rest => number true rest
    | 't' :: rest => (expect "rue".toList rest).map (bool true, ·)
    | 'f' :: rest => (expect "alse".toList rest).map (bool false, ·)
    | 'n' :: rest => (expect "ull".toList rest).map (null, ·)
    | rest => number false rest

/-- Reads the items of a list up to its end; `acc` holds those already read, backwards. -/
def readItems : Nat → List Json → Rest → Option (Json × Rest)
  | 0, _, _ => none
  | fuel + 1, acc, cs => do
    let (j, rest) ← readValue fuel cs
    match skip rest with
    | ',' :: rest => readItems fuel (j :: acc) rest
    | ']' :: rest => return (arr (j :: acc).reverse, rest)
    | _ => none

/-- Reads the fields of a record up to its end, after those already read. -/
def readFields : Nat → List (String × Json) → Rest → Option (Json × Rest)
  | 0, _, _ => none
  | fuel + 1, acc, cs =>
    match skip cs with
    | '"' :: rest => do
      let (name, rest) ← stringBody (rest.length + 1) [] rest
      match skip rest with
      | ':' :: rest => do
        let (j, rest) ← readValue fuel rest
        match skip rest with
        | ',' :: rest => readFields fuel (setField acc name j) rest
        | '\x7d' :: rest => return (obj (setField acc name j), rest)
        | _ => none
      | _ => none
    | _ => none

end

/-- Reads a text that holds one value and nothing else but blanks. -/
def parse (s : String) : Option Json := do
  let cs := s.toList
  let (j, rest) ← readValue (2 * cs.length + 2) cs
  if (skip rest).isEmpty then return j else none

end TwigAlgebra.Json
