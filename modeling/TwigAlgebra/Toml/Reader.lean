import TwigAlgebra.Toml.Scalar

/-!
# Reading configurations

A configuration is read line by line.  A line holds a key with a value, or a header, which says
where the keys below it belong.  Values may run over several lines; how deep they are nested is
limited.

## Main definitions

* `Toml.key` — dotted keys.
* `Toml.readValue` — values.
* `Toml.parse` — whole configurations.
-/

namespace TwigAlgebra.Toml

/-- Values nested deeper than this are refused, and so are keys with more parts. -/
def depthLimit : Nat := 79

/-! ### Between values -/

/-- Leaves out the blanks at the front. -/
def skipBlanks (cs : Chars) : Chars := cs.dropWhile isBlank

/-- Leaves out a comment at the front, without the line break that ends it. -/
def skipComment : Chars → Chars
  | '#' :: cs => cs.dropWhile isPrintable
  | cs => cs

/-- The rest behind the end of a line, where a comment may stand. -/
def endOfLine (cs : Chars) : Option Chars :=
  match skipComment (skipBlanks cs) with
  | [] => some []
  | cs => lineBreak cs

/-- Leaves out blanks, comments and line breaks. -/
def skipLines : Nat → Chars → Chars
  | 0, cs => cs
  | fuel + 1, cs =>
    match lineBreak (skipComment (skipBlanks cs)) with
    | some rest => skipLines fuel rest
    | none => skipBlanks cs

/-- Leaves out everything between two values of a list. -/
def skipAll (cs : Chars) : Chars := skipLines (cs.length + 1) cs

/-! ### Keys -/

/-- A character of a key without quotes. -/
def isKeyChar (c : Char) : Bool := c.isAlphanum || c = '-' || c = '_'

/-- One part of a key. -/
def keyPart (cs : Chars) : Option (String × Chars) :=
  match cs with
  | '"' :: rest => lineText '"' true (rest.length + 1) [] rest
  | '\'' :: rest => lineText '\'' false (rest.length + 1) [] rest
  | _ =>
    let part := cs.takeWhile isKeyChar
    if part.isEmpty then none else some (String.ofList part, cs.dropWhile isKeyChar)

/-- The parts of a key, separated by points. -/
def keyParts : Nat → Chars → Option (List String × Chars)
  | 0, _ => none
  | fuel + 1, cs => do
    let (part, rest) ← keyPart (skipBlanks cs)
    match skipBlanks rest with
    | '.' :: rest =>
      let (parts, rest) ← keyParts fuel rest
      return (part :: parts, rest)
    | rest => return ([part], rest)

/-- A key: the parts before the last, and the last. -/
def key (cs : Chars) : Option ((List String × String) × Chars) := do
  let (parts, rest) ← keyParts depthLimit cs
  return ((parts.dropLast, ← parts.getLast?), rest)

/-! ### Values -/

mutual

/-- Reads a value that is nested at most `depth` levels deep, with at most `fuel` steps. -/
def readValue : Nat → Nat → Reader Toml
  | 0, _, _ => none
  | fuel + 1, depth, cs =>
    match cs with
    | '"' :: _ => (text cs).map fun r => (.string r.1, r.2)
    | '\'' :: _ => (text cs).map fun r => (.string r.1, r.2)
    | '[' :: rest =>
      match depth with
      | 0 => none
      | depth + 1 => readItems fuel depth [] rest
    | '\x7b' :: rest =>
      match depth with
      | 0 => none
      | depth + 1 =>
        match skipBlanks rest with
        | '\x7d' :: rest => some (.inlined [], rest)
        | rest => readPairs fuel depth [] rest
    | 't' :: 'r' :: 'u' :: 'e' :: rest => some (.boolean true, rest)
    | 'f' :: 'a' :: 'l' :: 's' :: 'e' :: rest => some (.boolean false, rest)
    | _ => if startsMoment cs then moment? cs else number cs

/-- Reads the items of a list up to its end; `acc` holds those already read, backwards. -/
def readItems : Nat → Nat → List Toml → Reader Toml
  | 0, _, _, _ => none
  | fuel + 1, depth, acc, cs =>
    match skipAll cs with
    | ']' :: rest => some (.array acc.reverse, rest)
    | cs => do
      let (v, rest) ← readValue fuel depth cs
      match skipAll rest with
      | ',' :: rest => readItems fuel depth (v :: acc) rest
      | ']' :: rest => return (.array (v :: acc).reverse, rest)
      | _ => none

/-- Reads the entries of a table in place up to its end, after those already read. -/
def readPairs : Nat → Nat → Entries → Reader Toml
  | 0, _, _, _ => none
  | fuel + 1, depth, acc, cs => do
    let ((path, name), rest) ← key cs
    let rest ← expect '=' rest
    let (v, rest) ← readValue fuel depth (skipBlanks rest)
    let acc ← assign path name v .headed acc
    match skipBlanks rest with
    | ',' :: rest => readPairs fuel depth acc rest
    | '\x7d' :: rest => return (.inlined acc, rest)
    | _ => none

end

/-! ### Lines -/

/-- What is read so far: the whole table, and the path of the last header. -/
structure Document where
  /-- The whole table. -/
  root : Entries
  /-- The keys of the last header. -/
  header : List String
  deriving Repr, Inhabited

/-- Changes the table under the last header. -/
def Document.inCurrent (d : Document) (change : TableKind → Entries → Option Entries) :
    Option Document := do
  return { d with root := ← descend .implied change d.header .headed d.root }

/-- Reads a header behind its opening brackets, of which it has one or, for an element of a list
of tables, two. -/
def readHeader (element : Bool) (d : Document) (cs : Chars) : Option (Document × Chars) := do
  let ((path, name), rest) ← key cs
  let rest ← expect ']' rest
  let rest ← if element then expect ']' rest else some rest
  let rest ← endOfLine rest
  let opening := if element then openElement name else openTable name
  let root ← descend .implied (fun _ => opening) path .headed d.root
  return (⟨root, path ++ [name]⟩, rest)

/-- Reads a line with a key and a value. -/
def readEntry (d : Document) (cs : Chars) : Option (Document × Chars) := do
  let ((path, name), rest) ← key cs
  let rest ← expect '=' rest
  let (v, rest) ← readValue (2 * rest.length + 2) depthLimit (skipBlanks rest)
  let rest ← endOfLine rest
  return (← d.inCurrent (assign path name v), rest)

/-- Reads line after line. -/
def readLines : Nat → Document → Chars → Option Document
  | 0, _, _ => none
  | fuel + 1, d, cs => do
    match skipBlanks cs with
    | [] => return d
    | '#' :: rest => readLines fuel d (← endOfLine ('#' :: rest))
    | '\n' :: rest => readLines fuel d rest
    | '\r' :: rest => readLines fuel d (← lineBreak ('\r' :: rest))
    -- two brackets open an element of a list of tables
    | '[' :: '[' :: rest =>
      let (d, rest) ← readHeader true d rest
      readLines fuel d rest
    | '[' :: rest =>
      let (d, rest) ← readHeader false d rest
      readLines fuel d rest
    | rest =>
      let (d, rest) ← readEntry d rest
      readLines fuel d rest

/-- Leaves out a byte order mark. -/
def skipMark : Chars → Chars
  | '\ufeff' :: cs => cs
  | cs => cs

/-- Reads a configuration. -/
def parse (s : String) : Option Entries :=
  let cs := skipMark s.toList
  (readLines (cs.length + 2) ⟨[], []⟩ cs).map (·.root)

end TwigAlgebra.Toml
