import TwigAlgebra.Binary64.Decimal
import TwigAlgebra.Json.Basic

/-!
# Writing structured values

Values are written on one line.  In text, quotes, backslashes and control characters are escaped;
a double always shows a decimal point.

## Main definitions

* `Json.escape` — the written form of a character inside text.
* `Json.render` — the written form of a value.
-/

namespace TwigAlgebra.Json

/-- A hexadecimal number of four digits. -/
def hex4 (n : Nat) : List Char :=
  [n / 4096 % 16, n / 256 % 16, n / 16 % 16, n % 16].map Nat.digitChar

/-- The written form of a character inside text. -/
def escape (c : Char) : List Char :=
  if c = '"' then ['\\', '"']
  else if c = '\\' then ['\\', '\\']
  else if c.toNat < 32 then '\\' :: 'u' :: hex4 c.toNat
  else [c]

/-- Text between quotes. -/
def quote (s : String) : String := "\"" ++ String.ofList (s.toList.flatMap escape) ++ "\""

/-- A double with its decimal point. -/
def pointed (x : Binary64) : String :=
  let t := x.text
  if t.toList.contains '.' then t else t ++ ".0"

mutual

/-- The written form of a value. -/
def render : Json → String
  | null => "null"
  | bool b => if b then "true" else "false"
  | int i => toString i
  | float x => pointed x
  | str s => quote s
  | arr items => "[" ++ String.intercalate "," (renderAll items) ++ "]"
  | obj fields => "\x7b" ++ String.intercalate "," (renderFields fields) ++ "\x7d"

/-- The written forms of some values. -/
def renderAll : List Json → List String
  | [] => []
  | j :: js => j.render :: renderAll js

/-- The written forms of some fields. -/
def renderFields : List (String × Json) → List String
  | [] => []
  | (name, j) :: fs => (quote name ++ ":" ++ j.render) :: renderFields fs

end

end TwigAlgebra.Json
