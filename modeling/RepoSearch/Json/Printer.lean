import RepoSearch.Json.Basic
import RepoSearch.Text.Decimal

/-!
# Compact JSON text

Values are written without blanks. In strings only the quote, the backslash and the characters below U+0020 are escaped.
-/

namespace RepoSearch.Json

/-- How a character is written within a string. -/
def escape (c : Char) : List Char :=
  if c = '"' then ['\\', '"']
  else if c = '\\' then ['\\', '\\']
  else if c = '\x08' then ['\\', 'b']
  else if c = '\x0c' then ['\\', 'f']
  else if c = '\n' then ['\\', 'n']
  else if c = '\r' then ['\\', 'r']
  else if c = '\t' then ['\\', 't']
  else if c.toNat < 0x20 then
    ['\\', 'u', '0', '0', Nat.digitChar (c.toNat / 16), Nat.digitChar (c.toNat % 16)]
  else [c]

/-- A string between quotes. -/
def quote (s : String) : List Char :=
  '"' :: (s.toList.flatMap escape ++ ['"'])

mutual

/-- The characters of a value's text. -/
def chars : Json → List Char
  | .null => "null".toList
  | .bool true => "true".toList
  | .bool false => "false".toList
  | .int n => (Decimal.renderInt n).toList
  | .decimal literal => literal.toList
  | .str s => quote s
  | .arr items => '[' :: (itemChars items ++ [']'])
  | .obj members => '\x7b' :: (memberChars members ++ ['\x7d'])

/-- The items of an array, with commas between them. -/
def itemChars : List Json → List Char
  | [] => []
  | [v] => chars v
  | v :: w :: vs => chars v ++ ',' :: itemChars (w :: vs)

/-- The members of an object, with commas between them. -/
def memberChars : List (String × Json) → List Char
  | [] => []
  | [(k, v)] => quote k ++ ':' :: chars v
  | (k, v) :: m :: ms => quote k ++ ':' :: (chars v ++ ',' :: memberChars (m :: ms))

end

/-- The compact text of a value. -/
def render (v : Json) : String :=
  String.ofList v.chars

end RepoSearch.Json
