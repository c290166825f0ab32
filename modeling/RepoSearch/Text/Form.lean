import RepoSearch.Text.Hex
import RepoSearch.Text.Utf8

/-!
# Form-encoded queries

A form-encoded query is a list of `name=value` pieces joined by `&`. In names and values a plus sign stands for a blank
and a percent sign with two hexadecimal digits for an octet; a percent sign without them stands for itself. The octets
are then read as UTF-8, leniently.
-/

namespace RepoSearch.Form

/-- The ASCII character of an octet. -/
def ascii (b : UInt8) : Char :=
  Char.ofNat b.toNat

/-- Replaces each percent sign that two hexadecimal digits follow by the octet they give. -/
def percentDecode : List UInt8 → List UInt8
  | [] => []
  | 0x25 :: h :: l :: bs =>
    match Hex.value? (ascii h), Hex.value? (ascii l) with
    | some high, some low => UInt8.ofNat (high * 16 + low) :: percentDecode bs
    | _, _ => 0x25 :: percentDecode (h :: l :: bs)
  | b :: bs => b :: percentDecode bs

/-- The text of a name or a value. -/
def decode (bs : List UInt8) : String :=
  Utf8.decodeLossy (percentDecode (bs.map fun b => if b = 0x2B then 0x20 else b))

/-- One piece, cut at its first `=`; a piece without one is a name with an empty value. -/
def pair (piece : List UInt8) : String × String :=
  let (name, value) := piece.span (· ≠ 0x3D)
  (decode name, decode (value.drop 1))

/-- The pairs of a query, in order. Empty pieces do not count. -/
def pairs (query : String) : List (String × String) :=
  (((Utf8.encode query).splitOn 0x26).filter (!·.isEmpty)).map pair

/-! ### Writing -/

/-- Letters, digits and `*-._` stand for themselves. -/
def isPlain (b : UInt8) : Bool :=
  (ascii b).isAlphanum || ascii b ∈ ['*', '-', '.', '_']

/-- How an octet is written. -/
def encodeOctet (b : UInt8) : List Char :=
  if isPlain b then [ascii b]
  else if b = 0x20 then ['+']
  else ['%', Hex.digit (b.toNat / 16), Hex.digit (b.toNat % 16)]

/-- How a name or a value is written. -/
def encode (s : String) : String :=
  String.ofList ((Utf8.encode s).flatMap encodeOctet)

/-- The query that holds the given pairs in order. -/
def render (ps : List (String × String)) : String :=
  "&".intercalate (ps.map fun p => encode p.1 ++ "=" ++ encode p.2)

end RepoSearch.Form
