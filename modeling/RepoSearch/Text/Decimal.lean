/-!
# Decimal numerals

Whole numbers are written with the fewest digits. A numeral is read from ASCII digits alone, with leading zeros allowed
and one optional sign in front, and is refused when it lies outside the bounds the reader is given.
-/

namespace RepoSearch.Decimal

/-- The numeral of a natural number. -/
def render (n : Nat) : String :=
  String.ofList (Nat.toDigits 10 n)

/-- The numeral of an integer, with a minus sign in front of a negative one. -/
def renderInt : Int → String
  | .ofNat n => render n
  | .negSucc n => "-" ++ render (n + 1)

/-- The value of a non-empty run of digits. -/
def ofDigits? (cs : List Char) : Option Nat :=
  if !cs.isEmpty && cs.all Char.isDigit then some (Nat.ofDigitChars 10 cs 0) else none

/-- Reads an unsigned numeral of at most `bound`; a plus sign may stand in front. -/
def read? (bound : Nat) (s : String) : Option Nat :=
  let digits := match s.toList with
    | '+' :: cs => cs
    | cs => cs
  (ofDigits? digits).filter (· ≤ bound)

/-- Reads a signed numeral between `-(bound + 1)` and `bound`. -/
def readInt? (bound : Nat) (s : String) : Option Int :=
  match s.toList with
  | '-' :: cs => ((ofDigits? cs).filter (· ≤ bound + 1)).map fun n => -(n : Int)
  | _ => (read? bound s).map fun n => (n : Int)

/-! ### The bounds of machine words -/

def max16 : Nat := 0xFFFF
def max32 : Nat := 0xFFFFFFFF
def max64 : Nat := 0xFFFFFFFFFFFFFFFF

/-- The largest signed number of 64 bits. -/
def maxSigned64 : Nat := 0x7FFFFFFFFFFFFFFF

end RepoSearch.Decimal
