import RepoSearch.Json.Basic
import RepoSearch.Text.Decimal

/-!
# Numbers in JSON text

A literal consists of a sign, whole digits, and optional digits of a fraction and an exponent. It is too large when its
leading digits, taken as a binary64 number, times its power of ten, taken as one, round to infinity. All other literals
denote a value.
-/

namespace RepoSearch.Json

/-- The parts of a number as written. -/
structure Literal where
  negative : Bool
  whole : List Char
  fraction : Option (List Char)
  /-- The letter, the sign if there is one, and the digits. -/
  exponent : Option (Char × Option Char × List Char)

namespace Literal

def text (l : Literal) : String :=
  String.ofList <|
    (if l.negative then ['-'] else []) ++ l.whole ++
    (match l.fraction with
      | some ds => '.' :: ds
      | none => []) ++
    (match l.exponent with
      | some (e, sign, ds) => e :: (sign.toList ++ ds)
      | none => [])

/-- Appends digits to a number as long as it stays within 64 bits, and counts the digits from the first that did not
fit. -/
def absorb (n : Nat) : List Char → Nat × Nat
  | [] => (n, 0)
  | d :: ds =>
    let m := 10 * n + (d.toNat - '0'.toNat)
    if m ≤ Decimal.max64 then absorb m ds else (n, ds.length + 1)

/-- The leading digits as a number of at most 64 bits, and the power of ten it is to be multiplied with. -/
def scaled (l : Literal) : Nat × Int :=
  let (n, dropped) := absorb 0 l.whole
  let ds := l.fraction.getD []
  let (n, left) := absorb n ds
  let e : Int := match l.exponent with
    | some (_, sign, ds) =>
      let e : Int := Nat.ofDigitChars 10 ds 0
      if sign = some '-' then -e else e
    | none => 0
  (n, dropped - (ds.length - left : Nat) + e)

/-- The nearest number with 53 significant bits; of two, the one whose last bit is even. -/
def round53 (n : Nat) : Nat :=
  if n.log2 < 53 then n
  else
    let unit := Nat.pow 2 (n.log2 - 52)
    let q := n / unit
    let r := n % unit
    (if unit < 2 * r ∨ (unit = 2 * r ∧ q % 2 = 1) then q + 1 else q) * unit

/-- Numbers from here on round to infinity. -/
def infinite : Nat := Nat.pow 2 1024 - Nat.pow 2 970

def tooLarge (l : Literal) : Bool :=
  let (n, e) := l.scaled
  match e with
  | .negSucc _ => false
  | .ofNat e => n ≠ 0 && (308 < e || infinite ≤ round53 n * round53 (Nat.pow 10 e))

/-- The value of a literal that has neither a fraction nor an exponent and fits into 64 bits. -/
def toInt? (l : Literal) : Option Int :=
  if l.fraction.isSome || l.exponent.isSome then none
  else
    let n := Nat.ofDigitChars 10 l.whole 0
    if l.negative then
      if 0 < n ∧ n ≤ Decimal.maxSigned64 + 1 then some (-(n : Int)) else none
    else
      if n ≤ Decimal.max64 then some n else none

def toJson? (l : Literal) : Option Json :=
  match l.toInt? with
  | some n => some (.int n)
  | none => if l.tooLarge then none else some (.decimal l.text)

end Literal

end RepoSearch.Json
