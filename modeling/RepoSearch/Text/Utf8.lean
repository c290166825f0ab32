/-!
# UTF-8

Octets are decoded by a small machine that is either between two characters or within one. A maximal ill-formed subpart
of the input yields no character; the strict decoding then fails, and the lenient one puts U+FFFD in its place.
-/

namespace RepoSearch.Utf8

/-- Where the decoder stands. -/
inductive State where
  /-- Between two characters. -/
  | start
  /-- Within a character: `left + 1` octets are missing, the next one must lie in `lo`..`hi`, and `value` holds the bits
  read so far. -/
  | within (left lo hi value : Nat)

/-- The state after the first octet of a character of several octets, if the octet can be one. -/
def lead? (b : Nat) : Option State :=
  if 0xC2 ≤ b ∧ b ≤ 0xDF then some (.within 0 0x80 0xBF (b - 0xC0))
  else if b = 0xE0 then some (.within 1 0xA0 0xBF 0)
  else if b = 0xED then some (.within 1 0x80 0x9F 13)
  else if 0xE1 ≤ b ∧ b ≤ 0xEF then some (.within 1 0x80 0xBF (b - 0xE0))
  else if b = 0xF0 then some (.within 2 0x90 0xBF 0)
  else if 0xF1 ≤ b ∧ b ≤ 0xF3 then some (.within 2 0x80 0xBF (b - 0xF0))
  else if b = 0xF4 then some (.within 2 0x80 0x8F 4)
  else none

/-- The decoder's answer to an octet that begins a character. -/
def first (b : Nat) : List (Option Char) × State :=
  if b < 0x80 then ([some (Char.ofNat b)], .start)
  else match lead? b with
    | some s => ([], s)
    | none => ([none], .start)

/-- One octet: what is completed by it, and the state after it. An octet that cannot go on with a character closes it
as ill-formed and begins the next one. -/
def step : State → Nat → List (Option Char) × State
  | .start, b => first b
  | .within left lo hi value, b =>
    if lo ≤ b ∧ b ≤ hi then
      let value := value * 64 + (b - 0x80)
      match left with
      | 0 => ([some (Char.ofNat value)], .start)
      | left + 1 => ([], .within left 0x80 0xBF value)
    else
      let (out, s) := first b
      (none :: out, s)

/-- What is completed by the end of the input. -/
def finish : State → List (Option Char)
  | .start => []
  | .within .. => [none]

/-- The characters of the input, with `none` for each maximal ill-formed subpart. -/
def run (s : State) : List UInt8 → List (Option Char)
  | [] => finish s
  | b :: bs =>
    let (out, s) := step s b.toNat
    out ++ run s bs

/-- The text that the octets encode, if they are well-formed. -/
def decode? (bs : List UInt8) : Option String :=
  ((run .start bs).mapM id).map String.ofList

/-- The text of the octets, with U+FFFD for each maximal ill-formed subpart. -/
def decodeLossy (bs : List UInt8) : String :=
  String.ofList ((run .start bs).map (·.getD '\uFFFD'))

/-- The octets of a text. -/
def encode (s : String) : List UInt8 :=
  s.toList.flatMap String.utf8EncodeChar

end RepoSearch.Utf8
