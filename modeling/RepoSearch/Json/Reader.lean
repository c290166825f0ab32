import RepoSearch.Json.Number
import RepoSearch.Text.Hex
import RepoSearch.Text.Utf8

/-!
# Reading JSON text

The input is a list of symbols: the characters that its octets encode, and a mark for each ill-formed part. A value is
read together with the input that follows it. Arrays and objects may be nested to a given depth. What is read only to be
passed over need not hold up in full: its strings may hold ill-formed parts and unpaired surrogates, its numbers may be
of any size, and its depth is not bounded.
-/

namespace RepoSearch.Json

/-- A character, or `none` for an ill-formed part of the input. -/
abbrev Symbol := Option Char

/-- Reads a value from the beginning of the input and returns what follows. -/
abbrev Reader (α : Type) := List Symbol → Option (α × List Symbol)

/-- The input without the space at its beginning. -/
def skipSpace (cs : List Symbol) : List Symbol :=
  cs.dropWhile (· ∈ [some ' ', some '\n', some '\t', some '\r'])

/-- Passes over a given text. -/
def skipText : List Char → List Symbol → Option (List Symbol)
  | [], cs => some cs
  | t :: ts, some c :: cs => if t = c then skipText ts cs else none
  | _ :: _, _ => none

/-! ### Strings -/

def isControl (c : Symbol) : Bool :=
  c.any (·.toNat < 0x20)

/-- Cuts the input after an opening quote at the closing one. A symbol after a backslash does not close the string. -/
def stringBody (body : List Symbol) : Reader (List Symbol)
  | some '"' :: cs => some (body.reverse, cs)
  | some '\\' :: c :: cs => stringBody (c :: some '\\' :: body) cs
  | c :: cs => if isControl c then none else stringBody (c :: body) cs
  | [] => none

/-- The number that four hexadecimal digits give. -/
def hex4? (a b c d : Symbol) : Option Nat :=
  ([a, b, c, d].mapM fun s : Symbol => s.bind Hex.value?).map fun ds => ds.foldl (fun n d => 16 * n + d) 0

/-- The characters that stand for themselves or another one after a backslash. -/
def shortEscape? : Char → Option Char
  | '"' => some '"'
  | '\\' => some '\\'
  | '/' => some '/'
  | 'b' => some '\x08'
  | 'f' => some '\x0c'
  | 'n' => some '\n'
  | 'r' => some '\r'
  | 't' => some '\t'
  | _ => none

def isHighSurrogate (n : Nat) : Bool := 0xD800 ≤ n && n ≤ 0xDBFF

def isLowSurrogate (n : Nat) : Bool := 0xDC00 ≤ n && n ≤ 0xDFFF

/-- The characters that the body of a string stands for, in reverse order and in front of `done`. Every surrogate must
be half of a pair. -/
def unescape (done : List Char) : List Symbol → Option (List Char)
  | [] => some done
  | some '\\' :: some 'u' :: a :: b :: c :: d :: cs =>
    (hex4? a b c d).bind fun n =>
      if isLowSurrogate n then none
      else if isHighSurrogate n then
        match cs with
        | some '\\' :: some 'u' :: a :: b :: c :: d :: cs =>
          (hex4? a b c d).bind fun m =>
            if isLowSurrogate m then
              unescape (Char.ofNat (0x10000 + (n - 0xD800) * 0x400 + (m - 0xDC00)) :: done) cs
            else none
        | _ => none
      else unescape (Char.ofNat n :: done) cs
  | some '\\' :: some c :: cs => (shortEscape? c).bind fun c => unescape (c :: done) cs
  | some '\\' :: _ => none
  | some c :: cs => unescape (c :: done) cs
  | none :: _ => none

/-- The text that the body of a string stands for. -/
def stringValue? (body : List Symbol) : Option String :=
  (unescape [] body).map fun cs => String.ofList cs.reverse

/-- Every backslash of the body begins an escape. -/
def escapesComplete : List Symbol → Bool
  | [] => true
  | some '\\' :: some 'u' :: a :: b :: c :: d :: cs => (hex4? a b c d).isSome && escapesComplete cs
  | some '\\' :: some c :: cs => (shortEscape? c).isSome && escapesComplete cs
  | some '\\' :: _ => false
  | _ :: cs => escapesComplete cs

/-! ### Numbers -/

/-- The digits at the beginning of the input. -/
def readDigits : List Symbol → List Char × List Symbol
  | some c :: cs =>
    if c.isDigit then
      let (ds, cs) := readDigits cs
      (c :: ds, cs)
    else ([], some c :: cs)
  | cs => ([], cs)

/-- Like `readDigits`, but there must be a digit. -/
def readDigits1 : Reader (List Char) := fun cs =>
  match readDigits cs with
  | ([], _) => none
  | (d :: ds, cs) => some (d :: ds, cs)

/-- A zero stands alone in front of the point. -/
def readWhole : Reader (List Char)
  | some '0' :: cs => some (['0'], cs)
  | cs => readDigits1 cs

def readFraction : Reader (Option (List Char))
  | some '.' :: cs => (readDigits1 cs).map fun (ds, cs) => (some ds, cs)
  | cs => some (none, cs)

def readSign : List Symbol → Option Char × List Symbol
  | some '+' :: cs => (some '+', cs)
  | some '-' :: cs => (some '-', cs)
  | cs => (none, cs)

def readExponent : Reader (Option (Char × Option Char × List Char))
  | some c :: cs =>
    if c = 'e' ∨ c = 'E' then
      let (sign, cs) := readSign cs
      (readDigits1 cs).map fun (ds, cs) => (some (c, sign, ds), cs)
    else some (none, some c :: cs)
  | cs => some (none, cs)

def readLiteral (cs : List Symbol) : Option (Literal × List Symbol) := do
  let (negative, cs) := match cs with
    | some '-' :: cs => (true, cs)
    | cs => (false, cs)
  let (whole, cs) ← readWhole cs
  let (fraction, cs) ← readFraction cs
  let (exponent, cs) ← readExponent cs
  return (⟨negative, whole, fraction, exponent⟩, cs)

/-! ### Values -/

/-- What is made of strings and numbers. -/
structure Leaves where
  string : List Symbol → Option String
  number : Literal → Option Json

/-- Strings and numbers that are kept. -/
def Leaves.kept : Leaves := ⟨stringValue?, Literal.toJson?⟩

/-- Strings and numbers that are passed over. -/
def Leaves.skipped : Leaves :=
  ⟨fun body => if escapesComplete body then some "" else none, fun _ => some .null⟩

def readString (leaves : Leaves) : Reader String
  | some '"' :: cs => do
    let (body, cs) ← stringBody [] cs
    return (← leaves.string body, cs)
  | _ => none

/-- A value that is neither an array nor an object. -/
def readScalar (leaves : Leaves) (cs : List Symbol) : Option (Json × List Symbol) :=
  match cs with
  | some 'n' :: cs => (skipText "ull".toList cs).map (Json.null, ·)
  | some 't' :: cs => (skipText "rue".toList cs).map (Json.bool true, ·)
  | some 'f' :: cs => (skipText "alse".toList cs).map (Json.bool false, ·)
  | some '"' :: _ => (readString leaves cs).map fun (s, cs) => (.str s, cs)
  | _ => do
    let (literal, cs) ← readLiteral cs
    return (← leaves.number literal, cs)

/-- Entries with commas between them, up to the closing mark; at most `fuel` of them. -/
def readEntries (entry : Reader α) (close : Char) : Nat → Reader (List α)
  | 0, _ => none
  | fuel + 1, cs => do
    let (x, cs) ← entry (skipSpace cs)
    match skipSpace cs with
    | some ',' :: cs =>
      let (xs, cs) ← readEntries entry close fuel cs
      return (x :: xs, cs)
    | some c :: cs => if c = close then return ([x], cs) else none
    | _ => none

/-- What follows an opening mark: entries, or the closing mark at once. -/
def readSequence (entry : Reader α) (close : Char) (cs : List Symbol) :
    Option (List α × List Symbol) :=
  match skipSpace cs with
  | some c :: rest => if c = close then some ([], rest) else readEntries entry close (rest.length + 1) (some c :: rest)
  | _ => none

/-- One member of an object, whose value is read as its name requires. -/
def readMember (leaves : Leaves) (value : String → Reader α) : Reader (String × α) := fun cs => do
  let (name, cs) ← readString leaves cs
  match skipSpace cs with
  | some ':' :: cs =>
    let (v, cs) ← value name (skipSpace cs)
    return ((name, v), cs)
  | _ => none

/-- Reads a value in which arrays and objects are nested at most `depth` deep. -/
def readValue (leaves : Leaves) : Nat → List Symbol → Option (Json × List Symbol)
  | 0, cs => readScalar leaves cs
  | depth + 1, cs =>
    match cs with
    | some '[' :: cs =>
      (readSequence (readValue leaves depth) ']' cs).map fun (vs, cs) => (.arr vs, cs)
    | some '\x7b' :: cs =>
      (readSequence (readMember leaves fun _ => readValue leaves depth) '\x7d' cs).map
        fun (ms, cs) => (.obj ms, cs)
    | cs => readScalar leaves cs

/-- Passes over a value. -/
def skipValue (cs : List Symbol) : Option (Unit × List Symbol) :=
  (readValue .skipped cs.length cs).map fun (_, cs) => ((), cs)

/-- Reads an input that holds one value and nothing else but space. -/
def readAll (value : Reader α) (cs : List Symbol) : Option α := do
  let (v, cs) ← value (skipSpace cs)
  if (skipSpace cs).isEmpty then return v else none

/-- The depth to which texts from outside may be nested. -/
def maxDepth : Nat := 127

/-- The symbols of a text. -/
def symbols (s : String) : List Symbol :=
  s.toList.map some

/-- The value of a text nested at most `depth` deep. -/
def read? (depth : Nat) (s : String) : Option Json :=
  readAll (readValue .kept depth) (symbols s)

end RepoSearch.Json
