/-!
# JSON values

An object keeps its members in the order written, repeated names included; a look-up finds the last of them. Numbers are
of two kinds: those written as a whole number that fits into 64 bits, and all others, which keep the text they were
written with.
-/

namespace RepoSearch

/-- A JSON value. -/
inductive Json where
  | null
  | bool (b : Bool)
  /-- A number between `-2 ^ 63` and `2 ^ 64 - 1` written without a point, an exponent or a negative zero. -/
  | int (n : Int)
  /-- Any other number, as written. -/
  | decimal (literal : String)
  | str (s : String)
  | arr (items : List Json)
  | obj (members : List (String × Json))
  deriving Inhabited, Repr, BEq

namespace Json

/-- The value of the last member with the given name, of an object that has one. -/
def get? (name : String) : Json → Option Json
  | .obj members => (members.reverse.find? (·.1 == name)).map (·.2)
  | _ => none

def asString? : Json → Option String
  | .str s => some s
  | _ => none

def asNat? : Json → Option Nat
  | .int (.ofNat n) => some n
  | _ => none

def asBool? : Json → Option Bool
  | .bool b => some b
  | _ => none

def asArray? : Json → Option (List Json)
  | .arr items => some items
  | _ => none

def ofNat (n : Nat) : Json :=
  .int n

/-- A value that may be absent, with null in its absence. -/
def orNull (f : α → Json) : Option α → Json
  | some a => f a
  | none => .null

def strings (ss : List String) : Json :=
  .arr (ss.map .str)

end Json

end RepoSearch
