/-!
# HTTP header fields

A field has a name, whose case does not matter, and a value of octets. A message may hold several fields of one name;
the first of them counts.
-/

namespace RepoSearch.Http

/-- A header field. -/
structure Header where
  name : String
  value : List UInt8
  deriving DecidableEq, Repr

namespace Header

/-- The characters of a field's name. -/
def isNameChar (c : Char) : Bool :=
  c.isAlphanum || c ∈ "!#$%&'*+-.^_`|~".toList

/-- The octets that a field's value may hold. -/
def isValueOctet (b : UInt8) : Bool :=
  (0x20 ≤ b && b ≠ 0x7F) || b = 0x09

/-- A field whose name and value are well-formed. -/
def ofPair? (name : String) (value : List UInt8) : Option Header :=
  if name ≠ "" ∧ name.toList.all isNameChar ∧ value.all isValueOctet then some ⟨name, value⟩ else none

/-- The field has the given name, which is in lower case. -/
def named (name : String) (h : Header) : Bool :=
  h.name.toList.map Char.toLower == name.toList

/-- A value that consists of visible ASCII characters, blanks and tabs, as a text. -/
def text? (value : List UInt8) : Option String :=
  if value.all fun b => (0x20 ≤ b && b ≤ 0x7E) || b = 0x09 then
    some (String.ofList (value.map fun b => Char.ofNat b.toNat))
  else none

/-- The text of the first field with the given name, which is in lower case. -/
def find? (headers : List Header) (name : String) : Option String :=
  (headers.find? (named name)).bind fun h => text? h.value

end Header

end RepoSearch.Http
