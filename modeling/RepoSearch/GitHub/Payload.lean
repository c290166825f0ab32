import RepoSearch.Json.Reader

/-!
# Payloads of GitHub's answers

A payload is an object with a number of results and a list of records, either of which may be missing but not repeated;
other members are passed over. An array of the two values in this order, from which trailing ones may be missing, is
accepted as well.
-/

namespace RepoSearch

/-- What an answer holds. -/
structure Payload where
  totalCount : Nat := 0
  items : List Json := []

namespace Payload

open Json

/-- A member of the payload. -/
inductive Field where
  | totalCount (n : Nat)
  | items (vs : List Json)
  | other

def readTotalCount : Reader Field := fun cs => do
  let (v, cs) ← readScalar .kept cs
  let n ← v.asNat?
  return (.totalCount n, cs)

/-- The list of records, which stands at the second level. -/
def readItems : Reader Field := fun cs => do
  let (v, cs) ← readValue .kept (maxDepth - 1) cs
  let vs ← v.asArray?
  return (.items vs, cs)

/-- The value of a member, read as its name requires. -/
def readField (name : String) : Reader Field :=
  match name with
  | "total_count" => readTotalCount
  | "items" => readItems
  | _ => fun cs => (skipValue cs).map fun (_, cs) => (.other, cs)

/-- Collects the members; `none` if one is repeated. -/
def ofFields? (fields : List Field) : Option Payload :=
  let counts := fields.filterMap fun | .totalCount n => some n | _ => none
  let lists := fields.filterMap fun | .items vs => some vs | _ => none
  if counts.length ≤ 1 ∧ lists.length ≤ 1 then
    some { totalCount := counts.head?.getD 0, items := lists.head?.getD [] }
  else none

def readObject : Reader Payload := fun cs => do
  let (members, cs) ← readSequence (readMember .kept readField) '\x7d' cs
  return (← ofFields? (members.map (·.2)), cs)

/-- The input after a comma, if another value follows. -/
def skipComma : List Symbol → Option (List Symbol)
  | some ',' :: cs => some (skipSpace cs)
  | _ => none

/-- The input after the mark that closes an array. -/
def skipClose : List Symbol → Option (List Symbol)
  | some ']' :: cs => some cs
  | _ => none

def readArray : Reader Payload := fun cs =>
  let cs := skipSpace cs
  match skipClose cs with
  | some cs => some ({}, cs)
  | none => do
    let (count, cs) ← readTotalCount cs
    let cs := skipSpace cs
    match skipComma cs with
    | none => return (← ofFields? [count], ← skipClose cs)
    | some cs =>
      let (items, cs) ← readItems cs
      return (← ofFields? [count, items], ← skipClose (skipSpace cs))

def read : Reader Payload
  | some '[' :: cs => readArray cs
  | some '\x7b' :: cs => readObject cs
  | _ => none

/-- The payload that the octets of a body hold. -/
def ofBody? (body : List UInt8) : Option Payload :=
  readAll read (Utf8.run .start body)

end Payload

end RepoSearch
