import RepoSearch.Http.Header
import RepoSearch.Text.Blank

/-!
# Slot names

A client names the slot of a search in a header field. The name is bound to the client, so that no client can take the
slot of another one.
-/

namespace RepoSearch.Service

/-- The header field that names a slot. -/
def slotHeader : String := "x-search-slot"

/-- The number of characters of a name that count. -/
def maxSlotLength : Nat := 64

/-- The slot of a client's request, if the request names one. -/
def slot? (headers : List Http.Header) (client : String) : Option String :=
  (((Http.Header.find? headers slotHeader).map Text.trim).filter (!·.isEmpty)).map fun name =>
    client ++ "/" ++ String.ofList (name.toList.take maxSlotLength)

end RepoSearch.Service
