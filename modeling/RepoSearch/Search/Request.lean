/-!
# Search requests

A search request holds the parameters as texts, each of which may be absent. The limits say what is accepted.
-/

namespace RepoSearch

/-- The parameters of a search as a client wrote them. -/
structure SearchRequest where
  q : Option String := none
  page : Option String := none
  perPage : Option String := none
  language : Option String := none
  /-- Label names with commas between them. -/
  labels : Option String := none
  sort : Option String := none
  deriving DecidableEq, Repr

/-- Bounds and defaults of the parameters. -/
structure Limits where
  /-- The least number of characters of a query without its outer blanks. -/
  minQueryLength : Nat := 2
  maxPage : Nat := 100
  maxPerPage : Nat := 100
  maxLabels : Nat := 5
  defaultPage : Nat := 1
  defaultPerPage : Nat := 10
  deriving DecidableEq, Repr

end RepoSearch
