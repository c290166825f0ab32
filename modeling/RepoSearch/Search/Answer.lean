import RepoSearch.Repository
import RepoSearch.Search.Criteria

/-!
# Search answers

What a successful search hands to its client: a page of repositories, how the query was understood, and, unless the page
comes from the cache, how much of GitHub's quota is left.
-/

namespace RepoSearch

/-- A page of results, as it is cached. -/
structure ResultPage where
  totalCount : Nat
  items : List Repository
  deriving DecidableEq, Repr

/-- What GitHub says about the quota left to the service. -/
structure Quota where
  remaining : Option Nat
  reset : Option Timestamp
  deriving DecidableEq, Repr

namespace Quota

def toJson (q : Quota) : Json :=
  .obj [
    ("remaining", .orNull .ofNat q.remaining),
    ("reset", .orNull (fun t => .str t.render) q.reset)]

end Quota

/-- How the query of a search was understood. -/
structure QueryInfo where
  /-- The query as the client wrote it. -/
  given : String
  compiled : String
  sort : SortOrder
  parsed : ParsedQuery
  deriving DecidableEq, Repr

namespace QueryInfo

/-- How the query of given criteria is understood. -/
def ofCriteria (c : Criteria) : QueryInfo :=
  let compiled := c.compile
  ⟨c.query, compiled.queryString, compiled.sort, compiled.parsed⟩

def toJson (i : QueryInfo) : Json :=
  .obj [
    ("original_query", .str i.given),
    ("compiled_query", .str i.compiled),
    ("sort", .str i.sort.name),
    ("parsed_operators", i.parsed.toJson)]

end QueryInfo

/-- The answer to a search. -/
structure Answer where
  page : ResultPage
  cached : Bool
  info : QueryInfo
  quota : Option Quota
  deriving DecidableEq, Repr

namespace Answer

def toJson (a : Answer) : Json :=
  .obj <|
    [("total_count", .ofNat a.page.totalCount),
      ("items", .arr (a.page.items.map Repository.toJson)),
      ("query_info", a.info.toJson)] ++
    a.quota.toList.map (fun q => ("rate_limit", q.toJson)) ++
    [("cached", .bool a.cached)]

end Answer

end RepoSearch
