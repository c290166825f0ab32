import RepoSearch.Search.Error
import RepoSearch.Search.Request
import RepoSearch.Text.Form

/-!
# Parameters of the search route

The parameters of a search stand in the query of the request. Unknown names are passed over; a known name may occur only
once.
-/

namespace RepoSearch.Service

/-- The names of the parameters. -/
def parameterNames : List String := ["q", "page", "per_page", "language", "labels", "sort"]

/-- The first known name that has occurred before. -/
def repeated? (seen : List String) : List String → Option String
  | [] => none
  | name :: names =>
    if name ∉ parameterNames then repeated? seen names
    else if name ∈ seen then some name
    else repeated? (name :: seen) names

/-- What is said about a name that occurs twice. -/
def repeatedMessage (name : String) : String :=
  "Failed to deserialize query string: duplicate field `" ++ name ++ "`"

/-- The search request that a query holds. -/
def requestOfQuery (query : String) : Except RequestError SearchRequest :=
  let pairs := Form.pairs query
  match repeated? [] (pairs.map (·.1)) with
  | some name => .error (.malformedQuery (repeatedMessage name))
  | none => .ok {
      q := pairs.lookup "q"
      page := pairs.lookup "page"
      perPage := pairs.lookup "per_page"
      language := pairs.lookup "language"
      labels := pairs.lookup "labels"
      sort := pairs.lookup "sort" }

end RepoSearch.Service
