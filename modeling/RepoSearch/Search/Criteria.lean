import RepoSearch.Json.Printer
import RepoSearch.Query.Compiled
import RepoSearch.Search.Error
import RepoSearch.Search.Request

/-!
# Search criteria

Criteria are the parameters of a request that keeps within the limits. The parameters are checked in a fixed order and
the first fault is reported. A parameter that is blank counts as absent.
-/

namespace RepoSearch

/-- A search whose parameters are all acceptable. -/
structure Criteria where
  /-- The query's text without its outer blanks, operators included. -/
  query : String
  page : Nat
  perPage : Nat
  sort : SortOrder
  /-- The labels of the `labels` parameter, in the order given. -/
  labels : List String
  language : Option Language
  deriving DecidableEq, Repr

/-- The text of a parameter without its outer blanks, if anything remains. -/
def present? (parameter : Option String) : Option String :=
  (parameter.map Text.trim).filter (!·.isEmpty)

/-- The entries of a comma-separated list without their outer blanks; empty ones are left out. -/
def splitLabels (text : Option String) : List String :=
  match text with
  | none => []
  | some s => ((s.toList.splitOn ',').map fun cs => Text.trim (String.ofList cs)).filter (!·.isEmpty)

/-- A number between 1 and `max`, or the fallback for an absent one. -/
def boundedNumber? (text : Option String) (fallback max : Nat) : Option Nat :=
  match text with
  | none => some fallback
  | some s => (Decimal.read? Decimal.max32 s).filter fun n => 1 ≤ n ∧ n ≤ max

namespace SearchRequest

/-- The query's text without its outer blanks. -/
def queryText (r : SearchRequest) : String :=
  Text.trim (r.q.getD "")

/-- The labels of the parameter and of the query's text together. -/
def labelCount (r : SearchRequest) : Nat :=
  (splitLabels (present? r.labels)).length + (ParsedQuery.parse r.queryText).labels.length

/-- The sort order asked for. -/
def sortOrder? (r : SearchRequest) : Except RequestError SortOrder :=
  match present? r.sort with
  | none => .ok .stars
  | some s => match SortOrder.read? s with
    | some order => .ok order
    | none => .error (.unsupportedSort s)

/-- The language asked for. -/
def language? (r : SearchRequest) : Except RequestError (Option Language) :=
  match present? r.language with
  | none => .ok none
  | some s => match Language.read? s with
    | some language => .ok (some language)
    | none => .error (.unsupportedLanguage s)

/-- Checks a request against the limits. -/
def check (r : SearchRequest) (limits : Limits) : Except RequestError Criteria := do
  if r.queryText.length < limits.minQueryLength then
    throw (.queryTooShort limits.minQueryLength)
  let some page := boundedNumber? (present? r.page) limits.defaultPage limits.maxPage
    | throw (.pageOutOfRange limits.maxPage)
  let some perPage := boundedNumber? (present? r.perPage) limits.defaultPerPage limits.maxPerPage
    | throw (.perPageOutOfRange limits.maxPerPage)
  let sort ← r.sortOrder?
  if limits.maxLabels < r.labelCount then
    throw (.tooManyLabels limits.maxLabels r.labelCount)
  let language ← r.language?
  return { query := r.queryText, page, perPage, sort, labels := splitLabels (present? r.labels), language }

end SearchRequest

namespace Criteria

/-- The criteria as one text, by which their results are kept. -/
def cacheKey (c : Criteria) : String :=
  Json.render <| .arr [
    .str c.query,
    .orNull (fun l => .str l.name) c.language,
    .strings c.labels,
    .str c.sort.name,
    .ofNat c.page,
    .ofNat c.perPage]

/-- The query to be sent for the criteria. -/
def compile (c : Criteria) : CompiledQuery :=
  .ofTextWithFilters c.query c.sort c.language c.labels

end Criteria

end RepoSearch
