import RepoSearch.Search.Answer

/-!
# Pages of GitHub's repository search

The service asks GitHub for one page at a time. A page that arrives holds raw records; they are reduced at once.
-/

namespace RepoSearch

/-- What is asked of GitHub for one page. -/
structure PageRequest where
  query : String
  sort : SortOrder
  page : Nat
  perPage : Nat
  deriving DecidableEq, Repr

/-- What is to be asked for given criteria. -/
def Criteria.pageRequest (c : Criteria) : PageRequest :=
  ⟨c.compile.queryString, c.sort, c.page, c.perPage⟩

/-- A page as GitHub sends it. -/
structure RawPage where
  totalCount : Nat
  items : List Json
  quota : Quota

/-- What a page hands to the searches that wait for it. -/
structure Fetched where
  page : ResultPage
  quota : Quota
  deriving DecidableEq, Repr

/-- Reduces the records of a page. -/
def RawPage.reduce (p : RawPage) : Fetched :=
  ⟨⟨p.totalCount, p.items.map Repository.ofJson⟩, p.quota⟩

/-- GitHub's reaction to a request: after some time, a page or an error. -/
structure Reply where
  delay : Duration
  outcome : Except SearchError RawPage

namespace Reply

/-- A page without results that comes at once. -/
def emptyPage : Reply := ⟨⟨0⟩, .ok ⟨0, [], ⟨none, none⟩⟩⟩

/-- The milliseconds that pass until a request ends, and how it ends, when the reply is awaited for no longer than
`timeout`. A reply that comes with the deadline still counts. -/
def within (timeout : Duration) (r : Reply) : Nat × Except SearchError Fetched :=
  if r.delay.millisUp ≤ timeout.millisUp then (r.delay.millisUp, r.outcome.map RawPage.reduce)
  else (timeout.millisUp, .error (.timedOut timeout))

end Reply

end RepoSearch
