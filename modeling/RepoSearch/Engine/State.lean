import RepoSearch.Cache
import RepoSearch.GitHub.Page

/-!
# The state of the search engine

A search runs in a slot. The slot's ticket names the search that holds it by its generation; a newer search takes the
ticket and thereby supersedes the older one. A search that the cache cannot answer waits for a fetch, and all searches
with the same cache key wait for the same one: the flight of that key counts them. Generations and fetches are numbered
by one counter. Time is counted in milliseconds.
-/

namespace RepoSearch

namespace Engine

/-- What does not change while the engine runs. -/
structure Setup where
  limits : Limits
  /-- How long a fetch may take. -/
  timeout : Duration
  /-- GitHub's replies to the first calls; later calls get an empty page. -/
  replies : List Reply
  /-- The clock by which cache entries age. It stands still while the engine runs. -/
  clock : Instant := ⟨0⟩

/-- A search that has taken a slot. -/
structure Search where
  /-- The one to whom the result goes. -/
  caller : String
  slot : String
  generation : Nat
  criteria : Criteria
  deriving DecidableEq, Repr

/-- A request to GitHub under way, with its fixed end and outcome. -/
structure Fetch where
  id : Nat
  endsAt : Nat
  outcome : Except SearchError Fetched

/-- A fetch and the number of searches that wait for it. -/
structure Flight where
  fetch : Fetch
  waiters : Nat

/-- A search that waits for a fetch. -/
structure Waiting where
  search : Search
  fetch : Fetch
  superseded : Bool

/-- A request sent to GitHub for a fetch, the time when it was sent, and the reply it will get. -/
structure Call where
  fetch : Nat
  request : PageRequest
  sentAt : Nat
  reply : Reply

/-- The end of a search. -/
inductive Event where
  /-- The request is at fault; no search came of it. -/
  | refused (caller : String) (fault : RequestError)
  /-- The search ended at the given time. It has waited for a fetch, unless the cache answered it. -/
  | finished (search : Search) (fetch : Option Nat) (time : Nat) (result : Except SearchError Answer)

end Engine

open Engine in
/-- The state of the search engine. -/
structure Engine where
  setup : Setup
  /-- The time in milliseconds. -/
  now : Nat
  nextId : Nat
  /-- The generation of each slot's holder. -/
  slots : Table Nat
  /-- The flight of each cache key. -/
  flights : Table Flight
  cache : Cache ResultPage
  /-- The searches that wait, in the order in which they began. -/
  waiting : List Waiting
  /-- The calls so far, in order. -/
  calls : List Call

namespace Engine

/-- An engine at rest. -/
def start (setup : Setup) (cache : Cache ResultPage) : Engine where
  setup := setup
  now := 0
  nextId := 0
  slots := ∅
  flights := ∅
  cache := cache
  waiting := []
  calls := []

/-- The key under which a waiting search's page is kept. -/
def Waiting.key (w : Waiting) : String := w.search.criteria.cacheKey

/-- A waiting search goes on once it is superseded or its fetch has ended. -/
def Waiting.ready (now : Nat) (w : Waiting) : Bool :=
  w.superseded || w.fetch.endsAt ≤ now

/-- Fetches end in the order of their ends; of those that end together, the one begun earlier comes first. -/
def Waiting.endsBefore (v w : Waiting) : Bool :=
  v.fetch.endsAt < w.fetch.endsAt || (v.fetch.endsAt == w.fetch.endsAt && v.fetch.id ≤ w.fetch.id)

end Engine

end RepoSearch
