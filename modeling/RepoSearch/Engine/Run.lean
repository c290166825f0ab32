import RepoSearch.Engine.Action

/-!
# Runs of the search engine

A run is a sequence of steps: a search begins, time passes, a caller goes away, the cache is cleared, or an entry is put
into it. After each step every search waits for time to pass.
-/

namespace RepoSearch.Engine

/-- A step of a run. -/
inductive Step where
  /-- A caller asks for a search, in a slot of that name or in one of its own. -/
  | search (caller : String) (slot : Option String) (request : SearchRequest)
  /-- Milliseconds pass. -/
  | advance (millis : Nat)
  /-- The caller goes away. -/
  | abort (caller : String)
  /-- The cache is cleared. -/
  | clear
  /-- A page without items is kept for the criteria, as if it had been kept some time ago. -/
  | seed (criteria : Criteria) (age : Duration) (totalCount : Nat)

/-- A search with acceptable criteria begins: the cache answers it, or it waits for a fetch. -/
def begin (e : Engine) (caller : String) (slot : Option String) (criteria : Criteria) : List Event × Engine :=
  let (s, e) := e.claim caller slot criteria
  match e.lookUp criteria.cacheKey with
  | (some page, e) => ([.finished s none e.now (.ok (s.cachedAnswer page))], e.release s)
  | (none, e) =>
    let (fetch, e) := e.join criteria
    ([], { e with waiting := e.waiting ++ [⟨s, fetch, false⟩] })

/-- A search is asked for. -/
def search (e : Engine) (caller : String) (slot : Option String) (request : SearchRequest) :
    List Event × Engine :=
  match request.check e.setup.limits with
  | .error fault => ([.refused caller fault], e)
  | .ok criteria =>
    let (begun, e) := e.begin caller slot criteria
    let (settled, e) := e.settle
    (begun ++ settled, e)

/-- The waiting searches go on whose fetches have ended by the given time, each when its fetch ends. -/
def resumeDue (e : Engine) : List Waiting → List Event × Engine
  | [] => ([], e)
  | w :: ws =>
    let (event, e) := { e with now := w.fetch.endsAt }.resume w
    let (events, e) := e.resumeDue ws
    (event :: events, e)

/-- Time passes. -/
def advance (e : Engine) (millis : Nat) : List Event × Engine :=
  let target := e.now + millis
  let due := (e.waiting.filter fun w => w.fetch.endsAt ≤ target).mergeSort Waiting.endsBefore
  let (events, e) := e.resumeDue due
  (events, { e with now := target })

/-- The waiting searches of a caller are given up. -/
def abort (e : Engine) (caller : String) : Engine :=
  (e.waiting.filter fun w => w.search.caller = caller).foldl dismiss e

/-- A page without items is put into the cache. -/
def seed (e : Engine) (criteria : Criteria) (age : Duration) (totalCount : Nat) : Engine :=
  { e with cache := e.cache.set criteria.cacheKey ⟨totalCount, []⟩ (e.setup.clock.before age) }

/-- One step of a run. -/
def step (e : Engine) : Step → List Event × Engine
  | .search caller slot request => e.search caller slot request
  | .advance millis => e.advance millis
  | .abort caller => ([], e.abort caller)
  | .clear => ([], { e with cache := e.cache.clear })
  | .seed criteria age totalCount => ([], e.seed criteria age totalCount)

/-- A whole run, with the events in order. -/
def run (e : Engine) : List Step → List Event × Engine
  | [] => ([], e)
  | s :: steps =>
    let (events, e) := e.step s
    let (later, e) := e.run steps
    (events ++ later, e)

/-- The statistics of the cache. -/
def stats (e : Engine) : Cache.Stats × Engine :=
  let (stats, cache) := e.cache.stats e.setup.clock
  (stats, { e with cache })

end RepoSearch.Engine
