import RepoSearch.Engine.State

/-!
# The actions of a search

A search claims its slot, looks its page up in the cache, and, if it is not there, joins the flight of its key or begins
one. When it goes on it stores the page it was handed, leaves the flight and releases the slot. Each of these actions is
indivisible; a flight that its last waiter leaves is gone, and a slot is released only by the search that holds it.
-/

namespace RepoSearch.Engine

/-- Takes the next number of the counter. -/
def draw (e : Engine) : Nat × Engine :=
  (e.nextId, { e with nextId := e.nextId + 1 })

/-- Marks the waiting search of a generation as superseded. -/
def supersede (e : Engine) (generation : Nat) : Engine :=
  { e with waiting := e.waiting.map fun w =>
      if w.search.generation = generation then { w with superseded := true } else w }

/-- The name of the slot of a search that names none. -/
def ownSlot (generation : Nat) : String :=
  "#" ++ Decimal.render generation

/-- Takes a slot for a search, superseding the one that holds it. -/
def claim (e : Engine) (caller : String) (slot : Option String) (criteria : Criteria) : Search × Engine :=
  let (generation, e) := e.draw
  let slot := slot.getD (ownSlot generation)
  let e := match e.slots[slot]? with
    | some holder => e.supersede holder
    | none => e
  (⟨caller, slot, generation, criteria⟩, { e with slots := e.slots.insert slot generation })

/-- Looks up the page of a key. -/
def lookUp (e : Engine) (key : String) : Option ResultPage × Engine :=
  let (page, cache) := e.cache.get key e.setup.clock
  (page, { e with cache })

/-- GitHub's reply to the next call. -/
def nextReply (e : Engine) : Reply :=
  (e.setup.replies[e.calls.length]?).getD .emptyPage

/-- The fetch that the next call makes. -/
def nextFetch (e : Engine) (id : Nat) : Fetch :=
  let ended := e.nextReply.within e.setup.timeout
  ⟨id, e.now + ended.1, ended.2⟩

/-- Sends a request to GitHub. -/
def send (e : Engine) (id : Nat) (request : PageRequest) : Fetch × Engine :=
  (e.nextFetch id, { e with calls := e.calls ++ [⟨id, request, e.now, e.nextReply⟩] })

/-- Joins the flight of the criteria's key, or begins one. -/
def join (e : Engine) (criteria : Criteria) : Fetch × Engine :=
  let key := criteria.cacheKey
  match e.flights[key]? with
  | some f => (f.fetch, { e with flights := e.flights.insert key { f with waiters := f.waiters + 1 } })
  | none =>
    let (id, e) := e.draw
    let (fetch, e) := e.send id criteria.pageRequest
    (fetch, { e with flights := e.flights.insert key ⟨fetch, 1⟩ })

/-- Keeps a page under a key. -/
def store (e : Engine) (key : String) (page : ResultPage) : Engine :=
  { e with cache := e.cache.set key page e.setup.clock }

/-- One waiter leaves the flight of a key, if it is still the flight of the given fetch. -/
def leave (e : Engine) (key : String) (fetch : Nat) : Engine :=
  match e.flights[key]? with
  | none => e
  | some f =>
    if f.fetch.id ≠ fetch then e
    else if f.waiters - 1 = 0 then { e with flights := e.flights.erase key }
    else { e with flights := e.flights.insert key { f with waiters := f.waiters - 1 } }

/-- Gives a slot back, if the search still holds it. -/
def release (e : Engine) (s : Search) : Engine :=
  if e.slots[s.slot]? = some s.generation then { e with slots := e.slots.erase s.slot } else e

/-- A search stops waiting: it leaves its flight and releases its slot. -/
def dismiss (e : Engine) (w : Waiting) : Engine :=
  let e := (e.leave w.key w.fetch.id).release w.search
  { e with waiting := e.waiting.filter fun v => v.search.generation ≠ w.search.generation }

/-! ### Going on -/

/-- What a waiting search is handed when it goes on. -/
def Waiting.outcome (w : Waiting) : Except SearchError Fetched :=
  if w.superseded then .error .superseded else w.fetch.outcome

/-- The answer made of a fetched page. -/
def Search.answer (s : Search) (f : Fetched) : Answer :=
  ⟨f.page, false, .ofCriteria s.criteria, some f.quota⟩

/-- The answer made of a page in the cache. -/
def Search.cachedAnswer (s : Search) (page : ResultPage) : Answer :=
  ⟨page, true, .ofCriteria s.criteria, none⟩

/-- Keeps the page that a search is handed, if it is handed one. -/
def keep (e : Engine) (w : Waiting) : Engine :=
  match w.outcome with
  | .ok f => e.store w.key f.page
  | .error _ => e

/-- A waiting search goes on to its end. -/
def resume (e : Engine) (w : Waiting) : Event × Engine :=
  (.finished w.search (some w.fetch.id) e.now (w.outcome.map w.search.answer), (e.keep w).dismiss w)

/-- Several waiting searches go on, one after the other. -/
def resumeAll (e : Engine) : List Waiting → List Event × Engine
  | [] => ([], e)
  | w :: ws =>
    let (event, e) := e.resume w
    let (events, e) := e.resumeAll ws
    (event :: events, e)

/-- All searches that are ready go on. -/
def settle (e : Engine) : List Event × Engine :=
  e.resumeAll (e.waiting.filter (·.ready e.now))

end RepoSearch.Engine
