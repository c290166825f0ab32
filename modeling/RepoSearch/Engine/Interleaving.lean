import RepoSearch.Engine.Action

/-!
# Searches that run side by side

Searches that run side by side share the slots, the flights and the cache. Each action of a search is indivisible, but
between two actions of one search the others may take any of theirs. The engine's runs are those in which a search is
left alone from its beginning until it waits, and from the end of its wait to its own end.
-/

namespace RepoSearch.Engine

/-- How far a search has come. -/
inductive Stage where
  /-- It has taken its slot. -/
  | claimed
  /-- It has looked its page up in vain. -/
  | missed
  /-- It waits for the fetch of its flight. -/
  | waiting (fetch : Fetch)
  /-- It has been handed the outcome of the fetch. -/
  | handed (fetch : Fetch) (outcome : Except SearchError Fetched)
  /-- It has a page to keep, and was not superseded when it last looked. -/
  | cleared (fetch : Fetch) (fetched : Fetched)
  /-- It has still to leave its flight. There is no result if its caller has gone away. -/
  | leaving (fetch : Fetch) (result : Option (Except SearchError Answer))
  /-- It has still to release its slot. -/
  | parting (fetch : Option Nat) (result : Option (Except SearchError Answer))

/-- A search under way. -/
structure Progress where
  search : Search
  superseded : Bool
  stage : Stage

/-- The key under which the search's page is kept. -/
def Progress.key (p : Progress) : String := p.search.criteria.cacheKey

/-- The stage of a waiting search once it looks whether it can go on: it minds first whether it is superseded. -/
def Progress.woken (p : Progress) (now : Nat) (fetch : Fetch) : Stage :=
  if p.superseded then .leaving fetch (some (.error .superseded))
  else if fetch.endsAt ≤ now then .handed fetch fetch.outcome
  else .waiting fetch

/-- The stage of a search that has been handed an outcome, once it looks whether it has been superseded meanwhile. -/
def Progress.judged (p : Progress) (fetch : Fetch) : Except SearchError Fetched → Stage
  | .error e => .leaving fetch (some (.error e))
  | .ok f => if p.superseded then .leaving fetch (some (.error .superseded)) else .cleared fetch f

/-- The stage of a search once its caller has gone away, of which it takes notice only while it waits. -/
def Progress.abandoned (p : Progress) : Stage :=
  match p.stage with
  | .waiting fetch => .leaving fetch none
  | stage => stage

/-- The next action of a search, and the stage that it reaches; it has ended if there is none. -/
def act (e : Engine) (p : Progress) : Option Stage × Engine :=
  match p.stage with
  | .claimed =>
    match e.lookUp p.key with
    | (some page, e) => (some (.parting none (some (.ok (p.search.cachedAnswer page)))), e)
    | (none, e) => (some .missed, e)
  | .missed =>
    let (fetch, e) := e.join p.search.criteria
    (some (.waiting fetch), e)
  | .waiting fetch => (some (p.woken e.now fetch), e)
  | .handed fetch outcome => (some (p.judged fetch outcome), e)
  | .cleared fetch f => (some (.leaving fetch (some (.ok (p.search.answer f)))), e.store p.key f.page)
  | .leaving fetch result => (some (.parting (some fetch.id) result), e.leave p.key fetch.id)
  | .parting _ _ => (none, e.release p.search)

/-- The event that the next action of a search brings about. -/
def Progress.event? (p : Progress) (now : Nat) : Option Event :=
  match p.stage with
  | .parting fetch result => result.map (.finished p.search fetch now)
  | _ => none

end RepoSearch.Engine

namespace RepoSearch

open Engine in
/-- The engine and the searches under way, by their generations. The engine's own list of waiting searches is empty. -/
structure Interleaving where
  engine : Engine
  underway : Std.ExtTreeMap Nat Progress compare

namespace Interleaving

open Engine

/-- No search is under way. -/
def start (setup : Setup) (cache : Cache ResultPage) : Interleaving where
  engine := .start setup cache
  underway := ∅

/-- What may happen next. -/
inductive Move where
  /-- A search with acceptable criteria begins by taking its slot. -/
  | enter (caller : String) (slot : Option String) (criteria : Criteria)
  /-- The search of a generation takes its next action. -/
  | act (generation : Nat)
  /-- The caller of a waiting search goes away. -/
  | abandon (generation : Nat)
  /-- Milliseconds pass. -/
  | pass (millis : Nat)

/-- The searches under way once one of them has lost its slot. -/
def displace (i : Interleaving) (holder : Option Nat) : Std.ExtTreeMap Nat Progress compare :=
  match holder with
  | some g => i.underway.modify g fun p => { p with superseded := true }
  | none => i.underway

/-- A search begins. -/
def enter (i : Interleaving) (caller : String) (slot : Option String) (criteria : Criteria) : Interleaving :=
  let (s, engine) := i.engine.claim caller slot criteria
  let others := i.displace i.engine.slots[s.slot]?
  { engine, underway := others.insert s.generation ⟨s, false, .claimed⟩ }

/-- The searches under way once one of them has reached a stage, or has ended. -/
def record (i : Interleaving) (g : Nat) (p : Progress) : Option Stage → Std.ExtTreeMap Nat Progress compare
  | some stage => i.underway.insert g { p with stage }
  | none => i.underway.erase g

/-- One move. -/
def perform (i : Interleaving) : Move → List Event × Interleaving
  | .enter caller slot criteria => ([], i.enter caller slot criteria)
  | .act g =>
    match i.underway[g]? with
    | none => ([], i)
    | some p =>
      let (stage, engine) := i.engine.act p
      ((p.event? i.engine.now).toList, { engine, underway := i.record g p stage })
  | .abandon g =>
    match i.underway[g]? with
    | some p => ([], { i with underway := i.record g p (some p.abandoned) })
    | none => ([], i)
  | .pass millis => ([], { i with engine := { i.engine with now := i.engine.now + millis } })

/-- A sequence of moves, with the events in order. -/
def run (i : Interleaving) : List Move → List Event × Interleaving
  | [] => ([], i)
  | m :: moves =>
    let (events, i) := i.perform m
    let (later, i) := i.run moves
    (events ++ later, i)

/-- The search that begins a fetch in a move: it has looked its page up in vain and finds no flight of its key. -/
def starts (i : Interleaving) : Move → Option Search
  | .act g =>
    match i.underway[g]? with
    | some ⟨s, _, .missed⟩ => if i.engine.flights.contains s.criteria.cacheKey then none else some s
    | _ => none
  | _ => none

end Interleaving

end RepoSearch
