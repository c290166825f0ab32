import RepoSearch.Service.Parameters
import RepoSearch.Service.Slot
import RepoSearch.Service.State

/-!
# Routes

A request is answered by the route of its path, which must match exactly. Routes are open to the methods GET and HEAD;
HEAD does all that GET does and leaves out the body. A search request is checked by the rate limiter before anything
else. If other origins are allowed, every response says so, and every OPTIONS request is answered at once.
-/

namespace RepoSearch

/-- What the service offers. -/
inductive Route where
  | search | languages | sortOptions | searchSyntax | health
  deriving DecidableEq, Repr

namespace Route

def all : List Route := [search, languages, sortOptions, searchSyntax, health]

def path : Route → String
  | search => "/api/search"
  | languages => "/api/languages"
  | sortOptions => "/api/sort-options"
  | searchSyntax => "/api/search-syntax"
  | health => "/api/health"

def ofPath? (path : String) : Option Route :=
  all.find? (·.path == path)

end Route

namespace Service

open Http

/-! ### Headers for other origins -/

def varyHeader : String × String :=
  ("vary", "origin, access-control-request-method, access-control-request-headers")

def allowOrigin : String × String := ("access-control-allow-origin", "*")

/-- The headers of a response that other origins may read. -/
def sharedHeaders : List (String × String) :=
  [allowOrigin, ("access-control-expose-headers", "*"), varyHeader]

/-- The headers of the answer to a question about what other origins may do. -/
def preflightHeaders : List (String × String) :=
  [allowOrigin, ("access-control-allow-methods", "*"), ("access-control-allow-headers", "*"), varyHeader]

/-- The headers that name the methods a route is open to. -/
def methodHeaders : List (String × String) :=
  [("allow", "GET,HEAD"), ("content-length", "0")]

/-- The answer to an OPTIONS request. -/
def preflight (route : Option Route) : Response :=
  .bare 200 (preflightHeaders ++ if route.isSome then methodHeaders else [])

/-! ### Responses -/

/-- The response that tells a client about an error. -/
def errorResponse (date : Timestamp) (e : SearchError) : Response :=
  .json e.status ((e.retryAfter? date).toList.map fun s => ("retry-after", Decimal.render s)) e.toJson

/-- The response to a search. -/
def searchResponse (date : Timestamp) : Except SearchError Answer → Response
  | .ok answer => .json 200 [] answer.toJson
  | .error e => errorResponse date e

/-- A response as it is sent. -/
def dress (s : Service) (headOnly : Bool) (r : Response) : Response :=
  let r := if headOnly then r.withoutBody else r
  if s.settings.allowAnyOrigin then r.withHeaders sharedHeaders else r

/-- The responses that the events of the engine call for. -/
def deliver (s : Service) (events : List Engine.Event) : List Delivery :=
  events.map fun event =>
    let (caller, result) := match event with
      | .refused caller fault => (caller, Except.error (SearchError.request fault))
      | .finished search _ _ result => (search.caller, result)
    (caller, some (s.dress (s.headOnly.contains caller) (searchResponse s.date result)))

/-! ### Routes that answer at once -/

def languagesBody : Json :=
  .obj [("languages", .strings (Language.all.map Language.name))]

def sortOptionsBody : Json :=
  .obj [("sort_options", .arr (SortOrder.all.map fun o =>
    .obj [("value", .str o.name), ("label", .str o.label)]))]

/-- The state of the service in numbers. Expired cache entries are removed first. -/
def health (s : Service) : Json × Service :=
  let (stats, engine) := s.engine.stats
  let body : Json := .obj [
    ("status", .str "ok"),
    ("cache", .obj [("keys", .ofNat stats.keys), ("hits", .ofNat stats.hits), ("misses", .ofNat stats.misses)]),
    ("uptime", .ofNat (s.clock.since s.startedAt).secs),
    ("in_flight", .ofNat engine.slots.size)]
  (body, { s with engine })

/-! ### Searches -/

/-- A request of the search route. -/
def search (s : Service) (r : Request) : List Delivery × Service :=
  let client := r.client.render
  let head := r.method == "HEAD"
  let refuse (s : Service) (e : SearchError) : List Delivery × Service :=
    ([(r.caller, some (s.dress head (errorResponse s.date e)))], s)
  let (verdict, limiter) := s.limiter.check s.date client s.clock
  let s := { s with limiter }
  match verdict with
  | .beyondCalendar => ([(r.caller, none)], s)
  | .rejected retryAfter resetTime => refuse s (.rateLimited retryAfter resetTime)
  | .accepted =>
    match requestOfQuery r.query with
    | .error fault => refuse s (.request fault)
    | .ok request =>
      let others := s.headOnly.filter (· ≠ r.caller)
      let s := { s with headOnly := if head then r.caller :: others else others }
      let (events, engine) := s.engine.search r.caller (slot? r.headers client) request
      let s := { s with engine }
      (s.deliver events, s)

/-- A request of any route, by a method that the route is open to. -/
def answer (s : Service) (r : Request) (route : Route) : List Delivery × Service :=
  let reply (s : Service) (body : Json) : List Delivery × Service :=
    ([(r.caller, some (s.dress (r.method == "HEAD") (.json 200 [] body)))], s)
  match route with
  | .search => s.search r
  | .languages => reply s languagesBody
  | .sortOptions => reply s sortOptionsBody
  | .searchSyntax => reply s Reference.toJson
  | .health =>
    let (body, s) := s.health
    reply s body

/-- A request. -/
def request (s : Service) (r : Request) : List Delivery × Service :=
  let route := Route.ofPath? r.path
  let plain (response : Response) : List Delivery × Service :=
    ([(r.caller, some (s.dress false response))], s)
  if s.settings.allowAnyOrigin ∧ r.method = "OPTIONS" then ([(r.caller, some (preflight route))], s)
  else match route with
    | none => plain (.bare 404 [])
    | some route =>
      if r.method ∈ ["GET", "HEAD"] then s.answer r route else plain (.bare 405 methodHeaders)

end Service

end RepoSearch
