import RepoSearch.Engine.Run
import RepoSearch.GitHub.Payload
import RepoSearch.GitHub.Quota
import RepoSearch.Settings
import RepoSearch.Text.Form

/-!
# The GitHub client

A page is asked for by one GET request. What comes back is a page only if the status is a success and the whole body can
be read; otherwise the search fails.
-/

namespace RepoSearch.GitHub

/-- How the client presents itself, and the path under which the API is reached. -/
structure Client where
  basePath : String
  token : Option String
  userAgent : String

/-- A request as GitHub sees it. -/
structure Sent where
  method : String
  target : String
  accept : String
  userAgent : String
  authorization : Option String
  deriving DecidableEq, Repr

/-- GitHub's answer on the wire: `none` when the connection is closed without one. -/
structure Received where
  status : Nat
  headers : List Http.Header
  body : List UInt8
  /-- The body has the length that was announced. -/
  complete : Bool

/-- The error of a request that got no answer. -/
def unreachable : SearchError := .failed none "could not reach upstream search"

/-- The parameters of a request, in order. -/
def parameters (r : PageRequest) : List (String × String) :=
  [("q", r.query), ("sort", r.sort.name), ("order", "desc"),
    ("page", Decimal.render r.page), ("per_page", Decimal.render r.perPage)]

/-- The text can be the value of a header field. -/
def isHeaderText (s : String) : Bool :=
  (Utf8.encode s).all Http.Header.isValueOctet

/-- How the client proves that it may ask. -/
def Client.authorization (c : Client) : Option String :=
  c.token.map ("Bearer " ++ ·)

/-- The client can present itself: its name and its proof can stand in header fields. -/
def Client.presentable (c : Client) : Bool :=
  isHeaderText c.userAgent && c.authorization.all isHeaderText

/-- The request for a page, if the client can present itself. -/
def Client.request? (c : Client) (r : PageRequest) : Option Sent :=
  if c.presentable then
    some {
      method := "GET"
      target := c.basePath ++ "/search/repositories?" ++ Form.render (parameters r)
      accept := "application/vnd.github.v3+json"
      userAgent := c.userAgent
      authorization := c.authorization }
  else none

/-- Statuses from 200 to 299 are successes. -/
def isSuccess (status : Nat) : Bool := 200 ≤ status && status ≤ 299

/-- The body, which an answer with status 204 does not have. -/
def Received.content (r : Received) : List UInt8 :=
  if r.status = 204 then [] else r.body

/-- What an answer amounts to. -/
def Received.outcome (r : Received) : Except SearchError RawPage :=
  let quota := Quota.ofHeaders r.headers
  if isSuccess r.status then
    match if r.complete then Payload.ofBody? r.content else none with
    | some p => .ok ⟨p.totalCount, p.items, quota⟩
    | none => .error (.failed (some r.status) "upstream search returned an unreadable response")
  else .error (.ofStatus r.status quota)

/-- What every request of the client amounts to when GitHub answers as given. -/
def Client.outcome (c : Client) (received : Option Received) : Except SearchError RawPage :=
  match received with
  | some r => if c.presentable then r.outcome else .error unreachable
  | none => .error unreachable

/-! ### A whole search -/

/-- GitHub's answer does not come at once, but before the shortest timeout has passed. -/
def latency : Duration := .ofMillis 1

/-- An engine whose only call is answered as given. -/
def Client.engine (c : Client) (settings : Settings) (received : Option Received) : Engine :=
  .start ⟨settings.limits, settings.fetchTimeout, [⟨latency, c.outcome received⟩], ⟨0⟩⟩
    (.empty settings.cacheTtl settings.cacheCapacity)

/-- The requests that reach GitHub for the calls of an engine. One that is given up at once is not sent. -/
def Client.sent (c : Client) (e : Engine) : List Sent :=
  if e.setup.timeout.nanos = 0 then [] else e.calls.filterMap fun call => c.request? call.request

/-- What GitHub sees of the search of a caller, and the events that end it. -/
def Client.search (c : Client) (settings : Settings) (caller : String) (r : SearchRequest)
    (received : Option Received) : List Sent × List Engine.Event :=
  let (events, e) := (c.engine settings received).run [.search caller none r, .advance 1]
  (c.sent e, events)

end RepoSearch.GitHub
