import RepoSearch.Service.Route

/-!
# Runs of the service

Beside the requests it gets, the service goes through the steps of its engine, and windows of the rate limiter may have
been opened before.
-/

namespace RepoSearch.Service

/-- A step of a run. -/
inductive Step where
  | request (r : Http.Request)
  /-- A step of the engine other than a search. -/
  | engine (step : Engine.Step)
  /-- A client's requests are checked that were made some time ago. -/
  | preload (client : String) (times : Nat) (age : Duration)

/-- A client's requests are checked as of an earlier time. -/
def preload (s : Service) (client : String) (times : Nat) (age : Duration) : Service :=
  { s with limiter := times.repeat (fun l => (l.check s.date client (s.clock.before age)).2) s.limiter }

/-- One step of a run. -/
def step (s : Service) : Step → List Delivery × Service
  | .request r => s.request r
  | .engine step =>
    let (events, engine) := s.engine.step step
    let s := { s with engine }
    (s.deliver events, s)
  | .preload client times age => ([], s.preload client times age)

/-- A whole run, with the deliveries in order. -/
def run (s : Service) : List Step → List Delivery × Service
  | [] => ([], s)
  | st :: steps =>
    let (deliveries, s) := s.step st
    let (later, s) := s.run steps
    (deliveries ++ later, s)

end RepoSearch.Service
