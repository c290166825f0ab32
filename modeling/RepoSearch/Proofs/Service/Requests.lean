import RepoSearch.Proofs.CacheEntries
import RepoSearch.Proofs.Engine.Leaving
import RepoSearch.Service.Run

/-!
# Requests and their effects

A request of the search route is put to the rate limiter, then its query is read, then the search request in it is
checked, and only then does it reach the engine. If it is refused on the way, the limiter has counted it and nothing
else has happened. Requests of other routes, or by other methods, do not even reach the limiter.
-/

namespace RepoSearch

/-- The one to whom the result of a search goes. -/
def Engine.Event.caller : Engine.Event → String
  | .refused caller _ => caller
  | .finished search _ _ _ => search.caller

namespace Route

theorem ofPath?_eq_some_iff {path : String} {route : Route} : ofPath? path = some route ↔ path = route.path := by
  constructor
  · intro h
    have hfound := List.find?_some h
    rw [beq_iff_eq] at hfound
    exact hfound.symm
  · rintro rfl
    cases route <;> decide

end Route

namespace Service

open Http

/-- A request asks for a route when it has the route's path and one of the methods that routes are open to. -/
def Asks (r : Request) (route : Route) : Prop := r.path = route.path ∧ r.method ∈ ["GET", "HEAD"]

instance (r : Request) (route : Route) : Decidable (Asks r route) :=
  inferInstanceAs (Decidable (r.path = route.path ∧ r.method ∈ ["GET", "HEAD"]))

variable {s : Service} {r : Request}

theorem request_of_asks {route : Route} (h : Asks r route) : s.request r = s.answer r route := by
  obtain ⟨hpath, hmethod⟩ := h
  have open' : ¬(s.settings.allowAnyOrigin = true ∧ r.method = "OPTIONS") := by
    rintro ⟨-, hoptions⟩
    rw [hoptions] at hmethod
    exact absurd hmethod (by decide)
  rw [request, if_neg open', Route.ofPath?_eq_some_iff.2 hpath]
  exact if_pos hmethod

theorem status_dress (headOnly : Bool) (response : Response) : (s.dress headOnly response).status = response.status := by
  unfold dress
  cases headOnly <;> cases s.settings.allowAnyOrigin <;> rfl

/-- A request that asks for no route is answered at once. -/
theorem request_of_not_asks (h : ∀ route, ¬Asks r route) : ∃ response : Response,
    response.status ∈ [200, 404, 405] ∧ s.request r = ([(r.caller, some response)], s) := by
  by_cases hoptions : s.settings.allowAnyOrigin = true ∧ r.method = "OPTIONS"
  · refine ⟨preflight (Route.ofPath? r.path), ?_, ?_⟩
    · show 200 ∈ [200, 404, 405]
      decide
    · rw [request, if_pos hoptions]
  · rw [request, if_neg hoptions]
    cases hroute : Route.ofPath? r.path with
    | none =>
      refine ⟨s.dress false (.bare 404 []), ?_, rfl⟩
      rw [status_dress]
      decide
    | some route =>
      have hmethod : ¬r.method ∈ ["GET", "HEAD"] := fun hmethod =>
        h route ⟨Route.ofPath?_eq_some_iff.1 hroute, hmethod⟩
      refine ⟨s.dress false (.bare 405 methodHeaders), ?_, ?_⟩
      · rw [status_dress]
        decide
      · dsimp only
        rw [if_neg hmethod]

/-! ### Requests of the search route -/

/-- The criteria that a request of the search route comes to the engine with, or the error by which it is refused: by
the limiter, for its query, or for what the query asks for. There is none to tell when the limiter breaks off. -/
def vet (s : Service) (r : Request) : Except (Option SearchError) Criteria :=
  match (s.limiter.check s.date r.client.render s.clock).1 with
  | .beyondCalendar => .error none
  | .rejected retryAfter resetTime => .error (some (.rateLimited retryAfter resetTime))
  | .accepted =>
    match requestOfQuery r.query with
    | .error fault => .error (some (.request fault))
    | .ok request =>
      match request.check s.engine.setup.limits with
      | .error fault => .error (some (.request fault))
      | .ok criteria => .ok criteria

/-- The service once the limiter has checked a request. -/
def checked (s : Service) (r : Request) : Service :=
  { s with limiter := (s.limiter.check s.date r.client.render s.clock).2 }

/-- The callers without a body once a search has been asked for. -/
def listed (s : Service) (r : Request) : List String :=
  if r.method == "HEAD" then r.caller :: s.headOnly.filter (· ≠ r.caller) else s.headOnly.filter (· ≠ r.caller)

private theorem contains_listed {caller : String} (h : caller ≠ r.caller) :
    (s.listed r).contains caller = s.headOnly.contains caller := by
  rw [Bool.eq_iff_iff, List.contains_iff_mem, List.contains_iff_mem, listed]
  split_ifs <;> simp [h]

private theorem contains_caller_listed : (s.listed r).contains r.caller = (r.method == "HEAD") := by
  rw [Bool.eq_iff_iff, List.contains_iff_mem, listed]
  split_ifs with hhead <;> simp [hhead]

/-- The step of the engine that a search request asks for. -/
def askedStep (r : Request) (request : SearchRequest) : Engine.Step :=
  .search r.caller (slot? r.headers r.client.render) request

/-- The service once a search request has come to its engine. -/
def asked (s : Service) (r : Request) (request : SearchRequest) : Service :=
  { s.checked r with headOnly := s.listed r, engine := (s.engine.step (askedStep r request)).2 }

private theorem search_of_readable {request : SearchRequest}
    (hverdict : (s.limiter.check s.date r.client.render s.clock).1 = .accepted)
    (hquery : requestOfQuery r.query = .ok request) :
    s.search r = ((s.asked r request).deliver (s.engine.step (askedStep r request)).1, s.asked r request) := by
  unfold search
  simp only [hverdict, hquery]
  rfl

private theorem search_of_unreadable {fault : RequestError}
    (hverdict : (s.limiter.check s.date r.client.render s.clock).1 = .accepted)
    (hquery : requestOfQuery r.query = .error fault) :
    s.search r = ([(r.caller, some (s.dress (r.method == "HEAD") (errorResponse s.date (.request fault))))],
      s.checked r) := by
  unfold search
  simp only [hverdict, hquery]
  rfl

private theorem search_of_rejected {retryAfter : Duration} {resetTime : Timestamp}
    (hverdict : (s.limiter.check s.date r.client.render s.clock).1 = .rejected retryAfter resetTime) :
    s.search r = ([(r.caller, some (s.dress (r.method == "HEAD")
      (errorResponse s.date (.rateLimited retryAfter resetTime))))], s.checked r) := by
  unfold search
  simp only [hverdict]
  rfl

private theorem search_of_beyondCalendar
    (hverdict : (s.limiter.check s.date r.client.render s.clock).1 = .beyondCalendar) :
    s.search r = ([(r.caller, none)], s.checked r) := by
  unfold search
  simp only [hverdict]
  rfl

theorem vet_eq_ok_iff {criteria : Criteria} : s.vet r = .ok criteria ↔
    (s.limiter.check s.date r.client.render s.clock).1 = .accepted ∧
      ∃ request, requestOfQuery r.query = .ok request ∧ request.check s.engine.setup.limits = .ok criteria := by
  unfold vet
  cases (s.limiter.check s.date r.client.render s.clock).1 with
  | accepted =>
    cases requestOfQuery r.query with
    | error fault => simp
    | ok request => cases hcheck : request.check s.engine.setup.limits <;> simp [hcheck]
  | _ => simp

/-- A request that is refused is told why, the limiter has checked it, and the engine is as before. -/
theorem search_of_vet_eq_error {reason : Option SearchError} (h : s.vet r = .error reason) :
    ∃ headOnly, s.search r = ([(r.caller, reason.map fun e => s.dress (r.method == "HEAD") (errorResponse s.date e))],
        { s.checked r with headOnly }) ∧
      ∀ caller, caller ≠ r.caller → headOnly.contains caller = s.headOnly.contains caller := by
  unfold vet at h
  cases hverdict : (s.limiter.check s.date r.client.render s.clock).1 with
  | beyondCalendar =>
    rw [hverdict] at h
    cases h
    exact ⟨s.headOnly, search_of_beyondCalendar hverdict, fun _ _ => rfl⟩
  | rejected retryAfter resetTime =>
    rw [hverdict] at h
    cases h
    exact ⟨s.headOnly, search_of_rejected hverdict, fun _ _ => rfl⟩
  | accepted =>
    rw [hverdict] at h
    dsimp only at h
    cases hquery : requestOfQuery r.query with
    | error fault =>
      rw [hquery] at h
      cases h
      exact ⟨s.headOnly, search_of_unreadable hverdict hquery, fun _ _ => rfl⟩
    | ok request =>
      rw [hquery] at h
      dsimp only at h
      cases hcheck : request.check s.engine.setup.limits with
      | ok criteria =>
        rw [hcheck] at h
        cases h
      | error fault =>
        rw [hcheck] at h
        cases h
        -- The request comes to the engine, which refuses it at once.
        have hstep : s.engine.step (askedStep r request) = ([.refused r.caller fault], s.engine) := by
          show s.engine.search r.caller (slot? r.headers r.client.render) request = _
          rw [Engine.search, hcheck]
        refine ⟨s.listed r, ?_, fun caller hcaller => contains_listed hcaller⟩
        rw [search_of_readable hverdict hquery, asked, hstep]
        have head : (s.listed r).contains r.caller = (r.method == "HEAD") := contains_caller_listed
        simp only [deliver, List.map_cons, List.map_nil, head]
        rfl

/-- A request that is not refused comes to the engine, and what the engine has to say is delivered. -/
theorem search_of_vet_eq_ok {criteria : Criteria} (h : s.vet r = .ok criteria) : ∃ request,
    requestOfQuery r.query = .ok request ∧ request.check s.engine.setup.limits = .ok criteria ∧
    s.search r = ((s.asked r request).deliver (s.engine.step (askedStep r request)).1, s.asked r request) := by
  obtain ⟨hverdict, request, hquery, hcheck⟩ := vet_eq_ok_iff.1 h
  exact ⟨request, hquery, hcheck, search_of_readable hverdict hquery⟩

/-! ### Requests of other routes -/

private theorem answer_of_ne_search {route : Route} (h : route ≠ .search) : ∃ response : Response,
    response.status = 200 ∧ s.answer r route = ([(r.caller, some response)],
      if route = .health then { s with engine := s.engine.moved s.engine.now (s.engine.cache.purge s.clock).2 } else s) := by
  cases route with
  | search => exact absurd rfl h
  | _ => exact ⟨_, status_dress _ _, rfl⟩

/-- A request that is not for a search is answered at once. If it is for the health of the service, what has expired in
the cache is removed; apart from that everything is as before. -/
theorem request_of_not_search (h : ¬Asks r .search) : ∃ response : Response, response.status ∈ [200, 404, 405] ∧
    (Asks r .health ∧ s.request r = ([(r.caller, some response)],
      { s with engine := s.engine.moved s.engine.now (s.engine.cache.purge s.clock).2 }) ∨
    ¬Asks r .health ∧ s.request r = ([(r.caller, some response)], s)) := by
  by_cases hasks : ∃ route, Asks r route
  · obtain ⟨route, hroute⟩ := hasks
    have hsearch : route ≠ .search := by
      rintro rfl
      exact h hroute
    obtain ⟨response, hstatus, hanswer⟩ := answer_of_ne_search (s := s) (r := r) hsearch
    refine ⟨response, by simp [hstatus], ?_⟩
    rw [request_of_asks hroute, hanswer]
    by_cases hhealth : route = .health
    · subst hhealth
      exact .inl ⟨hroute, rfl⟩
    · have hnot : ¬Asks r .health := by
        rintro ⟨hpath, -⟩
        have same := (Route.ofPath?_eq_some_iff.2 hpath).symm.trans (Route.ofPath?_eq_some_iff.2 hroute.1)
        exact hhealth (Option.some.inj same).symm
      rw [if_neg hhealth]
      exact .inr ⟨hnot, rfl⟩
  · obtain ⟨response, hstatus, hrequest⟩ := request_of_not_asks (s := s) (not_exists.1 hasks)
    exact ⟨response, hstatus, .inr ⟨not_exists.1 hasks .health, hrequest⟩⟩

/-! ### What others are told -/

/-- Two services that differ in their limiters and in what they remember of one caller. -/
structure AlikeBut (caller : String) (s t : Service) : Prop where
  settings : s.settings = t.settings
  engine : s.engine = t.engine
  date : s.date = t.date
  bodies : ∀ c, c ≠ caller → s.headOnly.contains c = t.headOnly.contains c

theorem AlikeBut.deliver {caller : String} {t : Service} (h : AlikeBut caller s t) {events : List Engine.Event}
    (hothers : ∀ event ∈ events, event.caller ≠ caller) : s.deliver events = t.deliver events := by
  refine List.map_congr_left fun event hevent => ?_
  have body := h.bodies event.caller (hothers event hevent)
  cases event <;> simp only [dress, h.settings, h.date] <;> dsimp only [Engine.Event.caller] at body <;> rw [body]

/-- Whatever their engines do, they tell the others the same. -/
theorem AlikeBut.run {caller : String} {t : Service} (h : AlikeBut caller s t) (steps : List Engine.Step)
    (hothers : ∀ event ∈ (s.engine.run steps).1, event.caller ≠ caller) :
    (s.run (steps.map .engine)).1 = (t.run (steps.map .engine)).1 := by
  induction steps generalizing s t with
  | nil => rfl
  | cons st steps ih =>
    have next : AlikeBut caller (s.step (.engine st)).2 (t.step (.engine st)).2 :=
      ⟨h.settings, congrArg (fun e => (e.step st).2) h.engine, h.date, h.bodies⟩
    have first : (s.step (.engine st)).1 = (t.step (.engine st)).1 := by
      have here : ∀ event ∈ (s.engine.step st).1, event.caller ≠ caller := fun event hevent =>
        hothers event (List.mem_append_left _ hevent)
      show (s.step (.engine st)).2.deliver (s.engine.step st).1 = (t.step (.engine st)).2.deliver (t.engine.step st).1
      rw [next.deliver here, h.engine]
    have later := ih next fun event hevent => hothers event (List.mem_append_right _ hevent)
    exact congrArg₂ (· ++ ·) first later

/-! ### Effects of a request -/

/-- A search request is put to the limiter once, whatever becomes of it. If it is refused, by the limiter, for its query
or for what it asks for, then it is told why and the engine is as before: all others hear of their searches what they
would have heard without it. A request that is not for a search leaves the limiter and the engine as they are, but that
a request for the health of the service removes what has expired from the cache. -/
theorem request_effects (s : Service) (r : Request) :
    (Asks r .search →
      (s.request r).2.limiter = (s.limiter.check s.date r.client.render s.clock).2 ∧
      ∀ reason, s.vet r = .error reason →
        (s.request r).1 = [(r.caller, reason.map fun e => s.dress (r.method == "HEAD") (errorResponse s.date e))] ∧
        (s.request r).2.engine = s.engine ∧
        ∀ steps : List Engine.Step, (∀ event ∈ (s.engine.run steps).1, event.caller ≠ r.caller) →
          ((s.request r).2.run (steps.map .engine)).1 = (s.run (steps.map .engine)).1) ∧
    (¬Asks r .search →
      (s.request r).2.limiter = s.limiter ∧
      (¬Asks r .health → (s.request r).2.engine = s.engine) ∧
      (s.request r).2.engine = { s.engine with cache := { s.engine.cache with
        entries := (s.request r).2.engine.cache.entries
        order := (s.request r).2.engine.cache.order } } ∧
      (Asks r .health → ∀ key : String, (s.request r).2.engine.cache.entries[key]? =
        s.engine.cache.entries[key]?.filter fun entry => !s.engine.cache.isExpired s.clock entry)) := by
  constructor
  · intro hsearch
    have hrequest : s.request r = s.search r := request_of_asks hsearch
    rw [hrequest]
    constructor
    · cases hvet : s.vet r with
      | error reason =>
        obtain ⟨headOnly, hsearch, -⟩ := search_of_vet_eq_error hvet
        rw [hsearch]
        rfl
      | ok criteria =>
        obtain ⟨request, -, -, hsearch⟩ := search_of_vet_eq_ok hvet
        rw [hsearch]
        rfl
    · intro reason hvet
      obtain ⟨headOnly, hsearch, hothers⟩ := search_of_vet_eq_error hvet
      rw [hsearch]
      refine ⟨rfl, rfl, fun steps hsteps => ?_⟩
      have alike : AlikeBut r.caller { s.checked r with headOnly } s := ⟨rfl, rfl, rfl, hothers⟩
      exact alike.run steps hsteps
  · intro hsearch
    obtain ⟨response, -, hhealth | hother⟩ := request_of_not_search (s := s) hsearch
    · rw [hhealth.2]
      refine ⟨rfl, fun hnot => absurd hhealth.1 hnot, ?_, fun _ key => Cache.getElem?_purge _ _ _⟩
      dsimp only [Engine.moved]
      rw [Cache.purge, Cache.foldl_remove_eq]
    · rw [hother.2]
      exact ⟨rfl, fun _ => rfl, rfl, fun hnot => absurd hnot hother.1⟩

/-- A request whose query names a parameter twice leaves the search alone that holds the slot it names. -/
theorem malformed_request_effects :
    let box : Header := ⟨"x-search-slot", [0x62, 0x6F, 0x78]⟩
    let first : Request := ⟨"first", "GET", "/api/search?q=rust", .v4 [10, 0, 0, 1], [box]⟩
    let second : Request := ⟨"second", "GET", "/api/search?q=lean&q=coq", .v4 [10, 0, 0, 1], [box]⟩
    let s := ((start {} [⟨.ofMillis 5, .ok ⟨0, [], ⟨none, none⟩⟩⟩] ⟨0, 0⟩).request first).2
    let fault : SearchError := .request (.malformedQuery (repeatedMessage "q"))
    Asks second .search ∧ s.vet second = .error (some fault) ∧
    slot? second.headers second.client.render = some "10.0.0.1/box" ∧ s.engine.slots["10.0.0.1/box"]? = some 0 ∧
    (s.request second).1 = [("second", some (s.dress false (errorResponse s.date fault)))] ∧
    (s.request second).2.engine.slots["10.0.0.1/box"]? = some 0 := by
  intro box first second s fault
  have asks : Asks second .search := by decide +kernel
  have refused : s.vet second = .error (some fault) := by decide +kernel
  have slot : s.engine.slots["10.0.0.1/box"]? = some 0 := by decide +kernel
  obtain ⟨told, engine, -⟩ := ((request_effects s second).1 asks).2 _ refused
  refine ⟨asks, refused, by decide +kernel, slot, told, ?_⟩
  rw [engine]
  exact slot

end Service

end RepoSearch
