import RepoSearch.Proofs.Engine.SharedFetch
import RepoSearch.Proofs.Service.Requests
import RepoSearch.Proofs.Service.Slots

/-!
# Clients among themselves

The searches of different clients meet in no slot, so a client's search is superseded only by a search of the same client
with the same name for its slot. No other request ends it or takes its slot.
-/

namespace RepoSearch

theorem Engine.Orderly.moved {e : Engine} (h : e.Orderly) (cache : Cache ResultPage) : (e.moved e.now cache).Orderly where
  books := h.books.moved e.now cache
  rest := fun w hw => h.rest w hw
  sourced := ⟨h.sourced.replied, h.sourced.awaited⟩
  numbered := ⟨h.numbered.distinct, h.numbered.drawn⟩
  keyed := fun v hv w hw => h.keyed v hv w hw

namespace Service

open Http Engine

variable {s : Service}

/-! ### Deliveries -/

private theorem status_searchResponse {date : Timestamp} {result : Except SearchError Answer} :
    (searchResponse date result).status = 409 ↔ result = .error .superseded := by
  cases result with
  | ok answer => simp [searchResponse, Response.json]
  | error e =>
    have hstatus : (searchResponse date (.error e)).status = e.status := rfl
    rw [hstatus, SearchError.status_eq_conflict_iff, Except.error.injEq]

/-- Among what is delivered of the engine's events, the status tells the superseded searches. -/
theorem superseded_delivery_iff {events : List Event} {caller : String} :
    (∃ response, (caller, some response) ∈ s.deliver events ∧ response.status = 409) ↔
      ∃ search, SupersededIn events search ∧ search.caller = caller := by
  constructor
  · rintro ⟨response, hdelivery, hstatus⟩
    obtain ⟨event, hevent, hresponse⟩ := List.mem_map.1 hdelivery
    cases event with
    | refused c fault =>
      obtain ⟨-, hrefusal⟩ := Prod.mk.inj hresponse
      rw [← Option.some.inj hrefusal, status_dress, status_searchResponse] at hstatus
      cases hstatus
    | finished search fetch time result =>
      obtain ⟨hcaller, hresult⟩ := Prod.mk.inj hresponse
      rw [← Option.some.inj hresult, status_dress, status_searchResponse] at hstatus
      exact ⟨search, ⟨fetch, time, hstatus ▸ hevent⟩, hcaller⟩
  · rintro ⟨search, ⟨fetch, time, hevent⟩, rfl⟩
    refine ⟨_, List.mem_map.2 ⟨_, hevent, rfl⟩, ?_⟩
    rw [status_dress, status_searchResponse]

/-! ### Steps -/

/-- The request begins a search: it is not refused, and the search is a new one in the slot that it names. -/
def Begins (s : Service) (r : Request) (search : Search) : Prop :=
  Asks r .search ∧ ∃ criteria, s.vet r = .ok criteria ∧
    search = s.engine.newSearch r.caller (slot? r.headers r.client.render) criteria

theorem Begins.slot_eq {r : Request} {search : Search} (h : s.Begins r search) :
    search.slot = (slot? r.headers r.client.render).getD (ownSlot search.generation) := by
  obtain ⟨-, criteria, -, rfl⟩ := h
  rfl

private theorem vet_ne_superseded {r : Request} : s.vet r ≠ .error (some .superseded) := by
  unfold vet
  cases (s.limiter.check s.date r.client.render s.clock).1 with
  | accepted =>
    cases requestOfQuery r.query with
    | error fault => simp
    | ok request => cases hcheck : request.check s.engine.setup.limits <;> simp [hcheck]
  | _ => simp

/-- The engine takes a step because of a step of the service. -/
def Drives (s : Service) (st : Step) (est : Engine.Step) : Prop :=
  st = .engine est ∨ ∃ r search, st = .request r ∧ s.Begins r search ∧ s.engine.begun est = some search

/-- A step of the service lets the engine take one, and what the engine has to say is delivered; or it begins no search
and leaves the engine as it is, except for its cache. -/
theorem step_cases (s : Service) (st : Step) :
    (∃ est, s.Drives st est ∧ (s.step st).2.engine = (s.engine.step est).2 ∧
      (s.step st).1 = (s.step st).2.deliver (s.engine.step est).1) ∨
    ((∀ r search, st = .request r → ¬s.Begins r search) ∧
      (∃ cache, (s.step st).2.engine = s.engine.moved s.engine.now cache) ∧
      ∀ caller response, (caller, some response) ∈ (s.step st).1 → response.status ≠ 409) := by
  cases st with
  | engine est => exact .inl ⟨est, .inl rfl, rfl, rfl⟩
  | preload client times age =>
    refine .inr ⟨(fun r search hr => nomatch hr), ⟨s.engine.cache, rfl⟩, fun caller response hdelivery => ?_⟩
    cases hdelivery
  | request r =>
    by_cases hsearch : Asks r .search
    · have hstep : s.step (.request r) = s.search r := request_of_asks hsearch
      rw [hstep]
      cases hvet : s.vet r with
      | ok criteria =>
        obtain ⟨request, -, hcheck, heq⟩ := search_of_vet_eq_ok hvet
        have hbegun : s.engine.begun (askedStep r request) =
            some (s.engine.newSearch r.caller (slot? r.headers r.client.render) criteria) := by
          rw [askedStep, begun, hcheck]
        rw [heq]
        exact .inl ⟨_, .inr ⟨r, _, rfl, ⟨hsearch, criteria, hvet, rfl⟩, hbegun⟩, rfl, rfl⟩
      | error reason =>
        obtain ⟨headOnly, heq, -⟩ := search_of_vet_eq_error hvet
        rw [heq]
        refine .inr ⟨?_, ⟨s.engine.cache, rfl⟩, ?_⟩
        · rintro r' search hr ⟨-, criteria, hcriteria, -⟩
          obtain rfl := Step.request.inj hr
          rw [hvet] at hcriteria
          cases hcriteria
        · intro caller response hdelivery
          obtain ⟨-, hresponse⟩ := Prod.mk.inj (List.mem_singleton.1 hdelivery)
          obtain ⟨e, he, rfl⟩ := Option.map_eq_some_iff.1 hresponse.symm
          have hstatus : (errorResponse s.date e).status = e.status := rfl
          rw [status_dress, hstatus, ne_eq, SearchError.status_eq_conflict_iff]
          rintro rfl
          rw [he] at hvet
          exact vet_ne_superseded hvet
    · obtain ⟨response, hstatus, heq⟩ := request_of_not_search (s := s) hsearch
      have hquiet : ∀ caller response', (caller, some response') ∈ [(r.caller, some response)] →
          response'.status ≠ 409 := by
        intro caller response' hdelivery
        obtain ⟨-, hresponse⟩ := Prod.mk.inj (List.mem_singleton.1 hdelivery)
        rw [Option.some.inj hresponse]
        intro h409
        rw [h409] at hstatus
        exact absurd hstatus (by decide)
      have hbegins : ∀ r' search, Step.request r = .request r' → ¬s.Begins r' search := by
        rintro r' search hr ⟨hasks, -⟩
        obtain rfl := Step.request.inj hr
        exact hsearch hasks
      show _ ∨ (_ ∧ (∃ cache, (s.request r).2.engine = _) ∧ ∀ caller response, _ ∈ (s.request r).1 → _)
      rcases heq with ⟨-, heq⟩ | ⟨-, heq⟩ <;> rw [heq]
      · exact .inr ⟨hbegins, ⟨_, rfl⟩, hquiet⟩
      · exact .inr ⟨hbegins, ⟨s.engine.cache, rfl⟩, hquiet⟩

/-- A step that comes from outside: searches are begun by requests alone. -/
def Step.FromOutside : Step → Prop
  | .engine (.search ..) => False
  | _ => True

theorem Drives.begins {st : Step} {est : Engine.Step} {search : Search} (h : s.Drives st est)
    (outside : st.FromOutside) (hbegun : s.engine.begun est = some search) :
    ∃ r, st = .request r ∧ s.Begins r search := by
  rcases h with rfl | ⟨r, search', rfl, hbegins, hbegun'⟩
  · cases est with
    | search caller slot request => exact absurd outside id
    | _ => cases hbegun
  · rw [hbegun] at hbegun'
    obtain rfl := Option.some.inj hbegun'
    exact ⟨r, rfl, hbegins⟩

theorem orderly_step (h : s.engine.Orderly) (st : Step) : (s.step st).2.engine.Orderly := by
  rcases s.step_cases st with ⟨est, -, hengine, -⟩ | ⟨-, ⟨cache, hengine⟩, -⟩ <;> rw [hengine]
  · exact h.step est
  · exact h.moved cache

theorem setup_step (h : s.engine.Orderly) (st : Step) : (s.step st).2.engine.setup = s.engine.setup := by
  rcases s.step_cases st with ⟨est, -, hengine, -⟩ | ⟨-, ⟨cache, hengine⟩, -⟩ <;> rw [hengine]
  · exact step_setup h.books.toHoldsSlots h.rest est
  · rfl

/-- Who waits after a step has waited before it or has been begun by it. -/
theorem begins_of_searches (h : s.engine.Orderly) {st : Step} (outside : st.FromOutside) {search : Search}
    (hsearch : search ∈ (s.step st).2.engine.searches) :
    search ∈ s.engine.searches ∨ ∃ r, st = .request r ∧ s.Begins r search := by
  rcases s.step_cases st with ⟨est, hdrives, hengine, -⟩ | ⟨-, ⟨cache, hengine⟩, -⟩ <;> rw [hengine] at hsearch
  · exact ((mem_searches_step h.books h.rest).1 hsearch).1.imp_right (hdrives.begins outside)
  · exact .inl hsearch

/-! ### Runs -/

theorem orderly_run (h : s.engine.Orderly) (steps : List Step) : (s.run steps).2.engine.Orderly ∧
    (s.run steps).2.engine.setup = s.engine.setup := by
  induction steps generalizing s with
  | nil => exact ⟨h, rfl⟩
  | cons st steps ih =>
    obtain ⟨orderly, setup⟩ := ih (orderly_step h st)
    exact ⟨orderly, setup.trans (setup_step h st)⟩

/-- A request of the run has begun the search. -/
def BegunBy (s : Service) (steps : List Step) (r : Request) (search : Search) : Prop :=
  ∃ earlier later, steps = earlier ++ .request r :: later ∧ (s.run earlier).2.Begins r search

/-- Who waits after a run has waited before it, or a request of the run has begun it. -/
theorem begunBy_of_searches (h : s.engine.Orderly) {steps : List Step} (outside : ∀ st ∈ steps, st.FromOutside)
    {search : Search} (hsearch : search ∈ (s.run steps).2.engine.searches) :
    search ∈ s.engine.searches ∨ ∃ r, s.BegunBy steps r search := by
  induction steps generalizing s with
  | nil => exact .inl hsearch
  | cons st steps ih =>
    have here := outside st List.mem_cons_self
    rcases ih (orderly_step h st) (fun st' hst' => outside st' (List.mem_cons_of_mem st hst')) hsearch with
      hsearch | ⟨r, earlier, later, rfl, hbegins⟩
    · refine (begins_of_searches h here hsearch).imp_right ?_
      rintro ⟨r, rfl, hbegins⟩
      exact ⟨r, [], steps, rfl, hbegins⟩
    · exact .inr ⟨r, st :: earlier, later, rfl, hbegins⟩

/-! ### Who meets in a slot -/

/-- Two requests come from one client and name one slot. -/
def SameSlot (r r' : Request) : Prop :=
  r'.client = r.client ∧ ∃ name, slotName? r.headers = some name ∧ slotName? r'.headers = some name

theorem slot_eq_of_begunBy {steps : List Step} {r : Request} {search : Search} (h : s.BegunBy steps r search) :
    search.slot = (slot? r.headers r.client.render).getD (ownSlot search.generation) ∧ search.caller = r.caller := by
  obtain ⟨earlier, later, -, hbegins⟩ := h
  refine ⟨hbegins.slot_eq, ?_⟩
  obtain ⟨-, criteria, -, rfl⟩ := hbegins
  rfl

/-- A new search comes into the slot of a waiting one exactly when their requests are of one client and name one slot. -/
theorem slot_eq_iff_sameSlot (h : s.engine.Orderly) {w : Waiting} (hw : w ∈ s.engine.waiting) {r r' : Request}
    (hslot : w.search.slot = (slot? r.headers r.client.render).getD (ownSlot w.search.generation)) {search : Search}
    (hbegins : s.Begins r' search) : search.slot = w.search.slot ↔ SameSlot r r' := by
  have hdrawn := h.books.drawn w hw
  have hgeneration : search.generation = s.engine.nextId := by
    obtain ⟨-, criteria, -, rfl⟩ := hbegins
    rfl
  rw [hbegins.slot_eq, hslot]
  constructor
  · intro heq
    rcases slot_eq_cases heq with hsame | ⟨hsame, name, hname', hname⟩
    · omega
    · exact ⟨hsame, name, hname, hname'⟩
  · rintro ⟨hsame, name, hname, hname'⟩
    rw [slot?_eq, slot?_eq, hname, hname', hsame]
    rfl

/-- A waiting search whose slot is not taken by a search that begins waits on and keeps its slot. -/
private theorem waits_on {e : Engine} (h : e.Orderly) {w : Waiting} (hw : w ∈ e.waiting) {est : Engine.Step}
    {search : Search} (hbegun : e.begun est = some search) (hslot : search.slot ≠ w.search.slot) :
    w ∈ (e.step est).2.waiting := by
  obtain ⟨hsup, hends⟩ := h.rest w hw
  obtain ⟨slot, request, rfl, -⟩ := search_of_begun hbegun
  have hnot : ¬e.Takes w.search.slot (.search search.caller slot request) := by
    rintro ⟨search', hbegun', hslot'⟩
    rw [hbegun] at hbegun'
    obtain rfl := Option.some.inj hbegun'
    exact hslot hslot'
  have hnow := step_now h.books.toHoldsSlots h.rest (.search search.caller slot request)
  have hmillis : Engine.Step.millis (.search search.caller slot request) = 0 := rfl
  have hentered := mem_enter_of_not_takes h.books.toHoldsSlots h.rest hw hnot
  rcases waits_or_ends h.books h.rest hentered hsup Bool.false_ne_true with ⟨hwaits, -⟩ | ⟨hended, -⟩
  · exact hwaits
  · omega

private theorem holds_slot {e : Engine} (h : e.Orderly) {w : Waiting} (hw : w ∈ e.waiting) :
    e.slots[w.search.slot]? = some w.search.generation :=
  (h.books.held _ _).2 ⟨w, hw, (h.rest w hw).1, rfl, rfl⟩

section Supersession

variable (h : s.engine.Orderly) (honest : ∀ reply ∈ s.engine.setup.replies, reply.outcome ≠ .error .superseded)
include h honest

/-- Who is told of a supersession had a search waiting in the slot of a search that a request has begun. -/
private theorem begins_of_told {st : Step} (outside : st.FromOutside) {caller : String} {response : Response}
    (hdelivery : (caller, some response) ∈ (s.step st).1) (hstatus : response.status = 409) :
    ∃ w ∈ s.engine.waiting, w.search.caller = caller ∧
      ∃ r search, st = .request r ∧ s.Begins r search ∧ search.slot = w.search.slot := by
  rcases s.step_cases st with ⟨est, hdrives, -, htold⟩ | ⟨-, -, hquiet⟩
  · rw [htold] at hdelivery
    obtain ⟨search, hsup, rfl⟩ := superseded_delivery_iff.1 ⟨response, hdelivery, hstatus⟩
    obtain ⟨hsearch, search', hbegun, hslot⟩ :=
      (supersededIn_step_iff h.books h.rest h.sourced honest est search).1 hsup
    obtain ⟨w, hw, rfl⟩ := List.mem_map.1 hsearch
    obtain ⟨r, hst, hbegins⟩ := hdrives.begins outside hbegun
    exact ⟨w, hw, rfl, r, search', hst, hbegins, hslot⟩
  · exact absurd hstatus (hquiet caller response hdelivery)

/-- Under a request a waiting search waits on and keeps its slot, unless the request begins a search in it. -/
private theorem told_or_waits {w : Waiting} (hw : w ∈ s.engine.waiting) (r : Request) :
    (∃ search, s.Begins r search ∧ search.slot = w.search.slot ∧ ∃ response,
      (w.search.caller, some response) ∈ (s.step (.request r)).1 ∧ response.status = 409) ∨
    (w ∈ (s.step (.request r)).2.engine.waiting ∧
      (s.step (.request r)).2.engine.slots[w.search.slot]? = some w.search.generation) := by
  have orderly := orderly_step h (.request r)
  rcases s.step_cases (.request r) with ⟨est, hdrives, hengine, htold⟩ | ⟨-, ⟨cache, hengine⟩, -⟩
  · rcases hdrives with hest | ⟨r', search, hr, hbegins, hbegun⟩
    · cases hest
    · obtain rfl := Step.request.inj hr
      by_cases hslot : search.slot = w.search.slot
      · have hsup := (supersededIn_step_iff h.books h.rest h.sourced honest est w.search).2
          ⟨List.mem_map_of_mem hw, search, hbegun, hslot⟩
        rw [htold]
        exact .inl ⟨search, hbegins, hslot, superseded_delivery_iff.2 ⟨w.search, hsup, rfl⟩⟩
      · have hwaits := waits_on h hw hbegun hslot
        rw [← hengine] at hwaits
        exact .inr ⟨hwaits, holds_slot orderly hwaits⟩
  · have hwaits : w ∈ (s.step (.request r)).2.engine.waiting := by
      rw [hengine]
      exact hw
    exact .inr ⟨hwaits, holds_slot orderly hwaits⟩

end Supersession

/-- In runs from outside in which GitHub reports no supersession, every waiting search has been begun by a request. Who
is told of a supersession had a search waiting that was begun with a name for its slot, and is told so when a request of
the same client begins a search with the same name. Under any other request a waiting search waits on and keeps its
slot. -/
theorem superseded_by_same_client {settings : Settings} {replies : List Reply} {date : Timestamp}
    (hs : s = start settings replies date) (honest : ∀ reply ∈ replies, reply.outcome ≠ .error .superseded)
    {before : List Step} {st : Step} (outside : ∀ st' ∈ before ++ [st], st'.FromOutside) :
    (∀ w ∈ (s.run before).2.engine.waiting, ∃ r, s.BegunBy before r w.search) ∧
    (∀ caller response, (caller, some response) ∈ ((s.run before).2.step st).1 → response.status = 409 →
      ∃ w ∈ (s.run before).2.engine.waiting, ∃ r r' search, s.BegunBy before r w.search ∧ r.caller = caller ∧
        st = .request r' ∧ (s.run before).2.Begins r' search ∧ SameSlot r r') ∧
    (∀ w ∈ (s.run before).2.engine.waiting, ∀ r r', s.BegunBy before r w.search → st = .request r' →
      (SameSlot r r' ∧ (∃ search, (s.run before).2.Begins r' search) ∧ ∃ response,
        (r.caller, some response) ∈ ((s.run before).2.step st).1 ∧ response.status = 409) ∨
      (w ∈ ((s.run before).2.step st).2.engine.waiting ∧
        ((s.run before).2.step st).2.engine.slots[w.search.slot]? = some w.search.generation)) := by
  have earlier : ∀ st' ∈ before, st'.FromOutside := fun st' hst' => outside st' (List.mem_append_left _ hst')
  have here : st.FromOutside := outside st (by simp)
  have first : s.engine.Orderly := by
    rw [hs]
    exact Orderly.start _ _
  obtain ⟨h, hsetup⟩ := orderly_run first before
  have honest' : ∀ reply ∈ (s.run before).2.engine.setup.replies, reply.outcome ≠ .error .superseded := by
    rw [hsetup, hs]
    exact honest
  have begun : ∀ w ∈ (s.run before).2.engine.waiting, ∃ r, s.BegunBy before r w.search := by
    intro w hw
    rcases begunBy_of_searches first earlier (List.mem_map_of_mem hw) with hnone | hbegun
    · rw [hs] at hnone
      cases hnone
    · exact hbegun
  have same : ∀ {w r r' search}, w ∈ (s.run before).2.engine.waiting → s.BegunBy before r w.search →
      st = .request r' → (s.run before).2.Begins r' search → search.slot = w.search.slot → SameSlot r r' := by
    rintro w r r' search hw hbegun rfl hbegins
    exact (slot_eq_iff_sameSlot h hw (slot_eq_of_begunBy hbegun).1 hbegins).1
  refine ⟨begun, ?_, ?_⟩
  · intro caller response hdelivery hstatus
    obtain ⟨w, hw, hcaller, r', search, hst, hbegins, hslot⟩ := begins_of_told h honest' here hdelivery hstatus
    obtain ⟨r, hbegun⟩ := begun w hw
    exact ⟨w, hw, r, r', search, hbegun, (slot_eq_of_begunBy hbegun).2.symm.trans hcaller, hst, hbegins,
      same hw hbegun hst hbegins hslot⟩
  · rintro w hw r r' hbegun rfl
    rcases told_or_waits h honest' hw r' with ⟨search, hbegins, hslot, htold⟩ | hwaits
    · rw [(slot_eq_of_begunBy hbegun).2] at htold
      exact .inl ⟨same hw hbegun rfl hbegins hslot, ⟨search, hbegins⟩, htold⟩
    · exact .inr hwaits

/-- A search waits on when another client names the slot that it was begun in. -/
theorem undisturbed_by_other_client :
    let box : Header := ⟨"x-search-slot", [0x62, 0x6F, 0x78]⟩
    let first : Request := ⟨"first", "GET", "/api/search?q=rust", .v4 [10, 0, 0, 1], [box]⟩
    let second : Request := ⟨"second", "GET", "/api/search?q=rust", .v4 [10, 0, 0, 2], [box]⟩
    let replies : List Reply := [⟨.ofMillis 5, .ok ⟨0, [], ⟨none, none⟩⟩⟩]
    let s := start {} replies ⟨0, 0⟩
    (∀ reply ∈ replies, reply.outcome ≠ .error .superseded) ∧
    (∀ st ∈ [Step.request first] ++ [.request second], st.FromOutside) ∧
    ∃ w ∈ (s.run [.request first]).2.engine.waiting, w.search.slot = "10.0.0.1/box" ∧
      w ∈ ((s.run [.request first]).2.step (.request second)).2.engine.waiting := by
  intro box first second replies s
  have honest : ∀ reply ∈ replies, reply.outcome ≠ .error .superseded := by simp [replies]
  have outside : ∀ st ∈ [Step.request first] ++ [.request second], st.FromOutside := by
    simp [first, second, Step.FromOutside]
  have slots : (s.run [.request first]).2.engine.waiting.map (·.search.slot) = ["10.0.0.1/box"] := by decide +kernel
  obtain ⟨w, hw, hslot⟩ : ∃ w ∈ (s.run [.request first]).2.engine.waiting, w.search.slot = "10.0.0.1/box" :=
    List.mem_map.1 (slots ▸ List.mem_singleton_self _)
  obtain ⟨begun, -, undisturbed⟩ := superseded_by_same_client (s := s) rfl honest outside
  obtain ⟨r, hbegun⟩ := begun w hw
  have hr : r.client = .v4 [10, 0, 0, 1] := by
    obtain ⟨earlier, later, hsteps, -⟩ := hbegun
    have hmem : Step.request r ∈ [Step.request first] := by
      rw [hsteps]
      simp
    rw [Step.request.inj (List.mem_singleton.1 hmem)]
  have other : ¬SameSlot r second := by
    rintro ⟨hclient, -⟩
    rw [hr] at hclient
    exact absurd hclient (by decide)
  have waits := (undisturbed w hw r second hbegun rfl).resolve_left fun told => other told.1
  exact ⟨honest, outside, w, hw, hslot, waits.1⟩

end Service

end RepoSearch
