import RepoSearch.Proofs.Engine.Books

/-!
# Searches that begin

Between two steps no waiting search is superseded or has a fetch that has ended. A search that begins then takes its
slot from the one that waits there, if there is one, and is answered by the cache, joins a flight or begins one. The
books stay right.
-/

namespace RepoSearch.Engine

/-! ### Taking a slot -/

/-- Between two steps no search has anything to do. -/
def AtRest (e : Engine) : Prop := ∀ w ∈ e.waiting, w.superseded = false ∧ e.now < w.fetch.endsAt

/-- A waiting search once a slot has been taken. -/
def Waiting.yielding (slot : String) (w : Waiting) : Waiting :=
  if w.search.slot = slot then { w with superseded := true } else w

@[simp] theorem Waiting.yielding_search (slot : String) (w : Waiting) : (w.yielding slot).search = w.search := by
  unfold yielding
  split <;> rfl

@[simp] theorem Waiting.yielding_fetch (slot : String) (w : Waiting) : (w.yielding slot).fetch = w.fetch := by
  unfold yielding
  split <;> rfl

@[simp] theorem Waiting.yielding_key (slot : String) (w : Waiting) : (w.yielding slot).key = w.key := by
  simp [key]

theorem Waiting.yielding_superseded {slot : String} {w : Waiting} (h : w.superseded = false) :
    (w.yielding slot).superseded = decide (w.search.slot = slot) := by
  unfold yielding
  split_ifs with hs <;> simp [hs, h]

/-- The search that a caller begins. -/
def newSearch (e : Engine) (caller : String) (slot : Option String) (criteria : Criteria) : Search :=
  ⟨caller, slot.getD (ownSlot e.nextId), e.nextId, criteria⟩

/-- The engine once a search has taken its slot. -/
def claimed (e : Engine) (s : Search) : Engine :=
  { e with
    nextId := e.nextId + 1
    slots := e.slots.insert s.slot s.generation
    waiting := e.waiting.map (·.yielding s.slot) }

/-- The engine once a search has taken its slot and looked its page up. -/
def entered (e : Engine) (s : Search) : Engine :=
  (e.claimed s).moved e.now (e.cache.get s.criteria.cacheKey e.setup.clock).2

/-- The engine once a search has joined a flight. -/
def joined (e : Engine) (s : Search) (f : Flight) : Engine :=
  { e with
    flights := e.flights.insert s.criteria.cacheKey { f with waiters := f.waiters + 1 }
    waiting := e.waiting ++ [⟨s, f.fetch, false⟩] }

/-- The engine once a search has begun a flight. -/
def departed (e : Engine) (s : Search) : Engine :=
  { e with
    nextId := e.nextId + 1
    flights := e.flights.insert s.criteria.cacheKey ⟨e.nextFetch e.nextId, 1⟩
    waiting := e.waiting ++ [⟨s, e.nextFetch e.nextId, false⟩]
    calls := e.calls ++ [⟨e.nextId, s.criteria.pageRequest, e.now, e.nextReply⟩] }

private theorem holder_iff {e : Engine} (h : HoldsSlots e) (rest : AtRest e) {w : Waiting} (hw : w ∈ e.waiting)
    (slot : String) : e.slots[slot]? = some w.search.generation ↔ w.search.slot = slot := by
  rw [h.held]
  constructor
  · rintro ⟨v, hv, -, rfl, hg⟩
    rw [h.eq_of_generation hv hw hg]
  · rintro rfl
    exact ⟨w, hw, (rest w hw).1, rfl, rfl⟩

private theorem supersede_holder {e : Engine} (h : HoldsSlots e) (rest : AtRest e) (slot : String) :
    (match e.slots[slot]? with
      | some holder => e.waiting.map fun w =>
        if w.search.generation = holder then { w with superseded := true } else w
      | none => e.waiting) = e.waiting.map (·.yielding slot) := by
  cases hs : e.slots[slot]? with
  | some holder =>
    refine List.map_congr_left fun w hw => ?_
    have hw' := holder_iff h rest hw slot
    rw [hs, Option.some.injEq, eq_comm] at hw'
    simp only [Waiting.yielding, hw']
  | none =>
    refine (List.map_id _).symm.trans (List.map_congr_left fun w hw => ?_)
    have hw' := holder_iff h rest hw slot
    rw [hs] at hw'
    have hne : w.search.slot ≠ slot := fun hslot => by simpa using hw'.2 hslot
    simp [Waiting.yielding, hne]

private theorem claim_eq {e : Engine} (h : HoldsSlots e) (rest : AtRest e) (caller : String) (slot : Option String)
    (criteria : Criteria) : e.claim caller slot criteria =
      (e.newSearch caller slot criteria, e.claimed (e.newSearch caller slot criteria)) := by
  have hold := supersede_holder h rest (slot.getD (ownSlot e.nextId))
  simp only [claim, draw, newSearch, claimed, Prod.mk.injEq, true_and]
  rw [← hold]
  cases e.slots[slot.getD (ownSlot e.nextId)]? <;> rfl

private theorem join_of_some {e : Engine} {criteria : Criteria} {f : Flight}
    (hf : e.flights[criteria.cacheKey]? = some f) : e.join criteria =
      (f.fetch, { e with flights := e.flights.insert criteria.cacheKey { f with waiters := f.waiters + 1 } }) := by
  simp only [join, hf]

private theorem join_of_none {e : Engine} {criteria : Criteria} (hf : e.flights[criteria.cacheKey]? = none) :
    e.join criteria = (e.nextFetch e.nextId, { e with
      nextId := e.nextId + 1
      flights := e.flights.insert criteria.cacheKey ⟨e.nextFetch e.nextId, 1⟩
      calls := e.calls ++ [⟨e.nextId, criteria.pageRequest, e.now, e.nextReply⟩] }) := by
  simp only [join, hf]
  rfl

/-- A search that begins takes its slot and looks its page up; the cache answers it, or it joins the flight of its key,
or it begins one. -/
theorem begin_cases {e : Engine} (h : HoldsSlots e) (rest : AtRest e) {caller : String} {slot : Option String}
    {criteria : Criteria} {s : Search} (hs : s = e.newSearch caller slot criteria) :
    (∃ page, (e.cache.get criteria.cacheKey e.setup.clock).1 = some page ∧
      e.begin caller slot criteria =
        ([.finished s none e.now (.ok (s.cachedAnswer page))], (e.entered s).release s)) ∨
    (∃ f, (e.cache.get criteria.cacheKey e.setup.clock).1 = none ∧ e.flights[criteria.cacheKey]? = some f ∧
      e.begin caller slot criteria = ([], (e.entered s).joined s f)) ∨
    ((e.cache.get criteria.cacheKey e.setup.clock).1 = none ∧ e.flights[criteria.cacheKey]? = none ∧
      e.begin caller slot criteria = ([], (e.entered s).departed s)) := by
  have hcriteria : s.criteria = criteria := by rw [hs]; rfl
  have look : (e.claimed s).lookUp criteria.cacheKey =
      ((e.cache.get criteria.cacheKey e.setup.clock).1, e.entered s) := by
    rw [← hcriteria]; rfl
  -- Taking the slot and looking the page up leave the flights alone.
  have flights : (e.entered s).flights = e.flights := rfl
  unfold begin
  rw [claim_eq h rest, ← hs]
  dsimp only
  rw [look]
  cases hget : (e.cache.get criteria.cacheKey e.setup.clock).1 with
  | some page => exact .inl ⟨page, rfl, rfl⟩
  | none =>
    dsimp only
    cases hf : e.flights[criteria.cacheKey]? with
    | some f =>
      refine .inr (.inl ⟨f, rfl, rfl, ?_⟩)
      rw [← flights] at hf
      rw [join_of_some hf, joined, hcriteria]
    | none =>
      refine .inr (.inr ⟨rfl, rfl, ?_⟩)
      rw [← flights] at hf
      rw [join_of_none hf, departed, hcriteria]

/-! ### The books of a search that begins -/

private theorem map_generation_yielding (ws : List Waiting) (slot : String) :
    (ws.map (·.yielding slot)).map (·.search.generation) = ws.map (·.search.generation) := by
  simp [List.map_map, Function.comp_def]

private theorem countP_key_yielding (ws : List Waiting) (slot key : String) :
    (ws.map (·.yielding slot)).countP (·.key = key) = ws.countP (·.key = key) := by
  simp [List.countP_map, Function.comp_def]

private theorem held_claimed {e : Engine} (h : HoldsSlots e) (rest : AtRest e) (taken slot : String) (g : Nat) :
    (∃ w ∈ e.waiting.map (·.yielding taken), w.superseded = false ∧ w.search.slot = slot ∧ w.search.generation = g) ↔
      slot ≠ taken ∧ e.slots[slot]? = some g := by
  rw [h.held]
  constructor
  · rintro ⟨v, hv, hsup, hslot, hg⟩
    obtain ⟨w, hw, rfl⟩ := List.mem_map.1 hv
    rw [Waiting.yielding_superseded (rest w hw).1, decide_eq_false_iff_not] at hsup
    rw [Waiting.yielding_search] at hslot hg
    exact ⟨hslot ▸ hsup, w, hw, (rest w hw).1, hslot, hg⟩
  · rintro ⟨hne, w, hw, hsup, hslot, hg⟩
    refine ⟨_, List.mem_map_of_mem hw, ?_, by rwa [Waiting.yielding_search], by rwa [Waiting.yielding_search]⟩
    rw [Waiting.yielding_superseded hsup, hslot]
    simpa using hne

private theorem HoldsSlots.answered {e : Engine} (h : HoldsSlots e) (rest : AtRest e) (s : Search) :
    HoldsSlots ((e.entered s).release s) := by
  have waiting : ((e.entered s).release s).waiting = e.waiting.map (·.yielding s.slot) := by rw [release_eq]; rfl
  have nextId : ((e.entered s).release s).nextId = e.nextId + 1 := by rw [release_eq]; rfl
  constructor
  · rw [waiting, map_generation_yielding]
    exact h.distinct
  · rw [waiting, nextId]
    intro v hv
    obtain ⟨w, hw, rfl⟩ := List.mem_map.1 hv
    have := h.drawn w hw
    rw [Waiting.yielding_search]
    omega
  · intro slot g
    have slots : (e.entered s).slots = e.slots.insert s.slot s.generation := rfl
    rw [waiting, held_claimed h rest, getElem?_release_slots, slots, Std.ExtTreeMap.getElem?_insert]
    by_cases hslot : slot = s.slot
    · simp [hslot, eq_comm]
    · simp [hslot, Ne.symm hslot]

private theorem HoldsSlots.boarded {e e' : Engine} (h : HoldsSlots e) (rest : AtRest e) {s : Search} {fetch : Fetch}
    (hg : s.generation = e.nextId) (nextId : e.nextId < e'.nextId)
    (slots : e'.slots = e.slots.insert s.slot s.generation)
    (waiting : e'.waiting = e.waiting.map (·.yielding s.slot) ++ [⟨s, fetch, false⟩]) : HoldsSlots e' := by
  constructor
  · rw [waiting, List.map_append, map_generation_yielding]
    refine List.Nodup.append h.distinct (List.nodup_singleton _) ?_
    intro g hold hnew
    obtain ⟨w, hw, rfl⟩ := List.mem_map.1 hold
    have := h.drawn w hw
    simp only [List.map_cons, List.map_nil, List.mem_singleton] at hnew
    omega
  · rw [waiting]
    intro v hv
    rcases List.mem_append.1 hv with hv | hv
    · obtain ⟨w, hw, rfl⟩ := List.mem_map.1 hv
      have := h.drawn w hw
      rw [Waiting.yielding_search]
      omega
    · obtain rfl := List.mem_singleton.1 hv
      dsimp only
      omega
  · intro slot g
    simp only [waiting, List.mem_append, or_and_right, exists_or, held_claimed h rest]
    rw [slots, Std.ExtTreeMap.getElem?_insert]
    by_cases hslot : slot = s.slot
    · simp [hslot]
    · simp [hslot, Ne.symm hslot]

theorem CountsWaiters.yielding {e e' : Engine} (h : CountsWaiters e) {slot : String}
    (flights : e'.flights = e.flights) (waiting : e'.waiting = e.waiting.map (·.yielding slot)) :
    CountsWaiters e' := by
  constructor
  · rw [waiting, flights]
    intro v hv
    obtain ⟨w, hw, rfl⟩ := List.mem_map.1 hv
    simpa using h.boarded w hw
  · rw [flights]
    simp only [waiters, waiting, countP_key_yielding]
    exact h.counted

private theorem CountsWaiters.boarded_by {e e' : Engine} (h : CountsWaiters e) {s : Search} {f : Flight}
    (count : f.waiters = e.waiters s.criteria.cacheKey + 1)
    (same : ∀ f', e.flights[s.criteria.cacheKey]? = some f' → f'.fetch = f.fetch)
    (flights : e'.flights = e.flights.insert s.criteria.cacheKey f)
    (waiting : e'.waiting = e.waiting ++ [⟨s, f.fetch, false⟩]) : CountsWaiters e' := by
  have getElem? : ∀ key, e'.flights[key]? = if s.criteria.cacheKey = key then some f else e.flights[key]? := by
    intro key
    rw [flights, Std.ExtTreeMap.getElem?_insert]
    simp only [Std.LawfulEqCmp.compare_eq_iff_eq]
  constructor
  · intro w hw
    rw [getElem?]
    rw [waiting, List.mem_append, List.mem_singleton] at hw
    rcases hw with hw | rfl
    · obtain ⟨f', hf', hfw⟩ := h.boarded w hw
      split_ifs with hkey
      · exact ⟨f, rfl, (same f' (hkey ▸ hf')).symm.trans hfw⟩
      · exact ⟨f', hf', hfw⟩
    · exact ⟨f, if_pos rfl, rfl⟩
  · intro key f' hf'
    have hcount : e'.waiters key = e.waiters key + if s.criteria.cacheKey = key then 1 else 0 := by
      rw [waiters, waiting, List.countP_append]
      by_cases hkey : s.criteria.cacheKey = key <;> simp [waiters, Waiting.key, hkey]
    rw [getElem?] at hf'
    split_ifs at hf' hcount with hkey
    · obtain rfl := Option.some.inj hf'
      rw [hkey] at count
      omega
    · rw [hcount]
      exact h.counted key f' hf'

theorem Consistent.answered {e : Engine} (h : Consistent e) (rest : AtRest e) (s : Search) :
    Consistent ((e.entered s).release s) :=
  ⟨h.toHoldsSlots.answered rest s, h.toCountsWaiters.yielding (by rw [release_eq]; rfl) (by rw [release_eq]; rfl)⟩

theorem Consistent.joined {e : Engine} (h : Consistent e) (rest : AtRest e) {s : Search} {f : Flight}
    (hg : s.generation = e.nextId) (hf : e.flights[s.criteria.cacheKey]? = some f) :
    Consistent ((e.entered s).joined s f) := by
  have entered : CountsWaiters (e.entered s) := h.toCountsWaiters.yielding rfl rfl
  refine ⟨h.toHoldsSlots.boarded rest hg (Nat.lt_succ_self _) rfl rfl, entered.boarded_by ?_ ?_ rfl rfl⟩
  · exact congrArg (· + 1) (entered.counted _ f hf).1
  · intro f' hf'
    rw [← Option.some.inj (hf.symm.trans hf')]

theorem Consistent.departed {e : Engine} (h : Consistent e) (rest : AtRest e) {s : Search}
    (hg : s.generation = e.nextId) (hf : e.flights[s.criteria.cacheKey]? = none) :
    Consistent ((e.entered s).departed s) := by
  have entered : CountsWaiters (e.entered s) := h.toCountsWaiters.yielding rfl rfl
  -- Whoever waited for the key would be on board of its flight.
  have alone : (e.entered s).waiters s.criteria.cacheKey = 0 := by
    refine List.countP_eq_zero.2 fun w hw hkey => ?_
    obtain ⟨f, hf', -⟩ := entered.boarded w hw
    rw [of_decide_eq_true hkey] at hf'
    exact absurd (hf.symm.trans hf') (by simp)
  have nextId : ((e.entered s).departed s).nextId = e.nextId + 2 := rfl
  refine ⟨h.toHoldsSlots.boarded rest hg (by omega) rfl rfl, entered.boarded_by ?_ ?_ rfl rfl⟩
  · rw [alone]
  · intro f' hf'
    exact absurd (hf.symm.trans hf') (by simp)

end RepoSearch.Engine
