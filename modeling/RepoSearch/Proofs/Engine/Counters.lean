import RepoSearch.Proofs.Engine.CacheHistory
import RepoSearch.Proofs.Engine.Calls

/-!
# Counting searches

Every search with an acceptable request reads the cache once and draws one number. A hit is an answer; a miss is a call,
which draws a number of its own, or it is shared with searches that wait already. So the numbers in use are all
different.
-/

namespace RepoSearch.Engine

/-! ### What is counted -/

/-- A search is answered by the cache. -/
def Event.answeredByCache : Event → Bool
  | .finished _ _ _ (.ok answer) => answer.cached
  | _ => false

/-- A step asks for a search with an acceptable request. -/
def Step.acceptable (limits : Limits) : Step → Bool
  | .search _ _ request => (request.check limits).toBool
  | _ => false

/-- A step begins a search that waits, after it, for a fetch for which somebody has waited before it. -/
def joins (e : Engine) (st : Step) : Bool :=
  (e.step st).2.waiting.any fun w => e.begun st = some w.search ∧ e.waiting.any (·.fetch.id = w.fetch.id)

/-- The number of searches in a run that wait for a fetch begun by others. -/
def joinCount (e : Engine) : List Step → Nat
  | [] => 0
  | st :: steps => (e.joins st).toNat + (e.step st).2.joinCount steps

theorem acceptable_eq (e : Engine) (st : Step) : st.acceptable e.setup.limits = (e.begun st).isSome := by
  cases st with
  | search caller slot request =>
    rw [Step.acceptable, begun]
    cases request.check e.setup.limits <;> rfl
  | _ => rfl

private theorem enter_of_flight {e : Engine} (h : HoldsSlots e) (rest : AtRest e) {st : Step} {s : Search} {f : Flight}
    (hs : e.begun st = some s) (hmiss : (e.cache.get s.criteria.cacheKey e.setup.clock).1 = none)
    (hf : e.flights[s.criteria.cacheKey]? = some f) : (e.enter st).2 = (e.entered s).joined s f := by
  rcases enter_cases h rest st with
    ⟨s', page, hs', hpage, -⟩ | ⟨s', f', hs', -, hf', henter⟩ | ⟨s', hs', -, hf', -⟩ | ⟨hs', -⟩
  · rw [Option.some.inj (hs.symm.trans hs'), hpage] at hmiss
    cases hmiss
  · obtain rfl := Option.some.inj (hs.symm.trans hs')
    rw [henter, Option.some.inj (hf.symm.trans hf')]
  · rw [Option.some.inj (hs.symm.trans hs'), hf'] at hf
    cases hf
  · rw [hs] at hs'
    cases hs'

/-- A search joins others when the cache has nothing for it and its key has a flight. -/
theorem joins_iff {e : Engine} (h : Orderly e) (st : Step) : e.joins st = true ↔
    ∃ s f, e.begun st = some s ∧ (e.cache.get s.criteria.cacheKey e.setup.clock).1 = none ∧
      e.flights[s.criteria.cacheKey]? = some f := by
  simp only [joins, List.any_eq_true, decide_eq_true_eq]
  constructor
  · rintro ⟨w, hw, hbegun, v, hv, hid⟩
    rcases waiting_enter_cases h.books h.rest (waiting_of_step h.books h.rest hw) with
      ⟨v', hv', hsearch, -⟩ | ⟨-, hmiss, ⟨v', hv', hkey, -⟩ | hfetch⟩
    · exact absurd (List.mem_map_of_mem hv') (hsearch ▸ h.books.not_mem_of_begun hbegun)
    · obtain ⟨f, hf, -⟩ := h.books.boarded v' hv'
      rw [← hkey] at hf
      exact ⟨w.search, f, hbegun, hmiss, hf⟩
    · -- A new fetch has a number that nobody waits for yet.
      have hdrawn := fetch_drawn h.sourced h.numbered hv
      have hnew : w.fetch.id = e.nextId + 1 := by rw [hfetch, nextFetch]
      omega
  · rintro ⟨s, f, hbegun, hmiss, hf⟩
    obtain ⟨v, hv, -, hfetch⟩ := h.books.exists_aboard hf
    have hjoined := enter_of_flight h.books.toHoldsSlots h.rest hbegun hmiss hf
    have hwaits : ⟨s, f.fetch, false⟩ ∈ (e.enter st).2.waiting := by
      rw [hjoined]
      exact List.mem_append_right _ (List.mem_singleton_self _)
    -- The fetch has not ended, since somebody waits for it.
    have hends : ¬f.fetch.endsAt ≤ e.now := by
      have := (h.rest v hv).2
      rw [hfetch] at this
      omega
    have hstays : st.stops (e.enter st).2.now ⟨s, f.fetch, false⟩ = false := by
      have hnow : (e.enter st).2.now = e.now := by
        rw [hjoined]
        rfl
      obtain ⟨slot, request, rfl, -⟩ := search_of_begun hbegun
      simp [hnow, Step.stops, Waiting.ready, hends]
    refine ⟨⟨s, f.fetch, false⟩, ?_, hbegun, v, hv, by rw [hfetch]⟩
    rw [step_eq h.rest, left_waiting (h.books.enter h.rest st).toHoldsSlots, List.mem_filter, hstays]
    exact ⟨hwaits, rfl⟩

/-! ### One step -/

/-- From one state to a later one the counters grow by the searches answered by the cache, by the acceptable requests,
and by the searches that join others. -/
structure Counted (e e' : Engine) (answered accepted joined : Nat) : Prop where
  hits : e'.cache.hits = e.cache.hits + answered
  reads : e'.cache.hits + e'.cache.misses = e.cache.hits + e.cache.misses + accepted
  misses : e'.cache.misses + e.calls.length = e.cache.misses + e'.calls.length + joined
  drawn : e'.nextId + e.calls.length = e.nextId + accepted + e'.calls.length

theorem Counted.trans {e e' e'' : Engine} {answered accepted joined answered' accepted' joined' : Nat}
    (h : Counted e e' answered accepted joined) (h' : Counted e' e'' answered' accepted' joined') :
    Counted e e'' (answered + answered') (accepted + accepted') (joined + joined') := by
  have := h.hits
  have := h.reads
  have := h.misses
  have := h.drawn
  have := h'.hits
  have := h'.reads
  have := h'.misses
  have := h'.drawn
  constructor <;> omega

/-- Only reads count. -/
private theorem counters_foldl {uses : List CacheUse} (hreads : ∀ s, .read s ∉ uses) (clock : Instant)
    (c : Cache ResultPage) : (uses.foldl (CacheUse.apply clock) c).hits = c.hits ∧
      (uses.foldl (CacheUse.apply clock) c).misses = c.misses := by
  induction uses generalizing c with
  | nil => exact ⟨rfl, rfl⟩
  | cons use uses ih =>
    have first : (use.apply clock c).hits = c.hits ∧ (use.apply clock c).misses = c.misses := by
      cases use with
      | read s => exact absurd List.mem_cons_self (hreads s)
      | kept s page =>
        rw [CacheUse.apply, Cache.set_eq]
        exact ⟨rfl, rfl⟩
      | seeded criteria age totalCount =>
        rw [CacheUse.apply, Cache.set_eq]
        exact ⟨rfl, rfl⟩
      | cleared => exact ⟨rfl, rfl⟩
    obtain ⟨hhits, hmisses⟩ := ih (fun s hs => hreads s (List.mem_cons_of_mem _ hs)) (use.apply clock c)
    rw [List.foldl_cons]
    exact ⟨hhits.trans first.1, hmisses.trans first.2⟩

private theorem counters_left (e : Engine) (st : Step) :
    (e.left st).cache.hits = e.cache.hits ∧ (e.left st).cache.misses = e.cache.misses := by
  have cache : (e.left st).cache = (e.finishers st).foldl (Waiting.keptIn e.setup.clock) e.cache := rfl
  rw [cache, foldl_keptIn]
  refine counters_foldl (fun s hs => ?_) _ _
  obtain ⟨w, -, huse⟩ := List.mem_filterMap.1 hs
  rw [Waiting.use?] at huse
  cases houtcome : w.outcome <;> simp [houtcome] at huse

private theorem counters_enter {e : Engine} (h : HoldsSlots e) (rest : AtRest e) {st : Step} (hs : e.begun st = none) :
    (e.enter st).2.cache.hits = e.cache.hits ∧ (e.enter st).2.cache.misses = e.cache.misses := by
  rw [enter_cache h rest]
  refine counters_foldl (fun s hread => ?_) _ _
  cases st <;> simp [enterUses, hs] at hread

private theorem countP_endings (e : Engine) (st : Step) : (e.endings st).countP Event.answeredByCache = 0 := by
  refine List.countP_eq_zero.2 fun event hevent => ?_
  obtain ⟨w, -, rfl⟩ := List.mem_map.1 hevent
  rw [Waiting.ending]
  cases w.outcome <;> exact Bool.false_ne_true

/-- The second half of a step counts nothing, so what the first half counts is what the step counts. -/
private theorem counted_step {e : Engine} (rest : AtRest e) (st : Step) (answered missed made : Nat)
    (hits : (e.enter st).2.cache.hits = e.cache.hits + answered)
    (misses : (e.enter st).2.cache.misses = e.cache.misses + missed)
    (calls : (e.enter st).2.calls.length = e.calls.length + made)
    (nextId : (e.enter st).2.nextId = e.nextId + (answered + missed + made))
    (events : (e.enter st).1.countP Event.answeredByCache = answered) (hmade : made ≤ missed) :
    Counted e (e.step st).2 ((e.step st).1.countP Event.answeredByCache) (answered + missed) (missed - made) := by
  obtain ⟨hhits, hmisses⟩ := (e.enter st).2.counters_left st
  rw [step_eq rest, List.countP_append, events, countP_endings]
  constructor <;> dsimp only
  · omega
  · omega
  · rw [left_calls]
    omega
  · rw [left_nextId, left_calls]
    omega

/-- A step counts one answer if the cache answers the search that it begins, one acceptable request if it begins one, and
one search that joins others if it does so. -/
theorem Orderly.counted {e : Engine} (h : Orderly e) (st : Step) : Counted e (e.step st).2
    ((e.step st).1.countP Event.answeredByCache) (st.acceptable e.setup.limits).toNat (e.joins st).toNat := by
  rw [acceptable_eq]
  rcases enter_cases h.books.toHoldsSlots h.rest st with
    ⟨s, page, hs, hpage, henter⟩ | ⟨s, f, hs, hmiss, hf, henter⟩ | ⟨s, hs, hmiss, hf, henter⟩ |
      ⟨hs, hfin, cache, henter⟩
  · have hjoins : e.joins st = false := by
      rw [← Bool.not_eq_true, joins_iff h]
      rintro ⟨s', f, hs', hmiss, -⟩
      rw [Option.some.inj (hs'.symm.trans hs), hpage] at hmiss
      cases hmiss
    obtain ⟨hhits, hmisses⟩ := e.cache.get_counters s.criteria.cacheKey e.setup.clock
    rw [hpage] at hhits hmisses
    rw [hs, hjoins]
    refine counted_step h.rest st 1 0 0 ?_ ?_ ?_ ?_ ?_ (Nat.le_refl 0) <;> rw [henter]
    · rw [release_eq]
      exact hhits
    · rw [release_eq]
      exact hmisses
    · rw [release_eq]
      rfl
    · rw [release_eq]
      rfl
    · rfl
  · have hjoins : e.joins st = true := (joins_iff h st).2 ⟨s, f, hs, hmiss, hf⟩
    obtain ⟨hhits, hmisses⟩ := e.cache.get_counters s.criteria.cacheKey e.setup.clock
    rw [hmiss] at hhits hmisses
    rw [hs, hjoins]
    refine counted_step h.rest st 0 1 0 ?_ ?_ ?_ ?_ ?_ (Nat.zero_le 1) <;> rw [henter]
    · exact hhits
    · exact hmisses
    · rfl
    · rfl
    · rfl
  · have hjoins : e.joins st = false := by
      rw [← Bool.not_eq_true, joins_iff h]
      rintro ⟨s', f, hs', -, hf'⟩
      rw [Option.some.inj (hs'.symm.trans hs), hf] at hf'
      cases hf'
    obtain ⟨hhits, hmisses⟩ := e.cache.get_counters s.criteria.cacheKey e.setup.clock
    rw [hmiss] at hhits hmisses
    rw [hs, hjoins]
    refine counted_step h.rest st 0 1 1 ?_ ?_ ?_ ?_ ?_ (Nat.le_refl 1) <;> rw [henter]
    · exact hhits
    · exact hmisses
    · rw [departed_calls, List.length_append, List.length_singleton]
    · rfl
    · rfl
  · have hjoins : e.joins st = false := by
      rw [← Bool.not_eq_true, joins_iff h]
      rintro ⟨s', f, hs', -⟩
      rw [hs] at hs'
      cases hs'
    obtain ⟨hhits, hmisses⟩ := counters_enter h.books.toHoldsSlots h.rest hs
    rw [hs, hjoins]
    refine counted_step h.rest st 0 0 0 hhits hmisses ?_ ?_ ?_ (Nat.le_refl 0)
    · rw [henter]
      rfl
    · rw [henter]
      rfl
    · refine List.countP_eq_zero.2 fun event hevent => ?_
      cases event with
      | refused caller fault => exact Bool.false_ne_true
      | finished s fetch time result => exact absurd hevent (hfin s fetch time result)

/-- A run counts what its steps count. -/
theorem Orderly.counted_run {e : Engine} (h : Orderly e) (steps : List Step) : Counted e (e.run steps).2
    ((e.run steps).1.countP Event.answeredByCache) (steps.countP (Step.acceptable e.setup.limits))
    (e.joinCount steps) := by
  induction steps generalizing e with
  | nil => constructor <;> rfl
  | cons st steps ih =>
    have first := h.counted st
    have later := ih (h.step st)
    rw [step_setup h.books.toHoldsSlots h.rest] at later
    have accepted : (st :: steps).countP (Step.acceptable e.setup.limits) =
        (st.acceptable e.setup.limits).toNat + steps.countP (Step.acceptable e.setup.limits) := by
      rw [List.countP_cons, Nat.add_comm]
      cases st.acceptable e.setup.limits <;> rfl
    have answered : (e.run (st :: steps)).1.countP Event.answeredByCache =
        (e.step st).1.countP Event.answeredByCache +
          ((e.step st).2.run steps).1.countP Event.answeredByCache := List.countP_append
    rw [accepted, answered]
    exact first.trans later

/-! ### Numbers in use -/

/-- The numbers of the searches that wait are not those of the fetches for which somebody waits. -/
def NumberedApart (e : Engine) : Prop :=
  ∀ v ∈ e.waiting, ∀ w ∈ e.waiting, v.search.generation ≠ w.fetch.id

theorem NumberedApart.step {e : Engine} (apart : NumberedApart e) (h : Orderly e) (st : Step) :
    NumberedApart (e.step st).2 := by
  have generation : ∀ v ∈ (e.enter st).2.waiting,
      (∃ v' ∈ e.waiting, v.search = v'.search) ∨ v.search.generation = e.nextId := by
    intro v hv
    rcases waiting_enter_cases h.books h.rest hv with ⟨v', hv', hsearch, -⟩ | ⟨hs, -⟩
    · exact .inl ⟨v', hv', hsearch⟩
    · exact .inr (generation_of_begun hs)
  have fetch : ∀ w ∈ (e.enter st).2.waiting,
      (∃ w' ∈ e.waiting, w.fetch = w'.fetch) ∨ w.fetch.id = e.nextId + 1 := by
    intro w hw
    rcases waiting_enter_cases h.books h.rest hw with ⟨w', hw', -, hfetch⟩ | ⟨-, -, ⟨w', hw', -, hfetch⟩ | hfetch⟩
    · exact .inl ⟨w', hw', hfetch⟩
    · exact .inl ⟨w', hw', hfetch⟩
    · exact .inr (by rw [hfetch, nextFetch])
  intro v hv w hw
  rcases generation v (waiting_of_step h.books h.rest hv) with ⟨v', hv', hsearch⟩ | hgen <;>
    rcases fetch w (waiting_of_step h.books h.rest hw) with ⟨w', hw', hfetch⟩ | hid
  · rw [hsearch, hfetch]
    exact apart v' hv' w' hw'
  · have := h.books.drawn v' hv'
    rw [hsearch]
    omega
  · have := fetch_drawn h.sourced h.numbered hw'
    rw [hfetch]
    omega
  · omega

/-- All numbers that the slots and the flights use have been drawn, each for one slot or for one flight. -/
structure DistinctNumbers (e : Engine) : Prop where
  slots : ∀ (slot slot' : String) g, e.slots[slot]? = some g → e.slots[slot']? = some g → slot = slot'
  flights : ∀ (key key' : String) f f', e.flights[key]? = some f → e.flights[key']? = some f' → f.fetch.id = f'.fetch.id →
    key = key'
  apart : ∀ (slot : String) g (key : String) f, e.slots[slot]? = some g → e.flights[key]? = some f → g ≠ f.fetch.id
  slots_drawn : ∀ (slot : String) g, e.slots[slot]? = some g → g < e.nextId
  flights_drawn : ∀ (key : String) f, e.flights[key]? = some f → f.fetch.id < e.nextId

theorem NumberedApart.distinctNumbers {e : Engine} (apart : NumberedApart e) (h : Orderly e) : DistinctNumbers e := by
  constructor
  · intro slot slot' g hslot hslot'
    obtain ⟨v, hv, -, rfl, hg⟩ := (h.books.held slot g).1 hslot
    obtain ⟨w, hw, -, rfl, hg'⟩ := (h.books.held slot' g).1 hslot'
    rw [h.books.eq_of_generation hv hw (hg.trans hg'.symm)]
  · intro key key' f f' hf hf' hid
    obtain ⟨v, hv, rfl, hfetch⟩ := h.books.exists_aboard hf
    obtain ⟨w, hw, rfl, hfetch'⟩ := h.books.exists_aboard hf'
    exact h.keyed v hv w hw (by rw [hfetch, hfetch', hid])
  · intro slot g key f hslot hf
    obtain ⟨v, hv, -, -, rfl⟩ := (h.books.held slot g).1 hslot
    obtain ⟨w, hw, -, hfetch⟩ := h.books.exists_aboard hf
    rw [← hfetch]
    exact apart v hv w hw
  · intro slot g hslot
    obtain ⟨v, hv, -, -, rfl⟩ := (h.books.held slot g).1 hslot
    exact h.books.drawn v hv
  · intro key f hf
    obtain ⟨w, hw, -, hfetch⟩ := h.books.exists_aboard hf
    rw [← hfetch]
    exact fetch_drawn h.sourced h.numbered hw

/-- After every run from the start with an empty cache, the hits are the searches that the cache has answered, the reads
are the acceptable requests, the misses are the calls and the searches that joined others, and as many numbers are drawn
as there are acceptable requests and calls; those in use are all different. -/
theorem searches_counted (setup : Setup) (ttl : Duration) (capacity : Nat) (steps : List Step) :
    let e := start setup (.empty ttl capacity)
    let ran := e.run steps
    ran.2.cache.hits = ran.1.countP Event.answeredByCache ∧
    ran.2.cache.hits + ran.2.cache.misses = steps.countP (Step.acceptable setup.limits) ∧
    ran.2.cache.misses = ran.2.calls.length + e.joinCount steps ∧
    ran.2.nextId = steps.countP (Step.acceptable setup.limits) + ran.2.calls.length ∧
    DistinctNumbers ran.2 := by
  intro e ran
  have counted := (Orderly.start setup (.empty ttl capacity)).counted_run steps
  have apart : NumberedApart ran.2 ∧ Orderly ran.2 :=
    run_induction (P := fun e => NumberedApart e ∧ Orderly e)
      ⟨by simp [NumberedApart, start], Orderly.start setup (.empty ttl capacity)⟩
      (fun _ st h => ⟨h.1.step h.2 st, h.2.step st⟩) steps
  have hhits : ran.2.cache.hits = 0 + ran.1.countP Event.answeredByCache := counted.hits
  have hreads : ran.2.cache.hits + ran.2.cache.misses = 0 + 0 + steps.countP (Step.acceptable setup.limits) :=
    counted.reads
  have hmisses : ran.2.cache.misses + 0 = 0 + ran.2.calls.length + e.joinCount steps := counted.misses
  have hdrawn : ran.2.nextId + 0 = 0 + steps.countP (Step.acceptable setup.limits) + ran.2.calls.length := counted.drawn
  exact ⟨by omega, by omega, by omega, by omega, apart.1.distinctNumbers apart.2⟩

end RepoSearch.Engine
