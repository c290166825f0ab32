import RepoSearch.Proofs.CacheEntries
import RepoSearch.Proofs.Engine.Sources

/-!
# The use of the cache

The cache is used in four ways: a search that begins reads its key, a search that ends well keeps its page, a seed is
put in, and the whole cache is cleared. The cache after a run is what these uses make of the cache before it, and so
every entry is the one that was stored last under its key.
-/

namespace RepoSearch.Engine

/-- A use of the cache. -/
inductive CacheUse where
  | read (s : Search)
  | kept (s : Search) (page : ResultPage)
  | seeded (criteria : Criteria) (age : Duration) (totalCount : Nat)
  | cleared

namespace CacheUse

/-- The cache after a use. -/
def apply (clock : Instant) (c : Cache ResultPage) : CacheUse → Cache ResultPage
  | read s => (c.get s.criteria.cacheKey clock).2
  | kept s page => c.set s.criteria.cacheKey page clock
  | seeded criteria age totalCount => c.set criteria.cacheKey ⟨totalCount, []⟩ (clock.before age)
  | cleared => c.clear

/-- The page that a use stores, and the criteria for which it does. -/
def stored? : CacheUse → Option (Criteria × ResultPage)
  | kept s page => some (s.criteria, page)
  | seeded criteria _ totalCount => some (criteria, ⟨totalCount, []⟩)
  | _ => none

def stores (key : String) (use : CacheUse) : Bool :=
  use.stored?.any fun stored => stored.1.cacheKey = key

end CacheUse

/-- The last use that stores a page under a key. -/
def lastStore (uses : List CacheUse) (key : String) : Option CacheUse := (uses.filter (·.stores key)).getLast?

/-- The use that a search that goes on makes of the cache. -/
def Waiting.use? (w : Waiting) : Option CacheUse :=
  match w.outcome with
  | .ok f => some (.kept w.search f.page)
  | .error _ => none

/-- The uses of the cache in the first half of a step. -/
def enterUses (e : Engine) : Step → List CacheUse
  | .clear => [.cleared]
  | .seed criteria age totalCount => [.seeded criteria age totalCount]
  | st => (e.begun st).toList.map .read

/-- The uses of the cache in a step. -/
def uses (e : Engine) (st : Step) : List CacheUse :=
  e.enterUses st ++ ((e.enter st).2.finishers st).filterMap Waiting.use?

/-- The uses of the cache in a run. -/
def useHistory (e : Engine) : List Step → List CacheUse
  | [] => []
  | st :: steps => e.uses st ++ (e.step st).2.useHistory steps

/-! ### The cache after a run -/

theorem enter_cache {e : Engine} (h : HoldsSlots e) (rest : AtRest e) (st : Step) :
    (e.enter st).2.cache = (e.enterUses st).foldl (CacheUse.apply e.setup.clock) e.cache := by
  cases st with
  | search caller slot request =>
    rw [enterUses, begun, enter]
    · cases request.check e.setup.limits with
      | error fault => rfl
      | ok criteria =>
        rcases begin_cases h rest rfl with ⟨page, -, hbegin⟩ | ⟨f, -, -, hbegin⟩ | ⟨-, -, hbegin⟩ <;>
          dsimp only <;> rw [hbegin]
        · rw [release_eq]
          rfl
        · rfl
        · rfl
    · simp
    · simp
  | _ => rfl

theorem foldl_keptIn (clock : Instant) (ws : List Waiting) (c : Cache ResultPage) :
    ws.foldl (Waiting.keptIn clock) c = (ws.filterMap Waiting.use?).foldl (CacheUse.apply clock) c := by
  induction ws generalizing c with
  | nil => rfl
  | cons w ws ih =>
    rw [List.foldl_cons, ih, List.filterMap_cons, Waiting.keptIn, Waiting.use?]
    cases w.outcome <;> rfl

theorem step_cache {e : Engine} (h : Consistent e) (rest : AtRest e) (st : Step) :
    (e.step st).2.cache = (e.uses st).foldl (CacheUse.apply e.setup.clock) e.cache := by
  have setup := enter_setup h.toHoldsSlots rest st
  rw [step_eq rest, uses, List.foldl_append, ← enter_cache h.toHoldsSlots rest, ← foldl_keptIn, ← setup]
  rfl

/-- The cache after a run is what the uses in the run make of the cache before it. -/
theorem run_cache {e : Engine} (h : Consistent e) (rest : AtRest e) (steps : List Step) :
    (e.run steps).2.cache = (e.useHistory steps).foldl (CacheUse.apply e.setup.clock) e.cache := by
  induction steps generalizing e with
  | nil => rfl
  | cons st steps ih =>
    rw [useHistory, List.foldl_append, ← step_cache h rest, ← step_setup h.toHoldsSlots rest st]
    exact ih (h.step rest st) (rest.step h st)

/-! ### Where entries come from -/

theorem lastStore_concat (uses : List CacheUse) (use : CacheUse) (key : String) :
    lastStore (uses ++ [use]) key = if use.stores key then some use else lastStore uses key := by
  rw [lastStore, List.filter_append]
  by_cases h : use.stores key = true
  · rw [List.filter_cons_of_pos h, if_pos h, List.filter_nil, List.getLast?_concat]
  · rw [List.filter_cons_of_neg h, if_neg h, List.filter_nil, List.append_nil]
    rfl

/-- Every entry of a cache was the last to be stored under its key, and a cache that stores nothing has no entries. -/
structure Traces (uses : List CacheUse) (c : Cache ResultPage) : Prop where
  last : ∀ (key : String) (entry : Cache.Entry ResultPage), c.entries[key]? = some entry →
    ∃ use criteria, lastStore uses key = some use ∧ use.stored? = some (criteria, entry.value)
  idle : c.ttl.nanos = 0 → ∀ key : String, c.entries[key]? = none

private theorem Traces.within {uses : List CacheUse} {c d : Cache ResultPage} (h : Traces uses c)
    (within : Cache.Within d c) (ttl : d.ttl = c.ttl) {use : CacheUse} (stores : use.stored? = none) :
    Traces (uses ++ [use]) d := by
  have hstores : ∀ key, use.stores key = false := fun key => by rw [CacheUse.stores, stores, Option.any_none]
  constructor
  · intro key entry hentry
    rw [lastStore_concat, hstores]
    exact h.last key entry (within key entry hentry)
  · intro hzero key
    rw [ttl] at hzero
    cases hentry : d.entries[key]? with
    | none => rfl
    | some entry => rw [← h.idle hzero key, within key entry hentry]

private theorem Traces.set {uses : List CacheUse} {c : Cache ResultPage} (h : Traces uses c) {use : CacheUse}
    {criteria : Criteria} {page : ResultPage} (stores : use.stored? = some (criteria, page)) (time : Instant) :
    Traces (uses ++ [use]) (c.set criteria.cacheKey page time) := by
  by_cases hzero : c.ttl.nanos = 0
  -- A cache without time to live ignores the page, but it has no entries to account for either.
  · rw [Cache.set_of_ttl_zero hzero]
    refine ⟨fun key entry hentry => ?_, h.idle⟩
    rw [h.idle hzero key] at hentry
    cases hentry
  · constructor
    · intro key entry hentry
      have hstores : use.stores key = decide (criteria.cacheKey = key) := by
        rw [CacheUse.stores, stores, Option.any_some]
      rw [lastStore_concat, hstores]
      rcases Cache.entry_of_set hzero hentry with ⟨hkey, hvalue⟩ | ⟨hkey, hold⟩
      · rw [hkey, decide_eq_true rfl, hvalue]
        exact ⟨use, criteria, rfl, stores⟩
      · rw [decide_eq_false (Ne.symm hkey)]
        exact h.last key entry hold
    · intro hset
      rw [Cache.set_ttl] at hset
      exact absurd hset hzero

theorem Traces.apply {uses : List CacheUse} {c : Cache ResultPage} (h : Traces uses c) (clock : Instant)
    (use : CacheUse) : Traces (uses ++ [use]) (use.apply clock c) := by
  cases use with
  | read s => exact h.within (c.get_within _ clock) (c.get_ttl _ clock) rfl
  | kept s page => exact h.set rfl clock
  | seeded criteria age totalCount => exact h.set rfl (clock.before age)
  | cleared => exact h.within c.clear_within rfl rfl

theorem Traces.foldl {uses : List CacheUse} {c : Cache ResultPage} (h : Traces uses c) (clock : Instant)
    (later : List CacheUse) : Traces (uses ++ later) (later.foldl (CacheUse.apply clock) c) := by
  induction later generalizing uses c with
  | nil => rwa [List.append_nil]
  | cons use later ih =>
    have := ih (h.apply clock use)
    rwa [List.append_assoc] at this

/-- What the cache answers after a run is the page that was stored last for the criteria of the search. -/
theorem lastStore_of_get {setup : Setup} {ttl : Duration} {capacity : Nat} {steps : List Step} {criteria : Criteria}
    {clock : Instant} {page : ResultPage}
    (h : ((((start setup (.empty ttl capacity)).run steps).2.cache).get criteria.cacheKey clock).1 = some page) :
    ∃ use, lastStore ((start setup (.empty ttl capacity)).useHistory steps) criteria.cacheKey = some use ∧
      use.stored? = some (criteria, page) := by
  have empty : Traces [] (Cache.empty ttl capacity) := by
    constructor <;> simp [Cache.empty]
  have traces := empty.foldl setup.clock ((start setup (.empty ttl capacity)).useHistory steps)
  have hcache := run_cache (Consistent.start setup (.empty ttl capacity))
    (AtRest.start setup (.empty ttl capacity)) steps
  obtain ⟨entry, hentry, rfl⟩ := Cache.entry_of_get h
  rw [hcache] at hentry
  obtain ⟨use, criteria', huse, hstored⟩ := traces.last _ entry hentry
  refine ⟨use, huse, ?_⟩
  have hstores : use.stores criteria.cacheKey = true := by
    have := List.mem_of_mem_getLast? huse
    exact (List.mem_filter.1 this).2
  rw [CacheUse.stores, hstored, Option.any_some] at hstores
  have hcriteria : criteria' = criteria := Criteria.cacheKey_inj (of_decide_eq_true hstores)
  rw [hstored, hcriteria]

/-! ### What searches keep -/

/-- A search keeps a page in a step exactly when it ends in it with that page, fetched and not read from the cache. -/
theorem kept_mem_uses {e : Engine} (h : HoldsSlots e) (rest : AtRest e) {st : Step} {s : Search} {page : ResultPage} :
    .kept s page ∈ e.uses st ↔ ∃ fetch time answer, .finished s fetch time (.ok answer) ∈ (e.step st).1 ∧
      answer.cached = false ∧ answer.page = page := by
  constructor
  · intro hkept
    rcases List.mem_append.1 hkept with hkept | hkept
    · cases st <;> simp [enterUses] at hkept
    · obtain ⟨w, hw, huse⟩ := List.mem_filterMap.1 hkept
      have hevent := ending_mem_step rest hw
      rw [Waiting.use?] at huse
      cases houtcome : w.outcome with
      | error err => simp [houtcome] at huse
      | ok f =>
        rw [houtcome, Option.some.injEq, CacheUse.kept.injEq] at huse
        obtain ⟨rfl, rfl⟩ := huse
        rw [Waiting.ending, houtcome] at hevent
        exact ⟨_, _, _, hevent, rfl, rfl⟩
  · rintro ⟨fetch, time, answer, hevent, hcached, rfl⟩
    rcases finished_cases h rest hevent with ⟨-, -, page, -, hanswer⟩ | ⟨w, hw, rfl, -, hanswer⟩
    · rw [Except.ok.inj hanswer] at hcached
      cases hcached
    · rw [uses, List.mem_append, List.mem_filterMap]
      refine .inr ⟨w, hw, ?_⟩
      rw [Waiting.use?]
      cases houtcome : w.outcome with
      | error err =>
        rw [houtcome] at hanswer
        cases hanswer
      | ok f =>
        rw [houtcome] at hanswer
        rw [Except.ok.inj hanswer]
        rfl

/-- The searches that keep pages in a run are those that end in it with fetched pages. -/
theorem kept_mem_useHistory {e : Engine} (h : Consistent e) (rest : AtRest e) {steps : List Step} {s : Search}
    {page : ResultPage} : .kept s page ∈ e.useHistory steps ↔
      ∃ fetch time answer, .finished s fetch time (.ok answer) ∈ (e.run steps).1 ∧
        answer.cached = false ∧ answer.page = page := by
  induction steps generalizing e with
  | nil => simp [useHistory, run]
  | cons st steps ih =>
    rw [useHistory, List.mem_append, kept_mem_uses h.toHoldsSlots rest, ih (h.step rest st) (rest.step h st)]
    simp only [run, List.mem_append, or_and_right, exists_or]

theorem seeded_mem_useHistory {e : Engine} {steps : List Step} {criteria : Criteria} {age : Duration}
    {totalCount : Nat} :
    .seeded criteria age totalCount ∈ e.useHistory steps ↔ .seed criteria age totalCount ∈ steps := by
  have hstep : ∀ (e : Engine) (st : Step),
      .seeded criteria age totalCount ∈ e.uses st ↔ st = .seed criteria age totalCount := by
    intro e st
    have hkept : .seeded criteria age totalCount ∉ ((e.enter st).2.finishers st).filterMap Waiting.use? := by
      intro hmem
      obtain ⟨w, -, huse⟩ := List.mem_filterMap.1 hmem
      rw [Waiting.use?] at huse
      cases houtcome : w.outcome <;> simp [houtcome] at huse
    rw [uses, List.mem_append, or_iff_left hkept]
    cases st <;> simp [enterUses, eq_comm]
  induction steps generalizing e with
  | nil => simp [useHistory]
  | cons st steps ih =>
    rw [useHistory, List.mem_append, hstep, List.mem_cons, eq_comm]
    exact or_congr Iff.rfl ih

end RepoSearch.Engine
