import RepoSearch.Proofs.Engine.CacheHistory
import RepoSearch.Proofs.Engine.Calls

/-!
# Calls that deliver

When the cache has room for all the keys of a run and no entry of it grows old, entries stay. So once a call has
delivered the page of a key, later searches for the key find it, and no other call delivers a page for the key.
-/

namespace RepoSearch.Engine

/-! ### Uses that take nothing away -/

/-- A use of the cache that takes no entry away and puts in only fresh ones, under the given keys. -/
def CacheUse.Spares (keys : List String) (ttl : Duration) : CacheUse → Prop
  | read _ => True
  | kept s _ => s.criteria.cacheKey ∈ keys
  | seeded criteria age _ => criteria.cacheKey ∈ keys ∧ age ≤ ttl
  | cleared => False

theorem CacheUse.apply_ttl (clock : Instant) (c : Cache ResultPage) (use : CacheUse) :
    (use.apply clock c).ttl = c.ttl := by
  cases use with
  | read s => exact c.get_ttl _ clock
  | kept s page => exact c.set_ttl _ page clock
  | seeded criteria age totalCount => exact c.set_ttl _ _ _
  | cleared => rfl

private theorem since_self_le (clock : Instant) (ttl : Duration) : clock.since clock ≤ ttl := by
  show (clock.nanos - clock.nanos).toNat ≤ ttl.nanos
  omega

private theorem since_before_le {age ttl : Duration} (h : age ≤ ttl) (clock : Instant) :
    clock.since (clock.before age) ≤ ttl := by
  have hage : age.nanos ≤ ttl.nanos := h
  show (clock.nanos - (clock.nanos - (age.nanos : Int))).toNat ≤ ttl.nanos
  omega

/-- A use that spares a cache leaves it with its entries and with the one that it puts in. -/
theorem roomy_apply {keys : List String} {clock : Instant} {c : Cache ResultPage} (h : c.Roomy keys clock)
    {use : CacheUse} (spares : use.Spares keys c.ttl) : (use.apply clock c).Roomy keys clock ∧
      ∀ key, key ∈ (use.apply clock c).entries ↔ key ∈ c.entries ∨ use.stores key = true := by
  cases use with
  | read s =>
    have entries : (CacheUse.apply clock c (.read s)).entries = c.entries := by
      rw [CacheUse.apply, h.get_eq]
    refine ⟨h.get _, fun key => ?_⟩
    rw [entries]
    simp [CacheUse.stores, CacheUse.stored?]
  | kept s page =>
    refine ⟨h.set spares page (since_self_le clock c.ttl), fun key => ?_⟩
    exact (h.mem_set spares page clock key).trans (by simp [CacheUse.stores, CacheUse.stored?])
  | seeded criteria age totalCount =>
    refine ⟨h.set spares.1 _ (since_before_le spares.2 clock), fun key => ?_⟩
    exact (h.mem_set spares.1 _ _ key).trans (by simp [CacheUse.stores, CacheUse.stored?])
  | cleared => exact absurd spares id

theorem roomy_foldl {keys : List String} {clock : Instant} {c : Cache ResultPage} (h : c.Roomy keys clock)
    {uses : List CacheUse} (spares : ∀ use ∈ uses, use.Spares keys c.ttl) :
    (uses.foldl (CacheUse.apply clock) c).Roomy keys clock ∧
    (uses.foldl (CacheUse.apply clock) c).ttl = c.ttl ∧
    ∀ key, key ∈ (uses.foldl (CacheUse.apply clock) c).entries ↔
      key ∈ c.entries ∨ ∃ use ∈ uses, use.stores key = true := by
  induction uses generalizing c with
  | nil => exact ⟨h, rfl, fun key => by simp⟩
  | cons use uses ih =>
    obtain ⟨roomy, mem⟩ := roomy_apply h (spares use (by simp))
    have ttl := use.apply_ttl clock c
    obtain ⟨roomy', ttl', mem'⟩ := ih roomy fun use' huse' => by
      rw [ttl]
      exact spares use' (by simp [huse'])
    refine ⟨roomy', ttl'.trans ttl, fun key => ?_⟩
    rw [List.foldl_cons, mem', mem, or_assoc]
    simp only [List.mem_cons, exists_eq_or_imp]

/-! ### Steps that take nothing away -/

/-- A step that takes no entry out of the cache and puts in only fresh ones, and whose key is among the given ones. -/
def Step.Spares (limits : Limits) (keys : List String) (ttl : Duration) : Step → Prop
  | .search _ _ request => ∀ criteria, request.check limits = .ok criteria → criteria.cacheKey ∈ keys
  | .seed criteria age _ => criteria.cacheKey ∈ keys ∧ age ≤ ttl
  | .clear => False
  | _ => True

theorem key_mem_of_begun {e : Engine} {keys : List String} {ttl : Duration} {st : Step}
    (spares : st.Spares e.setup.limits keys ttl) {s : Search} (hs : e.begun st = some s) :
    s.criteria.cacheKey ∈ keys := by
  obtain ⟨slot, request, rfl, hcheck⟩ := search_of_begun hs
  exact spares s.criteria hcheck

/-- The cache of the engine has room for all the keys, and only they are waited for. -/
structure Ample (keys : List String) (ttl : Duration) (e : Engine) : Prop extends Orderly e where
  roomy : e.cache.Roomy keys e.setup.clock
  ttl : e.cache.ttl = ttl
  known : ∀ w ∈ e.waiting, w.key ∈ keys

section

variable {keys : List String} {ttl : Duration} {e : Engine}

theorem Ample.known_enter (h : Ample keys ttl e) {st : Step} (spares : st.Spares e.setup.limits keys ttl) {w : Waiting}
    (hw : w ∈ (e.enter st).2.waiting) : w.key ∈ keys := by
  rcases waiting_enter_cases h.books h.rest hw with ⟨v, hv, hsearch, -⟩ | ⟨hs, -⟩
  · rw [Waiting.key, hsearch]
    exact h.known v hv
  · exact key_mem_of_begun spares hs

private theorem Ample.uses_spare (h : Ample keys ttl e) {st : Step} (spares : st.Spares e.setup.limits keys ttl) :
    ∀ use ∈ e.uses st, use.Spares keys e.cache.ttl := by
  intro use huse
  rw [h.ttl]
  rcases List.mem_append.1 huse with huse | huse
  · cases st with
    | clear => exact absurd spares id
    | seed criteria age totalCount =>
      obtain rfl := List.mem_singleton.1 huse
      exact spares
    | _ =>
      obtain ⟨s, -, rfl⟩ := List.mem_map.1 huse
      trivial
  · obtain ⟨w, hw, huse⟩ := List.mem_filterMap.1 huse
    rw [Waiting.use?] at huse
    cases houtcome : w.outcome with
    | error err => simp [houtcome] at huse
    | ok f =>
      rw [houtcome] at huse
      obtain rfl := Option.some.inj huse
      exact h.known_enter spares (waiting_of_mem_finishers hw)

/-- A step that spares the cache leaves it with its entries and with those that it puts in. -/
theorem Ample.step (h : Ample keys ttl e) {st : Step} (spares : st.Spares e.setup.limits keys ttl) :
    Ample keys ttl (e.step st).2 ∧
      ∀ key, key ∈ (e.step st).2.cache.entries ↔ key ∈ e.cache.entries ∨ ∃ use ∈ e.uses st, use.stores key = true := by
  obtain ⟨roomy, ttl', mem⟩ := roomy_foldl h.roomy (h.uses_spare spares)
  rw [← step_cache h.books h.rest] at roomy ttl' mem
  refine ⟨⟨h.toOrderly.step st, ?_, ttl'.trans h.ttl, ?_⟩, mem⟩
  · rw [step_setup h.books.toHoldsSlots h.rest]
    exact roomy
  · exact fun w hw => h.known_enter spares (waiting_of_step h.books h.rest hw)

/-! ### Once a page is delivered -/

/-- The page of a key is in the cache, and whoever waits for the key still waits for one fetch. -/
structure Served (key : String) (fetch : Nat) (e : Engine) : Prop where
  stored : key ∈ e.cache.entries
  same : ∀ w ∈ e.waiting, w.key = key → w.fetch.id = fetch

/-- No search for a key whose page is in the cache begins to wait. -/
theorem Served.enter {key : String} {fetch : Nat} (served : Served key fetch e) (h : Ample keys ttl e) {st : Step}
    {w : Waiting} (hw : w ∈ (e.enter st).2.waiting) (hkey : w.key = key) : w.fetch.id = fetch := by
  rcases waiting_enter_cases h.books h.rest hw with ⟨v, hv, hsearch, hfetch⟩ | ⟨-, hmiss, -⟩
  · rw [hfetch]
    exact served.same v hv (by rw [← hkey, Waiting.key, Waiting.key, hsearch])
  · have hstored := served.stored
    rw [Std.ExtTreeMap.mem_iff_isSome_getElem?, Option.isSome_iff_exists] at hstored
    obtain ⟨entry, hentry⟩ := hstored
    have hfresh := h.roomy.fresh key entry hentry
    rw [Cache.get_eq_none_iff.1 hmiss entry (hkey ▸ hentry)] at hfresh
    cases hfresh

theorem Served.step {key : String} {fetch : Nat} (served : Served key fetch e) (h : Ample keys ttl e) {st : Step}
    (spares : st.Spares e.setup.limits keys ttl) : Served key fetch (e.step st).2 := by
  constructor
  · exact ((h.step spares).2 key).2 (.inl served.stored)
  · exact fun w hw hkey => served.enter h (waiting_of_step h.books h.rest hw) hkey

/-- A search that a fetch serves with a page has waited for it, and keeps the page. -/
theorem waiting_of_served (h : Orderly e) {st : Step} {s : Search} {fetch time : Nat} {answer : Answer}
    (hevent : .finished s (some fetch) time (.ok answer) ∈ (e.step st).1) :
    (∃ w ∈ (e.enter st).2.waiting, w.search = s ∧ w.fetch.id = fetch) ∧
      ∃ use ∈ e.uses st, use.stores s.criteria.cacheKey = true := by
  rcases finished_cases h.books.toHoldsSlots h.rest hevent with ⟨-, hfetch, -⟩ | ⟨w, hw, rfl, hfetch, hresult⟩
  · cases hfetch
  · refine ⟨⟨w, waiting_of_mem_finishers hw, rfl, (Option.some.inj hfetch).symm⟩, ?_⟩
    cases houtcome : w.outcome with
    | error err =>
      rw [houtcome] at hresult
      cases hresult
    | ok f =>
      refine ⟨.kept w.search f.page, ?_, ?_⟩
      · refine List.mem_append_right _ (List.mem_filterMap.2 ⟨w, hw, ?_⟩)
        rw [Waiting.use?, houtcome]
      · simp [CacheUse.stores, CacheUse.stored?]

theorem served_of_finished (h : Ample keys ttl e) {st : Step} (spares : st.Spares e.setup.limits keys ttl) {s : Search}
    {fetch time : Nat} {answer : Answer} (hevent : .finished s (some fetch) time (.ok answer) ∈ (e.step st).1) :
    Served s.criteria.cacheKey fetch (e.step st).2 := by
  obtain ⟨⟨w, hw, rfl, rfl⟩, huse⟩ := waiting_of_served h.toOrderly hevent
  constructor
  · exact ((h.step spares).2 _).2 (.inr huse)
  · intro v hv hkey
    rw [(h.books.enter h.rest st).fetch_eq (waiting_of_step h.books h.rest hv) hw hkey]

/-- Once a page is delivered for a key, only the same fetch delivers one for it. -/
theorem Served.run {key : String} {fetch : Nat} (served : Served key fetch e) (h : Ample keys ttl e) {steps : List Step}
    (spares : ∀ st ∈ steps, st.Spares e.setup.limits keys ttl) {s : Search} {fetch' time : Nat} {answer : Answer}
    (hevent : .finished s (some fetch') time (.ok answer) ∈ (e.run steps).1) (hkey : s.criteria.cacheKey = key) :
    fetch' = fetch := by
  induction steps generalizing e with
  | nil => cases hevent
  | cons st steps ih =>
    have hst := spares st (by simp)
    rcases List.mem_append.1 hevent with hevent | hevent
    · obtain ⟨⟨w, hw, rfl, rfl⟩, -⟩ := waiting_of_served h.toOrderly hevent
      exact served.enter h hw hkey
    · refine ih (served.step h hst) (h.step hst).1 (fun st' hst' => ?_) hevent
      rw [step_setup h.books.toHoldsSlots h.rest]
      exact spares st' (by simp [hst'])

/-- In a run that spares the cache, pages for one key are delivered by one fetch. -/
theorem fetch_eq_of_finished (h : Ample keys ttl e) {steps : List Step}
    (spares : ∀ st ∈ steps, st.Spares e.setup.limits keys ttl) {s s' : Search} {fetch fetch' time time' : Nat}
    {answer answer' : Answer} (hevent : .finished s (some fetch) time (.ok answer) ∈ (e.run steps).1)
    (hevent' : .finished s' (some fetch') time' (.ok answer') ∈ (e.run steps).1)
    (hkey : s.criteria.cacheKey = s'.criteria.cacheKey) : fetch = fetch' := by
  induction steps generalizing e with
  | nil => cases hevent
  | cons st steps ih =>
    have hst := spares st (by simp)
    have later : ∀ st' ∈ steps, st'.Spares (e.step st).2.setup.limits keys ttl := by
      rw [step_setup h.books.toHoldsSlots h.rest]
      exact fun st' hst' => spares st' (by simp [hst'])
    have next := (h.step hst).1
    rcases List.mem_append.1 hevent with hevent | hevent <;> rcases List.mem_append.1 hevent' with hevent' | hevent'
    · obtain ⟨⟨v, hv, rfl, rfl⟩, -⟩ := waiting_of_served h.toOrderly hevent
      obtain ⟨⟨w, hw, rfl, rfl⟩, -⟩ := waiting_of_served h.toOrderly hevent'
      rw [(h.books.enter h.rest st).fetch_eq hv hw hkey]
    · exact ((served_of_finished h hst hevent).run next later hevent' hkey.symm).symm
    · exact (served_of_finished h hst hevent').run next later hevent hkey
    · exact ih next later hevent hevent'

end

/-! ### Calls in a run -/

/-- The key of the search or of the seed in a step, if it has an acceptable one. -/
def Step.key? (limits : Limits) : Step → Option String
  | .search _ _ request => (request.check limits).toOption.map Criteria.cacheKey
  | .seed criteria _ _ => some criteria.cacheKey
  | _ => none

/-- In a run a search for the key ends with the page of the call. -/
def Delivers (e : Engine) (steps : List Step) (n : Nat) (key : String) : Prop :=
  ∃ call s time answer, (e.run steps).2.calls[n]? = some call ∧
    .finished s (some call.fetch) time (.ok answer) ∈ (e.run steps).1 ∧ s.criteria.cacheKey = key

theorem Ample.start {setup : Setup} {ttl : Duration} {capacity : Nat} {keys : List String} (keeps : 0 < ttl.nanos)
    (room : keys.dedup.length ≤ capacity) : Ample keys ttl (start setup (.empty ttl capacity)) := by
  refine ⟨Orderly.start setup _, .empty keeps room setup.clock, rfl, ?_⟩
  simp [Engine.start]

/-- A step that makes a call begins a search for whose key the cache has no fresh entry and no unfinished search waits.
So calls that are alive have different keys, between steps and within them as searches leave one after the other. In a
run whose cache has time to live and room for all keys, is never cleared, and is given nothing too old, no key has two
calls that deliver a page. -/
theorem no_redundant_call (setup : Setup) (ttl : Duration) (capacity : Nat) :
    (∀ before st, ((start setup (.empty ttl capacity)).run (before ++ [st])).2.calls ≠
        ((start setup (.empty ttl capacity)).run before).2.calls →
      ∃ s, ((start setup (.empty ttl capacity)).run before).2.begun st = some s ∧
        (∀ entry, ((start setup (.empty ttl capacity)).run before).2.cache.entries[s.criteria.cacheKey]? = some entry →
          ((start setup (.empty ttl capacity)).run before).2.cache.isExpired setup.clock entry = true) ∧
        (∀ s' ∈ (start setup (.empty ttl capacity)).unfinished before, s'.criteria.cacheKey ≠ s.criteria.cacheKey) ∧
        ((start setup (.empty ttl capacity)).run (before ++ [st])).2.calls =
          ((start setup (.empty ttl capacity)).run before).2.calls ++
            [((start setup (.empty ttl capacity)).run before).2.newCall s]) ∧
    (∀ before st, OneCallEach ((start setup (.empty ttl capacity)).run before).2 ∧
      ∀ gone, gone <+: (((start setup (.empty ttl capacity)).run before).2.enter st).2.leavers st →
        OneCallEach (gone.foldl dismiss (((start setup (.empty ttl capacity)).run before).2.enter st).2)) ∧
    ∀ steps, 0 < ttl.nanos → .clear ∉ steps →
      (∀ criteria age totalCount, .seed criteria age totalCount ∈ steps → age ≤ ttl) →
      (steps.filterMap (Step.key? setup.limits)).dedup.length ≤ capacity →
      ∀ key m n, (start setup (.empty ttl capacity)).Delivers steps m key →
        (start setup (.empty ttl capacity)).Delivers steps n key → m = n := by
  refine ⟨fun before st hcalls => ?_, fun before st => ?_, ?_⟩
  · have h := run_orderly setup (.empty ttl capacity) before
    have hsetup := run_setup (Consistent.start setup (.empty ttl capacity)) (AtRest.start setup _) before
    rw [run_concat] at hcalls ⊢
    obtain ⟨s, hs, hmiss, halone, hcalls⟩ := call_of_step h.books h.rest hcalls
    rw [hsetup] at hmiss
    rw [unfinished_eq]
    exact ⟨s, hs, hmiss, halone, hcalls⟩
  · have h := run_orderly setup (.empty ttl capacity) before
    exact ⟨h.oneCallEach, fun gone _ => (h.oneCallEach_enter st).foldl_dismiss gone⟩
  · intro steps keeps hclear hseed room key m n
    rintro ⟨call, s, time, answer, hm, hevent, rfl⟩ ⟨call', s', time', answer', hn, hevent', hkey⟩
    have spares : ∀ st ∈ steps, st.Spares setup.limits (steps.filterMap (Step.key? setup.limits)) ttl := by
      intro st hst
      have mem : ∀ {key}, st.key? setup.limits = some key → key ∈ steps.filterMap (Step.key? setup.limits) :=
        fun hkey => List.mem_filterMap.2 ⟨st, hst, hkey⟩
      cases st with
      | search caller slot request =>
        intro criteria hcheck
        refine mem ?_
        rw [Step.key?, hcheck]
        rfl
      | seed criteria age totalCount => exact ⟨mem rfl, hseed criteria age totalCount hst⟩
      | clear => exact absurd hst hclear
      | advance millis => trivial
      | abort caller => trivial
    have hfetch := fetch_eq_of_finished (Ample.start keeps room) spares hevent hevent' hkey.symm
    exact (run_orderly setup (.empty ttl capacity) steps).numbered.eq_of_fetch hm hn hfetch

/-- Where a second search finds the page of the first, and a seed another one, only the first call delivers. -/
theorem first_call_delivers :
    let engine := start ⟨{}, .ofSecs 1, [⟨⟨0⟩, .ok ⟨7, [], ⟨none, none⟩⟩⟩], ⟨0⟩⟩ (.empty (.ofSecs 60) 2)
    let steps := [Step.search "first" (some "a") { q := some "rust" },
      .seed ⟨"lean", 1, 10, .stars, [], none⟩ (.ofSecs 60) 3, .search "second" (some "b") { q := some "rust" }]
    let key := Criteria.cacheKey ⟨"rust", 1, 10, .stars, [], none⟩
    engine.Delivers steps 0 key ∧ ∀ n, engine.Delivers steps n key → n = 0 := by
  intro engine steps key
  have fetches : (engine.run steps).2.calls.map Call.fetch = [1] := by decide +kernel
  have first : ((engine.run steps).2.calls[0]?).map Call.fetch = some 1 := by
    rw [← List.getElem?_map, fetches]
    rfl
  obtain ⟨call, hcall, hfetch⟩ := Option.map_eq_some_iff.1 first
  let s : Search := ⟨"first", "a", 0, ⟨"rust", 1, 10, .stars, [], none⟩⟩
  let answer : Answer := ⟨⟨7, []⟩, false, .ofCriteria s.criteria, some ⟨none, none⟩⟩
  have hevent : .finished s (some 1) 0 (.ok answer) ∈
      ((engine.run []).2.step (.search "first" (some "a") { q := some "rust" })).1 := by
    unfold engine s answer
    exact List.mem_singleton.2 rfl
  have delivers : engine.Delivers steps 0 key := by
    refine ⟨call, s, 0, answer, hcall, ?_, rfl⟩
    rw [hfetch]
    exact mem_run.2 ⟨[], _, _, rfl, hevent⟩
  refine ⟨delivers, fun n hn => ?_⟩
  have young : ∀ criteria age totalCount, .seed criteria age totalCount ∈ steps → age ≤ .ofSecs 60 := by
    intro criteria age totalCount hseed
    simp only [steps, List.mem_cons, List.not_mem_nil, or_false, reduceCtorEq, false_or, Step.seed.injEq] at hseed
    rw [hseed.2.1]
    decide
  exact (no_redundant_call _ (.ofSecs 60) 2).2.2 steps (by decide) (by simp [steps]) young (by decide +kernel) key n 0
    hn delivers

end RepoSearch.Engine
