import RepoSearch.Proofs.Engine.Calls
import RepoSearch.Proofs.Engine.Provenance

/-!
# What searches leave behind

The cache holds what seeds, clears, reads of expired entries and the pages of successful searches make of it, one page
for each search that ends well with a page of its own. A search that has ended holds no slot and no place in a flight,
and one that fails has left nothing in the cache either.
-/

namespace RepoSearch.Engine

/-! ### Changes of the cache -/

/-- What a use changes in a cache, its counters apart. -/
def CacheUse.change (clock : Instant) (c : Cache ResultPage) : CacheUse → Cache ResultPage
  | read s => c.dropExpired s.criteria.cacheKey clock
  | kept s page => c.set s.criteria.cacheKey page clock
  | seeded criteria age totalCount => c.set criteria.cacheKey ⟨totalCount, []⟩ (clock.before age)
  | cleared => c.clear

/-- The page that is kept by a search that ends well, unless the cache has answered it. -/
def Event.kept? : Event → Option CacheUse
  | .finished s _ _ (.ok answer) => if answer.cached then none else some (.kept s answer.page)
  | _ => none

/-- The uses of the cache in a run, told from the steps and their events. -/
def toldHistory (e : Engine) : List Step → List CacheUse
  | [] => []
  | st :: steps => e.enterUses st ++ (e.step st).1.filterMap Event.kept? ++ (e.step st).2.toldHistory steps

private theorem contents_apply (clock : Instant) (c : Cache ResultPage) (use : CacheUse) :
    (use.apply clock c).contents = use.change clock c.contents := by
  cases use with
  | read s => exact c.contents_get _ clock
  | kept s page => exact c.contents_set _ page clock
  | seeded criteria age totalCount => exact c.contents_set _ _ _
  | cleared => rfl

theorem contents_foldl (clock : Instant) (c : Cache ResultPage) (uses : List CacheUse) :
    (uses.foldl (CacheUse.apply clock) c).contents = uses.foldl (CacheUse.change clock) c.contents := by
  induction uses generalizing c with
  | nil => rfl
  | cons use uses ih => rw [List.foldl_cons, List.foldl_cons, ih, contents_apply]

private theorem kept?_ending (time : Nat) (w : Waiting) : (w.ending time).kept? = w.use? := by
  rw [Waiting.ending, Waiting.use?]
  cases w.outcome <;> rfl

theorem filterMap_kept?_ending (time : Waiting → Nat) (ws : List Waiting) :
    (ws.map fun w => w.ending (time w)).filterMap Event.kept? = ws.filterMap Waiting.use? := by
  rw [List.filterMap_map]
  exact List.filterMap_congr fun w _ => kept?_ending (time w) w

private theorem filterMap_kept?_enter {e : Engine} (h : HoldsSlots e) (rest : AtRest e) (st : Step) :
    (e.enter st).1.filterMap Event.kept? = [] := by
  refine List.filterMap_eq_nil_iff.2 fun event hevent => ?_
  cases event with
  | refused caller fault => rfl
  | finished s fetch time result =>
    obtain ⟨-, -, page, -, rfl⟩ := begun_of_finished h rest hevent
    rfl

/-- The events of a step tell the pages that are kept in it. -/
theorem uses_eq {e : Engine} (h : HoldsSlots e) (rest : AtRest e) (st : Step) :
    e.uses st = e.enterUses st ++ (e.step st).1.filterMap Event.kept? := by
  rw [uses, step_eq rest, List.filterMap_append, filterMap_kept?_enter h rest, endings, filterMap_kept?_ending]
  rfl

theorem toldHistory_eq {e : Engine} (h : Consistent e) (rest : AtRest e) (steps : List Step) :
    e.toldHistory steps = e.useHistory steps := by
  induction steps generalizing e with
  | nil => rfl
  | cons st steps ih =>
    rw [toldHistory, useHistory, uses_eq h.toHoldsSlots rest, ih (h.step rest st) (rest.step h st)]

/-! ### In the middle of a step -/

/-- Waiting searches stop waiting in the second half of a step, one after the other. -/
def stopAll (e : Engine) (gone : List Waiting) : Step → List Event × Engine
  | .advance _ => e.resumeDue gone
  | .abort _ => ([], gone.foldl dismiss e)
  | _ => e.resumeAll gone

private theorem foldl_keptIn_contents (clock : Instant) (ws : List Waiting) (c : Cache ResultPage) :
    (ws.foldl (Waiting.keptIn clock) c).contents =
      (ws.filterMap Waiting.use?).foldl (CacheUse.change clock) c.contents := by
  rw [foldl_keptIn, contents_foldl]

/-- The middle of a step after a run, when the given searches have stopped waiting, with the events of these. -/
def midway (e : Engine) (before : List Step) (st : Step) (gone : List Waiting) : List Event × Engine :=
  ((e.run before).2.enter st).2.stopAll gone st

/-- Searches that stop waiting are dismissed, and their events tell what they change in the cache. -/
theorem stopAll_eq (e : Engine) (gone : List Waiting) (st : Step) :
    ∃ now cache, (e.stopAll gone st).2 = (gone.foldl dismiss e).moved now cache ∧ cache.contents =
      ((e.stopAll gone st).1.filterMap Event.kept?).foldl (CacheUse.change e.setup.clock) e.cache.contents := by
  have all : ∃ now cache, (e.resumeAll gone).2 = (gone.foldl dismiss e).moved now cache ∧ cache.contents =
      ((e.resumeAll gone).1.filterMap Event.kept?).foldl (CacheUse.change e.setup.clock) e.cache.contents := by
    rw [resumeAll_eq]
    refine ⟨_, _, rfl, ?_⟩
    rw [foldl_keptIn_contents, filterMap_kept?_ending fun _ => e.now]
  cases st with
  | advance millis =>
    obtain ⟨now, h⟩ := resumeDue_eq e gone
    rw [stopAll, h]
    refine ⟨now, _, rfl, ?_⟩
    rw [foldl_keptIn_contents, filterMap_kept?_ending fun w => w.fetch.endsAt]
  | abort caller =>
    refine ⟨e.now, e.cache, ?_, rfl⟩
    rw [stopAll, foldl_dismiss_eq]
    rfl
  | search caller slot request => exact all
  | clear => exact all
  | seed criteria age totalCount => exact all

/-! ### Searches that have ended -/

/-- Neither the slots nor the flights hold anything for a search: they are those of the others, who are given. -/
structure Forgets (e : Engine) (others : List Search) (s : Search) : Prop where
  absent : s ∉ others
  slots : ∀ slot g, e.slots[slot]? = some g →
    g ≠ s.generation ∧ ∃ s' ∈ others, s'.slot = slot ∧ s'.generation = g
  flights : ∀ key f, e.flights[key]? = some f →
    0 < f.waiters ∧ f.waiters = others.countP (·.criteria.cacheKey = key)

theorem Consistent.forgets {e : Engine} (h : Consistent e) {s : Search}
    (absent : ∀ s' ∈ e.searches, s'.generation ≠ s.generation) : Forgets e e.searches s := by
  refine ⟨fun hs => absent s hs rfl, fun slot g hg => ?_, fun key f hf => ?_⟩
  · obtain ⟨w, hw, -, hslot, hgen⟩ := (h.held slot g).1 hg
    have hsearch : w.search ∈ e.searches := List.mem_map_of_mem hw
    exact ⟨hgen ▸ absent w.search hsearch, w.search, hsearch, hslot, hgen⟩
  · obtain ⟨hcount, hpos⟩ := h.counted key f hf
    refine ⟨hpos, ?_⟩
    rw [hcount, waiters, searches, List.countP_map]
    refine List.countP_congr fun w _ => ?_
    rw [Function.comp_apply, decide_eq_true_iff, decide_eq_true_iff, Waiting.key]

/-! ### Runs -/

/-- An unfinished search is given up in a run when a step of the run does so. -/
def GivenUp (e : Engine) (steps : List Step) (s : Search) : Prop :=
  ∃ before st later, steps = before ++ st :: later ∧ s ∈ e.unfinished before ∧ st.givesUp s = true

section Run

variable {setup : Setup} {cache : Cache ResultPage} {steps : List Step} {s : Search}

/-- A search that is given up is gone, and no event tells of it. -/
private theorem GivenUp.gone (hs : (start setup cache).GivenUp steps s) :
    Gone ((start setup cache).run steps).2 s ∧ s ∉ ended ((start setup cache).run steps).1 := by
  obtain ⟨before, st, later, rfl, hunfinished, hgives⟩ := hs
  obtain ⟨h, rest⟩ := run_consistent setup cache before
  rw [unfinished_eq] at hunfinished
  have gone : Gone (((start setup cache).run before).2.step st).2 s :=
    gone_of_not_mem h rest (.inl hunfinished) fun hmem => ((mem_searches_step h rest).1 hmem).2.2 hgives
  have silent : (((start setup cache).run before).2.step st).1 = [] := by
    cases st with
    | abort caller => rfl
    | _ => exact absurd hgives Bool.false_ne_true
  obtain ⟨hlater, hrun⟩ := gone.run (h.step rest st) (rest.step h st) later
  rw [run_append]
  refine ⟨hlater, ?_⟩
  simp only [run, ended_append, silent, List.mem_append, not_or]
  refine ⟨?_, List.not_mem_nil, hrun⟩
  exact not_mem_ended_of_searches (Consistent.start setup cache) (AtRest.start setup cache) hunfinished

/-- The page of a search that ends well, unless the cache has answered it, is the reduced page of a reply that GitHub
gave to its request. -/
private theorem page_of_finished {fetch : Option Nat} {time : Nat} {answer : Answer}
    (hevent : .finished s fetch time (.ok answer) ∈ ((start setup cache).run steps).1)
    (hcached : answer.cached = false) : ∃ call ∈ ((start setup cache).run steps).2.calls, ∃ raw,
      call.request = s.criteria.pageRequest ∧ call.reply.outcome = .ok raw ∧
      answer.page = ⟨raw.totalCount, raw.items.map Repository.ofJson⟩ := by
  obtain ⟨before, st, later, rfl, hstep⟩ := mem_run.1 hevent
  obtain ⟨h, rest⟩ := run_consistent setup cache before
  rcases finished_cases h.toHoldsSlots rest hstep with ⟨-, -, page, -, hanswer⟩ | ⟨w, hw, rfl, -, hanswer⟩
  · rw [Except.ok.inj hanswer] at hcached
    cases hcached
  · have hsup : w.superseded = false := by
      rw [← Bool.not_eq_true]
      intro hsup
      rw [Waiting.outcome_of_superseded hsup] at hanswer
      cases hanswer
    have sourced := (run_sourced setup cache before).enter h rest st
    obtain ⟨call, hcall, hawaits⟩ := sourced.awaited w (waiting_of_mem_finishers hw)
    have hyields := hawaits.yields hsup
    rw [← hanswer] at hyields
    obtain ⟨-, raw, hraw, hpage, -⟩ := hyields
    refine ⟨call, ?_, raw, hawaits.request, hraw, hpage⟩
    rw [← step_calls rest] at hcall
    rw [run_append]
    exact (calls_prefix_run (h.step rest st) (rest.step h st) later).subset hcall

private theorem kept_mem_toldHistory {page : ResultPage} :
    .kept s page ∈ (start setup cache).toldHistory steps ↔
      ∃ fetch time answer, .finished s fetch time (.ok answer) ∈ ((start setup cache).run steps).1 ∧
        answer.cached = false ∧ answer.page = page := by
  rw [toldHistory_eq (Consistent.start setup cache) (AtRest.start setup cache)]
  exact kept_mem_useHistory (Consistent.start setup cache) (AtRest.start setup cache)

end Run

/-- What the cache holds after a run, and in the middle of its next step, is what seeds, clears, reads of expired entries
and the pages of successful searches make of it. A search ends at most once, and the page that it keeps is the one that
GitHub has sent for its criteria; one that fails or is given up keeps none. Once a search has ended or is given up, no
slot and no flight counts it. A request that is refused changes nothing at all. -/
theorem only_successes_kept (setup : Setup) (cache : Cache ResultPage) :
    (∀ steps, ((start setup cache).run steps).2.cache.contents =
      ((start setup cache).toldHistory steps).foldl (CacheUse.change setup.clock) cache.contents) ∧
    (∀ before st gone, gone <+: (((start setup cache).run before).2.enter st).2.leavers st →
      ((start setup cache).midway before st gone).2.cache.contents =
        ((start setup cache).toldHistory before ++ ((start setup cache).run before).2.enterUses st ++
          ((start setup cache).midway before st gone).1.filterMap Event.kept?).foldl
            (CacheUse.change setup.clock) cache.contents ∧
      ∀ w ∈ gone, Forgets ((start setup cache).midway before st gone).2
        ((start setup cache).midway before st gone).2.searches w.search) ∧
    (∀ steps, (ended ((start setup cache).run steps).1).Nodup) ∧
    (∀ steps s page, .kept s page ∈ (start setup cache).toldHistory steps →
      (∃ call ∈ ((start setup cache).run steps).2.calls, ∃ raw, call.request = s.criteria.pageRequest ∧
        call.reply.outcome = .ok raw ∧ page = ⟨raw.totalCount, raw.items.map Repository.ofJson⟩) ∧
      (∀ fetch time err, .finished s fetch time (.error err) ∉ ((start setup cache).run steps).1) ∧
      ¬(start setup cache).GivenUp steps s) ∧
    (∀ steps s, s ∈ ended ((start setup cache).run steps).1 ∨ (start setup cache).GivenUp steps s →
      Forgets ((start setup cache).run steps).2 ((start setup cache).unfinished steps) s) ∧
    (∀ before caller slot request fault, request.check setup.limits = .error fault →
      ((start setup cache).run before).2.step (.search caller slot request) =
        ([.refused caller fault], ((start setup cache).run before).2)) := by
  have hstart := Consistent.start setup cache
  have hrest := AtRest.start setup cache
  have hsetup : ∀ steps, ((start setup cache).run steps).2.setup = setup := run_setup hstart hrest
  have contents : ∀ steps, ((start setup cache).run steps).2.cache.contents =
      ((start setup cache).toldHistory steps).foldl (CacheUse.change setup.clock) cache.contents := by
    intro steps
    rw [run_cache hstart hrest, contents_foldl, toldHistory_eq hstart hrest]
    rfl
  refine ⟨contents, fun before st gone hgone => ?_, nodup_ended hstart hrest, fun steps s page hkept => ?_,
    fun steps s hs => ?_, fun before caller slot request fault hfault => ?_⟩
  · obtain ⟨h, rest⟩ := run_consistent setup cache before
    have entered := h.enter rest st
    have hwaits : ∀ w ∈ gone, w ∈ (((start setup cache).run before).2.enter st).2.waiting := fun w hw =>
      (mem_leavers.1 (hgone.subset hw)).1
    have distinct : (gone.map (·.search.generation)).Nodup :=
      (nodup_leavers entered.toHoldsSlots st).sublist (hgone.sublist.map _)
    obtain ⟨now, cache', hstop, hcache⟩ := (((start setup cache).run before).2.enter st).2.stopAll_eq gone st
    rw [midway]
    constructor
    · have : ((((start setup cache).run before).2.enter st).2.stopAll gone st).2.cache = cache' := by
        rw [hstop]
        rfl
      rw [this, hcache, enter_cache h.toHoldsSlots rest, contents_foldl, enter_setup h.toHoldsSlots rest, hsetup,
        contents, List.foldl_append, List.foldl_append]
    · intro w hw
      rw [hstop]
      have books := (entered.foldl_dismiss hwaits distinct).moved now cache'
      refine books.forgets fun s' hs' hgen => ?_
      obtain ⟨v, hv, rfl⟩ := List.mem_map.1 hs'
      rw [foldl_dismiss_eq] at hv
      have hout := (List.mem_filter.1 hv).2
      rw [decide_eq_true_eq, hgen] at hout
      exact hout (List.mem_map_of_mem hw)
  · obtain ⟨fetch, time, answer, hevent, hcached, rfl⟩ := kept_mem_toldHistory.1 hkept
    refine ⟨page_of_finished hevent hcached, fun fetch' time' err herr => ?_, fun hgiven => ?_⟩
    · cases finished_unique hstart hrest hevent herr
    · exact hgiven.gone.2 (mem_ended.2 ⟨fetch, time, .ok answer, hevent⟩)
  · have gone : Gone ((start setup cache).run steps).2 s := by
      rcases hs with hs | hs
      · exact gone_of_ended hstart hrest hs
      · exact hs.gone.1
    rw [unfinished_eq]
    exact (run_consistent setup cache steps).1.forgets gone.absent
  · rw [step, search, hsetup, hfault]

/-- A search that GitHub fails keeps no page and holds neither its slot nor its flight afterwards. -/
theorem failed_search_forgotten :
    let e := start ⟨{}, .ofSecs 1, [⟨⟨0⟩, .error (.failed (some 500) "down")⟩], ⟨0⟩⟩ (.empty (.ofSecs 60) 4)
    let steps := [Step.search "first" (some "box") { q := some "rust" }]
    let s : Search := ⟨"first", "box", 0, ⟨"rust", 1, 10, .stars, [], none⟩⟩
    .finished s (some 1) 0 (.error (.failed (some 500) "down")) ∈ (e.run steps).1 ∧
    (∀ page, .kept s page ∉ e.toldHistory steps) ∧ Forgets (e.run steps).2 (e.unfinished steps) s := by
  intro e steps s
  have hevent : .finished s (some 1) 0 (.error (.failed (some 500) "down")) ∈ (e.run steps).1 := by
    unfold e steps s
    exact List.mem_singleton.2 rfl
  obtain ⟨-, -, -, kept, ended, -⟩ := only_successes_kept e.setup (.empty (.ofSecs 60) 4)
  refine ⟨hevent, fun page hkept => ?_, ended steps s (.inl (mem_ended.2 ⟨_, _, _, hevent⟩))⟩
  exact (kept steps s page hkept).2.1 _ _ _ hevent

end RepoSearch.Engine
