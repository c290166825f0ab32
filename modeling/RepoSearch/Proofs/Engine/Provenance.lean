import RepoSearch.Proofs.Engine.Supersession

/-!
# Where results come from

Every result of a search, apart from its supersession, is the reply to a call that asked GitHub for the page of its own
criteria, or it is the page that was last kept in the cache for these criteria, by a seed or by another search that was
handed it.
-/

namespace RepoSearch.Engine

/-- A call whose reply is awaited for no longer than `timeout` yields a result. -/
def Call.Yields (call : Call) (timeout : Duration) : Except SearchError Answer → Prop
  | .ok answer => call.reply.delay.millisUp ≤ timeout.millisUp ∧ ∃ raw, call.reply.outcome = .ok raw ∧
      answer.page = ⟨raw.totalCount, raw.items.map Repository.ofJson⟩ ∧ answer.quota = some raw.quota
  | .error err => (call.reply.delay.millisUp ≤ timeout.millisUp ∧ call.reply.outcome = .error err) ∨
      (timeout.millisUp < call.reply.delay.millisUp ∧ err = .timedOut timeout)

/-- The result is yielded by a call that asks for the page of the criteria and that gets GitHub's reply to it. -/
def FromCall (e : Engine) (criteria : Criteria) (fetch : Option Nat) (result : Except SearchError Answer) : Prop :=
  ∃ (n : Nat) (call : Call), e.calls[n]? = some call ∧ call.reply = (e.setup.replies[n]?).getD Reply.emptyPage ∧
    fetch = some call.fetch ∧ call.request = criteria.pageRequest ∧ call.Yields e.setup.timeout result

/-- The page is the last that was stored under the criteria's key in a run, by a seed for the same criteria or by a
search for them that ended with it. -/
def FromCache (e : Engine) (steps : List Step) (criteria : Criteria) (page : ResultPage) : Prop :=
  (∃ age, lastStore (e.useHistory steps) criteria.cacheKey = some (.seeded criteria age page.totalCount) ∧
    .seed criteria age page.totalCount ∈ steps ∧ page.items = []) ∨
  ∃ s fetch time answer, lastStore (e.useHistory steps) criteria.cacheKey = some (.kept s page) ∧
    s.criteria = criteria ∧ .finished s fetch time (.ok answer) ∈ (e.run steps).1 ∧
    answer.cached = false ∧ answer.page = page

/-- A step of a run asks for the search, with a request whose check gives its criteria. -/
def AskedFor (e : Engine) (steps : List Step) (s : Search) : Prop :=
  ∃ earlier slot request later, steps = earlier ++ .search s.caller slot request :: later ∧
    request.check e.setup.limits = .ok s.criteria ∧
    (e.run earlier).2.begun (.search s.caller slot request) = some s

/-! ### Requests -/

theorem askedFor_of_finished {setup : Setup} {cache : Cache ResultPage} {before : List Step} {st : Step} {s : Search}
    {fetch : Option Nat} {time : Nat} {result : Except SearchError Answer}
    (hevent : .finished s fetch time result ∈ (((start setup cache).run before).2.step st).1) :
    AskedFor (start setup cache) (before ++ [st]) s := by
  obtain ⟨h, rest⟩ := run_consistent setup cache before
  have limits : ∀ steps, ((start setup cache).run steps).2.setup.limits = setup.limits := fun steps =>
    congrArg Setup.limits (run_setup (Consistent.start setup cache) (AtRest.start setup cache) steps)
  have hbegun : ∃ earlier st' later, before ++ [st] = earlier ++ st' :: later ∧
      ((start setup cache).run earlier).2.begun st' = some s := by
    rcases mem_of_ended h rest (mem_ended.2 ⟨fetch, time, result, hevent⟩) with hs | hbegun
    · rcases begun_of_searches (Consistent.start setup cache) (AtRest.start setup cache) hs with
        hs | ⟨earlier, st', later, hsteps, hbegun⟩
      · cases hs
      · exact ⟨earlier, st', later ++ [st], by rw [hsteps, List.append_assoc, List.cons_append], hbegun⟩
    · exact ⟨before, st, [], rfl, hbegun⟩
  obtain ⟨earlier, st', later, hsteps, hbegun⟩ := hbegun
  obtain ⟨slot, request, rfl, hcheck⟩ := search_of_begun hbegun
  rw [limits] at hcheck
  exact ⟨earlier, slot, request, later, hsteps, hcheck, hbegun⟩

/-! ### Results -/

theorem Waiting.Awaits.yields {timeout : Duration} {w : Waiting} {call : Call} (h : w.Awaits timeout call)
    (hsup : w.superseded = false) : call.Yields timeout (w.outcome.map w.search.answer) := by
  rw [Waiting.outcome, if_neg (by rw [hsup]; exact Bool.false_ne_true), h.outcome, Reply.within]
  split_ifs with hdelay
  · cases houtcome : call.reply.outcome with
    | ok raw => exact ⟨hdelay, raw, houtcome, rfl, rfl⟩
    | error err => exact .inl ⟨hdelay, houtcome⟩
  · exact .inr ⟨Nat.lt_of_not_le hdelay, rfl⟩

private theorem fromCall_of_waiting {setup : Setup} {cache : Cache ResultPage} {before : List Step} {st : Step}
    {w : Waiting} (hw : w ∈ (((start setup cache).run before).2.enter st).2.waiting) (hsup : w.superseded = false) :
    FromCall ((start setup cache).run (before ++ [st])).2 w.search.criteria (some w.fetch.id)
      (w.outcome.map w.search.answer) := by
  obtain ⟨h, rest⟩ := run_consistent setup cache before
  have sourced := (run_sourced setup cache before).enter h rest st
  obtain ⟨call, hcall, hawaits⟩ := sourced.awaited w hw
  obtain ⟨n, hn⟩ := List.getElem?_of_mem hcall
  have hstep : ((start setup cache).run (before ++ [st])).2 =
      (((start setup cache).run before).2.enter st).2.left st := by
    rw [run_concat, step_eq rest]
  rw [hstep]
  refine ⟨n, call, ?_, ?_, ?_, hawaits.request, ?_⟩
  · rw [left_calls, hn]
  · rw [left_setup, sourced.replied n call hn]
  · rw [hawaits.fetch]
  · rw [left_setup]
    exact hawaits.yields hsup

/-- The cache answers with the page that it was last given for the criteria. -/
theorem fromCache_of_get {setup : Setup} {ttl : Duration} {capacity : Nat} {steps : List Step} {criteria : Criteria}
    {clock : Instant} {page : ResultPage}
    (h : ((((start setup (.empty ttl capacity)).run steps).2.cache).get criteria.cacheKey clock).1 = some page) :
    FromCache (start setup (.empty ttl capacity)) steps criteria page := by
  obtain ⟨use, hlast, hstored⟩ := lastStore_of_get h
  have hmem : use ∈ (start setup (.empty ttl capacity)).useHistory steps :=
    (List.mem_filter.1 (List.mem_of_mem_getLast? hlast)).1
  cases use with
  | seeded criteria' age totalCount =>
    cases hstored
    exact .inl ⟨age, hlast, seeded_mem_useHistory.1 hmem, rfl⟩
  | kept s page' =>
    cases hstored
    obtain ⟨fetch, time, answer, hevent, hcached, hpage⟩ :=
      (kept_mem_useHistory (Consistent.start setup _) (AtRest.start setup _)).1 hmem
    exact .inr ⟨s, fetch, time, answer, hlast, rfl, hevent, hcached, hpage⟩
  | read s => cases hstored
  | cleared => cases hstored

/-- In every run, a search that ends other than by being displaced was asked for by a request that gives its criteria,
and its result comes from a call that asked for the page of these criteria or from the cache, whose contents are what
the uses of the run make of it. -/
theorem finished_provenance (setup : Setup) (ttl : Duration) (capacity : Nat) (before : List Step) (st : Step)
    {s : Search} {fetch : Option Nat} {time : Nat} {result : Except SearchError Answer}
    (hevent : .finished s fetch time result ∈ (((start setup (.empty ttl capacity)).run before).2.step st).1)
    (hown : result = .error .superseded → ¬(start setup (.empty ttl capacity)).Displaces before st s) :
    AskedFor (start setup (.empty ttl capacity)) (before ++ [st]) s ∧
    (∀ err, result = .error err →
      FromCall ((start setup (.empty ttl capacity)).run (before ++ [st])).2 s.criteria fetch result) ∧
    (∀ answer, result = .ok answer → answer.info = .ofCriteria s.criteria ∧
      (answer.cached = false →
        FromCall ((start setup (.empty ttl capacity)).run (before ++ [st])).2 s.criteria fetch result) ∧
      (answer.cached = true →
        answer.quota = none ∧ FromCache (start setup (.empty ttl capacity)) before s.criteria answer.page)) ∧
    ((start setup (.empty ttl capacity)).run before).2.cache =
      ((start setup (.empty ttl capacity)).useHistory before).foldl (CacheUse.apply setup.clock)
        (.empty ttl capacity) := by
  have cache := run_cache (Consistent.start setup (.empty ttl capacity)) (AtRest.start setup _) before
  refine ⟨askedFor_of_finished hevent, and_assoc.1 ⟨?_, cache⟩⟩
  obtain ⟨h, rest⟩ := run_consistent setup (.empty ttl capacity) before
  rcases finished_cases h.toHoldsSlots rest hevent with ⟨-, -, page, hpage, rfl⟩ | ⟨w, hw, rfl, rfl, rfl⟩
  · constructor
    · intro err herr
      cases herr
    · intro answer hanswer
      obtain rfl := Except.ok.inj hanswer
      refine ⟨rfl, ?_, fun _ => ⟨rfl, fromCache_of_get hpage⟩⟩
      intro hcached
      cases hcached
  · have hw := waiting_of_mem_finishers hw
    -- A superseded search has been displaced in this very step.
    have hsup : w.superseded = false := by
      rw [← Bool.not_eq_true]
      intro hsup
      refine hown (by rw [Waiting.outcome_of_superseded hsup]; rfl) ?_
      rcases superseded_of_mem_enter h.toHoldsSlots rest hw with ⟨hs, hiff⟩ | ⟨-, hnot⟩
      · rw [Displaces, unfinished_eq]
        exact ⟨hs, hiff.1 hsup⟩
      · rw [hsup] at hnot
        cases hnot
    have hfrom := fromCall_of_waiting hw hsup
    refine ⟨fun err _ => hfrom, fun answer hanswer => ?_⟩
    cases houtcome : w.outcome with
    | error err =>
      rw [houtcome] at hanswer
      cases hanswer
    | ok f =>
      rw [houtcome] at hanswer hfrom
      obtain rfl := Except.ok.inj hanswer
      refine ⟨rfl, fun _ => hfrom, fun hcached => ?_⟩
      cases hcached

/-- The answer to a search that GitHub answers at once comes from its call. -/
theorem answered_at_once_from_call :
    let engine := start ⟨{}, .ofSecs 1, [⟨⟨0⟩, .ok ⟨7, [], ⟨some 59, none⟩⟩⟩], ⟨0⟩⟩ (.empty (.ofSecs 60) 4)
    let st := Step.search "first" (some "box") { q := some "rust" }
    ∃ s answer, .finished s (some 1) 0 (.ok answer) ∈ ((engine.run []).2.step st).1 ∧
      FromCall (engine.run [st]).2 s.criteria (some 1) (.ok answer) := by
  intro engine st
  have hevent : .finished ⟨"first", "box", 0, ⟨"rust", 1, 10, .stars, [], none⟩⟩ (some 1) 0
      (.ok ⟨⟨7, []⟩, false, .ofCriteria ⟨"rust", 1, 10, .stars, [], none⟩, some ⟨some 59, none⟩⟩) ∈
      ((engine.run []).2.step st).1 := by
    unfold engine st
    exact List.mem_singleton.2 rfl
  obtain ⟨-, -, hanswer, -⟩ := finished_provenance _ _ _ [] st hevent (fun herr => by cases herr)
  exact ⟨_, _, hevent, (hanswer _ rfl).2.1 rfl⟩

end RepoSearch.Engine
