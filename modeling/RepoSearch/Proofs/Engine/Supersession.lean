import RepoSearch.Proofs.Engine.CacheHistory
import RepoSearch.Proofs.Engine.Unfinished

/-!
# Supersession

A search is superseded exactly when another one begins in its slot while it is unfinished. It ends in that step and
keeps nothing, and nothing else supersedes it.
-/

namespace RepoSearch.Engine

/-- A step takes a slot when it begins a search in it. -/
def Takes (e : Engine) (slot : String) (st : Step) : Prop := ∃ s, e.begun st = some s ∧ s.slot = slot

/-- A step displaces a search when it takes its slot while the search is unfinished. -/
def Displaces (e : Engine) (before : List Step) (st : Step) (s : Search) : Prop :=
  s ∈ e.unfinished before ∧ (e.run before).2.Takes s.slot st

/-- A search ends as superseded. -/
def SupersededIn (events : List Event) (s : Search) : Prop :=
  ∃ fetch time, .finished s fetch time (.error .superseded) ∈ events

/-! ### Who is superseded -/

private theorem takes_of_begun {e : Engine} {st : Step} {s : Search} (hs : e.begun st = some s) (slot : String) :
    e.Takes slot st ↔ slot = s.slot := by
  constructor
  · rintro ⟨s', hs', rfl⟩
    rw [hs] at hs'
    rw [Option.some.inj hs']
  · rintro rfl
    exact ⟨s, hs, rfl⟩

private theorem mem_map_yielding {e : Engine} (rest : AtRest e) {st : Step} {s : Search} (hs : e.begun st = some s)
    {w : Waiting} (hw : w ∈ e.waiting.map (·.yielding s.slot)) :
    w.search ∈ e.searches ∧ (w.superseded = true ↔ e.Takes w.search.slot st) := by
  obtain ⟨v, hv, rfl⟩ := List.mem_map.1 hw
  rw [Waiting.yielding_search, Waiting.yielding_superseded (rest v hv).1, decide_eq_true_eq, takes_of_begun hs]
  exact ⟨List.mem_map_of_mem hv, Iff.rfl⟩

/-- After the first half of a step, the searches that waited before it are superseded if their slot has been taken, and
a search that has begun in it is not. -/
theorem superseded_of_mem_enter {e : Engine} (h : HoldsSlots e) (rest : AtRest e) {st : Step} {w : Waiting}
    (hw : w ∈ (e.enter st).2.waiting) :
    (w.search ∈ e.searches ∧ (w.superseded = true ↔ e.Takes w.search.slot st)) ∨
    (e.begun st = some w.search ∧ w.superseded = false) := by
  rcases enter_cases h rest st with
    ⟨s, page, hs, -, henter⟩ | ⟨s, f, hs, -, -, henter⟩ | ⟨s, hs, -, -, henter⟩ | ⟨hs, -, cache, henter⟩ <;>
    rw [henter] at hw
  · rw [release_eq] at hw
    exact .inl (mem_map_yielding rest hs hw)
  · rcases List.mem_append.1 hw with hw | hw
    · exact .inl (mem_map_yielding rest hs hw)
    · obtain rfl := List.mem_singleton.1 hw
      exact .inr ⟨hs, rfl⟩
  · rcases List.mem_append.1 hw with hw | hw
    · exact .inl (mem_map_yielding rest hs hw)
    · obtain rfl := List.mem_singleton.1 hw
      exact .inr ⟨hs, rfl⟩
  · have hnot : ¬e.Takes w.search.slot st := by
      rintro ⟨s, hs', -⟩
      rw [hs] at hs'
      cases hs'
    refine .inl ⟨List.mem_map_of_mem hw, iff_of_false ?_ hnot⟩
    rw [(rest w hw).1]
    exact Bool.false_ne_true

private theorem outcome_ne_superseded {e : Engine} (h : Sourced e)
    (honest : ∀ reply ∈ e.setup.replies, reply.outcome ≠ .error .superseded) {w : Waiting} (hw : w ∈ e.waiting) :
    w.fetch.outcome ≠ .error .superseded := by
  obtain ⟨call, hcall, hw⟩ := h.awaited w hw
  obtain ⟨n, hn⟩ := List.getElem?_of_mem hcall
  have hreply : call.reply.outcome ≠ .error .superseded := by
    rw [h.replied n call hn]
    cases hget : e.setup.replies[n]? with
    | none => exact fun hempty => by cases hempty
    | some reply => exact honest reply (List.mem_of_getElem? hget)
  rw [hw.outcome, Reply.within]
  split_ifs
  · cases houtcome : call.reply.outcome with
    | ok raw => exact fun hmap => by cases hmap
    | error err =>
      intro hmap
      cases hmap
      exact hreply houtcome
  · exact fun htime => by cases htime

theorem Waiting.outcome_of_superseded {w : Waiting} (h : w.superseded = true) : w.outcome = .error .superseded := by
  rw [outcome, if_pos h]

/-- A search that waits and whose slot is taken ends as superseded, in the same step. -/
theorem result_of_taken {e : Engine} (h : HoldsSlots e) (rest : AtRest e) {st : Step} {s : Search}
    (hs : s ∈ e.searches) (htakes : e.Takes s.slot st) {fetch : Option Nat} {time : Nat}
    {result : Except SearchError Answer} (hevent : .finished s fetch time result ∈ (e.step st).1) :
    result = .error .superseded := by
  rcases finished_cases h rest hevent with ⟨hbegun, -⟩ | ⟨w, hw, rfl, -, rfl⟩
  · exact absurd hs (h.not_mem_of_begun hbegun)
  · have hw := waiting_of_mem_finishers hw
    rcases superseded_of_mem_enter h rest hw with ⟨-, hsup⟩ | ⟨hbegun, -⟩
    · rw [Waiting.outcome_of_superseded (hsup.2 htakes)]
      rfl
    · exact absurd hs (h.not_mem_of_begun hbegun)

private theorem exists_mem_finishers {e : Engine} (h : HoldsSlots e) (rest : AtRest e) {st : Step} {s : Search}
    (hs : s ∈ e.searches) (htakes : e.Takes s.slot st) :
    ∃ w ∈ (e.enter st).2.finishers st, w.search = s ∧ w.superseded = true := by
  have hsearch := searches_subset_enter h rest st hs
  obtain ⟨w, hw, rfl⟩ := List.mem_map.1 hsearch
  have hsup : w.superseded = true := by
    rcases superseded_of_mem_enter h rest hw with ⟨-, hsup⟩ | ⟨hbegun, -⟩
    · exact hsup.2 htakes
    · exact absurd hs (h.not_mem_of_begun hbegun)
  refine ⟨w, ?_, rfl, hsup⟩
  obtain ⟨s', hbegun, -⟩ := htakes
  cases st with
  | search caller slot request =>
    show w ∈ (e.enter _).2.leavers (.search caller slot request)
    rw [mem_leavers, Step.stops, Waiting.ready, hsup, Bool.true_or]
    · exact ⟨hw, rfl⟩
    · simp
    · simp
  | _ => cases hbegun

/-- In one step the searches are superseded that wait and whose slot is taken. -/
theorem supersededIn_step_iff {e : Engine} (h : Consistent e) (rest : AtRest e) (sourced : Sourced e)
    (honest : ∀ reply ∈ e.setup.replies, reply.outcome ≠ .error .superseded) (st : Step) (s : Search) :
    SupersededIn (e.step st).1 s ↔ s ∈ e.searches ∧ e.Takes s.slot st := by
  constructor
  · rintro ⟨fetch, time, hevent⟩
    rcases finished_cases h.toHoldsSlots rest hevent with ⟨-, -, page, -, hresult⟩ | ⟨w, hw, rfl, -, hresult⟩
    · cases hresult
    · have hw := waiting_of_mem_finishers hw
      have hfetch := outcome_ne_superseded (sourced.enter h rest st)
        (by rwa [enter_setup h.toHoldsSlots rest]) hw
      -- No reply is a supersession, so the search itself has been marked.
      have hsup : w.superseded = true := by
        by_contra hsup
        rw [Waiting.outcome, if_neg hsup] at hresult
        cases houtcome : w.fetch.outcome with
        | ok f =>
          rw [houtcome] at hresult
          cases hresult
        | error err =>
          rw [houtcome] at hresult hfetch
          cases hresult
          exact hfetch rfl
      rcases superseded_of_mem_enter h.toHoldsSlots rest hw with ⟨hs, hiff⟩ | ⟨-, hnot⟩
      · exact ⟨hs, hiff.1 hsup⟩
      · rw [hsup] at hnot
        cases hnot
  · rintro ⟨hs, htakes⟩
    obtain ⟨w, hw, rfl, hsup⟩ := exists_mem_finishers h.toHoldsSlots rest hs htakes
    have hevent := ending_mem_step rest hw
    rw [Waiting.ending, Waiting.outcome_of_superseded hsup] at hevent
    exact ⟨_, _, hevent⟩

/-! ### Supersession in a run -/

section Run

variable {setup : Setup} {cache : Cache ResultPage}

/-- In a step of a run those searches are superseded that the step displaces. -/
theorem supersededIn_step_of_run (honest : ∀ reply ∈ setup.replies, reply.outcome ≠ .error .superseded)
    (before : List Step) (st : Step) (s : Search) :
    SupersededIn (((start setup cache).run before).2.step st).1 s ↔ (start setup cache).Displaces before st s := by
  obtain ⟨h, rest⟩ := run_consistent setup cache before
  have hsetup := run_setup (Consistent.start setup cache) (AtRest.start setup cache) before
  rw [supersededIn_step_iff h rest (run_sourced setup cache before) (by rwa [hsetup]), Displaces, unfinished_eq]

/-- A search is superseded in a run when some step of the run displaces it. -/
theorem supersededIn_run (honest : ∀ reply ∈ setup.replies, reply.outcome ≠ .error .superseded) (steps : List Step)
    (s : Search) : SupersededIn ((start setup cache).run steps).1 s ↔
      ∃ before st later, steps = before ++ st :: later ∧ (start setup cache).Displaces before st s := by
  constructor
  · rintro ⟨fetch, time, hevent⟩
    obtain ⟨before, st, later, hsteps, hstep⟩ := mem_run.1 hevent
    exact ⟨before, st, later, hsteps, (supersededIn_step_of_run honest before st s).1 ⟨fetch, time, hstep⟩⟩
  · rintro ⟨before, st, later, hsteps, hdisplaces⟩
    obtain ⟨fetch, time, hstep⟩ := (supersededIn_step_of_run honest before st s).2 hdisplaces
    exact ⟨fetch, time, mem_run.2 ⟨before, st, later, hsteps, hstep⟩⟩

/-- A search that is displaced has no result in the whole run but its supersession. -/
theorem result_of_displaced {before : List Step} {st : Step} {later : List Step} {s : Search}
    (hdisplaces : (start setup cache).Displaces before st s) {fetch : Option Nat} {time : Nat}
    {result : Except SearchError Answer}
    (hevent : .finished s fetch time result ∈ ((start setup cache).run (before ++ st :: later)).1) :
    result = .error .superseded := by
  obtain ⟨hs, htakes⟩ := hdisplaces
  obtain ⟨h, rest⟩ := run_consistent setup cache before
  rw [unfinished_eq] at hs
  -- It has not ended before the step, since it is unfinished, and it is gone after it.
  rw [run_append] at hevent
  rcases List.mem_append.1 hevent with hevent | hevent
  · exact absurd (mem_ended.2 ⟨fetch, time, result, hevent⟩)
      (not_mem_ended_of_searches (Consistent.start setup cache) (AtRest.start setup cache) hs)
  · rcases List.mem_append.1 hevent with hevent | hevent
    · exact result_of_taken h.toHoldsSlots rest hs htakes hevent
    · obtain ⟨w, hw, rfl, hsup⟩ := exists_mem_finishers h.toHoldsSlots rest hs htakes
      have gone := gone_of_ended_step h rest (mem_ended.2 ⟨_, _, _, ending_mem_step rest hw⟩)
      exact absurd (mem_ended.2 ⟨fetch, time, result, hevent⟩)
        (gone.run (h.step rest st) (rest.step h st) later).2

end Run

/-- A search is superseded in a run exactly when a step of the run displaces it, and it is then superseded in that
step. A search that is displaced has no other result and keeps no page in the cache. -/
theorem superseded_iff_displaced (setup : Setup) (cache : Cache ResultPage) (steps : List Step) (s : Search)
    (honest : ∀ reply ∈ setup.replies, reply.outcome ≠ .error .superseded) :
    (SupersededIn ((start setup cache).run steps).1 s ↔
      ∃ before st later, steps = before ++ st :: later ∧ (start setup cache).Displaces before st s) ∧
    (∀ before st later, steps = before ++ st :: later →
      (SupersededIn (((start setup cache).run before).2.step st).1 s ↔ (start setup cache).Displaces before st s) ∧
      ((start setup cache).Displaces before st s →
        (∀ fetch time result, .finished s fetch time result ∈ ((start setup cache).run steps).1 →
          result = .error .superseded) ∧
        ∀ page, .kept s page ∉ (start setup cache).useHistory steps)) ∧
    ((start setup cache).run steps).2.cache =
      ((start setup cache).useHistory steps).foldl (CacheUse.apply setup.clock) cache := by
  refine ⟨supersededIn_run honest steps s, fun before st later hsteps =>
    ⟨supersededIn_step_of_run honest before st s, fun hdisplaces => ?_⟩, ?_⟩
  · rw [hsteps]
    refine ⟨fun fetch time result hevent => result_of_displaced hdisplaces hevent, fun page hkept => ?_⟩
    obtain ⟨fetch, time, answer, hevent, -⟩ :=
      (kept_mem_useHistory (Consistent.start setup cache) (AtRest.start setup cache)).1 hkept
    cases result_of_displaced hdisplaces hevent
  · exact run_cache (Consistent.start setup cache) (AtRest.start setup cache) steps

/-- Of two searches that begin one after the other in one slot, the first is superseded. -/
theorem first_in_slot_superseded :
    (∀ reply ∈ [(⟨.ofMillis 5, .ok ⟨0, [], ⟨none, none⟩⟩⟩ : Reply)], reply.outcome ≠ .error .superseded) ∧
    SupersededIn ((start ⟨{}, .ofSecs 1, [⟨.ofMillis 5, .ok ⟨0, [], ⟨none, none⟩⟩⟩], ⟨0⟩⟩ (.empty (.ofSecs 60) 4)).run
      [.search "first" (some "box") { q := some "rust" }, .search "second" (some "box") { q := some "lean" }]).1
      ⟨"first", "box", 0, ⟨"rust", 1, 10, .stars, [], none⟩⟩ := by
  have honest : ∀ reply ∈ [(⟨.ofMillis 5, .ok ⟨0, [], ⟨none, none⟩⟩⟩ : Reply)],
      reply.outcome ≠ .error .superseded := by
    simp
  refine ⟨honest, (superseded_iff_displaced _ _ _ _ honest).1.2 ⟨[_], _, [], rfl, by decide +kernel, ?_⟩⟩
  exact ⟨⟨"second", "box", 2, ⟨"lean", 1, 10, .stars, [], none⟩⟩, by decide +kernel, rfl⟩

end RepoSearch.Engine
