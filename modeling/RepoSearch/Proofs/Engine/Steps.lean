import RepoSearch.Proofs.Engine.Beginning

/-!
# Steps of the engine

A step has two halves. In the first a search begins or the cache is changed; in the second waiting searches stop
waiting, because they go on or because they are given up. The equation `step_eq` says what a step does in these terms,
and with it the books stay right and the engine is at rest after every step of every run.
-/

namespace RepoSearch.Engine

/-! ### The two halves of a step -/

/-- The first half of a step. -/
def enter (e : Engine) : Step → List Event × Engine
  | .search caller slot request =>
    match request.check e.setup.limits with
    | .error fault => ([.refused caller fault], e)
    | .ok criteria => e.begin caller slot criteria
  | .advance _ => ([], e)
  | .abort _ => ([], e)
  | .clear => ([], e.moved e.now e.cache.clear)
  | .seed criteria age totalCount => ([], e.seed criteria age totalCount)

/-- A waiting search stops waiting in the second half of a step that begins at the given time. -/
def Step.stops (now : Nat) : Step → Waiting → Bool
  | .advance millis, w => w.fetch.endsAt ≤ now + millis
  | .abort caller, w => w.search.caller = caller
  | _, w => w.ready now

/-- The searches that stop waiting in the second half of a step, in order. -/
def leavers (e : Engine) (st : Step) : List Waiting :=
  match st with
  | .advance _ => (e.waiting.filter (st.stops e.now)).mergeSort Waiting.endsBefore
  | _ => e.waiting.filter (st.stops e.now)

/-- The searches that go on in the second half of a step, in order. -/
def finishers (e : Engine) : Step → List Waiting
  | .abort _ => []
  | st => e.leavers st

/-- The time when a waiting search goes on in a step that begins at the given time. -/
def Step.endOf (now : Nat) : Step → Waiting → Nat
  | .advance _, w => w.fetch.endsAt
  | _, _ => now

def Step.millis : Step → Nat
  | .advance millis => millis
  | _ => 0

def endings (e : Engine) (st : Step) : List Event :=
  (e.finishers st).map fun w => w.ending (st.endOf e.now w)

/-- The engine once the second half of a step is done. -/
def left (e : Engine) (st : Step) : Engine :=
  ((e.leavers st).foldl dismiss e).moved (e.now + st.millis)
    ((e.finishers st).foldl (Waiting.keptIn e.setup.clock) e.cache)

theorem mem_leavers {e : Engine} {st : Step} {w : Waiting} :
    w ∈ e.leavers st ↔ w ∈ e.waiting ∧ st.stops e.now w = true := by
  cases st <;> simp [leavers]

theorem waiting_of_mem_finishers {e : Engine} {st : Step} {w : Waiting} (hw : w ∈ e.finishers st) :
    w ∈ e.waiting := by
  have hleaves : w ∈ e.leavers st := by
    cases st with
    | abort caller => cases hw
    | _ => exact hw
  exact (mem_leavers.1 hleaves).1

theorem nodup_leavers {e : Engine} (h : HoldsSlots e) (st : Step) :
    ((e.leavers st).map (·.search.generation)).Nodup := by
  have hfilter : ((e.waiting.filter (st.stops e.now)).map (·.search.generation)).Nodup :=
    h.distinct.sublist (List.filter_sublist.map _)
  cases st with
  | advance millis => exact ((List.mergeSort_perm _ _).map _).nodup_iff.2 hfilter
  | _ => exact hfilter

private theorem AtRest.left_eq {e : Engine} (rest : AtRest e) (st : Step)
    (hstops : st.stops e.now = Waiting.ready e.now) (hfinish : e.finishers st = e.leavers st)
    (hmillis : st.millis = 0) : e.endings st = [] ∧ e.left st = e := by
  have leavers : e.leavers st = [] := by
    refine List.eq_nil_iff_forall_not_mem.2 fun w hw => ?_
    obtain ⟨hw, hready⟩ := mem_leavers.1 hw
    obtain ⟨hsup, hnow⟩ := rest w hw
    rw [hstops, Waiting.ready, hsup, Bool.false_or, decide_eq_true_eq] at hready
    omega
  rw [endings, left, hfinish, leavers, hmillis]
  exact ⟨rfl, rfl⟩

/-- A step does its first half, and then waiting searches go on or are given up. -/
theorem step_eq {e : Engine} (rest : AtRest e) (st : Step) :
    e.step st = ((e.enter st).1 ++ (e.enter st).2.endings st, (e.enter st).2.left st) := by
  cases st with
  | search caller slot request =>
    simp only [step, search, enter]
    cases request.check e.setup.limits with
    | error fault =>
      obtain ⟨hendings, hleft⟩ := rest.left_eq (.search caller slot request) rfl rfl rfl
      rw [hendings, hleft]
      rfl
    | ok criteria =>
      dsimp only
      unfold settle
      rw [resumeAll_eq]
      rfl
  | advance millis =>
    -- The searches set the clock as they go on; the step sets it once more when they are done.
    obtain ⟨now, h⟩ := resumeDue_eq e (e.leavers (.advance millis))
    have hstep : e.step (.advance millis) = ((e.resumeDue (e.leavers (.advance millis))).1,
        (e.resumeDue (e.leavers (.advance millis))).2.moved (e.now + millis)
          (e.resumeDue (e.leavers (.advance millis))).2.cache) := rfl
    rw [hstep, h]
    rfl
  | abort caller =>
    have hstep : e.step (.abort caller) = ([], (e.leavers (.abort caller)).foldl dismiss e) := rfl
    rw [hstep, enter, left, foldl_dismiss_eq]
    rfl
  | clear =>
    have : AtRest (e.moved e.now e.cache.clear) := rest
    obtain ⟨hendings, hleft⟩ := this.left_eq .clear rfl rfl rfl
    rw [enter, hendings, hleft]
    rfl
  | seed criteria age totalCount =>
    have : AtRest (e.seed criteria age totalCount) := rest
    obtain ⟨hendings, hleft⟩ := this.left_eq (.seed criteria age totalCount) rfl rfl rfl
    rw [enter, hendings, hleft]
    rfl

/-! ### The first half of a step -/

/-- The search that a step begins, if its request is acceptable. -/
def begun (e : Engine) : Step → Option Search
  | .search caller slot request =>
    match request.check e.setup.limits with
    | .error _ => none
    | .ok criteria => some (e.newSearch caller slot criteria)
  | _ => none

theorem generation_of_begun {e : Engine} {st : Step} {s : Search} (hs : e.begun st = some s) :
    s.generation = e.nextId := by
  cases st with
  | search caller slot request =>
    rw [begun] at hs
    split at hs
    · cases hs
    · rw [← Option.some.inj hs]
      rfl
  | _ => cases hs

theorem search_of_begun {e : Engine} {st : Step} {s : Search} (hs : e.begun st = some s) :
    ∃ slot request, st = .search s.caller slot request ∧ request.check e.setup.limits = .ok s.criteria := by
  cases st with
  | search caller slot request =>
    rw [begun] at hs
    cases hcheck : request.check e.setup.limits with
    | error fault =>
      rw [hcheck] at hs
      cases hs
    | ok criteria =>
      rw [hcheck] at hs
      obtain rfl := Option.some.inj hs
      exact ⟨slot, request, rfl, hcheck⟩
  | _ => cases hs

/-- In its first half a step that begins a search has the cache answer it, or has it join a flight or begin one; any
other step changes the cache at most. -/
theorem enter_cases {e : Engine} (h : HoldsSlots e) (rest : AtRest e) (st : Step) :
    (∃ s page, e.begun st = some s ∧ (e.cache.get s.criteria.cacheKey e.setup.clock).1 = some page ∧
      e.enter st = ([.finished s none e.now (.ok (s.cachedAnswer page))], (e.entered s).release s)) ∨
    (∃ s f, e.begun st = some s ∧ (e.cache.get s.criteria.cacheKey e.setup.clock).1 = none ∧
      e.flights[s.criteria.cacheKey]? = some f ∧ e.enter st = ([], (e.entered s).joined s f)) ∨
    (∃ s, e.begun st = some s ∧ (e.cache.get s.criteria.cacheKey e.setup.clock).1 = none ∧
      e.flights[s.criteria.cacheKey]? = none ∧ e.enter st = ([], (e.entered s).departed s)) ∨
    (e.begun st = none ∧ (∀ s fetch time result, .finished s fetch time result ∉ (e.enter st).1) ∧
      ∃ cache, (e.enter st).2 = e.moved e.now cache) := by
  cases st with
  | search caller slot request =>
    rw [begun, enter]
    cases request.check e.setup.limits with
    | error fault => exact .inr (.inr (.inr ⟨rfl, by simp, e.cache, rfl⟩))
    | ok criteria =>
      rcases begin_cases h rest rfl with ⟨page, hpage, hbegin⟩ | ⟨f, hmiss, hf, hbegin⟩ | ⟨hmiss, hf, hbegin⟩
      · exact .inl ⟨_, page, rfl, hpage, hbegin⟩
      · exact .inr (.inl ⟨_, f, rfl, hmiss, hf, hbegin⟩)
      · exact .inr (.inr (.inl ⟨_, rfl, hmiss, hf, hbegin⟩))
  | advance millis => exact .inr (.inr (.inr ⟨rfl, by simp [enter], e.cache, rfl⟩))
  | abort caller => exact .inr (.inr (.inr ⟨rfl, by simp [enter], e.cache, rfl⟩))
  | clear => exact .inr (.inr (.inr ⟨rfl, by simp [enter], _, rfl⟩))
  | seed criteria age totalCount => exact .inr (.inr (.inr ⟨rfl, by simp [enter], _, rfl⟩))

theorem Consistent.enter {e : Engine} (h : Consistent e) (rest : AtRest e) (st : Step) :
    Consistent (e.enter st).2 := by
  rcases enter_cases h.toHoldsSlots rest st with
    ⟨s, page, -, -, henter⟩ | ⟨s, f, hs, -, hf, henter⟩ | ⟨s, hs, -, hf, henter⟩ | ⟨-, -, cache, henter⟩ <;> rw [henter]
  · exact h.answered rest s
  · exact h.joined rest (generation_of_begun hs) hf
  · exact h.departed rest (generation_of_begun hs) hf
  · exact h.moved _ _

private theorem mem_yielding {e : Engine} {slot : String} {w : Waiting} (hw : w ∈ e.waiting.map (·.yielding slot)) :
    ∃ v ∈ e.waiting, w.search = v.search ∧ w.fetch = v.fetch := by
  obtain ⟨v, hv, rfl⟩ := List.mem_map.1 hw
  exact ⟨v, hv, v.yielding_search slot, v.yielding_fetch slot⟩

/-- Who waits after the first half of a step has waited before it, or has begun in it and found nothing in the cache;
then it waits with others for their fetch, or for a new one. -/
theorem waiting_enter_cases {e : Engine} (h : Consistent e) (rest : AtRest e) {st : Step} {w : Waiting}
    (hw : w ∈ (e.enter st).2.waiting) :
    (∃ v ∈ e.waiting, w.search = v.search ∧ w.fetch = v.fetch) ∨
    (e.begun st = some w.search ∧ (e.cache.get w.key e.setup.clock).1 = none ∧
      ((∃ v ∈ e.waiting, w.key = v.key ∧ w.fetch = v.fetch) ∨ w.fetch = e.nextFetch (e.nextId + 1))) := by
  rcases enter_cases h.toHoldsSlots rest st with
    ⟨s, page, -, -, henter⟩ | ⟨s, f, hs, hmiss, hf, henter⟩ | ⟨s, hs, hmiss, -, henter⟩ | ⟨-, -, cache, henter⟩ <;>
    rw [henter] at hw
  · rw [release_eq] at hw
    exact .inl (mem_yielding hw)
  · rcases List.mem_append.1 hw with hw | hw
    · exact .inl (mem_yielding hw)
    · obtain rfl := List.mem_singleton.1 hw
      obtain ⟨v, hv, hkey, hfetch⟩ := h.exists_aboard hf
      exact .inr ⟨hs, hmiss, .inl ⟨v, hv, hkey.symm, hfetch.symm⟩⟩
  · rcases List.mem_append.1 hw with hw | hw
    · exact .inl (mem_yielding hw)
    · obtain rfl := List.mem_singleton.1 hw
      exact .inr ⟨hs, hmiss, .inr rfl⟩
  · exact .inl ⟨w, hw, rfl, rfl⟩

/-! ### The ends of searches -/

theorem ending_mem_step {e : Engine} (rest : AtRest e) {st : Step} {w : Waiting}
    (hw : w ∈ (e.enter st).2.finishers st) : w.ending (st.endOf (e.enter st).2.now w) ∈ (e.step st).1 := by
  rw [step_eq rest]
  exact List.mem_append_right _ (List.mem_map_of_mem hw)

theorem begun_of_finished {e : Engine} (h : HoldsSlots e) (rest : AtRest e) {st : Step} {s : Search}
    {fetch : Option Nat} {time : Nat} {result : Except SearchError Answer}
    (hevent : .finished s fetch time result ∈ (e.enter st).1) : e.begun st = some s ∧ fetch = none ∧ ∃ page,
      (e.cache.get s.criteria.cacheKey e.setup.clock).1 = some page ∧ result = .ok (s.cachedAnswer page) := by
  rcases enter_cases h rest st with
    ⟨s', page, hs', hpage, henter⟩ | ⟨s', f, -, -, -, henter⟩ | ⟨s', -, -, -, henter⟩ | ⟨-, hfin, -⟩
  · rw [henter, List.mem_singleton, Event.finished.injEq] at hevent
    obtain ⟨rfl, rfl, -, rfl⟩ := hevent
    exact ⟨hs', rfl, page, hpage, rfl⟩
  · simp [henter] at hevent
  · simp [henter] at hevent
  · exact absurd hevent (hfin s fetch time result)

/-- A search that ends in a step is answered by the cache when it begins, or it has waited and goes on. -/
theorem finished_cases {e : Engine} (h : HoldsSlots e) (rest : AtRest e) {st : Step} {s : Search} {fetch : Option Nat}
    {time : Nat} {result : Except SearchError Answer} (hevent : .finished s fetch time result ∈ (e.step st).1) :
    (e.begun st = some s ∧ fetch = none ∧ ∃ page,
      (e.cache.get s.criteria.cacheKey e.setup.clock).1 = some page ∧ result = .ok (s.cachedAnswer page)) ∨
    ∃ w ∈ (e.enter st).2.finishers st, s = w.search ∧ fetch = some w.fetch.id ∧
      result = w.outcome.map w.search.answer := by
  rw [step_eq rest] at hevent
  rcases List.mem_append.1 hevent with hevent | hevent
  · exact .inl (begun_of_finished h rest hevent)
  · obtain ⟨w, hw, hending⟩ := List.mem_map.1 hevent
    rw [Waiting.ending, Event.finished.injEq] at hending
    obtain ⟨rfl, rfl, -, rfl⟩ := hending
    exact .inr ⟨w, hw, rfl, rfl, rfl⟩

/-! ### The engine between two steps -/

theorem left_nextId (e : Engine) (st : Step) : (e.left st).nextId = e.nextId := by
  rw [left, foldl_dismiss_eq]
  rfl

theorem left_waiting {e : Engine} (h : HoldsSlots e) (st : Step) :
    (e.left st).waiting = e.waiting.filter fun w => !st.stops e.now w := by
  unfold left
  rw [foldl_dismiss_eq]
  refine List.filter_congr fun w hw => ?_
  rw [Bool.eq_iff_iff, decide_eq_true_eq, Bool.not_eq_true', ← Bool.not_eq_true, not_iff_not]
  constructor
  · intro hgen
    obtain ⟨v, hv, hg⟩ := List.mem_map.1 hgen
    obtain ⟨hv, hstops⟩ := mem_leavers.1 hv
    rwa [← h.eq_of_generation hv hw hg]
  · exact fun hstops => List.mem_map_of_mem (mem_leavers.2 ⟨hw, hstops⟩)

/-- Who waits after a step has waited in the middle of it. -/
theorem waiting_of_step {e : Engine} (h : Consistent e) (rest : AtRest e) {st : Step} {w : Waiting}
    (hw : w ∈ (e.step st).2.waiting) : w ∈ (e.enter st).2.waiting := by
  rw [step_eq rest, left_waiting (h.enter rest st).toHoldsSlots] at hw
  exact List.mem_of_mem_filter hw

theorem Consistent.step {e : Engine} (h : Consistent e) (rest : AtRest e) (st : Step) : Consistent (e.step st).2 := by
  have entered := h.enter rest st
  rw [step_eq rest]
  exact (entered.foldl_dismiss (fun w hw => (mem_leavers.1 hw).1) (nodup_leavers entered.toHoldsSlots st)).moved _ _

/-- The engine is at rest after every step. -/
theorem AtRest.step {e : Engine} (rest : AtRest e) (h : Consistent e) (st : Step) : AtRest (e.step st).2 := by
  have entered := h.enter rest st
  rw [step_eq rest]
  intro w hw
  have now : ((e.enter st).2.left st).now = (e.enter st).2.now + st.millis := rfl
  dsimp only at hw ⊢
  rw [left_waiting entered.toHoldsSlots, List.mem_filter, Bool.not_eq_true'] at hw
  obtain ⟨hw, hstops⟩ := hw
  rw [now]
  -- Those that stay were not ready, and where time passes, their fetches end later still.
  have ready : st.stops (e.enter st).2.now w = w.ready (e.enter st).2.now → st.millis = 0 →
      w.superseded = false ∧ (e.enter st).2.now + st.millis < w.fetch.endsAt := by
    intro hready hmillis
    rw [hstops, Waiting.ready] at hready
    obtain ⟨hsup, hends⟩ := Bool.or_eq_false_iff.1 hready.symm
    rw [decide_eq_false_iff_not] at hends
    exact ⟨hsup, by omega⟩
  cases st with
  | advance millis =>
    rw [Step.stops, decide_eq_false_iff_not] at hstops
    exact ⟨(rest w hw).1, by simpa [Step.millis, Engine.enter] using hstops⟩
  | abort caller => exact rest w hw
  | search caller slot request => exact ready rfl rfl
  | clear => exact ready rfl rfl
  | seed criteria age totalCount => exact ready rfl rfl

/-! ### Runs -/

theorem run_append (e : Engine) (steps later : List Step) : e.run (steps ++ later) =
    ((e.run steps).1 ++ ((e.run steps).2.run later).1, ((e.run steps).2.run later).2) := by
  induction steps generalizing e with
  | nil => rfl
  | cons st steps ih => simp only [List.cons_append, run, ih, List.append_assoc]

theorem run_concat (e : Engine) (steps : List Step) (st : Step) : e.run (steps ++ [st]) =
    ((e.run steps).1 ++ ((e.run steps).2.step st).1, ((e.run steps).2.step st).2) := by
  rw [run_append]
  simp [run]

/-- The events of a run are those of its steps. -/
theorem mem_run {e : Engine} {steps : List Step} {event : Event} : event ∈ (e.run steps).1 ↔
    ∃ earlier st later, steps = earlier ++ st :: later ∧ event ∈ ((e.run earlier).2.step st).1 := by
  constructor
  · induction steps generalizing e with
    | nil => simp [run]
    | cons st steps ih =>
      intro hevent
      rcases List.mem_append.1 hevent with hevent | hevent
      · exact ⟨[], st, steps, rfl, hevent⟩
      · obtain ⟨earlier, st', later, rfl, hstep⟩ := ih hevent
        exact ⟨st :: earlier, st', later, rfl, hstep⟩
  · rintro ⟨earlier, st, later, rfl, hevent⟩
    rw [run_append]
    exact List.mem_append_right _ (List.mem_append_left _ hevent)

theorem run_induction {e : Engine} {P : Engine → Prop} (initial : P e) (preserved : ∀ e st, P e → P (e.step st).2)
    (steps : List Step) : P (e.run steps).2 := by
  induction steps generalizing e with
  | nil => exact initial
  | cons st steps ih => exact ih (preserved e st initial)

theorem Consistent.run {e : Engine} (h : Consistent e) (rest : AtRest e) (steps : List Step) :
    Consistent (e.run steps).2 ∧ AtRest (e.run steps).2 :=
  run_induction (P := fun e => Consistent e ∧ AtRest e) ⟨h, rest⟩
    (fun _ st h => ⟨h.1.step h.2 st, h.2.step h.1 st⟩) steps

theorem Consistent.start (setup : Setup) (cache : Cache ResultPage) : Consistent (start setup cache) := by
  refine ⟨⟨List.nodup_nil, ?_, ?_⟩, ⟨?_, ?_⟩⟩ <;> simp [Engine.start]

theorem AtRest.start (setup : Setup) (cache : Cache ResultPage) : AtRest (start setup cache) := by
  simp [AtRest, Engine.start]

/-- After every run from the start the books are right and the engine is at rest. -/
theorem run_consistent (setup : Setup) (cache : Cache ResultPage) (steps : List Step) :
    Consistent ((start setup cache).run steps).2 ∧ AtRest ((start setup cache).run steps).2 :=
  (Consistent.start setup cache).run (AtRest.start setup cache) steps

end RepoSearch.Engine
