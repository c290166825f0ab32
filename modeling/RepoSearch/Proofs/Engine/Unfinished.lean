import RepoSearch.Proofs.Engine.Steps
import Mathlib.Data.List.Pairwise

/-!
# Unfinished searches

The unfinished searches of a run are those that have begun and have neither ended nor been given up. They are told from
the steps and the events of the run, and turn out to be the searches that wait. A search that is no longer among them
has no further events, and so none ends twice.
-/

namespace RepoSearch.Engine

def Event.search? : Event → Option Search
  | .refused .. => none
  | .finished s .. => some s

/-- The searches that a list of events ends. -/
def ended (events : List Event) : List Search := events.filterMap Event.search?

/-- A search is given up when its caller goes away. -/
def Step.givesUp : Step → Search → Bool
  | .abort caller, s => s.caller = caller
  | _, _ => false

/-- The unfinished searches after a step, from those before it. -/
def carry (e : Engine) (ss : List Search) (st : Step) : List Search :=
  (ss ++ (e.begun st).toList).filter fun s => s ∉ ended (e.step st).1 ∧ ¬st.givesUp s

/-- The unfinished searches after a run, from those before it. -/
def unfinishedFrom (e : Engine) (ss : List Search) : List Step → List Search
  | [] => ss
  | st :: steps => (e.step st).2.unfinishedFrom (e.carry ss st) steps

/-- The searches that have begun in a run and have neither ended nor been given up, the oldest first. -/
def unfinished (e : Engine) (steps : List Step) : List Search := e.unfinishedFrom [] steps

/-- The searches that wait. -/
def searches (e : Engine) : List Search := e.waiting.map (·.search)

theorem mem_ended {events : List Event} {s : Search} :
    s ∈ ended events ↔ ∃ fetch time result, .finished s fetch time result ∈ events := by
  rw [ended, List.mem_filterMap]
  constructor
  · rintro ⟨event, hevent, hs⟩
    cases event with
    | refused caller fault => cases hs
    | finished s' fetch time result =>
      obtain rfl := Option.some.inj hs
      exact ⟨fetch, time, result, hevent⟩
  · rintro ⟨fetch, time, result, hevent⟩
    exact ⟨_, hevent, rfl⟩

theorem ended_append (events later : List Event) : ended (events ++ later) = ended events ++ ended later :=
  List.filterMap_append

theorem ended_eq_nil {events : List Event} (h : ∀ s fetch time result, .finished s fetch time result ∉ events) :
    ended events = [] := by
  refine List.eq_nil_iff_forall_not_mem.2 fun s hs => ?_
  obtain ⟨fetch, time, result, hevent⟩ := mem_ended.1 hs
  exact h s fetch time result hevent

/-! ### The searches that wait -/

theorem searches_map_yielding (ws : List Waiting) (slot : String) :
    (ws.map (·.yielding slot)).map (·.search) = ws.map (·.search) := by
  simp [List.map_map, Function.comp_def]

theorem HoldsSlots.lt_nextId {e : Engine} (h : HoldsSlots e) {s : Search} (hs : s ∈ e.searches) :
    s.generation < e.nextId := by
  obtain ⟨w, hw, rfl⟩ := List.mem_map.1 hs
  exact h.drawn w hw

/-- A search that begins is a new one. -/
theorem HoldsSlots.not_mem_of_begun {e : Engine} (h : HoldsSlots e) {st : Step} {s : Search}
    (hs : e.begun st = some s) : s ∉ e.searches := by
  intro hmem
  have := h.lt_nextId hmem
  have := generation_of_begun hs
  omega

theorem searches_enter {e : Engine} (h : HoldsSlots e) (rest : AtRest e) (st : Step) :
    (e.enter st).2.searches =
      (e.searches ++ (e.begun st).toList).filter (· ∉ ended (e.enter st).1) := by
  rcases enter_cases h rest st with
    ⟨s, page, hs, -, henter⟩ | ⟨s, f, hs, -, -, henter⟩ | ⟨s, hs, -, -, henter⟩ | ⟨hs, hfin, cache, henter⟩
  · have hnew : s ∉ e.searches := h.not_mem_of_begun hs
    have hended : ended (e.enter st).1 = [s] := by rw [henter]; rfl
    have hold : e.searches.filter (· ∉ [s]) = e.searches := by
      refine List.filter_eq_self.2 fun s' hs' => ?_
      rw [decide_eq_true_eq, List.mem_singleton]
      exact fun heq => hnew (heq ▸ hs')
    have hlast : [s].filter (· ∉ [s]) = [] := by simp
    -- The search that the cache answers has ended at once, and does not wait.
    rw [hended, hs, Option.toList_some, List.filter_append, hold, hlast, List.append_nil, henter, searches, release_eq]
    exact searches_map_yielding e.waiting s.slot
  · rw [henter, hs]
    simp [searches, joined, entered, moved, claimed, ended]
  · rw [henter, hs]
    simp [searches, departed, entered, moved, claimed, ended]
  · have hended : ended (e.enter st).1 = [] := ended_eq_nil hfin
    rw [henter, hs, hended]
    simp [searches, moved]

theorem mem_searches_enter {e : Engine} (h : HoldsSlots e) (rest : AtRest e) {st : Step} {s : Search} :
    s ∈ (e.enter st).2.searches ↔ (s ∈ e.searches ∨ e.begun st = some s) ∧ s ∉ ended (e.enter st).1 := by
  rw [searches_enter h rest, List.mem_filter, List.mem_append, Option.mem_toList, decide_eq_true_eq]

theorem searches_subset_enter {e : Engine} (h : HoldsSlots e) (rest : AtRest e) (st : Step) :
    e.searches ⊆ (e.enter st).2.searches := by
  intro s hs
  refine (mem_searches_enter h rest).2 ⟨.inl hs, fun hended => ?_⟩
  obtain ⟨fetch, time, result, hevent⟩ := mem_ended.1 hended
  exact h.not_mem_of_begun (begun_of_finished h rest hevent).1 hs

theorem ended_endings (e : Engine) (st : Step) : ended (e.endings st) = (e.finishers st).map (·.search) := by
  rw [ended, endings, List.filterMap_map]
  exact List.filterMap_eq_map' ▸ rfl

private theorem searches_left {e : Engine} (h : HoldsSlots e) (st : Step) :
    (e.left st).searches =
      e.searches.filter fun s => s ∉ ended (e.endings st) ∧ ¬st.givesUp s := by
  -- A search leaves exactly when it stops waiting, since no two waiting searches share a generation.
  have mem_map : ∀ w ∈ e.waiting, w.search ∈ (e.leavers st).map (·.search) ↔ st.stops e.now w = true := by
    intro w hw
    constructor
    · intro hmem
      obtain ⟨v, hv, hsearch⟩ := List.mem_map.1 hmem
      obtain ⟨hv, hstops⟩ := mem_leavers.1 hv
      rwa [← h.eq_of_generation hv hw (congrArg Search.generation hsearch)]
    · exact fun hstops => List.mem_map_of_mem (mem_leavers.2 ⟨hw, hstops⟩)
  have stops_iff : ∀ w ∈ e.waiting,
      st.stops e.now w = true ↔ st.givesUp w.search = true ∨ w.search ∈ (e.finishers st).map (·.search) := by
    intro w hw
    cases st with
    | abort caller => simp [finishers, Step.givesUp, Step.stops]
    | _ => rw [← mem_map w hw]; simp [finishers, Step.givesUp]
  rw [searches, left_waiting h, searches, List.filter_map, ended_endings]
  refine congrArg _ (List.filter_congr fun w hw => ?_)
  rw [Bool.eq_iff_iff, Bool.not_eq_true', ← Bool.not_eq_true, stops_iff w hw, Function.comp_apply, decide_eq_true_eq]
  tauto

/-- The searches that wait are carried from step to step like those that are unfinished. -/
theorem searches_step {e : Engine} (h : Consistent e) (rest : AtRest e) (st : Step) :
    (e.step st).2.searches = e.carry e.searches st := by
  rw [carry, step_eq rest, searches_left (h.enter rest st).toHoldsSlots, searches_enter h.toHoldsSlots rest,
    List.filter_filter]
  refine List.filter_congr fun s _ => ?_
  rw [ended_append, ← Bool.decide_and, decide_eq_decide, List.mem_append, not_or]
  tauto

theorem mem_searches_step {e : Engine} (h : Consistent e) (rest : AtRest e) {st : Step} {s : Search} :
    s ∈ (e.step st).2.searches ↔
      (s ∈ e.searches ∨ e.begun st = some s) ∧ s ∉ ended (e.step st).1 ∧ ¬st.givesUp s := by
  rw [searches_step h rest, carry, List.mem_filter, List.mem_append, Option.mem_toList, decide_eq_true_eq]

theorem unfinishedFrom_searches {e : Engine} (h : Consistent e) (rest : AtRest e) (steps : List Step) :
    e.unfinishedFrom e.searches steps = (e.run steps).2.searches := by
  induction steps generalizing e with
  | nil => rfl
  | cons st steps ih =>
    rw [unfinishedFrom, ← searches_step h rest st]
    exact ih (h.step rest st) (rest.step h st)

/-- The unfinished searches of a run are those that wait after it. -/
theorem unfinished_eq (setup : Setup) (cache : Cache ResultPage) (steps : List Step) :
    (start setup cache).unfinished steps = ((start setup cache).run steps).2.searches :=
  unfinishedFrom_searches (Consistent.start setup cache) (AtRest.start setup cache) steps

/-- A search that waits after a run waited before it or was begun in it. -/
theorem begun_of_searches {e : Engine} (h : Consistent e) (rest : AtRest e) {steps : List Step} {s : Search}
    (hs : s ∈ (e.run steps).2.searches) : s ∈ e.searches ∨
      ∃ earlier st later, steps = earlier ++ st :: later ∧ (e.run earlier).2.begun st = some s := by
  induction steps generalizing e with
  | nil => exact .inl hs
  | cons st steps ih =>
    rcases ih (h.step rest st) (rest.step h st) hs with hs | ⟨earlier, st', later, hsteps, hbegun⟩
    · rcases ((mem_searches_step h rest).1 hs).1 with hs | hbegun
      · exact .inl hs
      · exact .inr ⟨[], st, steps, rfl, hbegun⟩
    · exact .inr ⟨st :: earlier, st', later, by rw [hsteps, List.cons_append], hbegun⟩

/-! ### Searches that are gone -/

theorem nextId_step {e : Engine} (h : HoldsSlots e) (rest : AtRest e) (st : Step) :
    e.nextId + (e.begun st).toList.length ≤ (e.step st).2.nextId := by
  rw [step_eq rest, left_nextId]
  rcases enter_cases h rest st with
    ⟨s, page, hs, -, henter⟩ | ⟨s, f, hs, -, -, henter⟩ | ⟨s, hs, -, -, henter⟩ | ⟨hs, -, cache, henter⟩ <;>
    rw [henter, hs]
  · rw [release_eq]
    exact Nat.le_refl (e.nextId + 1)
  · exact Nat.le_refl (e.nextId + 1)
  · show e.nextId + 1 ≤ e.nextId + 2
    omega
  · exact Nat.le_refl e.nextId

/-- The search has begun, and no search that waits has its generation. -/
structure Gone (e : Engine) (s : Search) : Prop where
  drawn : s.generation < e.nextId
  absent : ∀ s' ∈ e.searches, s'.generation ≠ s.generation

theorem Gone.not_mem {e : Engine} {s : Search} (gone : Gone e s) : s ∉ e.searches :=
  fun hs => gone.absent s hs rfl

/-- A search that ends in a step waited before it or begins in it. -/
theorem mem_of_ended {e : Engine} (h : Consistent e) (rest : AtRest e) {st : Step} {s : Search}
    (hs : s ∈ ended (e.step st).1) : s ∈ e.searches ∨ e.begun st = some s := by
  obtain ⟨fetch, time, result, hevent⟩ := mem_ended.1 hs
  rcases finished_cases h.toHoldsSlots rest hevent with ⟨hbegun, -⟩ | ⟨w, hw, rfl, -⟩
  · exact .inr hbegun
  · have hsearch : w.search ∈ (e.enter st).2.searches :=
      List.mem_map_of_mem (waiting_of_mem_finishers hw)
    exact ((mem_searches_enter h.toHoldsSlots rest).1 hsearch).1

theorem Gone.step {e : Engine} {s : Search} (gone : Gone e s) (h : Consistent e) (rest : AtRest e) (st : Step) :
    Gone (e.step st).2 s ∧ s ∉ ended (e.step st).1 := by
  have hdrawn := gone.drawn
  have others : ∀ s', s' ∈ e.searches ∨ e.begun st = some s' → s'.generation ≠ s.generation := by
    rintro s' (hold | hbegun)
    · exact gone.absent s' hold
    · have := generation_of_begun hbegun
      omega
  refine ⟨⟨?_, fun s' hs' => ?_⟩, fun hs => ?_⟩
  · have := nextId_step h.toHoldsSlots rest st
    omega
  · exact others s' ((mem_searches_step h rest).1 hs').1
  · exact others s (mem_of_ended h rest hs) rfl

/-- A search that is gone stays gone and has no further events. -/
theorem Gone.run {e : Engine} {s : Search} (gone : Gone e s) (h : Consistent e) (rest : AtRest e) (steps : List Step) :
    Gone (e.run steps).2 s ∧ s ∉ ended (e.run steps).1 := by
  induction steps generalizing e with
  | nil => exact ⟨gone, by simp [Engine.run, ended]⟩
  | cons st steps ih =>
    obtain ⟨hgone, hstep⟩ := gone.step h rest st
    obtain ⟨hlater, hrun⟩ := ih hgone (h.step rest st) (rest.step h st)
    refine ⟨hlater, ?_⟩
    change s ∉ ended (_ ++ _)
    rw [ended_append, List.mem_append]
    rintro (hs | hs)
    · exact hstep hs
    · exact hrun hs

/-- Searches of one generation that take part in a step, be they old or new, are one search. -/
private theorem eq_of_generation {e : Engine} (h : HoldsSlots e) {st : Step} {s s' : Search}
    (hs : s ∈ e.searches ∨ e.begun st = some s) (hs' : s' ∈ e.searches ∨ e.begun st = some s')
    (hgen : s'.generation = s.generation) : s' = s := by
  rcases hs with hs | hbegun <;> rcases hs' with hs' | hbegun'
  · obtain ⟨v, hv, rfl⟩ := List.mem_map.1 hs'
    obtain ⟨w, hw, rfl⟩ := List.mem_map.1 hs
    rw [h.eq_of_generation hv hw hgen]
  · have := h.lt_nextId hs
    have := generation_of_begun hbegun'
    omega
  · have := h.lt_nextId hs'
    have := generation_of_begun hbegun
    omega
  · exact Option.some.inj (hbegun'.symm.trans hbegun)

/-- A search that takes part in a step and does not wait after it is gone. -/
theorem gone_of_not_mem {e : Engine} (h : Consistent e) (rest : AtRest e) {st : Step} {s : Search}
    (hs : s ∈ e.searches ∨ e.begun st = some s) (hleft : s ∉ (e.step st).2.searches) : Gone (e.step st).2 s := by
  constructor
  · have hnext := nextId_step h.toHoldsSlots rest st
    rcases hs with hs | hbegun
    · have := h.lt_nextId hs
      omega
    · have := generation_of_begun hbegun
      rw [hbegun, Option.toList_some, List.length_singleton] at hnext
      omega
  · intro s' hs' hgen
    have hsame : s' = s := eq_of_generation h.toHoldsSlots hs ((mem_searches_step h rest).1 hs').1 hgen
    exact hleft (hsame ▸ hs')

theorem gone_of_ended_step {e : Engine} (h : Consistent e) (rest : AtRest e) {st : Step} {s : Search}
    (hs : s ∈ ended (e.step st).1) : Gone (e.step st).2 s :=
  gone_of_not_mem h rest (mem_of_ended h rest hs) fun hmem => ((mem_searches_step h rest).1 hmem).2.1 hs

/-- A search that has ended in a run is gone. -/
theorem gone_of_ended {e : Engine} (h : Consistent e) (rest : AtRest e) {steps : List Step} {s : Search}
    (hs : s ∈ ended (e.run steps).1) : Gone (e.run steps).2 s := by
  obtain ⟨fetch, time, result, hevent⟩ := mem_ended.1 hs
  obtain ⟨earlier, st, later, rfl, hstep⟩ := mem_run.1 hevent
  obtain ⟨h, rest⟩ := h.run rest earlier
  have gone : Gone ((e.run earlier).2.step st).2 s :=
    gone_of_ended_step h rest (mem_ended.2 ⟨fetch, time, result, hstep⟩)
  rw [run_append]
  exact (gone.run (h.step rest st) (rest.step h st) later).1

private theorem nodup_ended_step {e : Engine} (h : Consistent e) (rest : AtRest e) (st : Step) :
    (ended (e.step st).1).Nodup := by
  have entered := (h.enter rest st).toHoldsSlots
  have first : (ended (e.enter st).1).Nodup := by
    rcases enter_cases h.toHoldsSlots rest st with
      ⟨s, page, -, -, henter⟩ | ⟨s, f, -, -, -, henter⟩ | ⟨s, -, -, -, henter⟩ | ⟨-, hfin, -⟩
    · rw [henter]
      exact List.nodup_singleton s
    · rw [henter]
      exact List.nodup_nil
    · rw [henter]
      exact List.nodup_nil
    · rw [ended_eq_nil hfin]
      exact List.nodup_nil
  have second : (((e.enter st).2.finishers st).map (·.search)).Nodup := by
    have leavers : (((e.enter st).2.leavers st).map (·.search)).Nodup := by
      refine List.Nodup.of_map Search.generation ?_
      rw [List.map_map]
      exact nodup_leavers entered st
    cases st with
    | abort caller => exact List.nodup_nil
    | _ => exact leavers
  rw [step_eq rest, ended_append, ended_endings]
  refine first.append second fun s hfirst hsecond => ?_
  -- Whom the cache answers does not wait.
  obtain ⟨w, hw, rfl⟩ := List.mem_map.1 hsecond
  have hsearch : w.search ∈ (e.enter st).2.searches := List.mem_map_of_mem (waiting_of_mem_finishers hw)
  exact ((mem_searches_enter h.toHoldsSlots rest).1 hsearch).2 hfirst

/-- No search ends twice in a run. -/
theorem nodup_ended {e : Engine} (h : Consistent e) (rest : AtRest e) (steps : List Step) :
    (ended (e.run steps).1).Nodup := by
  induction steps generalizing e with
  | nil => exact List.nodup_nil
  | cons st steps ih =>
    have later := ih (h.step rest st) (rest.step h st)
    change (ended (_ ++ _)).Nodup
    rw [ended_append]
    refine (nodup_ended_step h rest st).append later fun s hs hlater => ?_
    exact ((gone_of_ended_step h rest hs).run (h.step rest st) (rest.step h st) steps).2 hlater

/-- Where no search ends twice, one event tells of the end of a search. -/
private theorem eq_of_nodup_ended {events : List Event} (h : (ended events).Nodup) {event event' : Event}
    (hevent : event ∈ events) (hevent' : event' ∈ events) {s : Search} (hs : event.search? = some s)
    (hs' : event'.search? = some s) : event = event' := by
  by_contra hne
  have : Std.Symm fun a b : Event => ∀ x, a.search? = some x → ∀ y, b.search? = some y → x ≠ y :=
    ⟨fun a b hab x hx y hy => (hab y hy x hx).symm⟩
  exact (List.pairwise_filterMap.1 h).forall hevent hevent' hne s hs s hs' rfl

/-- A search ends at most once. -/
theorem finished_unique {e : Engine} (h : Consistent e) (rest : AtRest e) {steps : List Step} {s : Search}
    {fetch fetch' : Option Nat} {time time' : Nat} {result result' : Except SearchError Answer}
    (hevent : .finished s fetch time result ∈ (e.run steps).1)
    (hevent' : .finished s fetch' time' result' ∈ (e.run steps).1) :
    Event.finished s fetch time result = .finished s fetch' time' result' :=
  eq_of_nodup_ended (nodup_ended h rest steps) hevent hevent' rfl rfl

theorem not_mem_ended_of_searches {e : Engine} (h : Consistent e) (rest : AtRest e) {steps : List Step} {s : Search}
    (hs : s ∈ (e.run steps).2.searches) : s ∉ ended (e.run steps).1 :=
  fun hended => (gone_of_ended h rest hended).not_mem hs

end RepoSearch.Engine
