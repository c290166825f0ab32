import RepoSearch.Engine.Run
import Mathlib.Tactic.SplitIfs

/-!
# Searches that stop waiting

What the engine does when waiting searches stop waiting, as equations between states. Searches that are dismissed
change only the flights, the slots and the waiting searches; searches that go on also keep their pages in the cache,
and this does not interfere with the dismissals, so that several of them are dismissed together.
-/

namespace RepoSearch.Engine

/-! ### Leaving -/

theorem leave_eq (e : Engine) (key : String) (fetch : Nat) :
    e.leave key fetch = { e with flights := (e.leave key fetch).flights } := by
  unfold leave
  split
  · rfl
  · split_ifs <;> rfl

theorem leave_flights (e : Engine) (key : String) (fetch : Nat) : (e.leave key fetch).flights =
    match e.flights[key]? with
    | none => e.flights
    | some f =>
      if f.fetch.id ≠ fetch then e.flights
      else if f.waiters - 1 = 0 then e.flights.erase key
      else e.flights.insert key { f with waiters := f.waiters - 1 } := by
  unfold leave
  cases e.flights[key]? with
  | none => rfl
  | some f =>
    dsimp only
    split_ifs <;> rfl

/-- A flight once one of its waiters has left, if it is still for the given fetch. -/
def Flight.without? (f : Flight) (fetch : Nat) : Option Flight :=
  if f.fetch.id ≠ fetch then some f
  else if f.waiters - 1 = 0 then none
  else some { f with waiters := f.waiters - 1 }

theorem getElem?_leave (e : Engine) (key : String) (fetch : Nat) (k : String) : (e.leave key fetch).flights[k]? =
    if key = k then e.flights[k]?.bind (·.without? fetch) else e.flights[k]? := by
  rw [leave_flights]
  by_cases hk : key = k
  · subst hk
    rw [if_pos rfl]
    cases hf : e.flights[key]? with
    | none => exact hf
    | some f =>
      dsimp only [Option.bind_some, Flight.without?]
      split_ifs <;> simp [hf]
  · rw [if_neg hk]
    split
    · rfl
    · split_ifs <;> simp [Std.ExtTreeMap.getElem?_erase, Std.ExtTreeMap.getElem?_insert, hk]

/-- A waiter of a flight leaves it. -/
theorem getElem?_leave_of_flight {e : Engine} {key : String} {f : Flight} (hf : e.flights[key]? = some f) {fetch : Nat}
    (hfetch : f.fetch.id = fetch) (k : String) : (e.leave key fetch).flights[k]? =
      if key = k then (if f.waiters - 1 = 0 then none else some { f with waiters := f.waiters - 1 })
      else e.flights[k]? := by
  rw [getElem?_leave]
  split_ifs with hk hlast
  · rw [← hk, hf, Option.bind_some, Flight.without?, if_neg (not_not_intro hfetch), if_pos hlast]
  · rw [← hk, hf, Option.bind_some, Flight.without?, if_neg (not_not_intro hfetch), if_neg hlast]
  · rfl

theorem release_eq (e : Engine) (s : Search) : e.release s = { e with slots := (e.release s).slots } := by
  unfold release
  split <;> rfl

theorem release_slots (e : Engine) (s : Search) :
    (e.release s).slots = if e.slots[s.slot]? = some s.generation then e.slots.erase s.slot else e.slots := by
  unfold release
  split <;> rfl

/-- A search that stops waiting changes the flights, the slots and the waiting searches. -/
theorem dismiss_eq (e : Engine) (w : Waiting) : e.dismiss w = { e with
    flights := (e.leave w.key w.fetch.id).flights
    slots := (e.release w.search).slots
    waiting := e.waiting.filter fun v => v.search.generation ≠ w.search.generation } := by
  have h : (e.leave w.key w.fetch.id).release w.search =
      { e with flights := (e.leave w.key w.fetch.id).flights, slots := (e.release w.search).slots } := by
    rw [release_eq, leave_eq, release_slots, release_slots]
  unfold dismiss
  rw [h]

theorem foldl_dismiss_eq (e : Engine) (ws : List Waiting) : ws.foldl dismiss e = { e with
    flights := (ws.foldl dismiss e).flights
    slots := (ws.foldl dismiss e).slots
    waiting := e.waiting.filter fun v => v.search.generation ∉ ws.map (·.search.generation) } := by
  induction ws generalizing e with
  | nil => rw [List.foldl_nil, List.filter_eq_self.2 (by simp)]
  | cons w ws ih =>
    rw [List.foldl_cons, ih, dismiss_eq]
    simp only [List.filter_filter, List.map_cons, List.mem_cons, not_or, ne_eq, Bool.decide_and, Bool.and_comm]

/-! ### Going on -/

/-- The engine at another time, with another cache. -/
def moved (e : Engine) (now : Nat) (cache : Cache ResultPage) : Engine := { e with now, cache }

theorem dismiss_moved (e : Engine) (now : Nat) (cache : Cache ResultPage) (w : Waiting) :
    (e.moved now cache).dismiss w = (e.dismiss w).moved now cache := by
  simp only [dismiss_eq, leave_flights, release_slots, moved]

theorem foldl_dismiss_moved (e : Engine) (now : Nat) (cache : Cache ResultPage) (ws : List Waiting) :
    ws.foldl dismiss (e.moved now cache) = (ws.foldl dismiss e).moved now cache := by
  induction ws generalizing e with
  | nil => rfl
  | cons w ws ih => rw [List.foldl_cons, List.foldl_cons, dismiss_moved, ih]

/-- The event by which a search that has waited ends. -/
def Waiting.ending (time : Nat) (w : Waiting) : Event :=
  .finished w.search (some w.fetch.id) time (w.outcome.map w.search.answer)

/-- The cache once a search has kept the page that it is handed, if it is handed one. -/
def Waiting.keptIn (clock : Instant) (cache : Cache ResultPage) (w : Waiting) : Cache ResultPage :=
  match w.outcome with
  | .ok f => cache.set w.key f.page clock
  | .error _ => cache

theorem keep_eq (e : Engine) (w : Waiting) : e.keep w = e.moved e.now (w.keptIn e.setup.clock e.cache) := by
  unfold keep Waiting.keptIn
  cases w.outcome <;> rfl

theorem resume_eq (e : Engine) (w : Waiting) :
    e.resume w = (w.ending e.now, (e.dismiss w).moved e.now (w.keptIn e.setup.clock e.cache)) := by
  unfold resume
  rw [keep_eq, dismiss_moved]
  rfl

theorem resumeAll_eq (e : Engine) (ws : List Waiting) : e.resumeAll ws =
    (ws.map (·.ending e.now), (ws.foldl dismiss e).moved e.now (ws.foldl (Waiting.keptIn e.setup.clock) e.cache)) := by
  induction ws generalizing e with
  | nil => rfl
  | cons w ws ih =>
    simp only [resumeAll, resume_eq, ih]
    simp only [foldl_dismiss_moved, List.map_cons, List.foldl_cons]
    rw [dismiss_eq]
    rfl

/-- Searches that go on when their fetches end do so one after the other. -/
theorem resumeDue_eq (e : Engine) (ws : List Waiting) : ∃ now, e.resumeDue ws =
    (ws.map fun w => w.ending w.fetch.endsAt,
      (ws.foldl dismiss e).moved now (ws.foldl (Waiting.keptIn e.setup.clock) e.cache)) := by
  induction ws generalizing e with
  | nil => exact ⟨e.now, rfl⟩
  | cons w ws ih =>
    have first : { e with now := w.fetch.endsAt }.resume w =
        (w.ending w.fetch.endsAt, (e.dismiss w).moved w.fetch.endsAt (w.keptIn e.setup.clock e.cache)) := by
      change (e.moved w.fetch.endsAt e.cache).resume w = _
      rw [resume_eq, dismiss_moved]
      rfl
    -- The time matters to the event of `w` alone, so the others may go on from any.
    obtain ⟨now, h⟩ := ih ((e.dismiss w).moved w.fetch.endsAt (w.keptIn e.setup.clock e.cache))
    refine ⟨now, ?_⟩
    simp only [resumeDue, first, h]
    simp only [foldl_dismiss_moved, List.map_cons, List.foldl_cons]
    rw [dismiss_eq]
    rfl

end RepoSearch.Engine
