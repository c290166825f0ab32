import RepoSearch.Proofs.CacheEntries
import RepoSearch.Proofs.Engine.Sources
import RepoSearch.Proofs.Engine.Unfinished

/-!
# When calls are made

A step calls GitHub only when it begins a search for which the cache has nothing and nobody waits. The calls are told
apart by their fetches, and since all who wait for one key wait for one fetch, no two calls are awaited for the same
key.
-/

namespace RepoSearch.Engine

theorem step_calls {e : Engine} (rest : AtRest e) (st : Step) : (e.step st).2.calls = (e.enter st).2.calls := by
  rw [step_eq rest]
  exact left_calls _ st

/-- The call that a search makes if it begins a flight. -/
def newCall (e : Engine) (s : Search) : Call := ⟨e.nextId + 1, s.criteria.pageRequest, e.now, e.nextReply⟩

theorem departed_calls (e : Engine) (s : Search) : ((e.entered s).departed s).calls = e.calls ++ [e.newCall s] := rfl

/-- A step makes no call, or it begins a search that finds neither its page nor a flight. -/
theorem calls_cases {e : Engine} (h : HoldsSlots e) (rest : AtRest e) (st : Step) :
    (e.enter st).2.calls = e.calls ∨ ∃ s, e.begun st = some s ∧
      (e.cache.get s.criteria.cacheKey e.setup.clock).1 = none ∧ e.flights[s.criteria.cacheKey]? = none ∧
      (e.enter st).2 = (e.entered s).departed s := by
  rcases enter_cases h rest st with
    ⟨s, page, -, -, henter⟩ | ⟨s, f, -, -, -, henter⟩ | ⟨s, hs, hmiss, hf, henter⟩ | ⟨-, -, cache, henter⟩
  · rw [henter, release_eq]
    exact .inl rfl
  · rw [henter]
    exact .inl rfl
  · rw [henter]
    exact .inr ⟨s, hs, hmiss, hf, rfl⟩
  · rw [henter]
    exact .inl rfl

/-- A step that makes a call begins a search that nothing in the cache answers and for whose key nobody waits. -/
theorem call_of_step {e : Engine} (h : Consistent e) (rest : AtRest e) {st : Step}
    (hcalls : (e.step st).2.calls ≠ e.calls) : ∃ s, e.begun st = some s ∧
      (∀ entry, e.cache.entries[s.criteria.cacheKey]? = some entry → e.cache.isExpired e.setup.clock entry = true) ∧
      (∀ s' ∈ e.searches, s'.criteria.cacheKey ≠ s.criteria.cacheKey) ∧
      (e.step st).2.calls = e.calls ++ [e.newCall s] := by
  rw [step_calls rest] at hcalls ⊢
  rcases calls_cases h.toHoldsSlots rest st with hsame | ⟨s, hs, hmiss, hf, henter⟩
  · exact absurd hsame hcalls
  · refine ⟨s, hs, Cache.get_eq_none_iff.1 hmiss, fun s' hs' hkey => ?_, ?_⟩
    · obtain ⟨w, hw, rfl⟩ := List.mem_map.1 hs'
      obtain ⟨f, hf', -⟩ := h.boarded w hw
      rw [Waiting.key, hkey, hf] at hf'
      cases hf'
    · rw [henter, departed_calls]

theorem calls_prefix_step {e : Engine} (h : HoldsSlots e) (rest : AtRest e) (st : Step) :
    e.calls <+: (e.step st).2.calls := by
  rw [step_calls rest]
  rcases calls_cases h rest st with hsame | ⟨s, -, -, -, henter⟩
  · exact ⟨[], by rw [hsame, List.append_nil]⟩
  · rw [henter, departed_calls]
    exact List.prefix_append _ _

/-- Calls are never taken back. -/
theorem calls_prefix_run {e : Engine} (h : Consistent e) (rest : AtRest e) (steps : List Step) :
    e.calls <+: (e.run steps).2.calls := by
  induction steps generalizing e with
  | nil => exact List.prefix_rfl
  | cons st steps ih => exact (calls_prefix_step h.toHoldsSlots rest st).trans (ih (h.step rest st) (rest.step h st))

/-! ### Telling calls apart -/

/-- The calls are numbered by their fetches. -/
structure Numbered (e : Engine) : Prop where
  distinct : (e.calls.map Call.fetch).Nodup
  drawn : ∀ call ∈ e.calls, call.fetch < e.nextId

theorem Numbered.eq_of_fetch {e : Engine} (h : Numbered e) {m n : Nat} {call call' : Call}
    (hm : e.calls[m]? = some call) (hn : e.calls[n]? = some call') (hfetch : call.fetch = call'.fetch) : m = n := by
  have hm' : (e.calls.map Call.fetch)[m]? = some call.fetch := by rw [List.getElem?_map, hm, Option.map_some]
  have hn' : (e.calls.map Call.fetch)[n]? = some call.fetch := by rw [List.getElem?_map, hn, Option.map_some, hfetch]
  obtain ⟨hlt, -⟩ := List.getElem?_eq_some_iff.1 hm'
  exact (List.getElem?_inj hlt h.distinct).1 (hm'.trans hn'.symm)

theorem Numbered.enter {e : Engine} (h : Numbered e) (books : HoldsSlots e) (rest : AtRest e) (st : Step) :
    Numbered (e.enter st).2 := by
  rcases enter_cases books rest st with
    ⟨s, page, -, -, henter⟩ | ⟨s, f, -, -, -, henter⟩ | ⟨s, -, -, -, henter⟩ | ⟨-, -, cache, henter⟩ <;> rw [henter]
  · rw [release_eq]
    exact ⟨h.distinct, fun call hcall => Nat.lt_succ_of_lt (h.drawn call hcall)⟩
  · exact ⟨h.distinct, fun call hcall => Nat.lt_succ_of_lt (h.drawn call hcall)⟩
  · -- The new call's fetch has a number that no call before it has.
    constructor
    · rw [departed_calls, List.map_append, List.map_singleton]
      refine List.Nodup.append h.distinct (List.nodup_singleton _) fun fetch hold hnew => ?_
      obtain ⟨call, hcall, rfl⟩ := List.mem_map.1 hold
      have := h.drawn call hcall
      rw [List.mem_singleton] at hnew
      have : (e.newCall s).fetch = e.nextId + 1 := rfl
      omega
    · intro call hcall
      rw [departed_calls, List.mem_append, List.mem_singleton] at hcall
      show call.fetch < e.nextId + 2
      rcases hcall with hcall | rfl
      · have := h.drawn call hcall
        omega
      · exact Nat.lt_succ_self _
  · exact ⟨h.distinct, h.drawn⟩

theorem Numbered.step {e : Engine} (h : Numbered e) (books : HoldsSlots e) (rest : AtRest e) (st : Step) :
    Numbered (e.step st).2 := by
  have entered := h.enter books rest st
  rw [step_eq rest]
  refine ⟨?_, ?_⟩ <;> dsimp only <;> rw [left_calls]
  · exact entered.distinct
  · rw [left_nextId]
    exact entered.drawn

/-! ### Calls that somebody waits for -/

/-- Searches that wait for the same fetch have the same key. -/
def KeyedByFetch (e : Engine) : Prop := ∀ v ∈ e.waiting, ∀ w ∈ e.waiting, v.fetch.id = w.fetch.id → v.key = w.key

theorem fetch_drawn {e : Engine} (sourced : Sourced e) (numbered : Numbered e) {w : Waiting} (hw : w ∈ e.waiting) :
    w.fetch.id < e.nextId := by
  obtain ⟨call, hcall, hawaits⟩ := sourced.awaited w hw
  rw [hawaits.fetch]
  exact numbered.drawn call hcall

theorem KeyedByFetch.enter {e : Engine} (keyed : KeyedByFetch e) (h : Consistent e) (rest : AtRest e)
    (drawn : ∀ w ∈ e.waiting, w.fetch.id < e.nextId) (st : Step) : KeyedByFetch (e.enter st).2 := by
  -- Who does not wait for the new fetch waits for the fetch of somebody who waited before.
  have origin : ∀ w ∈ (e.enter st).2.waiting, (∃ v ∈ e.waiting, w.key = v.key ∧ w.fetch = v.fetch) ∨
      (e.begun st = some w.search ∧ w.fetch.id = e.nextId + 1) := by
    intro w hw
    rcases waiting_enter_cases h rest hw with ⟨v, hv, hsearch, hfetch⟩ | ⟨hs, -, ⟨v, hv, hkey, hfetch⟩ | hfetch⟩
    · exact .inl ⟨v, hv, by rw [Waiting.key, hsearch, Waiting.key], hfetch⟩
    · exact .inl ⟨v, hv, hkey, hfetch⟩
    · exact .inr ⟨hs, by rw [hfetch, nextFetch]⟩
  intro v hv w hw hid
  rcases origin v hv with ⟨v', hv', hkey, hfetch⟩ | ⟨hs, hnew⟩ <;>
    rcases origin w hw with ⟨w', hw', hkey', hfetch'⟩ | ⟨hs', hnew'⟩
  · rw [hkey, hkey']
    exact keyed v' hv' w' hw' (by rw [← hfetch, ← hfetch', hid])
  · have := drawn v' hv'
    rw [← hfetch] at this
    omega
  · have := drawn w' hw'
    rw [← hfetch'] at this
    omega
  · rw [hs] at hs'
    rw [Waiting.key, Option.some.inj hs', Waiting.key]

/-- A call is alive for a key while a search with the key waits for its fetch. -/
def Alive (e : Engine) (n : Nat) (key : String) : Prop :=
  ∃ call w, e.calls[n]? = some call ∧ w ∈ e.waiting ∧ w.key = key ∧ w.fetch.id = call.fetch

/-- Calls that are alive are told apart by their keys, and keys by their calls. -/
def OneCallEach (e : Engine) : Prop :=
  ∀ m n key key', e.Alive m key → e.Alive n key' → (m = n ↔ key = key')

theorem KeyedByFetch.oneCallEach {e : Engine} (keyed : KeyedByFetch e) (counts : CountsWaiters e)
    (numbered : Numbered e) : OneCallEach e := by
  rintro m n _ _ ⟨call, v, hm, hv, rfl, hfetch⟩ ⟨call', w, hn, hw, rfl, hfetch'⟩
  constructor
  · rintro rfl
    obtain rfl := Option.some.inj (hm.symm.trans hn)
    exact keyed v hv w hw (hfetch.trans hfetch'.symm)
  · intro hkey
    refine numbered.eq_of_fetch hm hn ?_
    rw [← hfetch, ← hfetch', counts.fetch_eq hv hw hkey]

theorem OneCallEach.foldl_dismiss {e : Engine} (h : OneCallEach e) (gone : List Waiting) :
    OneCallEach (gone.foldl dismiss e) := by
  -- Whoever still waits has waited before.
  have alive : ∀ {n key}, (gone.foldl dismiss e).Alive n key → e.Alive n key := by
    rintro n key ⟨call, w, hn, hw, hkey, hfetch⟩
    rw [foldl_dismiss_eq] at hn hw
    exact ⟨call, w, hn, List.mem_of_mem_filter hw, hkey, hfetch⟩
  exact fun m n key key' hm hn => h m n key key' (alive hm) (alive hn)

/-! ### Runs -/

/-- What holds between the steps of a run: the books are right, the engine is at rest, and calls, fetches and keys
belong together. -/
structure Orderly (e : Engine) : Prop where
  books : Consistent e
  rest : AtRest e
  sourced : Sourced e
  numbered : Numbered e
  keyed : KeyedByFetch e

theorem Orderly.step {e : Engine} (h : Orderly e) (st : Step) : Orderly (e.step st).2 := by
  have numbered := h.numbered.step h.books.toHoldsSlots h.rest st
  refine ⟨h.books.step h.rest st, h.rest.step h.books st, h.sourced.step h.books h.rest st, numbered, ?_⟩
  have keyed := h.keyed.enter h.books h.rest (fun _ hw => fetch_drawn h.sourced h.numbered hw) st
  exact fun v hv w hw => keyed v (waiting_of_step h.books h.rest hv) w (waiting_of_step h.books h.rest hw)

theorem Orderly.start (setup : Setup) (cache : Cache ResultPage) : Orderly (start setup cache) := by
  refine ⟨Consistent.start setup cache, AtRest.start setup cache, Sourced.start setup cache, ?_, ?_⟩
  · constructor <;> simp [Engine.start]
  · simp [KeyedByFetch, Engine.start]

/-- Between the steps of every run from the start the engine is orderly. -/
theorem run_orderly (setup : Setup) (cache : Cache ResultPage) (steps : List Step) :
    Orderly ((Engine.start setup cache).run steps).2 :=
  run_induction (Orderly.start setup cache) (fun _ st h => h.step st) steps

theorem Orderly.oneCallEach {e : Engine} (h : Orderly e) : OneCallEach e :=
  h.keyed.oneCallEach h.books.toCountsWaiters h.numbered

/-- In the middle of a step too, when those still wait that its second half lets go. -/
theorem Orderly.oneCallEach_enter {e : Engine} (h : Orderly e) (st : Step) : OneCallEach (e.enter st).2 :=
  (h.keyed.enter h.books h.rest (fun _ hw => fetch_drawn h.sourced h.numbered hw) st).oneCallEach
    (h.books.enter h.rest st).toCountsWaiters (h.numbered.enter h.books.toHoldsSlots h.rest st)

end RepoSearch.Engine
