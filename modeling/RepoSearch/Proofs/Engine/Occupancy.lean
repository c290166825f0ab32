import RepoSearch.Proofs.Engine.Unfinished
import RepoSearch.Proofs.Tables
import Mathlib.Data.List.Dedup

/-!
# Slots and fetches in use

The engine holds a slot for each unfinished search and a flight for each of their cache keys, and nothing else. So
nothing is left behind by a search, however it ends.
-/

namespace RepoSearch.Engine

/-- The engine's slots and flights are those of the given searches. -/
structure Accounts (e : Engine) (ss : List Search) : Prop where
  distinct : ss.Nodup
  /-- As many slots are taken as there are searches, and each search holds its own. -/
  slots : e.slots.size = ss.length
  holders : ∀ s ∈ ss, e.slots[s.slot]? = some s.generation
  /-- There are as many flights as there are cache keys among the searches. -/
  flights : e.flights.size = (ss.map (·.criteria.cacheKey)).dedup.length
  /-- Each search waits for the fetch of the flight of its key, which counts all of them. -/
  aboard : ∀ s ∈ ss, ∃ f, e.flights[s.criteria.cacheKey]? = some f ∧
    ⟨s, f.fetch, false⟩ ∈ e.waiting ∧ f.waiters = ss.countP (·.criteria.cacheKey = s.criteria.cacheKey)

theorem Consistent.accounts {e : Engine} (h : Consistent e) (rest : AtRest e) : Accounts e e.searches := by
  have hheld : ∀ w ∈ e.waiting, e.slots[w.search.slot]? = some w.search.generation :=
    fun w hw => (h.held _ _).2 ⟨w, hw, (rest w hw).1, rfl, rfl⟩
  have distinct : e.searches.Nodup := by
    refine List.Nodup.of_map Search.generation ?_
    simpa [searches, List.map_map, Function.comp_def] using h.distinct
  -- Two waiting searches in one slot would both be its holder.
  have own : (e.searches.map Search.slot).Nodup := by
    refine List.Nodup.map_on ?_ distinct
    intro s hs s' hs' hslot
    obtain ⟨w, hw, rfl⟩ := List.mem_map.1 hs
    obtain ⟨w', hw', rfl⟩ := List.mem_map.1 hs'
    have hg : some w.search.generation = some w'.search.generation := by
      rw [← hheld w hw, ← hheld w' hw', hslot]
    rw [h.eq_of_generation hw hw' (Option.some.inj hg)]
  refine ⟨distinct, ?_, ?_, ?_, ?_⟩
  · rw [← List.length_map Search.slot]
    refine size_eq_length own fun slot => ?_
    rw [Std.ExtTreeMap.mem_iff_isSome_getElem?, Option.isSome_iff_exists]
    constructor
    · rintro ⟨g, hg⟩
      obtain ⟨w, hw, -, rfl, -⟩ := (h.held slot g).1 hg
      exact List.mem_map_of_mem (List.mem_map_of_mem hw)
    · intro hslot
      obtain ⟨s, hs, rfl⟩ := List.mem_map.1 hslot
      obtain ⟨w, hw, rfl⟩ := List.mem_map.1 hs
      exact ⟨_, hheld w hw⟩
  · intro s hs
    obtain ⟨w, hw, rfl⟩ := List.mem_map.1 hs
    exact hheld w hw
  · refine size_eq_length (List.nodup_dedup _) fun key => ?_
    rw [Std.ExtTreeMap.mem_iff_isSome_getElem?, Option.isSome_iff_exists, List.mem_dedup]
    constructor
    · rintro ⟨f, hf⟩
      obtain ⟨w, hw, rfl, -⟩ := h.exists_aboard hf
      exact List.mem_map_of_mem (List.mem_map_of_mem hw)
    · intro hkey
      obtain ⟨s, hs, rfl⟩ := List.mem_map.1 hkey
      obtain ⟨w, hw, rfl⟩ := List.mem_map.1 hs
      obtain ⟨f, hf, -⟩ := h.boarded w hw
      exact ⟨f, hf⟩
  · intro s hs
    obtain ⟨w, hw, rfl⟩ := List.mem_map.1 hs
    obtain ⟨f, hf, hfetch⟩ := h.boarded w hw
    refine ⟨f, hf, ?_, ?_⟩
    · rw [hfetch, ← (rest w hw).1]
      exact hw
    · rw [(h.counted _ f hf).1, waiters, searches, List.countP_map]
      refine List.countP_congr fun v _ => ?_
      rw [Function.comp_apply, decide_eq_true_eq, decide_eq_true_eq, Waiting.key, Waiting.key]

/-- After every run the slots and flights in use are those of its unfinished searches, so once all have ended or been
given up there are none. -/
theorem unfinished_accounted (setup : Setup) (cache : Cache ResultPage) (steps : List Step) :
    Accounts ((start setup cache).run steps).2 ((start setup cache).unfinished steps) ∧
    ((start setup cache).unfinished steps = [] →
      ((start setup cache).run steps).2.slots.size = 0 ∧ ((start setup cache).run steps).2.flights.size = 0) := by
  obtain ⟨h, rest⟩ := run_consistent setup cache steps
  rw [unfinished_eq]
  have accounts := h.accounts rest
  refine ⟨accounts, fun hnone => ?_⟩
  rw [accounts.slots, accounts.flights, hnone]
  exact ⟨rfl, rfl⟩

end RepoSearch.Engine
