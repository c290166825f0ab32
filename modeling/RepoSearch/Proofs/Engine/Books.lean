import RepoSearch.Proofs.Engine.Leaving
import Mathlib.Data.List.Nodup

/-!
# The books of the engine

The engine keeps book of the waiting searches: the tickets of the slots name those that are not superseded, and the
flights count those that wait for their fetch. Both books stay right when a waiting search is dismissed.
-/

namespace RepoSearch.Engine

/-! ### Slots -/

/-- The waiting searches are all different, and the holders of the slots are those that are not superseded. -/
structure HoldsSlots (e : Engine) : Prop where
  distinct : (e.waiting.map (·.search.generation)).Nodup
  drawn : ∀ w ∈ e.waiting, w.search.generation < e.nextId
  held : ∀ slot g, e.slots[slot]? = some g ↔
    ∃ w ∈ e.waiting, w.superseded = false ∧ w.search.slot = slot ∧ w.search.generation = g

theorem HoldsSlots.eq_of_generation {e : Engine} (h : HoldsSlots e) {v w : Waiting} (hv : v ∈ e.waiting)
    (hw : w ∈ e.waiting) (hg : v.search.generation = w.search.generation) : v = w :=
  List.inj_on_of_nodup_map h.distinct hv hw hg

theorem getElem?_release_slots {e : Engine} {s : Search} {slot : String} {g : Nat} :
    (e.release s).slots[slot]? = some g ↔ e.slots[slot]? = some g ∧ ¬(slot = s.slot ∧ g = s.generation) := by
  rw [release_slots]
  by_cases hslot : slot = s.slot
  · subst hslot
    split_ifs with hheld
    · simp [hheld, eq_comm]
    · have hne : e.slots[s.slot]? = some g → g ≠ s.generation := by
        rintro h rfl
        exact hheld h
      simpa using hne
  · split_ifs <;> simp [Std.ExtTreeMap.getElem?_erase, hslot, Ne.symm hslot]

theorem HoldsSlots.dismiss {e : Engine} (h : HoldsSlots e) {w : Waiting} (hw : w ∈ e.waiting) :
    HoldsSlots (e.dismiss w) := by
  rw [dismiss_eq]
  refine ⟨?_, ?_, fun slot g => ?_⟩
  · exact h.distinct.sublist (List.filter_sublist.map _)
  · exact fun v hv => h.drawn v (List.mem_of_mem_filter hv)
  -- Only the holder gives a slot back, so the slots of the others are left alone.
  · simp only [getElem?_release_slots, h.held, List.mem_filter, ne_eq, decide_eq_true_eq]
    constructor
    · rintro ⟨⟨v, hv, hs, rfl, rfl⟩, hne⟩
      refine ⟨v, ⟨hv, fun hg => hne ?_⟩, hs, rfl, rfl⟩
      obtain rfl := h.eq_of_generation hv hw hg
      exact ⟨rfl, rfl⟩
    · rintro ⟨v, ⟨hv, hne⟩, hs, rfl, rfl⟩
      exact ⟨⟨v, hv, hs, rfl, rfl⟩, fun hg => hne hg.2⟩

/-! ### Flights -/

/-- The number of searches that wait for the page of a key. -/
def waiters (e : Engine) (key : String) : Nat := e.waiting.countP (·.key = key)

/-- Every waiting search waits for the fetch of its key's flight, and every flight counts the searches that do. -/
structure CountsWaiters (e : Engine) : Prop where
  boarded : ∀ w ∈ e.waiting, ∃ f, e.flights[w.key]? = some f ∧ f.fetch = w.fetch
  counted : ∀ key f, e.flights[key]? = some f → f.waiters = e.waiters key ∧ 0 < f.waiters

theorem CountsWaiters.fetch_eq {e : Engine} (h : CountsWaiters e) {v w : Waiting} (hv : v ∈ e.waiting)
    (hw : w ∈ e.waiting) (hkey : v.key = w.key) : v.fetch = w.fetch := by
  obtain ⟨f, hf, hfv⟩ := h.boarded v hv
  obtain ⟨f', hf', hfw⟩ := h.boarded w hw
  rw [hkey, hf'] at hf
  rw [← hfv, ← hfw, Option.some.inj hf]

/-- A flight that counts nobody would be gone, so somebody waits for its fetch. -/
theorem CountsWaiters.exists_aboard {e : Engine} (h : CountsWaiters e) {key : String} {f : Flight}
    (hf : e.flights[key]? = some f) : ∃ w ∈ e.waiting, w.key = key ∧ w.fetch = f.fetch := by
  obtain ⟨hcount, hpos⟩ := h.counted key f hf
  rw [hcount, waiters, List.countP_pos_iff] at hpos
  obtain ⟨w, hw, hkey⟩ := hpos
  rw [decide_eq_true_eq] at hkey
  obtain ⟨f', hf', hfetch⟩ := h.boarded w hw
  rw [hkey, hf] at hf'
  exact ⟨w, hw, hkey, Option.some.inj hf' ▸ hfetch.symm⟩

private theorem countP_eq_filter_ne {α : Type} {l : List α} {g : α → Nat} (hl : (l.map g).Nodup) {x : α} (hx : x ∈ l)
    (p : α → Bool) : l.countP p = (l.filter fun y => g y ≠ g x).countP p + if p x then 1 else 0 := by
  induction l with
  | nil => simp at hx
  | cons y l ih =>
    rw [List.map_cons, List.nodup_cons] at hl
    rcases List.mem_cons.1 hx with rfl | hx
    · have keep : l.filter (fun y => g y ≠ g x) = l :=
        List.filter_eq_self.2 fun y hy => by
          simp only [ne_eq, decide_eq_true_eq]
          exact fun hg => hl.1 (hg ▸ List.mem_map_of_mem hy)
      rw [List.filter_cons_of_neg (by simp), keep, List.countP_cons]
    · have hne : g y ≠ g x := fun hg => hl.1 (hg ▸ List.mem_map_of_mem hx)
      rw [List.filter_cons_of_pos (by simpa using hne), List.countP_cons, List.countP_cons, ih hl.2 hx]
      omega

theorem CountsWaiters.dismiss {e : Engine} (h : CountsWaiters e)
    (distinct : (e.waiting.map (·.search.generation)).Nodup) {w : Waiting} (hw : w ∈ e.waiting) :
    CountsWaiters (e.dismiss w) := by
  obtain ⟨f, hf, hfw⟩ := h.boarded w hw
  obtain ⟨hcount, hpos⟩ := h.counted w.key f hf
  have count : ∀ key, e.waiters key = (e.dismiss w).waiters key + if w.key = key then 1 else 0 := by
    intro key
    have := countP_eq_filter_ne distinct hw (fun v => decide (v.key = key))
    simpa [waiters, dismiss_eq] using this
  have flights : ∀ key, (e.dismiss w).flights[key]? =
      if w.key = key then (if f.waiters - 1 = 0 then none else some { f with waiters := f.waiters - 1 })
      else e.flights[key]? := by
    rw [dismiss_eq]
    exact getElem?_leave_of_flight hf (congrArg Fetch.id hfw)
  constructor
  · intro v hv
    have hv' : v ∈ e.waiting := by
      rw [dismiss_eq] at hv
      exact List.mem_of_mem_filter hv
    obtain ⟨f', hf', hfv⟩ := h.boarded v hv'
    -- If `v` waits for the same key, then `w` was not the last to wait for it, and the flight stays.
    rw [flights]
    split_ifs with hkey hlast
    · have : 0 < (e.dismiss w).waiters v.key := List.countP_pos_iff.2 ⟨v, hv, by simp⟩
      have := count v.key
      rw [hkey] at hcount
      simp only [hkey, if_true] at this
      omega
    · rw [← hkey, hf] at hf'
      obtain rfl := Option.some.inj hf'
      exact ⟨_, rfl, hfv⟩
    · exact ⟨f', hf', hfv⟩
  · intro key f' hf'
    rw [flights] at hf'
    have := count key
    split_ifs at hf' with hkey hlast
    · obtain rfl := Option.some.inj hf'
      subst hkey
      simp only [if_true] at this
      dsimp only
      omega
    · simp only [hkey, if_false] at this
      rw [← Nat.add_zero ((e.dismiss w).waiters key), ← this]
      exact h.counted key f' hf'

/-! ### Both books -/

/-- The books of the engine agree with the searches that wait. -/
structure Consistent (e : Engine) : Prop extends HoldsSlots e, CountsWaiters e

theorem Consistent.moved {e : Engine} (h : Consistent e) (now : Nat) (cache : Cache ResultPage) :
    Consistent (e.moved now cache) :=
  ⟨⟨h.distinct, h.drawn, h.held⟩, ⟨h.boarded, h.counted⟩⟩

theorem Consistent.dismiss {e : Engine} (h : Consistent e) {w : Waiting} (hw : w ∈ e.waiting) :
    Consistent (e.dismiss w) :=
  ⟨h.toHoldsSlots.dismiss hw, h.toCountsWaiters.dismiss h.distinct hw⟩

/-- When one of several searches stops waiting, the others still wait. -/
theorem waiting_of_distinct {e : Engine} {w : Waiting} {ws : List Waiting} (hsub : ∀ v ∈ w :: ws, v ∈ e.waiting)
    (hnd : ((w :: ws).map (·.search.generation)).Nodup) : ∀ v ∈ ws, v ∈ (e.dismiss w).waiting := by
  intro v hv
  rw [List.map_cons, List.nodup_cons] at hnd
  have hne : v.search.generation ≠ w.search.generation := fun hg => hnd.1 (hg ▸ List.mem_map_of_mem hv)
  rw [dismiss_eq]
  exact List.mem_filter.2 ⟨hsub v (List.mem_cons_of_mem w hv), decide_eq_true hne⟩

theorem Consistent.foldl_dismiss {e : Engine} (h : Consistent e) {ws : List Waiting} (hsub : ∀ w ∈ ws, w ∈ e.waiting)
    (hnd : (ws.map (·.search.generation)).Nodup) : Consistent (ws.foldl Engine.dismiss e) := by
  induction ws generalizing e with
  | nil => exact h
  | cons w ws ih =>
    have hw := hsub w List.mem_cons_self
    exact ih (h.dismiss hw) (waiting_of_distinct hsub hnd) (List.nodup_cons.1 hnd).2

end RepoSearch.Engine
