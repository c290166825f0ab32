import RepoSearch.Proofs.Engine.Supersession
import RepoSearch.Proofs.Numerals

/-!
# Searches that name no slot

A search that names no slot gets one of its own, named after its generation. Generations are never used twice, so such a
search can meet in its slot only those that have chosen the very same name. If callers keep away from these names it is
private: nobody supersedes it and it supersedes nobody.
-/

namespace RepoSearch.Engine

theorem ownSlot_inj {m n : Nat} (h : ownSlot m = ownSlot n) : m = n := by
  refine Decimal.render_inj (String.toList_inj.1 ?_)
  simpa [ownSlot] using congrArg String.toList h

/-- The name that the caller of a search chooses for its slot. -/
def Step.slotName? : Step → Option String
  | .search _ slot _ => slot
  | _ => none

theorem slot_of_begun {e : Engine} {st : Step} {s : Search} (hs : e.begun st = some s) :
    s.slot = st.slotName?.getD (ownSlot s.generation) := by
  have hg := generation_of_begun hs
  cases st with
  | search caller slot request =>
    rw [begun] at hs
    split at hs
    · cases hs
    · rw [hg, ← Option.some.inj hs]
      rfl
  | _ => cases hs

/-! ### Who meets in a slot -/

/-- A search that waits in a slot of its own loses it to none but a search that names it. -/
theorem takes_ownSlot_iff {e : Engine} (h : HoldsSlots e) {s : Search} (hs : s ∈ e.searches)
    (hown : s.slot = ownSlot s.generation) (st : Step) :
    e.Takes s.slot st ↔ (e.begun st).isSome ∧ st.slotName? = some (ownSlot s.generation) := by
  have hdrawn := h.lt_nextId hs
  constructor
  · rintro ⟨s', hs', hslot⟩
    refine ⟨by rw [hs']; rfl, ?_⟩
    rw [slot_of_begun hs', hown] at hslot
    cases hname : st.slotName? with
    | some name => rw [← hslot, hname, Option.getD_some]
    | none =>
      -- Both would have the same generation, but the new one is yet to be drawn.
      rw [hname, Option.getD_none] at hslot
      have := ownSlot_inj hslot
      have := generation_of_begun hs'
      omega
  · rintro ⟨hsome, hname⟩
    obtain ⟨s', hs'⟩ := Option.isSome_iff_exists.1 hsome
    refine ⟨s', hs', ?_⟩
    rw [slot_of_begun hs', hname, hown, Option.getD_some]

/-! ### Runs -/

/-- An unfinished search has begun in some step, and its slot is the one named there or its own. -/
theorem begun_of_unfinished {setup : Setup} {cache : Cache ResultPage} {steps : List Step} {s : Search}
    (hs : s ∈ (start setup cache).unfinished steps) :
    ∃ st ∈ steps, s.slot = st.slotName?.getD (ownSlot s.generation) := by
  rw [unfinished_eq] at hs
  rcases begun_of_searches (Consistent.start setup cache) (AtRest.start setup cache) hs with
    hnone | ⟨earlier, st, later, rfl, hbegun⟩
  · cases hnone
  · exact ⟨st, by simp, slot_of_begun hbegun⟩

/-- A search that names no slot is superseded exactly when a search begins, while it is unfinished, that names the slot
it was given. When it begins it supersedes exactly the unfinished search that has named that slot beforehand, if there is
one. So it is private where nobody names such a slot. -/
theorem unnamed_superseded_iff (setup : Setup) (cache : Cache ResultPage) (before : List Step) (caller : String)
    (request : SearchRequest) (later : List Step) {s : Search}
    (honest : ∀ reply ∈ setup.replies, reply.outcome ≠ .error .superseded)
    (hbegun : ((start setup cache).run before).2.begun (.search caller none request) = some s) :
    (SupersededIn ((start setup cache).run (before ++ .search caller none request :: later)).1 s ↔
      ∃ earlier st after, before ++ .search caller none request :: later = earlier ++ st :: after ∧
        s ∈ (start setup cache).unfinished earlier ∧ (((start setup cache).run earlier).2.begun st).isSome ∧
        st.slotName? = some (ownSlot s.generation)) ∧
    (∀ s', SupersededIn (((start setup cache).run before).2.step (.search caller none request)).1 s' ↔
      s' ∈ (start setup cache).unfinished before ∧ s'.slot = ownSlot s.generation) ∧
    ((∀ st ∈ before ++ .search caller none request :: later, ∀ g, st.slotName? ≠ some (ownSlot g)) →
      ¬SupersededIn ((start setup cache).run (before ++ .search caller none request :: later)).1 s ∧
      ∀ s', ¬SupersededIn (((start setup cache).run before).2.step (.search caller none request)).1 s') := by
  have hown : s.slot = ownSlot s.generation := slot_of_begun hbegun
  have victim : SupersededIn ((start setup cache).run (before ++ .search caller none request :: later)).1 s ↔
      ∃ earlier st after, before ++ .search caller none request :: later = earlier ++ st :: after ∧
        s ∈ (start setup cache).unfinished earlier ∧ (((start setup cache).run earlier).2.begun st).isSome ∧
        st.slotName? = some (ownSlot s.generation) := by
    rw [supersededIn_run honest]
    refine exists_congr fun earlier => exists_congr fun st => exists_congr fun after => and_congr_right fun _ => ?_
    refine and_congr_right fun hs => takes_ownSlot_iff (run_consistent setup cache earlier).1.toHoldsSlots ?_ hown st
    rwa [← unfinished_eq]
  have thief : ∀ s', SupersededIn (((start setup cache).run before).2.step (.search caller none request)).1 s' ↔
      s' ∈ (start setup cache).unfinished before ∧ s'.slot = ownSlot s.generation := by
    intro s'
    rw [supersededIn_step_of_run honest, Displaces, ← hown]
    refine and_congr_right fun _ => ⟨?_, fun hslot => ⟨s, hbegun, hslot.symm⟩⟩
    rintro ⟨s'', hs'', hslot⟩
    rw [← hslot, Option.some.inj (hbegun.symm.trans hs'')]
  refine ⟨victim, thief, fun unnamed => ⟨?_, fun s' => ?_⟩⟩
  · rw [victim]
    rintro ⟨earlier, st, after, hsteps, -, -, hname⟩
    exact unnamed st (by rw [hsteps]; simp) _ hname
  · rw [thief]
    rintro ⟨hs', hslot⟩
    obtain ⟨st, hst, hslot'⟩ := begun_of_unfinished hs'
    rw [hslot'] at hslot
    cases hname : st.slotName? with
    | some name =>
      rw [hname, Option.getD_some] at hslot
      exact unnamed st (List.mem_append_left _ hst) _ (hname.trans (congrArg some hslot))
    | none =>
      -- Then both are in slots of their own, though one is older than the other.
      rw [hname, Option.getD_none] at hslot
      have hg := ownSlot_inj hslot
      rw [unfinished_eq] at hs'
      have := (run_consistent setup cache before).1.lt_nextId hs'
      have := generation_of_begun hbegun
      omega

/-- Among searches in other slots a search that names none is left in peace and leaves the others in peace. -/
theorem unnamed_search_undisturbed :
    let e := start ⟨{}, .ofSecs 1, [⟨.ofMillis 5, .ok ⟨0, [], ⟨none, none⟩⟩⟩], ⟨0⟩⟩ (.empty (.ofSecs 60) 4)
    let first : Step := .search "first" (some "box") { q := some "rust" }
    let second : Step := .search "second" none { q := some "lean" }
    let third : Step := .search "third" (some "box") { q := some "lean" }
    let s : Search := ⟨"second", "#2", 2, ⟨"lean", 1, 10, .stars, [], none⟩⟩
    (∀ reply ∈ e.setup.replies, reply.outcome ≠ .error .superseded) ∧
    (e.run [first]).2.begun second = some s ∧
    ¬SupersededIn (e.run [first, second, third]).1 s ∧ ∀ s', ¬SupersededIn ((e.run [first]).2.step second).1 s' := by
  intro e first second third s
  have honest : ∀ reply ∈ e.setup.replies, reply.outcome ≠ .error .superseded := by simp [e, start]
  have hbegun : (e.run [first]).2.begun second = some s := by decide +kernel
  have unnamed : ∀ st ∈ [first, second, third], ∀ g, st.slotName? ≠ some (ownSlot g) := by
    have box : ∀ g, some "box" ≠ some (ownSlot g) := fun g h => by
      have := congrArg String.toList (Option.some.inj h)
      simp [ownSlot] at this
    simpa [first, second, third, Step.slotName?] using box
  exact ⟨honest, hbegun, (unnamed_superseded_iff _ _ [first] "second" _ [third] honest hbegun).2.2 unnamed⟩

/-- Names that look like the slots of unnamed searches break in on them: the first of two searches names no slot and is
superseded by one that names `#0`, and one that has named `#2` is superseded by the next to begin, which names none. -/
theorem unnamed_search_not_private :
    let e := start ⟨{}, .ofSecs 1, [⟨.ofMillis 5, .ok ⟨0, [], ⟨none, none⟩⟩⟩], ⟨0⟩⟩ (.empty (.ofSecs 60) 4)
    let unnamed : Step := .search "unnamed" none { q := some "rust" }
    (∀ reply ∈ e.setup.replies, reply.outcome ≠ .error .superseded) ∧
    SupersededIn (e.run [unnamed, .search "thief" (some "#0") { q := some "lean" }]).1
      ⟨"unnamed", "#0", 0, ⟨"rust", 1, 10, .stars, [], none⟩⟩ ∧
    SupersededIn ((e.run [.search "named" (some "#2") { q := some "lean" }]).2.step unnamed).1
      ⟨"named", "#2", 0, ⟨"lean", 1, 10, .stars, [], none⟩⟩ := by
  intro e unnamed
  have honest : ∀ reply ∈ e.setup.replies, reply.outcome ≠ .error .superseded := by simp [e, start]
  refine ⟨honest, (supersededIn_run honest _ _).2 ⟨[unnamed], _, [], rfl, by decide +kernel, ?_⟩,
    (supersededIn_step_of_run honest [_] unnamed _).2 ⟨by decide +kernel, ?_⟩⟩
  · exact ⟨⟨"thief", "#0", 2, ⟨"lean", 1, 10, .stars, [], none⟩⟩, by decide +kernel, rfl⟩
  · exact ⟨⟨"unnamed", "#2", 2, ⟨"rust", 1, 10, .stars, [], none⟩⟩, by decide +kernel, rfl⟩

end RepoSearch.Engine
