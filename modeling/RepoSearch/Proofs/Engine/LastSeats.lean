import RepoSearch.Proofs.Engine.Seats
import RepoSearch.Proofs.Engine.Undisturbed

/-!
# The last seat on a flight

A flight counts the seats for its key and its fetch. A search that leaves finds the flight of its key there, for the
fetch that it has a seat for, and itself among those counted; so a flight goes with its last seat and not before. This
holds between all actions of the searches, and so in the middle of the steps of the engine as well as between them.
-/

namespace RepoSearch

namespace Engine

open Interleaving

variable {setup : Setup} {ttl : Duration} {capacity : Nat}

/-- A step of the engine consists of moves, or else it is a command to the cache. -/
theorem reachable_step {e : Engine} (h : Consistent e) (rest : AtRest e)
    (reachable : Reachable setup ttl capacity e.mirror) (st : Step) :
    Reachable setup ttl capacity (e.step st).2.mirror := by
  have moves : st.Ordinary → Reachable setup ttl capacity (e.step st).2.mirror := by
    intro ordinary
    obtain ⟨moves, hmoves⟩ := reaches_step h rest ordinary
    have reached := reachable.run moves
    rwa [hmoves] at reached
  cases st with
  | clear => exact reachable.command .clear
  | seed criteria age totalCount =>
    exact reachable.command (.set criteria.cacheKey ⟨totalCount, []⟩ (e.setup.clock.before age))
  | _ => exact moves trivial

/-- The engine's runs pass through reachable states only, also where the cache is cleared or filled by hand. -/
theorem reachable_run (setup : Setup) (ttl : Duration) (capacity : Nat) (steps : List Step) :
    Reachable setup ttl capacity ((start setup (.empty ttl capacity)).run steps).2.mirror := by
  have reached := run_induction
    (P := fun e => Consistent e ∧ AtRest e ∧ Reachable setup ttl capacity e.mirror)
    ⟨.start setup (.empty ttl capacity), .start setup _, .start⟩
    (fun e st h => ⟨h.1.step h.2.1 st, h.2.1.step h.1 st, reachable_step h.1 h.2.1 h.2.2 st⟩) steps
  exact reached.2.2

end Engine

namespace Interleaving

open Engine

variable {i : Interleaving} {setup : Setup} {ttl : Duration} {capacity : Nat}

/-- The number of seats for a key and a fetch. -/
def seatsFor (i : Interleaving) (key : String) (fetch : Nat) : Nat :=
  (i.seats.filter fun _ s => s.key = key ∧ s.fetch.id = fetch).size

/-- All seats for the key of a flight are for its fetch. -/
theorem Booked.seatsFor_eq (h : i.Booked) {key : String} {f : Flight} (hf : i.engine.flights[key]? = some f) :
    i.seatsFor key f.fetch.id = seatCount i.seats key := by
  have same : (i.seats.filter fun _ s => s.key = key ∧ s.fetch.id = f.fetch.id) =
      i.seats.filter fun _ s => s.key = key := by
    apply Std.ExtTreeMap.ext_getElem?
    intro g
    rw [Std.ExtTreeMap.getElem?_filter', Std.ExtTreeMap.getElem?_filter']
    cases hs : i.seats[g]? with
    | none => rfl
    | some s =>
      obtain ⟨f', hf', hfetch⟩ := h.seated.boarded hs
      have hid : s.key = key → s.fetch.id = f.fetch.id := by
        rintro rfl
        rw [← hfetch, Option.some.inj (hf'.symm.trans hf)]
      rw [Option.filter_some, Option.filter_some]
      simp only [and_iff_left_of_imp hid]
  rw [seatsFor, same, seatCount]

theorem Booked.counted (h : i.Booked) {key : String} {f : Flight} (hf : i.engine.flights[key]? = some f) :
    f.waiters = i.seatsFor key f.fetch.id ∧ 1 ≤ f.waiters := by
  rw [h.seatsFor_eq hf]
  exact h.seated.counted hf

/-- A search that gives up its seat leaves the flight of its key, which is there and counts the search. -/
theorem Booked.leave_of_givenUp (h : i.Booked) {m : Move} {s : Seat} (hs : i.givenUp? m = some s) :
    (∃ g, i.seats[g]? = some s ∧ (i.perform m).2.seats = i.seats.erase g) ∧
    (i.perform m).2.engine.flights = (i.engine.leave s.key s.fetch.id).flights ∧
    ∃ f, i.engine.flights[s.key]? = some f ∧ f.fetch.id = s.fetch.id ∧ 1 ≤ f.waiters := by
  rcases h.seats_perform m with ⟨-, -, hnone, -⟩ | ⟨g, s', hs', hseat, hflights, hseats⟩ | ⟨hnone, -⟩
  · cases hs.symm.trans hnone
  · obtain rfl := Option.some.inj (hs.symm.trans hs')
    obtain ⟨f, hf, hfetch⟩ := h.seated.boarded hseat
    exact ⟨⟨g, hseat, hseats⟩, hflights, f, hf, congrArg Fetch.id hfetch, (h.counted hf).2⟩
  · cases hs.symm.trans hnone

/-- A flight stays for its fetch in a move in which nobody leaves. -/
theorem Booked.stays (h : i.Booked) {m : Move} (hm : i.givenUp? m = none) {key : String} {f : Flight}
    (hf : i.engine.flights[key]? = some f) :
    ∃ f', (i.perform m).2.engine.flights[key]? = some f' ∧ f'.fetch = f.fetch := by
  rcases h.seats_perform m with ⟨-, criteria, -, -, hflights, -⟩ | ⟨-, s, hs, -⟩ | ⟨-, hflights, -⟩
  · rw [hflights, join_flights, Std.ExtTreeMap.getElem?_insert]
    simp only [Std.LawfulEqCmp.compare_eq_iff_eq]
    split_ifs with hkey
    · exact ⟨_, rfl, join_fetch (hkey ▸ hf)⟩
    · exact ⟨f, hf, rfl⟩
  · cases hs.symm.trans hm
  · exact ⟨f, hflights ▸ hf, rfl⟩

/-- A flight goes in a move exactly when its last seat is given up. Otherwise it stays for its fetch. -/
theorem Booked.flight_perform (h : i.Booked) (m : Move) {key : String} {f : Flight}
    (hf : i.engine.flights[key]? = some f) :
    ((i.perform m).2.engine.flights[key]? = none ↔ ∃ s, i.givenUp? m = some s ∧ s.key = key ∧
      s.fetch.id = f.fetch.id ∧ i.seatsFor key f.fetch.id = 1) ∧
    ∀ f', (i.perform m).2.engine.flights[key]? = some f' → f'.fetch = f.fetch := by
  obtain ⟨hcount, hpos⟩ := h.counted hf
  cases hm : i.givenUp? m with
  | none =>
    obtain ⟨f', hf', hfetch⟩ := h.stays hm hf
    rw [hf']
    exact ⟨by simp, fun f'' hf'' => Option.some.inj hf'' ▸ hfetch⟩
  | some s =>
    obtain ⟨-, hflights, f₁, hf₁, hid, -⟩ := h.leave_of_givenUp hm
    rw [hflights, getElem?_leave_of_flight hf₁ hid, ← hcount]
    by_cases hkey : s.key = key
    · -- The flight that the search leaves is the one in question.
      subst hkey
      obtain rfl := Option.some.inj (hf₁.symm.trans hf)
      have hlast : f₁.waiters - 1 = 0 ↔ f₁.waiters = 1 := by omega
      rw [if_pos rfl]
      split_ifs with hone
      · exact ⟨⟨fun _ => ⟨s, rfl, rfl, hid.symm, hlast.1 hone⟩, fun _ => rfl⟩, nofun⟩
      · refine ⟨⟨nofun, ?_⟩, fun f' hf' => by rw [← Option.some.inj hf']⟩
        rintro ⟨-, -, -, -, hone'⟩
        exact absurd (hlast.2 hone') hone
    · rw [if_neg hkey, hf]
      refine ⟨⟨nofun, ?_⟩, fun f' hf' => by rw [← Option.some.inj hf']⟩
      rintro ⟨s', hs', hkey', -⟩
      exact absurd (Option.some.inj hs' ▸ hkey') hkey

/-- In every reachable state each flight counts the seats for its key and its fetch, of which there is one at least, and
the key of every seat has the flight of that seat's fetch. A search that leaves in a move gives up its seat, and finds
the flight of its key there, for its own fetch, with a waiter to take away. So a flight goes in a move exactly when its
last seat is given up, and none takes the place of another. -/
theorem flights_count_seats (h : Reachable setup ttl capacity i) :
    (∀ key f, i.engine.flights[key]? = some f → f.waiters = i.seatsFor key f.fetch.id ∧ 1 ≤ f.waiters) ∧
    (∀ (g : Nat) s, i.seats[g]? = some s → ∃ f, i.engine.flights[s.key]? = some f ∧ f.fetch.id = s.fetch.id) ∧
    ∀ m,
      (∀ s, i.givenUp? m = some s →
        (∃ g, i.seats[g]? = some s ∧ (i.perform m).2.seats = i.seats.erase g) ∧
        (i.perform m).2.engine.flights = (i.engine.leave s.key s.fetch.id).flights ∧
        ∃ f, i.engine.flights[s.key]? = some f ∧ f.fetch.id = s.fetch.id ∧ 1 ≤ f.waiters) ∧
      ∀ key f, i.engine.flights[key]? = some f →
        ((i.perform m).2.engine.flights[key]? = none ↔ ∃ s, i.givenUp? m = some s ∧ s.key = key ∧
          s.fetch.id = f.fetch.id ∧ i.seatsFor key f.fetch.id = 1) ∧
        ∀ f', (i.perform m).2.engine.flights[key]? = some f' → f'.fetch = f.fetch := by
  have booked := h.booked
  refine ⟨fun key f hf => booked.counted hf, ?_, fun m => ⟨fun s hs => booked.leave_of_givenUp hs, ?_⟩⟩
  · intro g s hs
    obtain ⟨f, hf, hfetch⟩ := booked.seated.boarded hs
    exact ⟨f, hf, congrArg Fetch.id hfetch⟩
  · exact fun key f hf => booked.flight_perform m hf

/-- Two searches share a flight. The second loses its slot to a third and leaves while the step of the third is under
way: the flight stays for the first, and goes when that one has kept its page and leaves. -/
theorem shared_flight_goes_with_first :
    let setup : Setup := ⟨{}, .ofSecs 1, [⟨.ofMillis 5, .ok ⟨7, [], ⟨none, none⟩⟩⟩], ⟨0⟩⟩
    let rust : Criteria := ⟨"rust", 1, 10, .stars, [], none⟩
    let lean : Criteria := ⟨"lean", 1, 10, .stars, [], none⟩
    let shared := ((Engine.start setup (.empty (.ofSecs 60) 4)).run
      [.search "first" none { q := some "rust" }, .search "second" (some "tab") { q := some "rust" }]).2.mirror
    let i := (shared.run [.enter "third" (some "tab") lean, .act 2]).2
    let j := (i.run [.act 2, .pass 5, .act 0, .act 0, .act 0]).2
    Reachable setup (.ofSecs 60) 4 i ∧ Reachable setup (.ofSecs 60) 4 j ∧
    (∃ f, i.engine.flights[rust.cacheKey]? = some f ∧ f.waiters = 2) ∧
    (∃ s, i.givenUp? (.act 2) = some s ∧ (i.perform (.act 2)).2.engine.flights[rust.cacheKey]? ≠ none) ∧
    (∃ f, j.engine.flights[rust.cacheKey]? = some f ∧ f.waiters = 1) ∧
    ∃ s, j.givenUp? (.act 0) = some s ∧ (j.perform (.act 0)).2.engine.flights[rust.cacheKey]? = none := by
  intro setup rust lean shared i j
  have reachable : Reachable setup (.ofSecs 60) 4 i := (reachable_run setup (.ofSecs 60) 4 _).run _
  have reachable' : Reachable setup (.ofSecs 60) 4 j := reachable.run _
  obtain ⟨counts, -, moves⟩ := flights_count_seats reachable
  obtain ⟨counts', -, moves'⟩ := flights_count_seats reachable'
  obtain ⟨f, hf, hid⟩ : ∃ f, i.engine.flights[rust.cacheKey]? = some f ∧ f.fetch.id = 1 :=
    Option.map_eq_some_iff.1 (by decide +kernel)
  obtain ⟨f', hf', hid'⟩ : ∃ f, j.engine.flights[rust.cacheKey]? = some f ∧ f.fetch.id = 1 :=
    Option.map_eq_some_iff.1 (by decide +kernel)
  have two : i.seatsFor rust.cacheKey f.fetch.id = 2 := by
    rw [hid]
    decide +kernel
  have one : j.seatsFor rust.cacheKey f'.fetch.id = 1 := by
    rw [hid']
    decide +kernel
  obtain ⟨s, hs⟩ : ∃ s, i.givenUp? (.act 2) = some s := Option.isSome_iff_exists.1 (by decide +kernel)
  obtain ⟨s', hs', hseat⟩ : ∃ s, j.givenUp? (.act 0) = some s ∧ (s.key, s.fetch.id) = (rust.cacheKey, 1) :=
    Option.map_eq_some_iff.1 (by decide +kernel)
  have stays : (i.perform (.act 2)).2.engine.flights[rust.cacheKey]? ≠ none := by
    intro hgone
    obtain ⟨-, -, -, -, hone⟩ := ((moves (.act 2)).2 _ f hf).1.1 hgone
    rw [two] at hone
    cases hone
  have gone : (j.perform (.act 0)).2.engine.flights[rust.cacheKey]? = none := by
    obtain ⟨hkey, hfetch⟩ := Prod.ext_iff.1 hseat
    exact ((moves' (.act 0)).2 _ f' hf').1.2 ⟨s', hs', hkey, hfetch.trans hid'.symm, one⟩
  exact ⟨reachable, reachable', ⟨f, hf, (counts _ f hf).1.trans two⟩, ⟨s, hs, stays⟩,
    ⟨f', hf', (counts' _ f' hf').1.trans one⟩, s', hs', gone⟩

end Interleaving

end RepoSearch
