import RepoSearch.Proofs.CacheQueue
import RepoSearch.Proofs.Engine.SingleFlight

/-!
# Seats on flights

A search that has joined a flight has a seat on it until it leaves. Every seat is on the flight of its key and for that
flight's fetch, and every flight counts the seats on it. This holds after each single action, in whatever order the
searches take theirs, and whatever is done to the cache meanwhile.
-/

namespace RepoSearch

namespace Engine

/-- A search's place on the flight of a key, where it waits for a fetch. -/
structure Seat where
  key : String
  fetch : Fetch

/-- The seat of a search: it has one from when it joins a flight until it leaves. -/
def Progress.seat? (p : Progress) : Option Seat :=
  match p.stage with
  | .waiting fetch | .handed fetch _ | .cleared fetch _ | .leaving fetch _ => some ⟨p.key, fetch⟩
  | .claimed | .missed | .parting _ _ => none

/-- The seat that a search gives up in its next action, if it leaves its flight then. -/
def Progress.givenUp? (p : Progress) : Option Seat :=
  match p.stage with
  | .leaving fetch _ => some ⟨p.key, fetch⟩
  | _ => none

/-- The number of seats for a key. -/
def seatCount (seats : Std.ExtTreeMap Nat Seat compare) (key : String) : Nat :=
  (seats.filter fun _ s => s.key = key).size

theorem seatCount_insert {seats : Std.ExtTreeMap Nat Seat compare} {g : Nat} (hg : seats[g]? = none) (s : Seat)
    (key : String) : seatCount (seats.insert g s) key = seatCount seats key + if s.key = key then 1 else 0 := by
  have hnone : (seats.filter fun _ s => s.key = key)[g]? = none := by
    rw [Std.ExtTreeMap.getElem?_filter', hg]
    rfl
  have hcontains : ¬(seats.filter fun _ s => s.key = key).contains g = true := by
    rw [Std.ExtTreeMap.contains_eq_isSome_getElem?, hnone]
    exact Bool.false_ne_true
  have hinsert : (seats.insert g s).filter (fun _ s => s.key = key) =
      if s.key = key then (seats.filter fun _ s => s.key = key).insert g s
      else seats.filter fun _ s => s.key = key := by
    apply Std.ExtTreeMap.ext_getElem?
    intro k
    rw [Std.ExtTreeMap.getElem?_filter', Std.ExtTreeMap.getElem?_insert]
    by_cases hk : g = k
    · subst hk
      split_ifs with hkey <;> simp_all [Option.filter]
    · split_ifs <;> simp_all [Std.ExtTreeMap.getElem?_insert]
  rw [seatCount, seatCount, hinsert]
  split_ifs
  · rw [Std.ExtTreeMap.size_insert, if_neg hcontains]
  · rfl

theorem seatCount_erase {seats : Std.ExtTreeMap Nat Seat compare} {g : Nat} {s : Seat} (hs : seats[g]? = some s)
    (key : String) : seatCount seats key = seatCount (seats.erase g) key + if s.key = key then 1 else 0 := by
  have hrestored : (seats.erase g).insert g s = seats := by
    apply Std.ExtTreeMap.ext_getElem?
    intro k
    rw [Std.ExtTreeMap.getElem?_insert, Std.ExtTreeMap.getElem?_erase]
    by_cases hk : g = k
    · subst hk
      simp [hs]
    · simp [hk]
  have hgone : (seats.erase g)[g]? = none := by simp
  rw [← seatCount_insert hgone, hrestored]

/-- Every seat is on the flight of its key and for that flight's fetch, and every flight counts its seats. -/
structure CountsSeats (flights : Table Flight) (seats : Std.ExtTreeMap Nat Seat compare) : Prop where
  boarded : ∀ {g : Nat} {s : Seat}, seats[g]? = some s → ∃ f, flights[s.key]? = some f ∧ f.fetch = s.fetch
  counted : ∀ {key : String} {f : Flight}, flights[key]? = some f → f.waiters = seatCount seats key ∧ 0 < f.waiters

/-- Seats for one key are for one fetch. -/
theorem CountsSeats.fetch_eq {flights : Table Flight} {seats : Std.ExtTreeMap Nat Seat compare}
    (h : CountsSeats flights seats) {g g' : Nat} {s s' : Seat} (hs : seats[g]? = some s) (hs' : seats[g']? = some s')
    (hkey : s.key = s'.key) : s.fetch = s'.fetch := by
  obtain ⟨f, hf, hfetch⟩ := h.boarded hs
  obtain ⟨f', hf', hfetch'⟩ := h.boarded hs'
  rw [hkey, hf'] at hf
  rw [← hfetch, ← hfetch', Option.some.inj hf]

theorem join_flights (e : Engine) (criteria : Criteria) : (e.join criteria).2.flights =
    e.flights.insert criteria.cacheKey
      ⟨(e.join criteria).1, (e.flights[criteria.cacheKey]?.elim 0 (·.waiters)) + 1⟩ := by
  unfold join
  dsimp only
  cases e.flights[criteria.cacheKey]? <;> rfl

theorem join_fetch {e : Engine} {criteria : Criteria} {f : Flight} (hf : e.flights[criteria.cacheKey]? = some f) :
    (e.join criteria).1 = f.fetch := by
  unfold join
  dsimp only
  rw [hf]

/-- A search that joins a flight, or begins one, takes a seat on it. -/
theorem CountsSeats.join {e : Engine} {seats : Std.ExtTreeMap Nat Seat compare} (h : CountsSeats e.flights seats)
    {g : Nat} (hg : seats[g]? = none) (criteria : Criteria) :
    CountsSeats (e.join criteria).2.flights (seats.insert g ⟨criteria.cacheKey, (e.join criteria).1⟩) := by
  have flights : ∀ key, (e.join criteria).2.flights[key]? = if criteria.cacheKey = key
      then some ⟨(e.join criteria).1, (e.flights[criteria.cacheKey]?.elim 0 (·.waiters)) + 1⟩
      else e.flights[key]? := by
    intro key
    rw [join_flights, Std.ExtTreeMap.getElem?_insert]
    simp only [Std.LawfulEqCmp.compare_eq_iff_eq]
  constructor
  · intro k s hs
    rw [Std.ExtTreeMap.getElem?_insert] at hs
    rw [flights]
    split_ifs at hs with hk
    · rw [← Option.some.inj hs, if_pos rfl]
      exact ⟨_, rfl, rfl⟩
    · obtain ⟨f, hf, hfetch⟩ := h.boarded hs
      split_ifs with hkey
      · exact ⟨_, rfl, (join_fetch (hkey ▸ hf)).trans hfetch⟩
      · exact ⟨f, hf, hfetch⟩
  · intro key f hf
    rw [flights] at hf
    rw [seatCount_insert hg]
    split_ifs at hf with hkey
    · subst hkey
      rw [← Option.some.inj hf, if_pos rfl]
      refine ⟨?_, Nat.succ_pos _⟩
      cases hflight : e.flights[criteria.cacheKey]? with
      | some f' =>
        dsimp only [Option.elim_some]
        rw [(h.counted hflight).1]
      | none =>
        -- Nobody has a seat where there is no flight.
        have hempty : seats.filter (fun _ s => s.key = criteria.cacheKey) = ∅ := by
          apply Std.ExtTreeMap.ext_getElem?
          intro k
          rw [Std.ExtTreeMap.getElem?_filter', Std.ExtTreeMap.getElem?_empty, Option.filter_eq_none_iff]
          intro s hs hkey
          obtain ⟨f', hf', -⟩ := h.boarded hs
          rw [of_decide_eq_true hkey, hflight] at hf'
          cases hf'
        rw [seatCount, hempty]
        rfl
    · rw [if_neg hkey]
      exact h.counted hf

/-- A search that leaves a flight gives up its seat; the flight goes with the last seat. -/
theorem CountsSeats.leave {e : Engine} {seats : Std.ExtTreeMap Nat Seat compare} (h : CountsSeats e.flights seats)
    {g : Nat} {s : Seat} (hs : seats[g]? = some s) :
    CountsSeats (e.leave s.key s.fetch.id).flights (seats.erase g) := by
  obtain ⟨f, hf, hfetch⟩ := h.boarded hs
  obtain ⟨hcount, hpos⟩ := h.counted hf
  have flights := getElem?_leave_of_flight hf (congrArg Fetch.id hfetch)
  constructor
  · intro k s' hs'
    have hseat : seats[k]? = some s' := by
      rw [Std.ExtTreeMap.getElem?_erase] at hs'
      split_ifs at hs'
      exact hs'
    obtain ⟨f', hf', hfetch'⟩ := h.boarded hseat
    rw [flights]
    split_ifs with hkey hlast
    -- The other seat is for the same key, so the flight has counted both.
    · have hboth := seatCount_erase hs s.key
      have hother := seatCount_erase hs' s.key
      simp only [if_true, ← hkey] at hboth hother
      omega
    · rw [← hkey, hf] at hf'
      obtain rfl := Option.some.inj hf'
      exact ⟨_, rfl, hfetch'⟩
    · exact ⟨f', hf', hfetch'⟩
  · intro key f' hf'
    have hseats := seatCount_erase hs key
    rw [flights] at hf'
    split_ifs at hf' with hkey hlast
    · obtain rfl := Option.some.inj hf'
      subst hkey
      rw [if_pos rfl] at hseats
      dsimp only
      omega
    · rw [if_neg hkey] at hseats
      rw [← Nat.add_zero (seatCount (seats.erase g) key), ← hseats]
      exact h.counted hf'

/-- A search takes a seat when it joins a flight and gives it up when it leaves; no other action touches the seats or
the flights. -/
theorem act_seats (e : Engine) (p : Progress) :
    (p.stage = .missed ∧
      e.act p = (some (.waiting (e.join p.search.criteria).1), (e.join p.search.criteria).2)) ∨
    (∃ fetch result, p.stage = .leaving fetch result ∧
      e.act p = (some (.parting (some fetch.id) result), e.leave p.key fetch.id)) ∨
    (p.givenUp? = none ∧ (e.act p).1.bind (fun stage => { p with stage }.seat?) = p.seat? ∧
      (e.act p).2.flights = e.flights) := by
  obtain ⟨s, superseded, stage⟩ := p
  cases stage with
  | missed => exact .inl ⟨rfl, rfl⟩
  | leaving fetch result => exact .inr (.inl ⟨fetch, result, rfl, rfl⟩)
  | claimed =>
    refine .inr (.inr ⟨rfl, ?_⟩)
    simp only [act, lookUp_eq, moved]
    cases (e.cache.get _ e.setup.clock).1 <;> exact ⟨rfl, rfl⟩
  | waiting fetch =>
    refine .inr (.inr ⟨rfl, ?_, rfl⟩)
    simp only [act, Progress.woken]
    split_ifs <;> rfl
  | handed fetch outcome =>
    refine .inr (.inr ⟨rfl, ?_, rfl⟩)
    cases outcome with
    | error fault => rfl
    | ok f => cases superseded <;> rfl
  | cleared fetch f => exact .inr (.inr ⟨rfl, rfl, rfl⟩)
  | parting fetch result =>
    refine .inr (.inr ⟨rfl, rfl, ?_⟩)
    show (e.release s).flights = e.flights
    rw [release_eq]

theorem nextId_act (e : Engine) (p : Progress) : e.nextId ≤ (e.act p).2.nextId := by
  obtain ⟨s, superseded, stage⟩ := p
  cases stage with
  | claimed =>
    simp only [act, lookUp_eq]
    cases (e.cache.get _ e.setup.clock).1 <;> exact Nat.le_refl _
  | missed =>
    simp only [act, join]
    cases e.flights[s.criteria.cacheKey]? with
    | some f => exact Nat.le_refl _
    | none => exact Nat.le_succ _
  | leaving fetch result =>
    have hleave : (e.leave s.criteria.cacheKey fetch.id).nextId = e.nextId := by rw [leave_eq]
    exact Nat.le_of_eq hleave.symm
  | parting fetch result =>
    have hrelease : (e.release s).nextId = e.nextId := by rw [release_eq]
    exact Nat.le_of_eq hrelease.symm
  | _ => exact Nat.le_refl _

end Engine

namespace Interleaving

open Engine

variable {i : Interleaving}

theorem perform_act_of_none {g : Nat} (hg : i.underway[g]? = none) : i.perform (.act g) = ([], i) := by
  rw [perform, hg]

/-- The seats of the searches under way. -/
def seats (i : Interleaving) : Std.ExtTreeMap Nat Seat compare := i.underway.filterMap fun _ p => p.seat?

theorem getElem?_seats (i : Interleaving) (g : Nat) : i.seats[g]? = i.underway[g]?.bind Progress.seat? :=
  Std.ExtTreeMap.getElem?_filterMap'

/-- The searches under way have drawn their generations, and the flights count their seats. -/
structure Booked (i : Interleaving) : Prop where
  drawn : ∀ {g : Nat} {p : Progress}, i.underway[g]? = some p → g < i.engine.nextId
  seated : CountsSeats i.engine.flights i.seats

theorem nextId_perform (i : Interleaving) (m : Move) : i.engine.nextId ≤ (i.perform m).2.engine.nextId := by
  cases m with
  | enter caller slot criteria =>
    simp only [perform, enter]
    rw [claim_snd]
    exact Nat.le_succ i.engine.nextId
  | act g =>
    cases hp : i.underway[g]? with
    | none => exact Nat.le_of_eq (by rw [perform_act_of_none hp])
    | some p =>
      rw [perform_act hp]
      exact nextId_act i.engine p
  | abandon g =>
    simp only [perform]
    split <;> exact Nat.le_refl _
  | pass millis => exact Nat.le_refl _

/-- A search that begins has no seat yet. -/
theorem Booked.seats_enter (h : i.Booked) (caller : String) (slot : Option String) (criteria : Criteria) :
    (i.perform (.enter caller slot criteria)).2.seats = i.seats := by
  apply Std.ExtTreeMap.ext_getElem?
  intro k
  simp only [getElem?_seats, perform, enter, Std.ExtTreeMap.getElem?_insert, getElem?_displace]
  split_ifs with hk
  · -- Its number is new, so nobody had a seat under it.
    cases hp : i.underway[k]? with
    | none => rfl
    | some p =>
      have hlt := h.drawn hp
      rw [← Std.LawfulEqCmp.compare_eq_iff_eq.1 hk] at hlt
      exact absurd hlt (Nat.lt_irrefl _)
  · cases i.underway[k]? <;> rfl
  · rfl

theorem getElem?_seats_act {g : Nat} {p : Progress} (hp : i.underway[g]? = some p) (k : Nat) :
    (i.perform (.act g)).2.seats[k]? =
      if g = k then (i.engine.act p).1.bind (fun stage => { p with stage }.seat?) else i.seats[k]? := by
  rw [getElem?_seats, getElem?_seats, perform_act hp, getElem?_record]
  split_ifs
  · rw [Option.bind_map]
    rfl
  · rfl

/-- A search keeps its seat, or has none still, when its caller goes away. -/
theorem seats_abandon (i : Interleaving) (g : Nat) :
    (i.perform (.abandon g)).2.engine = i.engine ∧ (i.perform (.abandon g)).2.seats = i.seats := by
  cases hp : i.underway[g]? with
  | none =>
    have hperform : i.perform (.abandon g) = ([], i) := by rw [perform, hp]
    rw [hperform]
    exact ⟨rfl, rfl⟩
  | some p =>
    have hperform : i.perform (.abandon g) = ([], { i with underway := i.record g p (some p.abandoned) }) := by
      rw [perform, hp]
    rw [hperform]
    refine ⟨rfl, ?_⟩
    apply Std.ExtTreeMap.ext_getElem?
    intro k
    rw [getElem?_seats, getElem?_seats, getElem?_record]
    split_ifs with hk
    · rw [← hk, hp]
      obtain ⟨s, superseded, stage⟩ := p
      cases stage <;> rfl
    · rfl

/-- The seat that a search gives up in a move. -/
def givenUp? (i : Interleaving) : Move → Option Seat
  | .act g => i.underway[g]?.bind Progress.givenUp?
  | _ => none

/-- In a move at most one search takes a seat, by joining a flight, or gives one up, by leaving it. -/
theorem Booked.seats_perform (h : i.Booked) (m : Move) :
    (∃ g criteria, i.givenUp? m = none ∧ i.seats[g]? = none ∧
      (i.perform m).2.engine.flights = (i.engine.join criteria).2.flights ∧
      (i.perform m).2.seats = i.seats.insert g ⟨criteria.cacheKey, (i.engine.join criteria).1⟩) ∨
    (∃ g s, i.givenUp? m = some s ∧ i.seats[g]? = some s ∧
      (i.perform m).2.engine.flights = (i.engine.leave s.key s.fetch.id).flights ∧
      (i.perform m).2.seats = i.seats.erase g) ∨
    (i.givenUp? m = none ∧ (i.perform m).2.engine.flights = i.engine.flights ∧ (i.perform m).2.seats = i.seats) := by
  cases m with
  | enter caller slot criteria =>
    have hflights : (i.perform (.enter caller slot criteria)).2.engine.flights = i.engine.flights := by
      simp only [perform, enter]
      rw [claim_snd]
    exact .inr (.inr ⟨rfl, hflights, h.seats_enter caller slot criteria⟩)
  | act g =>
    cases hp : i.underway[g]? with
    | none =>
      rw [perform_act_of_none hp]
      exact .inr (.inr ⟨by rw [givenUp?, hp, Option.bind_none], rfl, rfl⟩)
    | some p =>
      have givenUp : i.givenUp? (.act g) = p.givenUp? := by rw [givenUp?, hp, Option.bind_some]
      have seat : i.seats[g]? = p.seat? := by rw [getElem?_seats, hp, Option.bind_some]
      have flights : (i.perform (.act g)).2.engine.flights = (i.engine.act p).2.flights := by rw [perform_act hp]
      rcases act_seats i.engine p with ⟨hstage, hact⟩ | ⟨fetch, result, hstage, hact⟩ | ⟨hnone, hseat, hflights⟩
      · refine .inl ⟨g, p.search.criteria, by rw [givenUp, Progress.givenUp?, hstage],
          by rw [seat, Progress.seat?, hstage], by rw [flights, hact], ?_⟩
        apply Std.ExtTreeMap.ext_getElem?
        intro k
        rw [getElem?_seats_act hp, hact, Std.ExtTreeMap.getElem?_insert]
        simp only [Std.LawfulEqCmp.compare_eq_iff_eq]
        rfl
      · refine .inr (.inl ⟨g, ⟨p.key, fetch⟩, by rw [givenUp, Progress.givenUp?, hstage],
          by rw [seat, Progress.seat?, hstage], by rw [flights, hact], ?_⟩)
        apply Std.ExtTreeMap.ext_getElem?
        intro k
        rw [getElem?_seats_act hp, hact, Std.ExtTreeMap.getElem?_erase]
        simp only [Std.LawfulEqCmp.compare_eq_iff_eq]
        rfl
      · refine .inr (.inr ⟨givenUp.trans hnone, flights.trans hflights, ?_⟩)
        apply Std.ExtTreeMap.ext_getElem?
        intro k
        rw [getElem?_seats_act hp, hseat]
        split_ifs with hk
        · rw [← hk, seat]
        · rfl
  | abandon g =>
    obtain ⟨hengine, hseats⟩ := i.seats_abandon g
    exact .inr (.inr ⟨rfl, congrArg Engine.flights hengine, hseats⟩)
  | pass millis => exact .inr (.inr ⟨rfl, rfl, rfl⟩)

theorem Booked.perform (h : i.Booked) (m : Move) : (i.perform m).2.Booked := by
  constructor
  · intro g p hp
    rcases underway_perform hp with ⟨caller, slot, criteria, rfl, rfl, -⟩ | ⟨q, hq, -, -⟩
    · simp only [Interleaving.perform, enter]
      rw [claim_snd]
      exact Nat.lt_succ_self i.engine.nextId
    · exact Nat.lt_of_lt_of_le (h.drawn hq) (nextId_perform i m)
  · rcases h.seats_perform m with
      ⟨g, criteria, -, hg, hflights, hseats⟩ | ⟨g, s, -, hs, hflights, hseats⟩ | ⟨-, hflights, hseats⟩
    · rw [hflights, hseats]
      exact h.seated.join hg criteria
    · rw [hflights, hseats]
      exact h.seated.leave hs
    · rw [hflights, hseats]
      exact h.seated

/-! ### Reachable states -/

/-- What can come about from rest with an empty cache: the searches move, and the cache is given commands by others. -/
inductive Reachable (setup : Setup) (ttl : Duration) (capacity : Nat) : Interleaving → Prop where
  | start : Reachable setup ttl capacity (start setup (.empty ttl capacity))
  | move {i : Interleaving} (m : Move) : Reachable setup ttl capacity i → Reachable setup ttl capacity (i.perform m).2
  | command {i : Interleaving} (command : Cache.Command ResultPage) : Reachable setup ttl capacity i →
      Reachable setup ttl capacity
        { i with engine := i.engine.moved i.engine.now (i.engine.cache.perform command).2 }

theorem Reachable.run {setup : Setup} {ttl : Duration} {capacity : Nat} (h : Reachable setup ttl capacity i)
    (moves : List Move) : Reachable setup ttl capacity (i.run moves).2 := by
  induction moves generalizing i with
  | nil => exact h
  | cons m moves ih => exact ih (h.move m)

theorem Reachable.booked {setup : Setup} {ttl : Duration} {capacity : Nat} (h : Reachable setup ttl capacity i) :
    i.Booked := by
  induction h with
  | start => exact ⟨fun hp => by simp [Interleaving.start] at hp,
      fun hs => by simp [getElem?_seats, Interleaving.start] at hs,
      fun hf => by simp [Interleaving.start, Engine.start] at hf⟩
  | move m _ ih => exact ih.perform m
  | command _ _ ih => exact ⟨ih.drawn, ih.seated⟩

end Interleaving

end RepoSearch
