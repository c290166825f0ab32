import RepoSearch.Engine.Interleaving
import RepoSearch.Proofs.CacheEntries
import RepoSearch.Proofs.Engine.Leaving

/-!
# Fetching a page that is kept

Searches look into the cache and into the flights in two actions, and others may come between the two. A search that has
looked its page up in vain may find, when it comes to join a flight, that the page has been kept and the flight is gone;
then it fetches the page once more. This happens only to searches that had looked before the page was kept, and once to
each of them at most: those that look later find the page.
-/

namespace RepoSearch

namespace Engine

/-! ### Actions -/

theorem lookUp_eq (e : Engine) (key : String) :
    e.lookUp key = ((e.cache.get key e.setup.clock).1, e.moved e.now (e.cache.get key e.setup.clock).2) := rfl

/-- The call for criteria whose key has no flight. -/
def callFor? (e : Engine) (criteria : Criteria) : Option Call :=
  if e.flights.contains criteria.cacheKey then none
  else some ⟨e.nextId, criteria.pageRequest, e.now, e.nextReply⟩

/-- A search that joins a flight or begins one changes the flights, and in the second case the counter and the calls. -/
theorem join_eq (e : Engine) (criteria : Criteria) : (e.join criteria).2 = { e with
    nextId := (e.join criteria).2.nextId
    flights := (e.join criteria).2.flights
    calls := e.calls ++ (e.callFor? criteria).toList } := by
  rw [callFor?, Std.ExtTreeMap.contains_eq_isSome_getElem?, join]
  cases e.flights[criteria.cacheKey]? with
  | some f => simp
  | none => rfl

/-- A search that takes a slot changes the slots, the counter and the waiting searches. -/
theorem claim_snd (e : Engine) (caller : String) (slot : Option String) (criteria : Criteria) :
    (e.claim caller slot criteria).2 = { e with
      nextId := e.nextId + 1
      slots := (e.claim caller slot criteria).2.slots
      waiting := (e.claim caller slot criteria).2.waiting } := by
  simp only [claim, draw]
  split <;> rfl

/-- The search that takes a slot. -/
theorem claim_fst (e : Engine) (caller : String) (slot : Option String) (criteria : Criteria) :
    (e.claim caller slot criteria).1 = ⟨caller, slot.getD (ownSlot e.nextId), e.nextId, criteria⟩ := rfl

/-- The cache after the next action of a search. -/
def Progress.cacheAfter (clock : Instant) (cache : Cache ResultPage) (p : Progress) : Cache ResultPage :=
  match p.stage with
  | .claimed => (cache.get p.key clock).2
  | .cleared _ f => cache.set p.key f.page clock
  | _ => cache

/-- The call that a search makes in its next action, if it makes one. -/
def Progress.call? (e : Engine) (p : Progress) : Option Call :=
  match p.stage with
  | .missed => e.callFor? p.search.criteria
  | _ => none

/-- What the next action of a search does to the cache and to the calls. -/
theorem act_snd (e : Engine) (p : Progress) : (e.act p).2 = { e with
    nextId := (e.act p).2.nextId
    slots := (e.act p).2.slots
    flights := (e.act p).2.flights
    cache := p.cacheAfter e.setup.clock e.cache
    calls := e.calls ++ (p.call? e).toList } := by
  obtain ⟨s, superseded, stage⟩ := p
  have quiet : e.calls = e.calls ++ (none : Option Call).toList := (List.append_nil _).symm
  cases stage with
  | claimed =>
    have h : (e.act ⟨s, superseded, .claimed⟩).2 = (e.lookUp s.criteria.cacheKey).2 := by
      unfold act
      dsimp only [Progress.key]
      rw [lookUp_eq]
      cases (e.cache.get s.criteria.cacheKey e.setup.clock).1 <;> rfl
    rw [h, lookUp_eq, moved]
    dsimp only [Progress.cacheAfter, Progress.call?]
    rw [← quiet]
    rfl
  | missed =>
    have h : (e.act ⟨s, superseded, .missed⟩).2 = (e.join s.criteria).2 := rfl
    rw [h, join_eq]
    rfl
  | leaving fetch result =>
    have h : (e.act ⟨s, superseded, .leaving fetch result⟩).2 = e.leave s.criteria.cacheKey fetch.id := rfl
    rw [h, leave_eq]
    dsimp only [Progress.cacheAfter, Progress.call?]
    rw [← quiet]
  | parting fetch result =>
    have h : (e.act ⟨s, superseded, .parting fetch result⟩).2 = e.release s := rfl
    rw [h, release_eq]
    dsimp only [Progress.cacheAfter, Progress.call?]
    rw [← quiet]
  | _ =>
    dsimp only [act, Progress.cacheAfter, Progress.call?, store]
    rw [← quiet]

/-- A search that looks its page up misses it, or it is on its way out with the page. -/
theorem act_missed {e : Engine} {p : Progress} {stage : Stage} (hact : (e.act p).1 = some stage)
    (hmissed : stage = .missed) : p.stage = .claimed ∧ (e.cache.get p.key e.setup.clock).1 = none := by
  subst hmissed
  unfold act at hact
  cases hstage : p.stage with
  | claimed =>
    refine ⟨rfl, ?_⟩
    rw [hstage, lookUp_eq] at hact
    cases hget : (e.cache.get p.key e.setup.clock).1 with
    | none => rfl
    | some page =>
      rw [hget] at hact
      cases hact
  | waiting fetch =>
    rw [hstage] at hact
    dsimp only [Progress.woken] at hact
    split_ifs at hact <;> cases hact
  | handed fetch outcome =>
    rw [hstage] at hact
    dsimp only [Progress.judged] at hact
    cases outcome with
    | error err => cases hact
    | ok f =>
      dsimp only at hact
      split_ifs at hact <;> cases hact
  | _ =>
    rw [hstage] at hact
    cases hact

end Engine

namespace Interleaving

open Engine

variable {i : Interleaving}

/-! ### Moves -/

theorem perform_act {g : Nat} {p : Progress} (hp : i.underway[g]? = some p) : i.perform (.act g) =
    ((p.event? i.engine.now).toList, ⟨(i.engine.act p).2, i.record g p (i.engine.act p).1⟩) := by
  simp only [perform, hp]

theorem getElem?_record (g : Nat) (p : Progress) (stage : Option Stage) (k : Nat) :
    (i.record g p stage)[k]? = if g = k then stage.map (fun stage => { p with stage }) else i.underway[k]? := by
  cases stage with
  | some stage => simp [record, Std.ExtTreeMap.getElem?_insert]
  | none => simp [record, Std.ExtTreeMap.getElem?_erase]

theorem getElem?_displace (holder : Option Nat) (k : Nat) : (i.displace holder)[k]? =
    if holder = some k then i.underway[k]?.map (fun p => { p with superseded := true }) else i.underway[k]? := by
  cases holder with
  | some g => simp [displace, Std.ExtTreeMap.getElem?_modify]; split_ifs <;> simp_all
  | none => simp [displace]

/-- After a move a search under way has just begun, or it was under way before it and the move has brought it further or
left it where it was. -/
theorem underway_perform {m : Move} {g : Nat} {p : Progress} (hp : (i.perform m).2.underway[g]? = some p) :
    (∃ caller slot criteria, m = .enter caller slot criteria ∧ g = i.engine.nextId ∧
      p = ⟨(i.engine.claim caller slot criteria).1, false, .claimed⟩) ∨
    ∃ q, i.underway[g]? = some q ∧ p.search = q.search ∧
      (p.stage = q.stage ∨ p.stage = q.abandoned ∨ m = .act g ∧ (i.engine.act q).1 = some p.stage) := by
  have same : i.underway[g]? = some p → ∃ q, i.underway[g]? = some q ∧ p.search = q.search ∧
      (p.stage = q.stage ∨ p.stage = q.abandoned ∨ m = .act g ∧ (i.engine.act q).1 = some p.stage) :=
    fun hp => ⟨p, hp, rfl, .inl rfl⟩
  cases m with
  | enter caller slot criteria =>
    simp only [perform, enter, Std.ExtTreeMap.getElem?_insert, getElem?_displace, Std.LawfulEqCmp.compare_eq_iff_eq] at hp
    split_ifs at hp with hg hholder
    · exact .inl ⟨caller, slot, criteria, rfl, hg.symm, (Option.some.inj hp).symm⟩
    · obtain ⟨q, hq, rfl⟩ := Option.map_eq_some_iff.1 hp
      exact .inr ⟨q, hq, rfl, .inl rfl⟩
    · exact .inr (same hp)
  | act g' =>
    cases hq : i.underway[g']? with
    | none =>
      simp only [perform, hq] at hp
      exact .inr (same hp)
    | some q =>
      rw [perform_act hq, getElem?_record] at hp
      split_ifs at hp with hg
      · subst hg
        obtain ⟨stage, hstage, rfl⟩ := Option.map_eq_some_iff.1 hp
        exact .inr ⟨q, hq, rfl, .inr (.inr ⟨rfl, hstage⟩)⟩
      · exact .inr (same hp)
  | abandon g' =>
    cases hq : i.underway[g']? with
    | none =>
      simp only [perform, hq] at hp
      exact .inr (same hp)
    | some q =>
      simp only [perform, hq, getElem?_record] at hp
      split_ifs at hp with hg
      · subst hg
        rw [Option.map_some] at hp
        exact .inr ⟨q, hq, by rw [← Option.some.inj hp], .inr (.inl (by rw [← Option.some.inj hp]))⟩
      · exact .inr (same hp)
  | pass millis => exact .inr (same hp)

/-- What a move does to the cache and to the calls, it does through an action of a search. -/
theorem engine_perform (m : Move) :
    ((i.perform m).2.engine.setup = i.engine.setup ∧ (i.perform m).2.engine.cache = i.engine.cache ∧
      (i.perform m).2.engine.calls = i.engine.calls ∧ i.starts m = none) ∨
    ∃ g p, m = .act g ∧ i.underway[g]? = some p ∧ (i.perform m).2.engine = (i.engine.act p).2 := by
  cases m with
  | enter caller slot criteria =>
    left
    simp only [perform, enter]
    rw [claim_snd]
    exact ⟨rfl, rfl, rfl, rfl⟩
  | act g =>
    cases hp : i.underway[g]? with
    | none =>
      left
      have hperform : i.perform (.act g) = ([], i) := by rw [perform, hp]
      have hstarts : i.starts (.act g) = none := by simp only [starts, hp]
      exact ⟨by rw [hperform], by rw [hperform], by rw [hperform], hstarts⟩
    | some p => exact .inr ⟨g, p, rfl, hp, by rw [perform_act hp]⟩
  | abandon g =>
    left
    have hengine : (i.perform (.abandon g)).2.engine = i.engine := by
      rw [perform]
      split <;> rfl
    exact ⟨by rw [hengine], by rw [hengine], by rw [hengine], rfl⟩
  | pass millis => exact .inl ⟨rfl, rfl, rfl, rfl⟩

/-- A search that begins a fetch has looked its page up in vain, and there is no flight of its key. -/
theorem starts_eq_some_iff {m : Move} {s : Search} : i.starts m = some s ↔
    ∃ g superseded, m = .act g ∧ i.underway[g]? = some ⟨s, superseded, .missed⟩ ∧
      i.engine.flights.contains s.criteria.cacheKey = false := by
  constructor
  · intro h
    cases m with
    | act g =>
      rw [starts] at h
      split at h
      · rename_i s' superseded hp
        split_ifs at h with hflight
        rw [← Option.some.inj h]
        exact ⟨g, superseded, rfl, hp, Bool.eq_false_iff.2 hflight⟩
      · cases h
    | _ => cases h
  · rintro ⟨g, superseded, rfl, hp, hflight⟩
    simp only [starts, hp, hflight, Bool.false_eq_true, if_false]

/-- A move makes a call exactly when a search begins a fetch in it. -/
theorem calls_perform (m : Move) : (i.perform m).2.engine.calls = i.engine.calls ++
    (i.starts m).toList.map fun s => ⟨i.engine.nextId, s.criteria.pageRequest, i.engine.now, i.engine.nextReply⟩ := by
  rcases engine_perform (i := i) m with ⟨-, -, hcalls, hstarts⟩ | ⟨g, ⟨s, superseded, stage⟩, rfl, hp, hengine⟩
  · rw [hcalls, hstarts, Option.toList_none, List.map_nil, List.append_nil]
  · rw [hengine, act_snd]
    simp only [Progress.call?, starts, hp]
    cases stage with
    | missed =>
      simp only [callFor?]
      split_ifs <;> rfl
    | _ => rfl

/-! ### A cache that loses nothing -/

/-- A move whose search, if one begins, has its key among the given ones. -/
def Move.Known (keys : List String) : Move → Prop
  | .enter _ _ criteria => criteria.cacheKey ∈ keys
  | _ => True

/-- The searches under way are filed by their generations, and the cache has room for their pages. -/
structure Spacious (keys : List String) (i : Interleaving) : Prop where
  filed : ∀ {g : Nat} {p : Progress}, i.underway[g]? = some p → p.search.generation = g
  known : ∀ {g : Nat} {p : Progress}, i.underway[g]? = some p → p.key ∈ keys
  roomy : i.engine.cache.Roomy keys i.engine.setup.clock

theorem spacious_start {keys : List String} {setup : Setup} {cache : Cache ResultPage}
    (h : cache.Roomy keys setup.clock) : (start setup cache).Spacious keys where
  filed := fun hp => by simp [start] at hp
  known := fun hp => by simp [start] at hp
  roomy := h

/-- What an action of a search does to a cache with room for its page. -/
private theorem roomy_cacheAfter {keys : List String} {clock : Instant} {cache : Cache ResultPage} {p : Progress}
    (h : cache.Roomy keys clock) (hp : p.key ∈ keys) : (p.cacheAfter clock cache).Roomy keys clock ∧
      ∀ key ∈ cache.entries, key ∈ (p.cacheAfter clock cache).entries := by
  unfold Progress.cacheAfter
  cases p.stage with
  | claimed =>
    refine ⟨h.get p.key, fun key hkey => ?_⟩
    rwa [h.get_eq p.key]
  | cleared fetch f =>
    have hfresh : clock.since clock ≤ cache.ttl := by
      show (clock.nanos - clock.nanos).toNat ≤ cache.ttl.nanos
      omega
    exact ⟨h.set hp f.page hfresh, fun key hkey => (h.mem_set hp f.page clock key).2 (.inl hkey)⟩
  | _ => exact ⟨h, fun key hkey => hkey⟩

/-- A move leaves the pages where they are. -/
theorem Spacious.perform {keys : List String} (h : i.Spacious keys) {m : Move} (hm : m.Known keys) :
    (i.perform m).2.Spacious keys ∧
      ∀ key ∈ i.engine.cache.entries, key ∈ (i.perform m).2.engine.cache.entries := by
  have cache : (i.perform m).2.engine.cache.Roomy keys (i.perform m).2.engine.setup.clock ∧
      ∀ key ∈ i.engine.cache.entries, key ∈ (i.perform m).2.engine.cache.entries := by
    rcases engine_perform (i := i) m with ⟨hsetup, hcache, -, -⟩ | ⟨g, p, -, hp, hengine⟩
    · rw [hsetup, hcache]
      exact ⟨h.roomy, fun key hkey => hkey⟩
    · rw [hengine, act_snd]
      exact roomy_cacheAfter h.roomy (h.known hp)
  refine ⟨⟨fun {g p} hp => ?_, fun {g p} hp => ?_, cache.1⟩, cache.2⟩
  · rcases underway_perform hp with ⟨caller, slot, criteria, -, rfl, rfl⟩ | ⟨q, hq, hsearch, -⟩
    · rfl
    · rw [hsearch]
      exact h.filed hq
  · rcases underway_perform hp with ⟨caller, slot, criteria, rfl, -, rfl⟩ | ⟨q, hq, hsearch, -⟩
    · exact hm
    · rw [Progress.key, hsearch]
      exact h.known hq

theorem run_append (moves later : List Move) : i.run (moves ++ later) =
    ((i.run moves).1 ++ ((i.run moves).2.run later).1, ((i.run moves).2.run later).2) := by
  induction moves generalizing i with
  | nil => rfl
  | cons m moves ih => simp only [List.cons_append, run, ih, List.append_assoc]

theorem Spacious.run {keys : List String} (h : i.Spacious keys) {moves : List Move} (hmoves : ∀ m ∈ moves, m.Known keys) :
    (i.run moves).2.Spacious keys := by
  induction moves generalizing i with
  | nil => exact h
  | cons m moves ih =>
    exact ih (h.perform (hmoves m List.mem_cons_self)).1 fun m' hm' => hmoves m' (List.mem_cons_of_mem m hm')

/-! ### Fetches of a page that is kept -/

/-- The search has looked its page up in vain and has not joined a flight yet. -/
def Missed (i : Interleaving) (s : Search) : Prop :=
  ∃ superseded, i.underway[s.generation]? = some ⟨s, superseded, .missed⟩

theorem not_missed_of_isEmpty (h : i.underway.isEmpty = true) (s : Search) : ¬i.Missed s := by
  rintro ⟨superseded, hs⟩
  rw [Std.ExtTreeMap.isEmpty_iff.1 h, Std.ExtTreeMap.getElem?_empty] at hs
  cases hs

/-- A search that begins a fetch has looked its page up in vain, and has then joined the flight. -/
theorem Spacious.missed_of_starts {keys : List String} (h : i.Spacious keys) {m : Move} {s : Search}
    (hs : i.starts m = some s) : i.Missed s ∧ ¬(i.perform m).2.Missed s := by
  obtain ⟨g, superseded, rfl, hp, -⟩ := starts_eq_some_iff.1 hs
  have hg : s.generation = g := h.filed hp
  refine ⟨⟨superseded, hg ▸ hp⟩, ?_⟩
  rintro ⟨superseded', hmissed⟩
  rw [perform_act hp, getElem?_record, if_pos hg.symm] at hmissed
  cases hmissed

/-- Who has missed a page that is kept has missed it before. -/
theorem Spacious.missed_before {keys : List String} (h : i.Spacious keys) {m : Move} {s : Search}
    (hkept : s.criteria.cacheKey ∈ i.engine.cache.entries) (hs : (i.perform m).2.Missed s) : i.Missed s := by
  obtain ⟨superseded, hp⟩ := hs
  rcases underway_perform hp with ⟨caller, slot, criteria, -, -, hstage⟩ | ⟨⟨s', superseded', stage⟩, hq, hsearch, hstage⟩
  · cases congrArg Progress.stage hstage
  · dsimp only at hsearch hstage
    subst hsearch
    rcases hstage with rfl | habandoned | ⟨-, hact⟩
    · exact ⟨superseded', hq⟩
    · cases stage with
      | missed => exact ⟨superseded', hq⟩
      | _ => cases habandoned
    · obtain ⟨-, hget⟩ := act_missed hact rfl
      obtain ⟨entry, hentry⟩ := Option.isSome_iff_exists.1 (Std.ExtTreeMap.mem_iff_isSome_getElem?.1 hkept)
      have hexpired := Cache.get_eq_none_iff.1 hget entry hentry
      rw [h.roomy.fresh _ entry hentry] at hexpired
      cases hexpired

/-- The searches that begin a fetch in a sequence of moves, in order. -/
def fetches (i : Interleaving) : List Move → List Search
  | [] => []
  | m :: moves => (i.starts m).toList ++ (i.perform m).2.fetches moves

/-- The calls of a sequence of moves are those of its fetches. -/
theorem calls_run (moves : List Move) : (i.run moves).2.engine.calls.map (·.request) =
    i.engine.calls.map (·.request) ++ (i.fetches moves).map (·.criteria.pageRequest) := by
  induction moves generalizing i with
  | nil => exact (List.append_nil _).symm
  | cons m moves ih =>
    rw [run, fetches, ih, calls_perform, List.map_append, List.map_append, List.append_assoc, List.map_map]
    rfl

/-- Once a page is kept, it is fetched only by searches that have missed it before, and by each of them once. -/
theorem Spacious.fetches {keys : List String} (h : i.Spacious keys) {key : String}
    (hkept : key ∈ i.engine.cache.entries) {moves : List Move} (hmoves : ∀ m ∈ moves, m.Known keys) :
    (∀ s ∈ i.fetches moves, s.criteria.cacheKey = key → i.Missed s) ∧
      ((i.fetches moves).filter (·.criteria.cacheKey = key)).Nodup := by
  induction moves generalizing i with
  | nil => exact ⟨fun s hs => absurd hs List.not_mem_nil, List.nodup_nil⟩
  | cons m moves ih =>
    obtain ⟨h', kept⟩ := h.perform (hmoves m List.mem_cons_self)
    obtain ⟨missed, nodup⟩ := ih h' (kept key hkept) fun m' hm' => hmoves m' (List.mem_cons_of_mem m hm')
    rw [Interleaving.fetches]
    constructor
    · intro s hs hkey
      rcases List.mem_append.1 hs with hs | hs
      · exact (h.missed_of_starts (Option.mem_toList.1 hs)).1
      · exact h.missed_before (hkey ▸ hkept) (missed s hs hkey)
    · cases hstarts : i.starts m with
      | none => exact nodup
      | some s =>
        rw [Option.toList_some, List.singleton_append, List.filter_cons]
        split_ifs with hkey
        · refine List.nodup_cons.2 ⟨fun hs => ?_, nodup⟩
          exact (h.missed_of_starts hstarts).2 (missed s (List.mem_of_mem_filter hs) (of_decide_eq_true hkey))
        · exact nodup

/-- In a cache that loses nothing, a page that is kept is fetched again only by searches that have looked it up before it
was kept and are about to join a flight, and by each of them once at most. Each of these fetches is a call, and other
calls are not made for the page. -/
theorem kept_page_fetched_by_missed {setup : Setup} {ttl : Duration} {capacity : Nat} {keys : List String}
    (hi : i = start setup (.empty ttl capacity)) (keeps : 0 < ttl.nanos) (room : keys.dedup.length ≤ capacity)
    (before later : List Move) (known : ∀ m ∈ before ++ later, m.Known keys) {key : String}
    (kept : key ∈ (i.run before).2.engine.cache.entries) :
    ((i.run (before ++ later)).2.engine.calls.map (·.request) = (i.run before).2.engine.calls.map (·.request) ++
      ((i.run before).2.fetches later).map (·.criteria.pageRequest)) ∧
    (∀ s ∈ (i.run before).2.fetches later, s.criteria.cacheKey = key → (i.run before).2.Missed s) ∧
    (((i.run before).2.fetches later).filter (·.criteria.cacheKey = key)).Nodup := by
  have start : i.Spacious keys := hi ▸ spacious_start (.empty keeps room setup.clock)
  have spacious := start.run fun m hm => known m (List.mem_append_left later hm)
  refine ⟨?_, spacious.fetches kept fun m hm => known m (List.mem_append_right before hm)⟩
  rw [run_append, calls_run]

/-- A search that begins when the page is kept and its fetch is over does not fetch it. -/
theorem kept_page_not_fetched :
    let i := start ⟨{}, .ofSecs 1, [⟨.ofMillis 5, .ok ⟨7, [], ⟨none, none⟩⟩⟩], ⟨0⟩⟩ (.empty (.ofSecs 60) 4)
    let rust : Criteria := ⟨"rust", 1, 10, .stars, [], none⟩
    let before : List Move := [.enter "first" none rust, .act 0, .act 0, .pass 5, .act 0, .act 0, .act 0, .act 0, .act 0]
    let later : List Move := [.enter "second" none rust, .act 2, .act 2]
    (∀ m ∈ before ++ later, m.Known [rust.cacheKey]) ∧
    rust.cacheKey ∈ (i.run before).2.engine.cache.entries ∧
    ((i.run before).2.fetches later).filter (·.criteria.cacheKey = rust.cacheKey) = [] := by
  intro i rust before later
  have known : ∀ m ∈ before ++ later, m.Known [rust.cacheKey] := by simp [before, later, Move.Known]
  have kept : rust.cacheKey ∈ (i.run before).2.engine.cache.entries := by decide +kernel
  have ended : (i.run before).2.underway.isEmpty = true := by decide +kernel
  have room : [rust.cacheKey].dedup.length ≤ 4 := by decide +kernel
  have missed := (kept_page_fetched_by_missed (i := i) rfl (by decide) room before later known kept).2.1
  exact ⟨known, kept, List.filter_eq_nil_iff.2 fun s hs hkey =>
    not_missed_of_isEmpty ended s (missed s hs (of_decide_eq_true hkey))⟩

/-- The second of two searches looks the page up before the first keeps it, and comes to join a flight when the first
has left it: so it fetches the page that is kept, though nothing is ever taken from the cache. -/
theorem kept_page_fetched_again :
    let i := start ⟨{}, .ofSecs 1, [⟨.ofMillis 5, .ok ⟨7, [], ⟨none, none⟩⟩⟩], ⟨0⟩⟩ (.empty (.ofSecs 60) 4)
    let rust : Criteria := ⟨"rust", 1, 10, .stars, [], none⟩
    let before : List Move := [.enter "first" none rust, .act 0, .act 0, .enter "second" none rust, .act 2, .pass 5,
      .act 0, .act 0, .act 0, .act 0]
    (∀ m ∈ before ++ [.act 2], m.Known [rust.cacheKey]) ∧
    rust.cacheKey ∈ (i.run before).2.engine.cache.entries ∧
    (i.run before).2.starts (.act 2) = some ⟨"second", "#2", 2, rust⟩ ∧
    (i.run before).2.engine.calls.length = 1 ∧ (i.run (before ++ [.act 2])).2.engine.calls.length = 2 := by
  intro i rust before
  have known : ∀ m ∈ before ++ [.act 2], m.Known [rust.cacheKey] := by simp [before, Move.Known]
  exact ⟨known, by decide +kernel, by decide +kernel, by decide +kernel, by decide +kernel⟩

end Interleaving

end RepoSearch
