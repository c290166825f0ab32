import RepoSearch.Proofs.CacheRuns

/-!
# Making room in the cache

The keys by number and the entries tell the same: a number is given to a key exactly if the key's entry has it, and all
numbers were drawn before. So whenever a full cache makes room it finds an oldest key, and after one turn there is room.
-/

namespace RepoSearch.Cache

variable {V : Type}

/-! ### The loop that makes room -/

/-- How the loop ends: there is room, or there is no oldest key to evict. -/
inductive Exit where
  | room | exhausted
  deriving DecidableEq, Repr

/-- The cache without the entry of a number and its key. -/
def evict (c : Cache V) (seq : Nat) (key : String) : Cache V :=
  { c with entries := c.entries.erase key, order := c.order.erase seq }

/-- The loop that makes room, with the keys that it evicts and with its end: as long as there is no room, the oldest key
and its entry go. -/
inductive MakesRoom : Cache V → List String → Exit → Cache V → Prop where
  | room {c : Cache V} : c.size < c.capacity → MakesRoom c [] .room c
  | exhausted {c : Cache V} : c.capacity ≤ c.size → c.order.minEntry? = none → MakesRoom c [] .exhausted c
  | turn {c d : Cache V} {seq : Nat} {key : String} {evicted : List String} {exit : Exit} :
      c.capacity ≤ c.size → c.order.minEntry? = some (seq, key) → MakesRoom (c.evict seq key) evicted exit d →
      MakesRoom c (key :: evicted) exit d

/-- The loop takes one way only. -/
theorem MakesRoom.unique {c d d' : Cache V} {evicted evicted' : List String} {exit exit' : Exit}
    (h : MakesRoom c evicted exit d) (h' : MakesRoom c evicted' exit' d') :
    evicted' = evicted ∧ exit' = exit ∧ d' = d := by
  induction h generalizing evicted' with
  | room hroom =>
    cases h' with
    | room => exact ⟨rfl, rfl, rfl⟩
    | exhausted hfull => exact absurd hroom (Nat.not_lt.2 hfull)
    | turn hfull => exact absurd hroom (Nat.not_lt.2 hfull)
  | exhausted hfull hnone =>
    cases h' with
    | room hroom => exact absurd hroom (Nat.not_lt.2 hfull)
    | exhausted => exact ⟨rfl, rfl, rfl⟩
    | turn _ hsome => simp [hnone] at hsome
  | turn hfull hsome _ ih =>
    cases h' with
    | room hroom => exact absurd hroom (Nat.not_lt.2 hfull)
    | exhausted _ hnone => simp [hnone] at hsome
    | turn _ hsome' hrest =>
      obtain ⟨rfl, rfl⟩ := Prod.mk.inj (Option.some.inj (hsome.symm.trans hsome'))
      obtain ⟨rfl, rfl, rfl⟩ := ih hrest
      exact ⟨rfl, rfl, rfl⟩

/-- Turns whose number is bounded lead where the loop does, if the bound is large enough. -/
theorem MakesRoom.makeRoom_eq {c d : Cache V} {evicted : List String} {exit : Exit} (h : MakesRoom c evicted exit d)
    {fuel : Nat} (hfuel : evicted.length ≤ fuel) : c.makeRoom fuel = d := by
  induction h generalizing fuel with
  | room hroom => exact makeRoom_of_room hroom fuel
  | exhausted hfull hnone =>
    cases fuel with
    | zero => rfl
    | succ fuel => rw [makeRoom, if_neg (Nat.not_lt.2 hfull), hnone]
  | turn hfull hsome _ ih =>
    cases fuel with
    | zero => exact absurd hfuel (Nat.not_succ_le_zero _)
    | succ fuel =>
      rw [makeRoom, if_neg (Nat.not_lt.2 hfull), hsome]
      exact ih (Nat.le_of_succ_le_succ hfuel)

/-! ### Numbers and entries -/

namespace Lists

variable {c : Cache V} {rs : List (Nat × Record V)}

/-- A number is given to a key exactly if the entry of the key has it. -/
theorem order_iff (h : Lists c rs) (seq : Nat) (key : String) :
    c.order[seq]? = some key ↔ ∃ entry, c.entries[key]? = some entry ∧ entry.seq = seq := by
  rw [h.order, List.mem_map]
  constructor
  · rintro ⟨⟨seq', r⟩, hr, heq⟩
    obtain ⟨rfl, rfl⟩ := Prod.mk.inj heq
    exact ⟨⟨r.value, r.storedAt, seq'⟩, (h.entries r.key _).2 hr, rfl⟩
  · rintro ⟨entry, hentry, rfl⟩
    exact ⟨_, (h.entries key entry).1 hentry, rfl⟩

theorem seq_lt (h : Lists c rs) {key : String} {entry : Entry V} (hentry : c.entries[key]? = some entry) :
    entry.seq < c.nextSeq :=
  h.drawn _ ((h.entries key entry).1 hentry)

/-- A cache within its bound has room already or makes it in one turn. -/
theorem makesRoom (h : Lists c rs) (hcapacity : 0 < c.capacity) (hbound : rs.length ≤ c.capacity) :
    ∃ evicted d, MakesRoom c evicted .room d ∧ evicted.length ≤ 1 ∧ d.size + evicted.length = c.size := by
  have hsize := h.size_eq
  by_cases hroom : c.size < c.capacity
  · exact ⟨[], c, .room hroom, Nat.zero_le 1, rfl⟩
  · cases rs with
    | nil =>
      rw [List.length_nil] at hsize
      omega
    | cons r rs =>
      have hleft : (c.evict r.1 r.2.key).size = rs.length := h.erase_head.size_eq
      have hunchanged : (c.evict r.1 r.2.key).capacity = c.capacity := rfl
      rw [List.length_cons] at hsize hbound
      refine ⟨[r.2.key], c.evict r.1 r.2.key, .turn (Nat.le_of_not_lt hroom) h.minEntry? (.room ?_), Nat.le_refl 1, ?_⟩
      · omega
      · rw [List.length_singleton, hleft, hsize]

end Lists

/-- In every cache that commands lead to, whatever their times, a number is given to a key exactly if the key's entry has
it, all numbers lie below the next one, and there are no more entries than allowed. The loop that makes room ends with
room and evicts one key at most; a new key is written by that loop and an append, and any other by an append alone. -/
theorem evicts_one_at_most (ttl : Duration) (capacity : Nat) (commands : List (Command V)) :
    let c := (empty ttl capacity : Cache V).after commands
    (∀ (seq : Nat) (key : String),
      c.order[seq]? = some key ↔ ∃ entry : Entry V, c.entries[key]? = some entry ∧ entry.seq = seq) ∧
    (∀ (key : String) (entry : Entry V), c.entries[key]? = some entry → entry.seq < c.nextSeq) ∧
    c.size ≤ max capacity 1 ∧
    ∃ evicted d, MakesRoom c evicted .room d ∧
      (∀ evicted' exit d', MakesRoom c evicted' exit d' → evicted' = evicted ∧ exit = .room ∧ d' = d) ∧
      evicted.length ≤ 1 ∧ d.size + evicted.length = c.size ∧
      ∀ key value now, c.set key value now =
        if c.ttl.nanos = 0 then c
        else if c.entries.contains key then (c.remove key).push key value now
        else d.push key value now := by
  intro c
  have refines : Refines c ((RecordQueue.empty ttl capacity).after commands) := (Refines.empty ttl capacity).after commands
  have hcapacity : c.capacity = max capacity 1 := by
    rw [refines.capacity, ((RecordQueue.empty ttl capacity).after_bounds commands).2, RecordQueue.empty]
  have hsize : c.size ≤ c.capacity := refines.size_eq ▸ refines.bounded
  obtain ⟨rs, hlists, -⟩ := refines.listed
  obtain ⟨evicted, d, hloop, hone, hleft⟩ := hlists.makesRoom (by omega) (hlists.size_eq ▸ hsize)
  refine ⟨hlists.order_iff, fun key entry => hlists.seq_lt, hcapacity ▸ hsize, evicted, d, hloop, ?_, hone, hleft, ?_⟩
  · intro evicted' exit d' hloop'
    exact hloop.unique hloop'
  · intro key value now
    have hfuel : evicted.length ≤ c.order.size := by
      rw [hlists.order_size, ← hlists.size_eq]
      omega
    rw [set, hloop.makeRoom_eq hfuel]

/-- A full cache in which the first key was written again has the second one as its oldest, and evicts it alone. -/
theorem rewritten_key_outlasts_next :
    let commands : List (Command Nat) := [.set "a" 1 ⟨0⟩, .set "b" 2 ⟨1⟩, .get "b" ⟨2⟩, .set "a" 3 ⟨3⟩]
    let c := (empty (.ofSecs 60) 2 : Cache Nat).after commands
    c.size = 2 ∧ c.order[2]? = some "a" ∧ ∃ d, MakesRoom c ["b"] .room d ∧ d.size = 1 ∧
      c.set "c" 4 ⟨4⟩ = d.push "c" 4 ⟨4⟩ := by
  intro commands c
  obtain ⟨order, -, -, evicted, d, hloop, unique, -, hleft, writes⟩ := evicts_one_at_most (.ofSecs 60) 2 commands
  have hsize : c.size = 2 := by decide +kernel
  have hentry : c.entries["a"]?.map Entry.seq = some 2 := by decide +kernel
  have holdest : c.order.minEntry? = some (1, "b") := by
    rw [minEntry?_eq_head?]
    decide +kernel
  have hroom : (c.evict 1 "b").size < (c.evict 1 "b").capacity := by decide +kernel
  have hcapacity : c.capacity ≤ c.size := by decide +kernel
  obtain ⟨hevicted, -, -⟩ := unique _ _ _ (.turn hcapacity holdest (.room hroom))
  rw [← hevicted] at hloop hleft
  refine ⟨hsize, (order 2 "a").2 (Option.map_eq_some_iff.1 hentry), d, hloop, ?_, ?_⟩
  · have : d.size + 1 = c.size := hleft
    omega
  · have hwrite := writes "c" 4 ⟨4⟩
    have hkeeps : c.ttl.nanos ≠ 0 := by decide +kernel
    have hnew : ¬c.entries.contains "c" = true := by decide +kernel
    rwa [if_neg hkeeps, if_neg hnew] at hwrite

end RepoSearch.Cache
