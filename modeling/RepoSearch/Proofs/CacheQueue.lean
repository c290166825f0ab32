import RepoSearch.Proofs.CacheEntries
import RepoSearch.Proofs.Tables
import Mathlib.Data.List.Perm.Basic

/-!
# The cache as a queue

What a cache shows of itself can be told from one list of records, the oldest insertion first, without numbers and
without a second map. The entries of a cache and the keys by their numbers are two views of such a list, in which the
numbers ascend, and every command keeps it so.
-/

namespace RepoSearch

/-- A value kept for a key. -/
structure Record (V : Type) where
  key : String
  value : V
  storedAt : Instant

/-- A bounded queue of records, the one inserted longest ago in front. -/
structure RecordQueue (V : Type) where
  ttl : Duration
  capacity : Nat
  records : List (Record V)
  hits : Nat
  misses : Nat

namespace RecordQueue

variable {V : Type}

def empty (ttl : Duration) (capacity : Nat) : RecordQueue V := ⟨ttl, capacity, [], 0, 0⟩

def lacks (key : String) (r : Record V) : Bool := r.key ≠ key

/-- A record is older than the time to live. -/
def stale (q : RecordQueue V) (now : Instant) (r : Record V) : Bool := q.ttl < now.since r.storedAt

/-- Reads a key: a record that is not stale is a hit; a stale one is removed, and like none it is a miss. -/
def get (q : RecordQueue V) (key : String) (now : Instant) : Option V × RecordQueue V :=
  match q.records.find? fun r => r.key = key ∧ ¬q.stale now r with
  | some r => (some r.value, { q with hits := q.hits + 1 })
  | none => (none, { q with records := q.records.filter (lacks key), misses := q.misses + 1 })

/-- The records that stay when a key is written: those of other keys, and of these, if the key is a new one and the
queue is full, all but the first. -/
def kept (q : RecordQueue V) (key : String) : List (Record V) :=
  if key ∈ q.records.map Record.key then q.records.filter (lacks key)
  else if q.records.length = max q.capacity 1 then q.records.tail
  else q.records

/-- Writes a key, unless there is no time to live. -/
def set (q : RecordQueue V) (key : String) (value : V) (now : Instant) : RecordQueue V :=
  if q.ttl.nanos = 0 then q else { q with records := q.kept key ++ [⟨key, value, now⟩] }

/-- Removes the stale records and counts them. -/
def purge (q : RecordQueue V) (now : Instant) : Nat × RecordQueue V :=
  (q.records.countP (q.stale now), { q with records := q.records.filter (!q.stale now ·) })

def clear (q : RecordQueue V) : RecordQueue V := { q with records := [] }

theorem lacks_iff {key : String} {r : Record V} : lacks key r = true ↔ r.key ≠ key := by
  rw [lacks, decide_eq_true_eq]

/-- When a key is written there is room for it. -/
theorem length_kept_lt {q : RecordQueue V} (h : q.records.length ≤ max q.capacity 1) (key : String) :
    (q.kept key).length < max q.capacity 1 := by
  unfold kept
  split_ifs with hkey hfull
  · obtain ⟨r, hr, rfl⟩ := List.mem_map.1 hkey
    have : (q.records.filter (lacks r.key)).length < q.records.length := by
      rw [List.length_filter_lt_length_iff_exists]
      exact ⟨r, hr, by simp [lacks]⟩
    omega
  · rw [List.length_tail]
    omega
  · omega

end RecordQueue

namespace Cache

variable {V : Type}

/-! ### Numbered records -/

/-- The entries of a cache and the keys by their numbers are those of a list of records with ascending numbers. -/
structure Lists (c : Cache V) (rs : List (Nat × Record V)) : Prop where
  ascending : rs.Pairwise fun r s => r.1 < s.1
  drawn : ∀ r ∈ rs, r.1 < c.nextSeq
  distinct : (rs.map (·.2.key)).Nodup
  entries : ∀ (key : String) (entry : Entry V),
    c.entries[key]? = some entry ↔ (entry.seq, ⟨key, entry.value, entry.storedAt⟩) ∈ rs
  order : ∀ (seq : Nat) (key : String), c.order[seq]? = some key ↔ (seq, key) ∈ rs.map fun r => (r.1, r.2.key)

namespace Lists

variable {c : Cache V} {rs : List (Nat × Record V)}

theorem congr {d : Cache V} (h : Lists c rs) (entries : d.entries = c.entries) (order : d.order = c.order)
    (nextSeq : d.nextSeq = c.nextSeq) : Lists d rs :=
  ⟨h.ascending, nextSeq ▸ h.drawn, h.distinct, entries ▸ h.entries, order ▸ h.order⟩

theorem eq_of_key (h : Lists c rs) {r s : Nat × Record V} (hr : r ∈ rs) (hs : s ∈ rs) (hkey : r.2.key = s.2.key) :
    r = s :=
  List.inj_on_of_nodup_map h.distinct hr hs hkey

theorem mem_entries (h : Lists c rs) (key : String) : key ∈ c.entries ↔ key ∈ rs.map (·.2.key) := by
  rw [Std.ExtTreeMap.mem_iff_isSome_getElem?, Option.isSome_iff_exists, List.mem_map]
  constructor
  · rintro ⟨entry, hentry⟩
    exact ⟨_, (h.entries key entry).1 hentry, rfl⟩
  · rintro ⟨⟨seq, r⟩, hr, rfl⟩
    exact ⟨⟨r.value, r.storedAt, seq⟩, (h.entries r.key _).2 hr⟩

theorem size_eq (h : Lists c rs) : c.size = rs.length := by
  rw [size, size_eq_length h.distinct h.mem_entries, List.length_map]

private theorem eq_of_seq (h : Lists c rs) {r s : Nat × Record V} (hr : r ∈ rs) (hs : s ∈ rs) (hseq : r.1 = s.1) :
    r = s := by
  have nodup : (rs.map (·.1)).Nodup := by
    rw [List.nodup_iff_pairwise_ne, List.pairwise_map]
    exact h.ascending.imp fun hlt => Nat.ne_of_lt hlt
  exact List.inj_on_of_nodup_map nodup hr hs hseq

theorem order_toList (h : Lists c rs) : c.order.toList = rs.map fun r => (r.1, r.2.key) := by
  have ascending : (rs.map fun r => (r.1, r.2.key)).Pairwise fun a b => a.1 < b.1 := by
    rw [List.pairwise_map]
    exact h.ascending
  have ordered : c.order.toList.Pairwise fun a b => a.1 < b.1 :=
    c.order.ordered_keys_toList.imp fun hlt => Nat.compare_eq_lt.1 hlt
  have nodup : ∀ {l : List (Nat × String)}, l.Pairwise (fun a b => a.1 < b.1) → l.Nodup := by
    intro l hl
    rw [List.nodup_iff_pairwise_ne]
    exact hl.imp fun hlt heq => Nat.ne_of_lt hlt (congrArg Prod.fst heq)
  refine List.Perm.eq_of_pairwise (fun a b _ _ hab hba => absurd hab (Nat.lt_asymm hba)) ordered ascending ?_
  refine (List.perm_ext_iff_of_nodup (nodup ordered) (nodup ascending)).2 fun ⟨seq, key⟩ => ?_
  rw [Std.ExtTreeMap.mem_toList_iff_getElem?_eq_some, h.order]

theorem order_size (h : Lists c rs) : c.order.size = rs.length := by
  rw [← Std.ExtTreeMap.length_toList, h.order_toList, List.length_map]

theorem minEntry? (h : Lists c rs) : c.order.minEntry? = rs.head?.map fun r => (r.1, r.2.key) := by
  rw [minEntry?_eq_head?, h.order_toList, List.head?_map]

/-- A record leaves the list when its key and its number are removed. -/
theorem erase (h : Lists c rs) {r : Nat × Record V} (hr : r ∈ rs) :
    Lists { c with entries := c.entries.erase r.2.key, order := c.order.erase r.1 }
      (rs.filter fun s => RecordQueue.lacks r.2.key s.2) := by
  constructor
  · exact h.ascending.filter _
  · exact fun s hs => h.drawn s (List.mem_of_mem_filter hs)
  · exact h.distinct.sublist (List.filter_sublist.map _)
  · intro key entry
    rw [Std.ExtTreeMap.getElem?_erase, List.mem_filter, RecordQueue.lacks_iff, ← h.entries]
    by_cases hkey : r.2.key = key
    · simp [hkey]
    · simp [hkey, Ne.symm hkey]
  · intro seq key
    rw [Std.ExtTreeMap.getElem?_erase]
    simp only [Std.LawfulEqCmp.compare_eq_iff_eq, List.mem_map, List.mem_filter, RecordQueue.lacks_iff]
    -- No other record has the number, and none the key.
    split_ifs with hseq
    · refine iff_of_false (by simp) ?_
      rintro ⟨s, ⟨hs, hne⟩, heq⟩
      have hsame : s.1 = seq := congrArg Prod.fst heq
      rw [h.eq_of_seq hs hr (hsame.trans hseq.symm)] at hne
      exact hne rfl
    · rw [h.order, List.mem_map]
      constructor
      · rintro ⟨s, hs, heq⟩
        refine ⟨s, ⟨hs, fun hkey => hseq ?_⟩, heq⟩
        rw [h.eq_of_key hr hs hkey.symm]
        exact congrArg Prod.fst heq
      · rintro ⟨s, ⟨hs, -⟩, heq⟩
        exact ⟨s, hs, heq⟩

theorem remove (h : Lists c rs) (key : String) :
    Lists (c.remove key) (rs.filter fun s => RecordQueue.lacks key s.2) := by
  unfold Cache.remove
  split
  · rename_i hnone
    rw [List.filter_eq_self.2]
    · exact h
    · intro s hs
      rw [RecordQueue.lacks_iff]
      intro hkey
      have hmem : key ∈ c.entries := (h.mem_entries key).2 (List.mem_map.2 ⟨s, hs, hkey⟩)
      rw [Std.ExtTreeMap.mem_iff_isSome_getElem?, hnone] at hmem
      cases hmem
  · rename_i entry hentry
    exact h.erase ((h.entries key entry).1 hentry)

theorem foldl_remove (h : Lists c rs) (keys : List String) :
    Lists (keys.foldl Cache.remove c) (rs.filter fun s => s.2.key ∉ keys) := by
  induction keys generalizing c rs with
  | nil => simpa using h
  | cons key keys ih =>
    have := ih (h.remove key)
    rw [List.filter_filter] at this
    refine cast (congrArg _ (List.filter_congr fun s _ => ?_)) this
    rw [RecordQueue.lacks, ← Bool.decide_and, decide_eq_decide, List.mem_cons, not_or, and_comm]

/-- The first record leaves the list when its key and its number are removed. -/
theorem erase_head {r : Nat × Record V} (h : Lists c (r :: rs)) :
    Lists { c with entries := c.entries.erase r.2.key, order := c.order.erase r.1 } rs := by
  have others : (r :: rs).filter (fun s => RecordQueue.lacks r.2.key s.2) = rs := by
    have hne : ∀ s ∈ rs, s.2.key ≠ r.2.key := fun s hs hkey =>
      (List.nodup_cons.1 h.distinct).1 (List.mem_map.2 ⟨s, hs, hkey⟩)
    rw [List.filter_cons_of_neg (by simp [RecordQueue.lacks]), List.filter_eq_self]
    exact fun s hs => RecordQueue.lacks_iff.2 (hne s hs)
  have erased := h.erase (List.mem_cons_self (a := r) (l := rs))
  rwa [others] at erased

/-- A full list loses its first record, and another one nothing. -/
theorem makeRoom (h : Lists c rs) (hcapacity : 0 < c.capacity) (hbound : rs.length ≤ c.capacity) :
    Lists (c.makeRoom c.order.size) (if rs.length = c.capacity then rs.tail else rs) := by
  by_cases hfull : rs.length = c.capacity
  · cases rs with
    | nil =>
      simp only [List.length_nil] at hfull
      omega
    | cons r rs =>
      have erased := h.erase_head
      have full : ¬c.size < c.capacity := by
        rw [h.size_eq]
        omega
      -- After the first record is gone there is room.
      have room : ({ c with entries := c.entries.erase r.2.key, order := c.order.erase r.1 } : Cache V).size <
          c.capacity := by
        rw [erased.size_eq, ← hfull]
        exact Nat.lt_succ_self _
      rw [if_pos hfull, h.order_size, List.length_cons, Cache.makeRoom, if_neg full, h.minEntry?]
      simpa [makeRoom_of_room room] using erased
  · rw [if_neg hfull, makeRoom_of_room]
    · exact h
    · rw [h.size_eq]
      omega

theorem push (h : Lists c rs) {key : String} (hnew : key ∉ rs.map (·.2.key)) (value : V) (now : Instant) :
    Lists (c.push key value now) (rs ++ [(c.nextSeq, ⟨key, value, now⟩)]) := by
  constructor
  · rw [List.pairwise_append]
    refine ⟨h.ascending, List.pairwise_singleton _ _, fun r hr s hs => ?_⟩
    rw [List.mem_singleton.1 hs]
    exact h.drawn r hr
  · intro r hr
    rcases List.mem_append.1 hr with hr | hr
    · exact Nat.lt_succ_of_lt (h.drawn r hr)
    · rw [List.mem_singleton.1 hr]
      exact Nat.lt_succ_self _
  · rw [List.map_append]
    exact h.distinct.append (List.nodup_singleton _) (by simpa using hnew)
  · intro k entry
    have hnone : ∀ entry, c.entries[key]? ≠ some entry := fun entry hentry =>
      hnew (List.mem_map_of_mem ((h.entries key entry).1 hentry))
    rw [Cache.push, Std.ExtTreeMap.getElem?_insert, List.mem_append, List.mem_singleton, ← h.entries]
    simp only [Std.LawfulEqCmp.compare_eq_iff_eq]
    split_ifs with hkey
    · subst hkey
      rw [or_iff_right (hnone entry)]
      constructor
      · intro heq
        rw [← Option.some.inj heq]
      · intro heq
        cases entry
        cases heq
        rfl
    · simp [Ne.symm hkey]
  · intro seq k
    have hnone : ∀ k, (c.nextSeq, k) ∉ rs.map fun r => (r.1, r.2.key) := by
      intro k hmem
      obtain ⟨r, hr, heq⟩ := List.mem_map.1 hmem
      exact Nat.ne_of_lt (h.drawn r hr) (congrArg Prod.fst heq)
    rw [Cache.push, Std.ExtTreeMap.getElem?_insert, List.map_append, List.mem_append, List.map_singleton,
      List.mem_singleton, ← h.order]
    simp only [Std.LawfulEqCmp.compare_eq_iff_eq]
    split_ifs with hseq
    · subst hseq
      rw [h.order]
      simp [hnone, eq_comm]
    · simp [Ne.symm hseq]

end Lists

/-! ### Commands -/

/-- What can be asked of a cache. -/
inductive Command (V : Type) where
  | set (key : String) (value : V) (now : Instant)
  | get (key : String) (now : Instant)
  | purge (now : Instant)
  | clear

/-- What a cache gives back. -/
inductive Output (V : Type) where
  | done
  | read (value : Option V)
  | purged (count : Nat)

/-- What a command shows: its output, and the size and the counters after it. -/
structure Observation (V : Type) where
  output : Output V
  size : Nat
  hits : Nat
  misses : Nat

/-- Carries out a command. -/
def perform (c : Cache V) : Command V → Output V × Cache V
  | .set key value now => (.done, c.set key value now)
  | .get key now => (.read (c.get key now).1, (c.get key now).2)
  | .purge now => (.purged (c.purge now).1, (c.purge now).2)
  | .clear => (.done, c.clear)

/-- What a sequence of commands shows. -/
def observations (c : Cache V) : List (Command V) → List (Observation V)
  | [] => []
  | command :: commands =>
    let after := c.perform command
    ⟨after.1, after.2.size, after.2.hits, after.2.misses⟩ :: after.2.observations commands

end Cache

namespace RecordQueue

variable {V : Type}

/-- Carries out a command. -/
def perform (q : RecordQueue V) : Cache.Command V → Cache.Output V × RecordQueue V
  | .set key value now => (.done, q.set key value now)
  | .get key now => (.read (q.get key now).1, (q.get key now).2)
  | .purge now => (.purged (q.purge now).1, (q.purge now).2)
  | .clear => (.done, q.clear)

/-- What a sequence of commands shows. -/
def observations (q : RecordQueue V) : List (Cache.Command V) → List (Cache.Observation V)
  | [] => []
  | command :: commands =>
    let after := q.perform command
    ⟨after.1, after.2.records.length, after.2.hits, after.2.misses⟩ :: after.2.observations commands

end RecordQueue

namespace Cache

variable {V : Type}

/-- A cache and a queue hold the same records, with the same counters. -/
structure Refines (c : Cache V) (q : RecordQueue V) : Prop where
  ttl : c.ttl = q.ttl
  capacity : c.capacity = max q.capacity 1
  hits : c.hits = q.hits
  misses : c.misses = q.misses
  bounded : q.records.length ≤ c.capacity
  listed : ∃ rs, Lists c rs ∧ rs.map (·.2) = q.records

theorem Lists.empty (ttl : Duration) (capacity : Nat) : Lists (.empty ttl capacity : Cache V) [] := by
  constructor <;> simp [Cache.empty]

theorem Lists.clear (c : Cache V) : Lists c.clear [] := by
  constructor <;> simp [Cache.clear]

namespace Refines

variable {c : Cache V} {q : RecordQueue V}

theorem empty (ttl : Duration) (capacity : Nat) :
    Refines (.empty ttl capacity : Cache V) (.empty ttl capacity) :=
  ⟨rfl, rfl, rfl, rfl, Nat.zero_le _, [], Lists.empty ttl capacity, rfl⟩

theorem size_eq (h : Refines c q) : c.size = q.records.length := by
  obtain ⟨rs, hlists, hrecords⟩ := h.listed
  rw [hlists.size_eq, ← hrecords, List.length_map]

private theorem filter_snd (rs : List (Nat × Record V)) (p : Record V → Bool) :
    (rs.filter fun r => p r.2).map (·.2) = (rs.map (·.2)).filter p := by
  rw [List.filter_map]
  rfl

private theorem listed_set (h : Refines c q) (hzero : c.ttl.nanos ≠ 0) (key : String) (value : V) (now : Instant) :
    ∃ rs, Lists (c.set key value now) rs ∧ rs.map (·.2) = q.kept key ++ [⟨key, value, now⟩] := by
  obtain ⟨rs, hlists, hrecords⟩ := h.listed
  have keys : q.records.map Record.key = rs.map (·.2.key) := by
    rw [← hrecords, List.map_map]
    rfl
  have length : q.records.length = rs.length := by
    rw [← hrecords, List.length_map]
  rw [Cache.set, if_neg hzero]
  split_ifs with hcontains
  · rw [Std.ExtTreeMap.contains_iff_mem, hlists.mem_entries, ← keys] at hcontains
    have hnew : key ∉ (rs.filter fun r => RecordQueue.lacks key r.2).map (·.2.key) := by
      simp [RecordQueue.lacks]
    refine ⟨_, (hlists.remove key).push hnew value now, ?_⟩
    rw [List.map_append, filter_snd, hrecords, RecordQueue.kept, if_pos hcontains]
    rfl
  · rw [Std.ExtTreeMap.contains_iff_mem, hlists.mem_entries] at hcontains
    have hpos : 0 < c.capacity := by
      rw [h.capacity]
      omega
    have hnew : key ∉ (if rs.length = c.capacity then rs.tail else rs).map (·.2.key) := by
      split_ifs
      · exact fun hmem => hcontains (List.map_subset _ (List.tail_sublist rs).subset hmem)
      · exact hcontains
    refine ⟨_, (hlists.makeRoom hpos (length ▸ h.bounded)).push hnew value now, ?_⟩
    rw [List.map_append, RecordQueue.kept, keys, if_neg hcontains, length, ← h.capacity, ← hrecords]
    split_ifs
    · rw [List.map_tail]
      rfl
    · rfl

theorem set (h : Refines c q) (key : String) (value : V) (now : Instant) :
    Refines (c.set key value now) (q.set key value now) := by
  by_cases hzero : c.ttl.nanos = 0
  · rw [set_of_ttl_zero hzero, RecordQueue.set, if_pos (h.ttl ▸ hzero)]
    exact h
  · have listed := h.listed_set hzero key value now
    have room := RecordQueue.length_kept_lt (h.capacity ▸ h.bounded) key
    rw [RecordQueue.set, if_neg (h.ttl ▸ hzero)]
    rw [set_eq] at listed ⊢
    refine ⟨h.ttl, h.capacity, h.hits, h.misses, ?_, listed⟩
    dsimp only
    rw [List.length_append, List.length_singleton, h.capacity]
    omega

theorem mem_records_iff (h : Refines c q) {r : Record V} : r ∈ q.records ↔
    ∃ entry, c.entries[r.key]? = some entry ∧ r = ⟨r.key, entry.value, entry.storedAt⟩ := by
  obtain ⟨rs, hlists, hrecords⟩ := h.listed
  rw [← hrecords, List.mem_map]
  constructor
  · rintro ⟨⟨seq, r⟩, hr, rfl⟩
    exact ⟨⟨r.value, r.storedAt, seq⟩, (hlists.entries r.key _).2 hr, rfl⟩
  · rintro ⟨entry, hentry, hr⟩
    exact ⟨_, (hlists.entries r.key entry).1 hentry, hr.symm⟩

theorem stale_eq (h : Refines c q) (key : String) (now : Instant) (entry : Entry V) :
    q.stale now ⟨key, entry.value, entry.storedAt⟩ = c.isExpired now entry := by
  rw [RecordQueue.stale, isExpired, h.ttl]

/-- The record that a queue finds is made of the entry, unless that has expired. -/
private theorem find?_eq (h : Refines c q) (key : String) (now : Instant) :
    q.records.find? (fun r => r.key = key ∧ ¬q.stale now r) =
      (c.entries[key]?.filter (!c.isExpired now ·)).map fun entry => ⟨key, entry.value, entry.storedAt⟩ := by
  have found : ∀ r ∈ q.records, r.key = key ∧ ¬q.stale now r →
      some r = (c.entries[key]?.filter (!c.isExpired now ·)).map fun entry => ⟨key, entry.value, entry.storedAt⟩ := by
    rintro r hr ⟨rfl, hfresh⟩
    obtain ⟨entry, hentry, hr⟩ := h.mem_records_iff.1 hr
    rw [hr, h.stale_eq] at hfresh
    rw [hentry, Option.filter_some_pos (by simpa using hfresh), Option.map_some, ← hr]
  cases hfind : q.records.find? (fun r => r.key = key ∧ ¬q.stale now r) with
  | some r =>
    exact found r (List.mem_of_find?_eq_some hfind) (by simpa using List.find?_some hfind)
  | none =>
    symm
    rw [Option.map_eq_none_iff, Option.filter_eq_none_iff]
    intro entry hentry
    have hr : (⟨key, entry.value, entry.storedAt⟩ : Record V) ∈ q.records := h.mem_records_iff.2 ⟨entry, hentry, rfl⟩
    have := List.find?_eq_none.1 hfind _ hr
    simpa [h.stale_eq] using this

theorem get (h : Refines c q) (key : String) (now : Instant) :
    (c.get key now).1 = (q.get key now).1 ∧ Refines (c.get key now).2 (q.get key now).2 := by
  obtain ⟨rs, hlists, hrecords⟩ := h.listed
  rw [get_eq, RecordQueue.get, h.find?_eq key now]
  cases c.entries[key]?.filter (!c.isExpired now ·) with
  | some entry =>
    exact ⟨rfl, h.ttl, h.capacity, congrArg (· + 1) h.hits, h.misses, h.bounded, rs, hlists.congr rfl rfl rfl, hrecords⟩
  | none =>
    have removed := hlists.remove key
    rw [remove_eq] at removed ⊢
    refine ⟨rfl, h.ttl, h.capacity, h.hits, congrArg (· + 1) h.misses, ?_, _, removed.congr rfl rfl rfl, ?_⟩
    · exact Nat.le_trans (List.length_filter_le _ _) h.bounded
    · rw [filter_snd, hrecords]
      rfl

private theorem mem_expiredKeys (h : Refines c q) (now : Instant) (key : String) :
    key ∈ c.expiredKeys now ↔ key ∈ (q.records.filter (q.stale now)).map Record.key := by
  rw [mem_expiredKeys_iff, List.mem_map]
  constructor
  · rintro ⟨entry, hentry, hexpired⟩
    refine ⟨⟨key, entry.value, entry.storedAt⟩, List.mem_filter.2 ⟨?_, ?_⟩, rfl⟩
    · exact h.mem_records_iff.2 ⟨entry, hentry, rfl⟩
    · rw [h.stale_eq, hexpired]
  · rintro ⟨r, hr, rfl⟩
    obtain ⟨hr, hstale⟩ := List.mem_filter.1 hr
    obtain ⟨entry, hentry, hr⟩ := h.mem_records_iff.1 hr
    rw [hr, h.stale_eq] at hstale
    exact ⟨entry, hentry, hstale⟩

theorem purge (h : Refines c q) (now : Instant) :
    (c.purge now).1 = (q.purge now).1 ∧ Refines (c.purge now).2 (q.purge now).2 := by
  obtain ⟨rs, hlists, hrecords⟩ := h.listed
  have distinct : (q.records.map Record.key).Nodup := by
    rw [← hrecords, List.map_map]
    exact hlists.distinct
  constructor
  · have perm : (c.expiredKeys now).Perm ((q.records.filter (q.stale now)).map Record.key) :=
      (List.perm_ext_iff_of_nodup Std.ExtTreeMap.nodup_keys (distinct.sublist (List.filter_sublist.map _))).2
        (h.mem_expiredKeys now)
    rw [Cache.purge, RecordQueue.purge, perm.length_eq, List.length_map, List.countP_eq_length_filter]
  · have kept : rs.filter (fun r => r.2.key ∉ c.expiredKeys now) = rs.filter (fun r => !q.stale now r.2) := by
      refine List.filter_congr fun r hr => ?_
      have hmem : r.2 ∈ q.records := hrecords ▸ List.mem_map_of_mem hr
      rw [Bool.eq_iff_iff, decide_eq_true_eq, Bool.not_eq_true', ← Bool.not_eq_true, not_iff_not, h.mem_expiredKeys]
      constructor
      · intro hstale
        obtain ⟨s, hs, hkey⟩ := List.mem_map.1 hstale
        obtain ⟨hs, hstale⟩ := List.mem_filter.1 hs
        rwa [← List.inj_on_of_nodup_map distinct hs hmem hkey]
      · exact fun hstale => List.mem_map_of_mem (List.mem_filter.2 ⟨hmem, hstale⟩)
    have removed := hlists.foldl_remove (c.expiredKeys now)
    rw [kept, foldl_remove_eq] at removed
    rw [Cache.purge, foldl_remove_eq]
    refine ⟨h.ttl, h.capacity, h.hits, h.misses, ?_, _, removed, ?_⟩
    · exact Nat.le_trans (List.length_filter_le _ _) h.bounded
    · rw [filter_snd rs fun r => !q.stale now r, hrecords]
      rfl

theorem clear (h : Refines c q) : Refines c.clear q.clear :=
  ⟨h.ttl, h.capacity, h.hits, h.misses, Nat.zero_le _, [], Lists.clear c, rfl⟩

/-- A command has the same output and leaves a cache and a queue that agree. -/
theorem perform (h : Refines c q) (command : Command V) :
    (c.perform command).1 = (q.perform command).1 ∧ Refines (c.perform command).2 (q.perform command).2 := by
  cases command with
  | set key value now => exact ⟨rfl, h.set key value now⟩
  | get key now =>
    obtain ⟨hvalue, hafter⟩ := h.get key now
    exact ⟨congrArg Output.read hvalue, hafter⟩
  | purge now =>
    obtain ⟨hcount, hafter⟩ := h.purge now
    exact ⟨congrArg Output.purged hcount, hafter⟩
  | clear => exact ⟨rfl, h.clear⟩

theorem observations (h : Refines c q) (commands : List (Command V)) :
    c.observations commands = q.observations commands := by
  induction commands generalizing c q with
  | nil => rfl
  | cons command commands ih =>
    obtain ⟨houtput, hafter⟩ := h.perform command
    rw [Cache.observations, RecordQueue.observations, houtput, hafter.size_eq, hafter.hits, hafter.misses, ih hafter]

end Refines

/-- Whatever is asked of a cache, and at whatever times, it shows what a plain queue of records shows. -/
theorem observations_eq_queue (ttl : Duration) (capacity : Nat) (commands : List (Command V)) :
    (empty ttl capacity : Cache V).observations commands =
      (RecordQueue.empty ttl capacity).observations commands :=
  (Refines.empty ttl capacity).observations commands

end Cache

end RepoSearch
