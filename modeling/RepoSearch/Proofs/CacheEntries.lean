import RepoSearch.Cache
import Mathlib.Data.List.Dedup
import Mathlib.Data.List.Perm.Subperm
import Mathlib.Tactic.SplitIfs

/-!
# Entries of the cache

What reading and writing do to the entries of a cache. Reading and making room only remove entries, and a cache that
stores at all stores a value under its key and no entry under another one. Where there is room for all keys and no entry
grows old, nothing is removed.
-/

namespace RepoSearch.Cache

variable {V : Type}

/-- Every entry of the first cache is one of the second, under the same key. -/
def Within (c d : Cache V) : Prop :=
  ∀ (key : String) (entry : Entry V), c.entries[key]? = some entry → d.entries[key]? = some entry

theorem Within.refl (c : Cache V) : Within c c := fun _ _ h => h

theorem Within.trans {c d d' : Cache V} (h : Within c d) (h' : Within d d') : Within c d' :=
  fun key entry hc => h' key entry (h key entry hc)

private theorem within_of_erase {c d : Cache V} {key : String} (h : c.entries = d.entries.erase key) : Within c d := by
  intro k entry hk
  rw [h, Std.ExtTreeMap.getElem?_erase] at hk
  split_ifs at hk
  exact hk

theorem remove_eq (c : Cache V) (key : String) :
    c.remove key = { c with entries := (c.remove key).entries, order := (c.remove key).order } := by
  unfold remove
  split <;> rfl

theorem foldl_remove_eq (c : Cache V) (keys : List String) : keys.foldl remove c =
    { c with entries := (keys.foldl remove c).entries, order := (keys.foldl remove c).order } := by
  induction keys generalizing c with
  | nil => rfl
  | cons key keys ih =>
    rw [List.foldl_cons, ih, remove_eq]

theorem remove_within (c : Cache V) (key : String) : Within (c.remove key) c := by
  unfold remove
  split
  · exact Within.refl c
  · exact within_of_erase rfl

theorem get_within (c : Cache V) (key : String) (now : Instant) : Within (c.get key now).2 c := by
  unfold get
  split
  · exact Within.refl c
  · split
    · exact c.remove_within key
    · exact Within.refl c

theorem makeRoom_within (c : Cache V) (fuel : Nat) : Within (c.makeRoom fuel) c := by
  induction fuel generalizing c with
  | zero => exact Within.refl c
  | succ fuel ih =>
    unfold makeRoom
    split
    · exact Within.refl c
    · split
      · exact Within.refl c
      · exact (ih _).trans (within_of_erase rfl)

theorem makeRoom_of_room {c : Cache V} (h : c.size < c.capacity) (fuel : Nat) : c.makeRoom fuel = c := by
  cases fuel with
  | zero => rfl
  | succ fuel => rw [makeRoom, if_pos h]

theorem clear_within (c : Cache V) : Within c.clear c := by
  intro key entry h
  simp [clear] at h

/-- An expired entry is as good as absent. -/
theorem get_eq (c : Cache V) (key : String) (now : Instant) : c.get key now =
    match c.entries[key]?.filter (!c.isExpired now ·) with
    | some entry => (some entry.value, { c with hits := c.hits + 1 })
    | none => (none, { c.remove key with misses := c.misses + 1 }) := by
  unfold get
  cases hentry : c.entries[key]? with
  | none => simp [remove, hentry]
  | some entry =>
    by_cases hexpired : c.isExpired now entry = true
    · rw [Option.filter_some_neg (by simpa using hexpired)]
      simp only [hexpired, if_true]
      rw [remove_eq]
    · rw [Option.filter_some_pos (by simpa using hexpired)]
      simp only [hexpired, Bool.false_eq_true, if_false]

theorem get_eq_none_iff {c : Cache V} {key : String} {now : Instant} : (c.get key now).1 = none ↔
    ∀ entry, c.entries[key]? = some entry → c.isExpired now entry = true := by
  rw [get_eq]
  cases hentry : c.entries[key]? with
  | none => simp
  | some entry => by_cases hexpired : c.isExpired now entry = true <;> simp [hexpired, Option.filter]

/-- What is read under a key is the value of its entry. -/
theorem entry_of_get {c : Cache V} {key : String} {now : Instant} {value : V} (h : (c.get key now).1 = some value) :
    ∃ entry, c.entries[key]? = some entry ∧ entry.value = value := by
  unfold get at h
  split at h
  · cases h
  · rename_i entry hentry
    split at h
    · cases h
    · exact ⟨entry, hentry, Option.some.inj h⟩

/-! ### Writing -/

theorem set_of_ttl_zero {c : Cache V} (h : c.ttl.nanos = 0) (key : String) (value : V) (now : Instant) :
    c.set key value now = c := by
  rw [set, if_pos h]

/-- Once a key is written its entry has the written value, and the other entries were there before. -/
theorem entry_of_set {c : Cache V} (h : c.ttl.nanos ≠ 0) {key : String} {value : V} {now : Instant} {k : String}
    {entry : Entry V} (hk : (c.set key value now).entries[k]? = some entry) :
    k = key ∧ entry.value = value ∨ k ≠ key ∧ c.entries[k]? = some entry := by
  have pushed : ∀ d : Cache V, Within d c → (d.push key value now).entries[k]? = some entry →
      k = key ∧ entry.value = value ∨ k ≠ key ∧ c.entries[k]? = some entry := by
    intro d hd hpush
    rw [push, Std.ExtTreeMap.getElem?_insert] at hpush
    split_ifs at hpush with hkey
    · refine .inl ⟨(Std.LawfulEqCmp.compare_eq_iff_eq.1 hkey).symm, ?_⟩
      rw [← Option.some.inj hpush]
    · refine .inr ⟨fun heq => hkey (heq ▸ Std.ReflCmp.compare_self), hd k entry hpush⟩
  rw [set, if_neg h] at hk
  split_ifs at hk
  · exact pushed _ (c.remove_within key) hk
  · exact pushed _ (c.makeRoom_within _) hk

/-! ### What stays as it is -/

theorem makeRoom_eq (c : Cache V) (fuel : Nat) :
    c.makeRoom fuel = { c with entries := (c.makeRoom fuel).entries, order := (c.makeRoom fuel).order } := by
  induction fuel generalizing c with
  | zero => rfl
  | succ fuel ih =>
    unfold makeRoom
    split
    · rfl
    · split
      · rfl
      · exact ih _

/-- Writing leaves the bounds and the counters alone. -/
theorem set_eq (c : Cache V) (key : String) (value : V) (now : Instant) : c.set key value now = { c with
    entries := (c.set key value now).entries
    order := (c.set key value now).order
    nextSeq := (c.set key value now).nextSeq } := by
  unfold set
  split_ifs
  · rfl
  · rw [remove_eq]
    rfl
  · rw [makeRoom_eq]
    rfl

theorem set_ttl (c : Cache V) (key : String) (value : V) (now : Instant) : (c.set key value now).ttl = c.ttl := by
  rw [set_eq]

theorem get_ttl (c : Cache V) (key : String) (now : Instant) : (c.get key now).2.ttl = c.ttl := by
  unfold get
  split
  · rfl
  · split
    · dsimp only
      rw [remove_eq]
    · rfl

/-- A read counts one hit or one miss. -/
theorem get_counters (c : Cache V) (key : String) (now : Instant) :
    (c.get key now).2.hits = c.hits + (c.get key now).1.isSome.toNat ∧
    (c.get key now).2.misses = c.misses + (c.get key now).1.isNone.toNat := by
  rw [get_eq]
  cases c.entries[key]?.filter (!c.isExpired now ·) with
  | none =>
    dsimp only
    rw [remove_eq]
    exact ⟨rfl, rfl⟩
  | some entry => exact ⟨rfl, rfl⟩

/-! ### Removing what is expired -/

private theorem getElem?_foldl_remove (c : Cache V) (keys : List String) (k : String) :
    (keys.foldl remove c).entries[k]? = if k ∈ keys then none else c.entries[k]? := by
  induction keys generalizing c with
  | nil => simp
  | cons key keys ih =>
    have first : (c.remove key).entries[k]? = if k = key then none else c.entries[k]? := by
      unfold remove
      split
      · rename_i hnone
        split_ifs with hk
        · rw [hk, hnone]
        · rfl
      · simp [Std.ExtTreeMap.getElem?_erase, eq_comm (a := key)]
    rw [List.foldl_cons, ih, first]
    by_cases hk : k = key <;> simp [hk]

theorem mem_expiredKeys_iff {c : Cache V} {now : Instant} {k : String} :
    k ∈ c.expiredKeys now ↔ ∃ entry, c.entries[k]? = some entry ∧ c.isExpired now entry = true := by
  rw [expiredKeys, Std.ExtTreeMap.mem_keys, Std.ExtTreeMap.mem_iff_isSome_getElem?, Option.isSome_iff_exists]
  simp [Std.ExtTreeMap.getElem?_filter]

theorem getElem?_purge (c : Cache V) (now : Instant) (k : String) :
    (c.purge now).2.entries[k]? = c.entries[k]?.filter (!c.isExpired now ·) := by
  simp only [purge, getElem?_foldl_remove, mem_expiredKeys_iff]
  cases hentry : c.entries[k]? with
  | none => simp
  | some entry => by_cases hexpired : c.isExpired now entry = true <;> simp [hexpired, Option.filter]

/-! ### What a cache holds -/

/-- What a cache holds, whatever it has counted. -/
def contents (c : Cache V) : Cache V := { c with hits := 0, misses := 0 }

/-- The cache without the entry of a key, if that entry has expired. -/
def dropExpired (c : Cache V) (key : String) (now : Instant) : Cache V :=
  if c.entries[key]?.any (c.isExpired now) then c.remove key else c

theorem contents_remove (c : Cache V) (key : String) : (c.remove key).contents = c.contents.remove key := by
  have entries : c.contents.entries = c.entries := rfl
  rw [remove, remove, entries]
  cases c.entries[key]? <;> rfl

theorem contents_makeRoom (c : Cache V) (fuel : Nat) : (c.makeRoom fuel).contents = c.contents.makeRoom fuel := by
  induction fuel generalizing c with
  | zero => rfl
  | succ fuel ih =>
    have order : c.contents.order = c.order := rfl
    have room : c.contents.size < c.contents.capacity ↔ c.size < c.capacity := Iff.rfl
    simp only [makeRoom, room, order]
    split
    · rfl
    · cases c.order.minEntry? with
      | none => rfl
      | some oldest => exact ih _

/-- A read takes away the entry of its key, if that has expired, and nothing else. -/
theorem contents_get (c : Cache V) (key : String) (now : Instant) :
    (c.get key now).2.contents = c.contents.dropExpired key now := by
  have entries : c.contents.entries = c.entries := rfl
  have expired : c.contents.isExpired now = c.isExpired now := rfl
  rw [get, dropExpired, entries, expired, ← contents_remove]
  cases c.entries[key]? with
  | none => rfl
  | some entry =>
    simp only [Option.any_some]
    split <;> rfl

theorem contents_set (c : Cache V) (key : String) (value : V) (now : Instant) :
    (c.set key value now).contents = c.contents.set key value now := by
  have push : ∀ d : Cache V, (d.push key value now).contents = d.contents.push key value now := fun _ => rfl
  have ttl : c.contents.ttl = c.ttl := rfl
  have entries : c.contents.entries = c.entries := rfl
  have order : c.contents.order = c.order := rfl
  rw [set, set, ttl, entries, order]
  split
  · rfl
  · split
    · rw [push, contents_remove]
    · rw [push, contents_makeRoom]

/-! ### Writing where there is room -/

/-- A key that has no entry finds room for one, if there is room for all the keys. -/
theorem size_lt_of_room {c : Cache V} {keys : List String} (room : keys.dedup.length ≤ c.capacity)
    (known : ∀ key ∈ c.entries, key ∈ keys) {key : String} (hkey : key ∈ keys) (hnew : key ∉ c.entries) :
    c.size < c.capacity := by
  have nodup : (key :: c.entries.keys).Nodup := by
    refine List.nodup_cons.2 ⟨?_, Std.ExtTreeMap.nodup_keys⟩
    rwa [Std.ExtTreeMap.mem_keys]
  have subset : key :: c.entries.keys ⊆ keys.dedup := by
    intro k hk
    rw [List.mem_dedup]
    rcases List.mem_cons.1 hk with rfl | hk
    · exact hkey
    · exact known k (Std.ExtTreeMap.mem_keys.1 hk)
  have hlength := (nodup.subperm subset).length_le
  have hsize : c.size = c.entries.keys.length := Std.ExtTreeMap.length_keys.symm
  rw [List.length_cons] at hlength
  omega

/-- Writing a key that has an entry or finds room for one puts its entry beside the others. -/
theorem getElem?_set_of_room {c : Cache V} (keeps : c.ttl.nanos ≠ 0) {key : String}
    (room : key ∉ c.entries → c.size < c.capacity) (value : V) (time : Instant) (k : String) :
    (c.set key value time).entries[k]? = if key = k then some ⟨value, time, c.nextSeq⟩ else c.entries[k]? := by
  rw [set, if_neg keeps]
  by_cases hmem : key ∈ c.entries
  · have hcontains : c.entries.contains key = true := Std.ExtTreeMap.contains_iff_mem.2 hmem
    obtain ⟨entry, hentry⟩ := Option.isSome_iff_exists.1 (Std.ExtTreeMap.mem_iff_isSome_getElem?.1 hmem)
    rw [if_pos hcontains, push, remove, hentry]
    simp only [Std.ExtTreeMap.getElem?_insert, Std.ExtTreeMap.getElem?_erase, Std.LawfulEqCmp.compare_eq_iff_eq]
    split_ifs <;> rfl
  · have hcontains : ¬c.entries.contains key = true := fun hc => hmem (Std.ExtTreeMap.contains_iff_mem.1 hc)
    rw [if_neg hcontains, makeRoom_of_room (room hmem), push]
    simp only [Std.ExtTreeMap.getElem?_insert, Std.LawfulEqCmp.compare_eq_iff_eq]

/-! ### A cache that loses nothing -/

/-- A cache that keeps what it is given: it has room for all the keys, and its entries are fresh and belong to them. -/
structure Roomy (keys : List String) (now : Instant) (c : Cache V) : Prop where
  keeps : 0 < c.ttl.nanos
  room : keys.dedup.length ≤ c.capacity
  known : ∀ (key : String) (entry : Entry V), c.entries[key]? = some entry → key ∈ keys
  fresh : ∀ (key : String) (entry : Entry V), c.entries[key]? = some entry → c.isExpired now entry = false

theorem Roomy.empty {keys : List String} {ttl : Duration} {capacity : Nat} (keeps : 0 < ttl.nanos)
    (room : keys.dedup.length ≤ capacity) (now : Instant) : (Cache.empty ttl capacity : Cache V).Roomy keys now where
  keeps := keeps
  room := Nat.le_trans room (Nat.le_max_left capacity 1)
  known := by simp [Cache.empty]
  fresh := by simp [Cache.empty]

/-- Reading only counts. -/
theorem Roomy.get_eq {keys : List String} {now : Instant} {c : Cache V} (h : c.Roomy keys now) (key : String) :
    (c.get key now).2 = { c with hits := (c.get key now).2.hits, misses := (c.get key now).2.misses } := by
  unfold Cache.get
  split
  · rfl
  · rename_i entry hentry
    rw [h.fresh key entry hentry]
    rfl

theorem Roomy.get {keys : List String} {now : Instant} {c : Cache V} (h : c.Roomy keys now) (key : String) :
    (c.get key now).2.Roomy keys now := by
  rw [h.get_eq key]
  exact ⟨h.keeps, h.room, h.known, h.fresh⟩

/-- Writing a key puts its entry beside the others. -/
theorem Roomy.getElem?_set {keys : List String} {now : Instant} {c : Cache V} (h : c.Roomy keys now) {key : String}
    (hkey : key ∈ keys) (value : V) (time : Instant) (k : String) : (c.set key value time).entries[k]? =
      if key = k then some ⟨value, time, c.nextSeq⟩ else c.entries[k]? := by
  have known : ∀ key ∈ c.entries, key ∈ keys := by
    intro key hmem
    obtain ⟨entry, hentry⟩ := Option.isSome_iff_exists.1 (Std.ExtTreeMap.mem_iff_isSome_getElem?.1 hmem)
    exact h.known key entry hentry
  exact getElem?_set_of_room (Nat.pos_iff_ne_zero.1 h.keeps) (size_lt_of_room h.room known hkey) value time k

theorem Roomy.mem_set {keys : List String} {now : Instant} {c : Cache V} (h : c.Roomy keys now) {key : String}
    (hkey : key ∈ keys) (value : V) (time : Instant) (k : String) :
    k ∈ (c.set key value time).entries ↔ k ∈ c.entries ∨ key = k := by
  rw [Std.ExtTreeMap.mem_iff_isSome_getElem?, h.getElem?_set hkey, Std.ExtTreeMap.mem_iff_isSome_getElem?]
  split_ifs with heq <;> simp [heq]

theorem Roomy.set {keys : List String} {now : Instant} {c : Cache V} (h : c.Roomy keys now) {key : String}
    (hkey : key ∈ keys) (value : V) {time : Instant} (htime : now.since time ≤ c.ttl) :
    (c.set key value time).Roomy keys now := by
  have hisExpired : (c.set key value time).isExpired now = c.isExpired now := by
    funext entry
    rw [isExpired, set_ttl, isExpired]
  constructor
  · rw [set_ttl]
    exact h.keeps
  · rw [set_eq]
    exact h.room
  · intro k entry hentry
    rw [h.getElem?_set hkey] at hentry
    split_ifs at hentry with hk
    · exact hk ▸ hkey
    · exact h.known k entry hentry
  · intro k entry hentry
    rw [hisExpired]
    rw [h.getElem?_set hkey] at hentry
    split_ifs at hentry with hk
    · rw [← Option.some.inj hentry]
      have : ¬c.ttl < now.since time := Nat.not_lt.2 htime
      exact decide_eq_false this
    · exact h.fresh k entry hentry

end RepoSearch.Cache
