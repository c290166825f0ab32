import RepoSearch.Proofs.CacheQueue

/-!
# Runs of the cache

A cache is asked one command after another. What it reads on the way, and the entries that it ends up with, are those of
the queue that it refines.
-/

namespace RepoSearch

namespace Cache

variable {V : Type}

/-- The time at which a command is given; clearing takes none. -/
def Command.time? : Command V → Option Instant
  | .set _ _ now | .get _ now | .purge now => some now
  | .clear => none

/-- The times at which commands are given. -/
def times (commands : List (Command V)) : List Instant := commands.filterMap Command.time?

/-- No command is given before an earlier one. -/
def InTime (commands : List (Command V)) : Prop := (times commands).Pairwise fun s t => s.nanos ≤ t.nanos

def Output.value? : Output V → Option (Option V)
  | .read value => some value
  | _ => none

/-- What a read gives, and the counters after it. -/
structure Reading (V : Type) where
  value : Option V
  hits : Nat
  misses : Nat
  deriving DecidableEq

def Observation.reading? (o : Observation V) : Option (Reading V) :=
  o.output.value?.map fun value => ⟨value, o.hits, o.misses⟩

/-- What the reads in a sequence of commands give. -/
def readings (c : Cache V) (commands : List (Command V)) : List (Reading V) :=
  (c.observations commands).filterMap Observation.reading?

/-- The cache after a sequence of commands. -/
def after (c : Cache V) (commands : List (Command V)) : Cache V :=
  commands.foldl (fun c command => (c.perform command).2) c

theorem after_append (c : Cache V) (commands commands' : List (Command V)) :
    c.after (commands ++ commands') = (c.after commands).after commands' :=
  List.foldl_append

theorem times_cons (command : Command V) (commands : List (Command V)) :
    times (command :: commands) = command.time?.toList ++ times commands := by
  unfold times
  cases h : command.time? <;> simp [h]

/-- There is a time before all commands and before a given one. -/
theorem InTime.exists_start {commands : List (Command V)} (h : InTime commands) (now : Instant) :
    ∃ start : Instant, start.nanos ≤ now.nanos ∧ ∀ t ∈ times commands, start.nanos ≤ t.nanos := by
  unfold InTime at h
  cases hts : times commands with
  | nil => exact ⟨now, Int.le_refl _, by simp⟩
  | cons s ts =>
    rw [hts, List.pairwise_cons] at h
    refine ⟨⟨min now.nanos s.nanos⟩, Int.min_le_left _ _, fun t ht => ?_⟩
    rcases List.mem_cons.1 ht with rfl | ht
    · exact Int.min_le_right _ _
    · exact Int.le_trans (Int.min_le_right _ _) (h.1 t ht)

/-- After the first of some commands the clock stands at its time, and the others come later. -/
theorem InTime.of_cons {command : Command V} {commands : List (Command V)} (h : InTime (command :: commands))
    {now : Instant} (hlater : ∀ t ∈ times (command :: commands), now.nanos ≤ t.nanos) :
    (∀ t, command.time? = some t → now.nanos ≤ t.nanos) ∧ InTime commands ∧
      ∀ t ∈ times commands, (command.time?.getD now).nanos ≤ t.nanos := by
  rw [times_cons] at hlater
  unfold InTime at h
  rw [times_cons, List.pairwise_append] at h
  obtain ⟨-, hrest, hfirst⟩ := h
  refine ⟨fun t ht => hlater t (by simp [ht]), hrest, fun t ht => ?_⟩
  cases htime : command.time? with
  | none => exact hlater t (List.mem_append_right _ ht)
  | some u => exact hfirst u (by simp [htime]) t ht

end Cache

namespace RecordQueue

variable {V : Type}

/-- What the reads in a sequence of commands give. -/
def readings (q : RecordQueue V) (commands : List (Cache.Command V)) : List (Cache.Reading V) :=
  (q.observations commands).filterMap Cache.Observation.reading?

/-- The queue after a sequence of commands. -/
def after (q : RecordQueue V) (commands : List (Cache.Command V)) : RecordQueue V :=
  commands.foldl (fun q command => (q.perform command).2) q

/-- What a command reads from a queue, if it is a read. -/
def reading? (q : RecordQueue V) (command : Cache.Command V) : Option (Cache.Reading V) :=
  (q.perform command).1.value?.map fun value => ⟨value, (q.perform command).2.hits, (q.perform command).2.misses⟩

theorem readings_cons (q : RecordQueue V) (command : Cache.Command V) (commands : List (Cache.Command V)) :
    q.readings (command :: commands) = (q.reading? command).toList ++ (q.perform command).2.readings commands := by
  unfold readings reading?
  rw [observations, List.filterMap_cons, Cache.Observation.reading?]
  cases (q.perform command).1.value? <;> rfl

theorem after_cons (q : RecordQueue V) (command : Cache.Command V) (commands : List (Cache.Command V)) :
    q.after (command :: commands) = (q.perform command).2.after commands := rfl

theorem after_concat (q : RecordQueue V) (commands : List (Cache.Command V)) (command : Cache.Command V) :
    q.after (commands ++ [command]) = ((q.after commands).perform command).2 := by
  unfold after
  rw [List.foldl_append]
  rfl

theorem kept_sublist (q : RecordQueue V) (key : String) : (q.kept key).Sublist q.records := by
  unfold kept
  split_ifs
  · exact List.filter_sublist
  · exact List.tail_sublist _
  · exact List.Sublist.refl _

/-- Commands leave the bounds of a queue alone. -/
theorem perform_bounds (q : RecordQueue V) (command : Cache.Command V) :
    (q.perform command).2.ttl = q.ttl ∧ (q.perform command).2.capacity = q.capacity := by
  cases command with
  | set key value now =>
    simp only [perform, set]
    split <;> exact ⟨rfl, rfl⟩
  | get key now =>
    simp only [perform, get]
    split <;> exact ⟨rfl, rfl⟩
  | purge now => exact ⟨rfl, rfl⟩
  | clear => exact ⟨rfl, rfl⟩

/-- A record of a queue was there before, or was made at the time of some command. -/
theorem mem_records_perform {q : RecordQueue V} {command : Cache.Command V} {r : Record V}
    (h : r ∈ (q.perform command).2.records) : r ∈ q.records ∨ command.time? = some r.storedAt := by
  cases command with
  | set key value now =>
    simp only [perform, set] at h
    split_ifs at h
    · exact .inl h
    · rcases List.mem_append.1 h with h | h
      · exact .inl ((q.kept_sublist key).subset h)
      · rw [List.mem_singleton.1 h]
        exact .inr rfl
  | get key now =>
    simp only [perform, get] at h
    split at h
    · exact .inl h
    · exact .inl (List.mem_of_mem_filter h)
  | purge now => exact .inl (List.mem_of_mem_filter h)
  | clear => cases h

theorem after_bounds (q : RecordQueue V) (commands : List (Cache.Command V)) :
    (q.after commands).ttl = q.ttl ∧ (q.after commands).capacity = q.capacity := by
  induction commands generalizing q with
  | nil => exact ⟨rfl, rfl⟩
  | cons command commands ih =>
    obtain ⟨httl, hcapacity⟩ := q.perform_bounds command
    rw [after_cons, (ih _).1, (ih _).2]
    exact ⟨httl, hcapacity⟩

end RecordQueue

namespace Cache.Refines

variable {V : Type} {c : Cache V} {q : RecordQueue V}

theorem readings (h : Refines c q) (commands : List (Command V)) : c.readings commands = q.readings commands := by
  rw [Cache.readings, RecordQueue.readings, h.observations]

theorem after (h : Refines c q) (commands : List (Command V)) : Refines (c.after commands) (q.after commands) := by
  induction commands generalizing c q with
  | nil => exact h
  | cons command commands ih => exact ih (h.perform command).2

/-- A key has an entry exactly if it has a record. -/
theorem mem_entries_iff (h : Refines c q) (key : String) : key ∈ c.entries ↔ ∃ r ∈ q.records, r.key = key := by
  rw [Std.ExtTreeMap.mem_iff_isSome_getElem?, Option.isSome_iff_exists]
  constructor
  · rintro ⟨entry, hentry⟩
    exact ⟨⟨key, entry.value, entry.storedAt⟩, h.mem_records_iff.2 ⟨entry, hentry, rfl⟩, rfl⟩
  · rintro ⟨r, hr, rfl⟩
    obtain ⟨entry, hentry, -⟩ := h.mem_records_iff.1 hr
    exact ⟨entry, hentry⟩

/-- No entry has expired exactly if no record is stale. -/
theorem all_fresh_iff (h : Refines c q) (now : Instant) :
    (∀ (key : String) (entry : Entry V), c.entries[key]? = some entry → c.isExpired now entry = false) ↔
      ∀ r ∈ q.records, q.stale now r = false := by
  constructor
  · intro hfresh r hr
    obtain ⟨entry, hentry, hr⟩ := h.mem_records_iff.1 hr
    rw [hr, h.stale_eq]
    exact hfresh r.key entry hentry
  · intro hfresh key entry hentry
    rw [← h.stale_eq key]
    exact hfresh _ (h.mem_records_iff.2 ⟨entry, hentry, rfl⟩)

end Cache.Refines

end RepoSearch
