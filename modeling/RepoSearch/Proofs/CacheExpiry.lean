import RepoSearch.Proofs.CacheRuns

/-!
# When expired entries go does not matter

Expired entries may be removed early or late: what a cache reads, and what it counts, is the same. Removing the stale
records of a queue commutes with every command that is given at the same time. For a write this needs the records to
stand in the order of their times: a full queue that has a stale record has one in front, and loses that one.
-/

namespace RepoSearch

namespace Cache

variable {V : Type}

def Command.isPurge : Command V → Bool
  | .purge _ => true
  | _ => false

/-- The commands other than purges. -/
def withoutPurges (commands : List (Command V)) : List (Command V) := commands.filter (!·.isPurge)

/-- The commands, with a purge right before each that is given at a time. -/
def eagerly (commands : List (Command V)) : List (Command V) :=
  commands.flatMap fun command => (command.time?.map .purge).toList ++ [command]

end Cache

namespace RecordQueue

variable {V : Type} {q q' : RecordQueue V} {now later : Instant}

/-! ### Queues in the order of time -/

/-- The records stand in the order of their times, which have passed, and are no more than there is room for. -/
structure Timely (q : RecordQueue V) (now : Instant) : Prop where
  bounded : q.records.length ≤ max q.capacity 1
  ascending : q.records.Pairwise fun r s => r.storedAt.nanos ≤ s.storedAt.nanos
  past : ∀ r ∈ q.records, r.storedAt.nanos ≤ now.nanos

theorem Timely.mono (h : Timely q now) (hle : now.nanos ≤ later.nanos) : Timely q later :=
  ⟨h.bounded, h.ascending, fun r hr => Int.le_trans (h.past r hr) hle⟩

private theorem Timely.of_sublist (h : Timely q now) {rs : List (Record V)} (hrs : rs.Sublist q.records)
    (hits misses : Nat) : Timely ⟨q.ttl, q.capacity, rs, hits, misses⟩ now :=
  ⟨Nat.le_trans hrs.length_le h.bounded, h.ascending.sublist hrs, fun r hr => h.past r (hrs.subset hr)⟩

theorem Timely.set (h : Timely q now) (key : String) (value : V) : Timely (q.set key value now) now := by
  have hkept := h.of_sublist (q.kept_sublist key) q.hits q.misses
  have hroom := length_kept_lt h.bounded key
  unfold RecordQueue.set
  split_ifs
  · exact h
  · constructor
    · simp only [List.length_append, List.length_singleton]
      omega
    · rw [List.pairwise_append]
      refine ⟨hkept.ascending, List.pairwise_singleton _ _, fun r hr s hs => ?_⟩
      rw [List.mem_singleton.1 hs]
      exact hkept.past r hr
    · intro r hr
      rcases List.mem_append.1 hr with hr | hr
      · exact hkept.past r hr
      · obtain rfl := List.mem_singleton.1 hr
        exact Int.le_refl _

/-- A queue stays in the order of time when a command is given that does not come before an earlier one. -/
theorem Timely.perform (h : Timely q now) (command : Cache.Command V)
    (hlater : ∀ t, command.time? = some t → now.nanos ≤ t.nanos) :
    Timely (q.perform command).2 (command.time?.getD now) := by
  cases command with
  | set key value t => exact (h.mono (hlater t rfl)).set key value
  | get key t =>
    have ht := h.mono (hlater t rfl)
    simp only [RecordQueue.perform, RecordQueue.get]
    split
    · exact ht.of_sublist (List.Sublist.refl _) _ _
    · exact ht.of_sublist List.filter_sublist _ _
  | purge t => exact (h.mono (hlater t rfl)).of_sublist List.filter_sublist _ _
  | clear => exact h.of_sublist (List.nil_sublist _) _ _

theorem stale_iff {r : Record V} : q.stale now r = true ↔ q.ttl.nanos < (now.nanos - r.storedAt.nanos).toNat := by
  unfold stale
  rw [decide_eq_true_eq]
  rfl

theorem stale_mono (hle : now.nanos ≤ later.nanos) {r : Record V} (h : q.stale now r = true) :
    q.stale later r = true := by
  rw [stale_iff] at *
  omega

/-- A record is stale if one that came after it is. -/
theorem stale_of_le {r s : Record V} (hle : r.storedAt.nanos ≤ s.storedAt.nanos) (h : q.stale now s = true) :
    q.stale now r = true := by
  rw [stale_iff] at *
  omega

/-- The first record is the oldest: if it is not stale, none is. -/
theorem Timely.fresh_of_first (h : Timely q now) {first : Record V} {others : List (Record V)}
    (hrecords : q.records = first :: others) (hfirst : q.stale now first = false) :
    ∀ r ∈ q.records, q.stale now r = false := by
  have hascending := h.ascending
  rw [hrecords, List.pairwise_cons] at hascending
  intro r hr
  rw [hrecords] at hr
  rcases List.mem_cons.1 hr with rfl | hr
  · exact hfirst
  · rw [← Bool.not_eq_true] at *
    intro hstale
    exact hfirst (stale_of_le (hascending.1 r hr) hstale)

theorem kept_of_room {key : String} (hnew : ∀ r ∈ q.records, r.key ≠ key)
    (hroom : q.records.length < max q.capacity 1) : q.kept key = q.records := by
  have hkey : key ∉ q.records.map Record.key := by simpa using hnew
  rw [kept, if_neg hkey, if_neg (by omega)]

theorem kept_of_full {key : String} (hnew : ∀ r ∈ q.records, r.key ≠ key)
    (hfull : q.records.length = max q.capacity 1) : q.kept key = q.records.tail := by
  have hkey : key ∉ q.records.map Record.key := by simpa using hnew
  rw [kept, if_neg hkey, if_pos hfull]

/-- A queue that loses a record which is not stale is full, and has no stale record. -/
theorem Timely.lost (h : Timely q now) {key : String} {r : Record V} (hr : r ∈ q.records) (hother : r.key ≠ key)
    (hfresh : q.stale now r = false) (hlost : r ∉ q.kept key) :
    q.records.length = max q.capacity 1 ∧ ∀ s ∈ q.records, q.stale now s = false := by
  unfold kept at hlost
  split_ifs at hlost with hkey hfull
  · exact absurd (List.mem_filter.2 ⟨hr, lacks_iff.2 hother⟩) hlost
  · refine ⟨hfull, ?_⟩
    cases hrecords : q.records with
    | nil => simp
    | cons first others =>
      rw [hrecords] at hr hlost
      rcases List.mem_cons.1 hr with rfl | hr
      · rw [← hrecords]
        exact h.fresh_of_first hrecords hfresh
      · exact absurd hr hlost
  · exact absurd hr hlost

/-! ### Queues without their stale records -/

/-- The queue without its stale records. -/
def tidy (q : RecordQueue V) (now : Instant) : RecordQueue V := (q.purge now).2

/-- It does not matter that stale records have been removed once before. -/
theorem tidy_tidy (hle : now.nanos ≤ later.nanos) : (q.tidy now).tidy later = q.tidy later := by
  have records : (q.records.filter (!q.stale now ·)).filter (!q.stale later ·) = q.records.filter (!q.stale later ·) := by
    rw [List.filter_filter]
    refine List.filter_congr fun r _ => ?_
    cases hnow : q.stale now r with
    | true => simp [stale_mono hle hnow]
    | false => simp
  exact congrArg (fun rs => { q with records := rs }) records

theorem tidy_clear : q.clear.tidy now = (q.tidy now).clear := rfl

theorem tidy_get (q : RecordQueue V) (key : String) (now : Instant) : ((q.tidy now).get key now).1 = (q.get key now).1 ∧
    ((q.tidy now).get key now).2 = (q.get key now).2.tidy now := by
  have found : (q.tidy now).records.find? (fun r => r.key = key ∧ ¬(q.tidy now).stale now r) =
      q.records.find? fun r => r.key = key ∧ ¬q.stale now r := by
    have hstale : (q.tidy now).stale now = q.stale now := rfl
    rw [hstale]
    simp only [tidy, purge, List.find?_filter]
    congr 1
    funext r
    cases q.stale now r <;> simp
  rw [get, get, found]
  split
  · exact ⟨rfl, rfl⟩
  · refine ⟨rfl, ?_⟩
    have records : (q.records.filter (!q.stale now ·)).filter (lacks key) =
        (q.records.filter (lacks key)).filter (!q.stale now ·) := by
      rw [List.filter_filter, List.filter_filter]
      simp only [Bool.and_comm]
    simp only [tidy, purge, records]
    rfl

theorem mem_tidy {r : Record V} : r ∈ (q.tidy now).records ↔ r ∈ q.records ∧ q.stale now r = false := by
  simp [tidy, purge]

private theorem length_tidy_lt {r : Record V} (hr : r ∈ q.records) (hstale : q.stale now r = true) :
    (q.tidy now).records.length < q.records.length := by
  unfold tidy purge
  rw [List.length_filter_lt_length_iff_exists]
  exact ⟨r, hr, by simp [hstale]⟩

private theorem tidy_of_fresh (hfresh : ∀ r ∈ q.records, q.stale now r = false) : q.tidy now = q := by
  have records : q.records.filter (!q.stale now ·) = q.records := by
    rw [List.filter_eq_self]
    intro r hr
    rw [hfresh r hr]
    rfl
  exact congrArg (fun rs => { q with records := rs }) records

private theorem tidy_kept_of_mem (h : Timely q now) {r : Record V} (hr : r ∈ q.records) :
    (q.tidy now).kept r.key = (q.kept r.key).filter (!q.stale now ·) := by
  have hkey : r.key ∈ q.records.map Record.key := List.mem_map_of_mem hr
  have swapped : (q.kept r.key).filter (!q.stale now ·) = (q.tidy now).records.filter (lacks r.key) := by
    rw [kept, if_pos hkey, List.filter_filter, tidy, purge, List.filter_filter]
    simp only [Bool.and_comm]
  rw [swapped]
  by_cases hfresh : ∃ s ∈ (q.tidy now).records, s.key = r.key
  · rw [kept, if_pos (List.mem_map.2 hfresh)]
  · -- The record of the key is stale, so there is room without it.
    push Not at hfresh
    have hstale : q.stale now r = true := by
      rw [← Bool.not_eq_false]
      intro hnot
      exact hfresh r (mem_tidy.2 ⟨hr, hnot⟩) rfl
    rw [List.filter_eq_self.2 fun s hs => lacks_iff.2 (hfresh s hs)]
    exact kept_of_room hfresh (Nat.lt_of_lt_of_le (length_tidy_lt hr hstale) h.bounded)

private theorem tidy_kept_of_full (h : Timely q now) {key : String} (hnew : ∀ r ∈ q.records, r.key ≠ key)
    (hfull : q.records.length = max q.capacity 1) :
    (q.tidy now).kept key = (q.kept key).filter (!q.stale now ·) := by
  rw [kept_of_full hnew hfull]
  cases hrecords : q.records with
  | nil =>
    rw [hrecords, List.length_nil] at hfull
    omega
  | cons first others =>
    by_cases hstale : q.stale now first = true
    · -- The record that the full queue loses is stale.
      have hfirst : first ∈ q.records := by rw [hrecords]; exact List.mem_cons_self
      have hroom := Nat.lt_of_lt_of_le (length_tidy_lt hfirst hstale) h.bounded
      rw [kept_of_room (fun r hr => hnew r (mem_tidy.1 hr).1) hroom]
      simp [tidy, purge, hrecords, hstale]
    · have hfresh := h.fresh_of_first hrecords (Bool.eq_false_iff.2 hstale)
      rw [tidy_of_fresh hfresh, kept_of_full hnew hfull, hrecords, List.tail_cons, List.filter_eq_self.2]
      intro r hr
      rw [hfresh r (by rw [hrecords]; exact List.mem_cons_of_mem first hr)]
      rfl

/-- Writing a key leaves the same records that are not stale, whether or not the stale ones have been removed. -/
theorem Timely.tidy_kept (h : Timely q now) (key : String) :
    (q.tidy now).kept key = (q.kept key).filter (!q.stale now ·) := by
  by_cases hmem : ∃ r ∈ q.records, r.key = key
  · obtain ⟨r, hr, rfl⟩ := hmem
    exact tidy_kept_of_mem h hr
  · push Not at hmem
    by_cases hfull : q.records.length = max q.capacity 1
    · exact tidy_kept_of_full h hmem hfull
    · have hroom : q.records.length < max q.capacity 1 := by
        have := h.bounded
        omega
      have hroom' : (q.tidy now).records.length < max (q.tidy now).capacity 1 :=
        Nat.lt_of_le_of_lt (List.length_filter_le _ _) hroom
      rw [kept_of_room hmem hroom, kept_of_room (fun r hr => hmem r (mem_tidy.1 hr).1) hroom']
      rfl

theorem Timely.tidy_set (h : Timely q now) (key : String) (value : V) :
    (q.tidy now).set key value now = (q.set key value now).tidy now := by
  have hnew : q.stale now ⟨key, value, now⟩ = false := by
    rw [← Bool.not_eq_true, stale_iff]
    simp
  unfold RecordQueue.set
  have httl : (q.tidy now).ttl = q.ttl := rfl
  rw [httl]
  split_ifs
  · rfl
  · rw [h.tidy_kept]
    have records : (q.kept key).filter (!q.stale now ·) ++ [(⟨key, value, now⟩ : Record V)] =
        (q.kept key ++ [(⟨key, value, now⟩ : Record V)]).filter (!q.stale now ·) := by
      rw [List.filter_append, List.filter_singleton, hnew]
      rfl
    rw [records]
    rfl

/-! ### Two queues that differ in stale records -/

/-- The queues are the same once their stale records are removed. -/
def SameFresh (now : Instant) (q q' : RecordQueue V) : Prop := q.tidy now = q'.tidy now

theorem SameFresh.mono (h : SameFresh now q q') (hle : now.nanos ≤ later.nanos) : SameFresh later q q' := by
  have := congrArg (tidy · later) h
  simpa only [SameFresh, tidy_tidy hle] using this

theorem SameFresh.counters (h : SameFresh now q q') : q.hits = q'.hits ∧ q.misses = q'.misses := by
  have hits : (q.tidy now).hits = (q'.tidy now).hits := by rw [h]
  have misses : (q.tidy now).misses = (q'.tidy now).misses := by rw [h]
  exact ⟨hits, misses⟩

/-- Purging one of the two queues makes no difference. -/
theorem SameFresh.purge (h : SameFresh now q q') : SameFresh now (q.purge now).2 q' :=
  (tidy_tidy (Int.le_refl _)).trans h

/-- Any other command has the same output, and leaves queues that differ in stale records. -/
theorem SameFresh.perform (h : SameFresh now q q') (hq : Timely q now) (hq' : Timely q' now)
    {command : Cache.Command V} (hpurge : command.isPurge = false)
    (hlater : ∀ t, command.time? = some t → now.nanos ≤ t.nanos) :
    (q.perform command).1 = (q'.perform command).1 ∧
      SameFresh (command.time?.getD now) (q.perform command).2 (q'.perform command).2 := by
  cases command with
  | set key value t =>
    have hle := hlater t rfl
    have hsame := h.mono hle
    refine ⟨rfl, ?_⟩
    calc ((q.set key value t).tidy t)
      _ = (q.tidy t).set key value t := ((hq.mono hle).tidy_set key value).symm
      _ = (q'.tidy t).set key value t := by rw [hsame]
      _ = (q'.set key value t).tidy t := (hq'.mono hle).tidy_set key value
  | get key t =>
    have hsame := h.mono (hlater t rfl)
    obtain ⟨hvalue, hafter⟩ := q.tidy_get key t
    obtain ⟨hvalue', hafter'⟩ := q'.tidy_get key t
    rw [hsame] at hvalue hafter
    exact ⟨congrArg Cache.Output.read (hvalue.symm.trans hvalue'), hafter.symm.trans hafter'⟩
  | purge t => cases hpurge
  | clear =>
    refine ⟨rfl, ?_⟩
    have := congrArg clear h
    rwa [← tidy_clear, ← tidy_clear] at this

/-- Commands that are given in the order of time read the same without the purges among them. -/
theorem SameFresh.run (h : SameFresh now q q') (hq : Timely q now) (hq' : Timely q' now)
    {commands : List (Cache.Command V)} (inTime : Cache.InTime commands)
    (hlater : ∀ t ∈ Cache.times commands, now.nanos ≤ t.nanos) :
    q.readings commands = q'.readings (Cache.withoutPurges commands) ∧
      ∃ last, SameFresh last (q.after commands) (q'.after (Cache.withoutPurges commands)) := by
  induction commands generalizing q q' now with
  | nil => exact ⟨rfl, now, h⟩
  | cons command commands ih =>
    obtain ⟨hnow, hrest, hnext⟩ := inTime.of_cons hlater
    have hqnext := hq.perform command hnow
    rw [readings_cons, after_cons]
    cases hpurge : command.isPurge with
    | true =>
      cases command with
      | purge t =>
        have hsame := (h.mono (hnow t rfl)).purge
        exact ih hsame hqnext (hq'.mono (hnow t rfl)) hrest hnext
      | _ => cases hpurge
    | false =>
      have hkeep : Cache.withoutPurges (command :: commands) = command :: Cache.withoutPurges commands := by
        simp [Cache.withoutPurges, hpurge]
      obtain ⟨houtput, hsame⟩ := h.perform hq hq' hpurge hnow
      obtain ⟨hreadings, hlast⟩ := ih hsame hqnext (hq'.perform command hnow) hrest hnext
      have hreading : q.reading? command = q'.reading? command := by
        rw [reading?, reading?, houtput, hsame.counters.1, hsame.counters.2]
      rw [hkeep, readings_cons, after_cons, hreading, hreadings]
      exact ⟨rfl, hlast⟩

theorem Timely.empty (ttl : Duration) (capacity : Nat) (now : Instant) :
    Timely (.empty ttl capacity : RecordQueue V) now := by
  constructor <;> simp [RecordQueue.empty]

theorem Timely.after (h : Timely q now) {commands : List (Cache.Command V)} (inTime : Cache.InTime commands)
    (hlater : ∀ t ∈ Cache.times commands, now.nanos ≤ t.nanos) (hle : now.nanos ≤ later.nanos)
    (hlast : ∀ t ∈ Cache.times commands, t.nanos ≤ later.nanos) : Timely (q.after commands) later := by
  induction commands generalizing q now with
  | nil => exact h.mono hle
  | cons command commands ih =>
    obtain ⟨hnow, hrest, hnext⟩ := inTime.of_cons hlater
    rw [Cache.times_cons] at hlast
    refine ih (h.perform command hnow) hrest hnext ?_ fun t ht => hlast t (List.mem_append_right _ ht)
    cases htime : command.time? with
    | none => exact hle
    | some t => exact hlast t (by simp [htime])

end RecordQueue

namespace Cache

variable {V : Type}

/-! ### Eager expiry -/

theorem times_eagerly (commands : List (Command V)) :
    times (eagerly commands) = (times commands).flatMap fun t => [t, t] := by
  induction commands with
  | nil => rfl
  | cons command commands ih =>
    have twice : times (eagerly (command :: commands)) =
        command.time?.toList ++ command.time?.toList ++ times (eagerly commands) := by
      cases command <;> rfl
    rw [twice, ih, times_cons]
    cases command.time? <;> rfl

theorem withoutPurges_eagerly (commands : List (Command V)) :
    withoutPurges (eagerly commands) = withoutPurges commands := by
  induction commands with
  | nil => rfl
  | cons command commands ih =>
    have unpurged : withoutPurges (eagerly (command :: commands)) =
        withoutPurges [command] ++ withoutPurges (eagerly commands) := by
      cases command <;> rfl
    rw [unpurged, ih]
    exact (List.filter_append _ _).symm

theorem InTime.eagerly {commands : List (Command V)} (h : InTime commands) : InTime (eagerly commands) := by
  unfold InTime at *
  rw [times_eagerly]
  generalize times commands = ts at *
  induction ts with
  | nil => exact List.Pairwise.nil
  | cons t ts ih =>
    rw [List.pairwise_cons] at h
    have hlater : ∀ u ∈ ts.flatMap fun t => [t, t], t.nanos ≤ u.nanos := by
      intro u hu
      obtain ⟨v, hv, hu⟩ := List.mem_flatMap.1 hu
      obtain rfl : u = v := by simpa using hu
      exact h.1 u hv
    have htwice : ∀ u ∈ t :: ts.flatMap fun t => [t, t], t.nanos ≤ u.nanos := by
      intro u hu
      rcases List.mem_cons.1 hu with rfl | hu
      · exact Int.le_refl _
      · exact hlater u hu
    exact List.pairwise_cons.2 ⟨htwice, List.pairwise_cons.2 ⟨hlater, ih h.2⟩⟩

/-- A cache that loses a fresh entry when another key is written is full, and all its entries are fresh. -/
theorem Refines.lost {c : Cache V} {q : RecordQueue V} (h : Refines c q) {now : Instant} (timely : q.Timely now)
    {key other : String} {value : V} {entry : Entry V} (hentry : c.entries[other]? = some entry)
    (hfresh : c.isExpired now entry = false) (hlost : (c.set key value now).entries[other]? = none) :
    c.size = max q.capacity 1 ∧
      ∀ (k : String) (e : Entry V), c.entries[k]? = some e → c.isExpired now e = false := by
  have hr : (⟨other, entry.value, entry.storedAt⟩ : Record V) ∈ q.records := h.mem_records_iff.2 ⟨entry, hentry, rfl⟩
  have hgone : ∀ s ∈ (q.set key value now).records, s.key ≠ other := by
    intro s hs heq
    have hmem := ((h.set key value now).mem_entries_iff other).2 ⟨s, hs, heq⟩
    rw [Std.ExtTreeMap.mem_iff_isSome_getElem?, hlost] at hmem
    cases hmem
  unfold RecordQueue.set at hgone
  split_ifs at hgone
  · exact absurd rfl (hgone _ hr)
  · have hother : other ≠ key := Ne.symm (hgone _ (List.mem_append_right _ (List.mem_singleton_self _)))
    have hlost' : (⟨other, entry.value, entry.storedAt⟩ : Record V) ∉ q.kept key := fun hmem =>
      hgone _ (List.mem_append_left _ hmem) rfl
    obtain ⟨hfull, hall⟩ := timely.lost hr hother (by rw [h.stale_eq, hfresh]) hlost'
    exact ⟨h.size_eq.trans hfull, (h.all_fresh_iff now).2 hall⟩

/-- Purges show in no reading and in no counter, neither some among the commands nor one before each. And where a write
costs another key its fresh entry the cache is full, and all its entries are fresh. -/
theorem purges_unseen (ttl : Duration) (capacity : Nat) {commands : List (Command V)} (inTime : InTime commands) :
    let start : Cache V := empty ttl capacity
    let c := start.after commands
    start.readings commands = start.readings (withoutPurges commands) ∧
    c.hits = (start.after (withoutPurges commands)).hits ∧
    c.misses = (start.after (withoutPurges commands)).misses ∧
    start.readings (eagerly commands) = start.readings commands ∧
    ∀ (key : String) (value : V) (now : Instant), (∀ t ∈ times commands, t.nanos ≤ now.nanos) →
      ∀ (other : String) (entry : Entry V), c.entries[other]? = some entry → c.isExpired now entry = false →
        (c.set key value now).entries[other]? = none →
        c.size = max capacity 1 ∧
          ∀ (k : String) (e : Entry V), c.entries[k]? = some e → c.isExpired now e = false := by
  intro start c
  have hstart := Refines.empty (V := V) ttl capacity
  have timely := fun now => RecordQueue.Timely.empty (V := V) ttl capacity now
  have unseen : ∀ {commands : List (Command V)}, InTime commands →
      start.readings commands = start.readings (withoutPurges commands) ∧
      (start.after commands).hits = (start.after (withoutPurges commands)).hits ∧
      (start.after commands).misses = (start.after (withoutPurges commands)).misses := by
    intro commands inTime
    obtain ⟨first, -, hfirst⟩ := inTime.exists_start ⟨0⟩
    have same : RecordQueue.SameFresh first (.empty ttl capacity : RecordQueue V) (.empty ttl capacity) := rfl
    obtain ⟨hreadings, last, hlast⟩ := same.run (timely first) (timely first) inTime hfirst
    have hafter := hstart.after commands
    have hafter' := hstart.after (withoutPurges commands)
    refine ⟨?_, ?_, ?_⟩
    · rw [hstart.readings, hstart.readings, hreadings]
    · rw [hafter.hits, hafter'.hits, hlast.counters.1]
    · rw [hafter.misses, hafter'.misses, hlast.counters.2]
  obtain ⟨hreadings, hhits, hmisses⟩ := unseen inTime
  refine ⟨hreadings, hhits, hmisses, ?_, ?_⟩
  · rw [(unseen inTime.eagerly).1, withoutPurges_eagerly, hreadings]
  · intro key value now hnow other entry hentry hfresh hlost
    obtain ⟨first, hle, hfirst⟩ := inTime.exists_start now
    have htimely := (timely first).after inTime hfirst hle hnow
    have hcapacity := ((RecordQueue.empty ttl capacity : RecordQueue V).after_bounds commands).2
    rw [show max capacity 1 = max (RecordQueue.after (.empty ttl capacity : RecordQueue V) commands).capacity 1 by
      rw [hcapacity]; rfl]
    exact (hstart.after commands).lost htimely hentry hfresh hlost

/-- In a cache with room for two, a purge takes away an entry whose key is written again at once. No reading shows it,
and the next new key costs the other one its fresh entry, for the cache is full of fresh entries. -/
theorem purge_before_rewrite_unseen :
    let commands : List (Command Nat) :=
      [.set "a" 1 ⟨0⟩, .set "b" 2 ⟨5⟩, .purge ⟨11⟩, .set "a" 3 ⟨11⟩, .get "a" ⟨12⟩]
    let c : Cache Nat := (empty ⟨10⟩ 2).after commands
    InTime commands ∧ (empty ⟨10⟩ 2).readings commands = [⟨some 3, 1, 0⟩] ∧
      (c.set "c" 4 ⟨12⟩).entries["b"]? = none ∧ c.size = 2 := by
  intro commands c
  have inTime : InTime commands := by simp [commands, InTime, times, Command.time?]
  have hafter := ((Refines.empty ⟨10⟩ 2).after commands).set "c" 4 ⟨12⟩
  have hlost : (c.set "c" 4 ⟨12⟩).entries["b"]? = none := by
    rw [← Option.not_isSome_iff_eq_none, ← Std.ExtTreeMap.mem_iff_isSome_getElem?, hafter.mem_entries_iff]
    decide +kernel
  have hfound : c.entries["b"]?.any (!c.isExpired ⟨12⟩ ·) = true := by decide +kernel
  obtain ⟨entry, hentry, hfresh⟩ := (Option.any_eq_true _ _).1 hfound
  obtain ⟨hreadings, -, -, -, full⟩ := purges_unseen ⟨10⟩ 2 inTime
  have hsize := (full "c" 4 ⟨12⟩ (by decide) "b" entry hentry (by simpa using hfresh) hlost).1
  refine ⟨inTime, ?_, hlost, hsize⟩
  rw [hreadings]
  decide +kernel

end Cache

end RepoSearch
