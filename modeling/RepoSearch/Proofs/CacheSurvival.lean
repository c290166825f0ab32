import RepoSearch.Proofs.CacheRuns
import Mathlib.Data.List.Dedup
import Mathlib.Data.List.Induction

/-!
# Which keys survive

A cache in which nothing expires keeps the keys that were written last, as many as there is room for. Its reads can be
told from the writes alone: a key is found if it was written, and since its last write fewer other keys than there is
room for.
-/

namespace RepoSearch

variable {V : Type}

/-! ### The last write of each key -/

namespace Record

/-- The last record of each key, the latest one in front. -/
def latest : List (Record V) → List (Record V)
  | [] => []
  | r :: rs => if r.key ∈ rs.map key then latest rs else latest rs ++ [r]

theorem key_mem_latest {key : String} {rs : List (Record V)} :
    key ∈ (latest rs).map Record.key ↔ key ∈ rs.map Record.key := by
  induction rs with
  | nil => rfl
  | cons r rs ih =>
    unfold latest
    split_ifs with hr
    · rw [ih, List.map_cons, List.mem_cons]
      constructor
      · exact .inr
      · rintro (rfl | hkey)
        · exact hr
        · exact hkey
    · rw [List.map_append, List.mem_append, ih, List.map_cons, List.mem_cons, or_comm]
      simp

theorem nodup_latest (rs : List (Record V)) : ((latest rs).map key).Nodup := by
  induction rs with
  | nil => exact List.nodup_nil
  | cons r rs ih =>
    unfold latest
    split_ifs with hr
    · exact ih
    · rw [List.map_append]
      exact ih.append (List.nodup_singleton _) (by simpa [key_mem_latest] using hr)

theorem length_latest (rs : List (Record V)) : (latest rs).length = (rs.map key).dedup.length := by
  have perm : ((latest rs).map key).Perm (rs.map key).dedup :=
    (List.perm_ext_iff_of_nodup (nodup_latest rs) (List.nodup_dedup _)).2 fun _ => by
      rw [key_mem_latest, List.mem_dedup]
  rw [← perm.length_eq, List.length_map]

/-- A further record comes to the front and takes the place of the last one of its key. -/
theorem latest_concat (rs : List (Record V)) (r : Record V) :
    latest (rs ++ [r]) = r :: (latest rs).filter (RecordQueue.lacks r.key) := by
  induction rs with
  | nil => rfl
  | cons s rs ih =>
    have hmem : s.key ∈ (rs ++ [r]).map key ↔ s.key ∈ rs.map key ∨ s.key = r.key := by simp
    simp only [List.cons_append, latest, hmem, ih]
    by_cases hs : s.key ∈ rs.map key
    · rw [if_pos (.inl hs), if_pos hs]
    · rw [if_neg hs, List.filter_append]
      by_cases hkey : s.key = r.key
      · rw [if_pos (.inr hkey)]
        simp [RecordQueue.lacks, hkey]
      · rw [if_neg (not_or.2 ⟨hs, hkey⟩)]
        simp [RecordQueue.lacks, hkey]

/-- Before the last record of a key come the last records of the keys that follow it. -/
theorem latest_split {r : Record V} {later : List (Record V)} (hr : r.key ∉ later.map key) (earlier : List (Record V)) :
    ∃ back, latest (earlier ++ r :: later) = latest later ++ r :: back := by
  induction earlier with
  | nil => exact ⟨[], by rw [List.nil_append, latest, if_neg hr]⟩
  | cons s earlier ih =>
    obtain ⟨back, hback⟩ := ih
    rw [List.cons_append, latest, hback]
    split_ifs
    · exact ⟨back, rfl⟩
    · exact ⟨back ++ [s], by simp⟩

theorem exists_split_of_mem_latest {r : Record V} {rs : List (Record V)} (h : r ∈ latest rs) :
    ∃ earlier later, rs = earlier ++ r :: later ∧ r.key ∉ later.map key := by
  induction rs with
  | nil => cases h
  | cons s rs ih =>
    have rest : r ∈ latest rs → ∃ earlier later, s :: rs = earlier ++ r :: later ∧ r.key ∉ later.map key := by
      intro h
      obtain ⟨earlier, later, rfl, hr⟩ := ih h
      exact ⟨s :: earlier, later, rfl, hr⟩
    unfold latest at h
    split_ifs at h with hs
    · exact rest h
    · rcases List.mem_append.1 h with h | h
      · exact rest h
      · obtain rfl := List.mem_singleton.1 h
        exact ⟨[], rs, rfl, hs⟩

/-- A record is among the latest `n` exactly if it is the last one of its key and fewer than `n` keys follow it. -/
theorem mem_take_latest_iff {r : Record V} {rs : List (Record V)} {n : Nat} : r ∈ (latest rs).take n ↔
    ∃ earlier later, rs = earlier ++ r :: later ∧ r.key ∉ later.map key ∧ (later.map key).dedup.length < n := by
  constructor
  · intro h
    obtain ⟨earlier, later, rfl, hr⟩ := exists_split_of_mem_latest (List.mem_of_mem_take h)
    refine ⟨earlier, later, rfl, hr, ?_⟩
    obtain ⟨back, hback⟩ := latest_split hr earlier
    rw [← length_latest]
    by_contra hlong
    rw [hback, List.take_append_of_le_length (Nat.le_of_not_lt hlong)] at h
    exact hr (key_mem_latest.1 (List.mem_map_of_mem (List.mem_of_mem_take h)))
  · rintro ⟨earlier, later, rfl, hr, hlength⟩
    obtain ⟨back, hback⟩ := latest_split hr earlier
    rw [← length_latest] at hlength
    obtain ⟨m, hm⟩ : ∃ m, n - (latest later).length = m + 1 := ⟨n - (latest later).length - 1, by omega⟩
    rw [hback, List.take_append, hm, List.take_succ_cons]
    simp

end Record

/-! ### The records of a queue -/

namespace RecordQueue

private theorem filter_lacks_eq_self {key : String} {rs : List (Record V)} (h : key ∉ rs.map Record.key) :
    rs.filter (lacks key) = rs := by
  rw [List.filter_eq_self]
  intro r hr
  rw [lacks_iff]
  rintro rfl
  exact h (List.mem_map_of_mem hr)

private theorem take_filter_of_mem {key : String} {rs : List (Record V)} (nodup : (rs.map Record.key).Nodup) {n : Nat}
    (h : key ∈ (rs.take n).map Record.key) : (rs.filter (lacks key)).take (n - 1) = (rs.take n).filter (lacks key) := by
  induction rs generalizing n with
  | nil => simp at h
  | cons r rs ih =>
    rw [List.map_cons, List.nodup_cons] at nodup
    cases n with
    | zero => simp at h
    | succ n =>
      rw [List.take_succ_cons] at h ⊢
      by_cases hr : r.key = key
      · subst hr
        have hrest : r.key ∉ (rs.take n).map Record.key := fun hmem =>
          nodup.1 (List.map_subset _ (List.take_subset n rs) hmem)
        have hnot : ¬lacks r.key r = true := by simp [lacks]
        rw [List.filter_cons_of_neg hnot, List.filter_cons_of_neg hnot, filter_lacks_eq_self nodup.1,
          filter_lacks_eq_self hrest, Nat.add_sub_cancel]
      · have hmem : key ∈ (rs.take n).map Record.key := by
          rw [List.map_cons, List.mem_cons] at h
          exact h.resolve_left (Ne.symm hr)
        have hlacks : lacks key r = true := lacks_iff.2 hr
        rw [List.filter_cons_of_pos hlacks, List.filter_cons_of_pos hlacks, ← ih nodup.2 hmem]
        cases n with
        | zero => simp at hmem
        | succ n => rfl

private theorem take_filter_of_notMem {key : String} {rs : List (Record V)} {n : Nat}
    (h : key ∉ (rs.take n).map Record.key) : (rs.filter (lacks key)).take (n - 1) = rs.take (n - 1) := by
  induction rs generalizing n with
  | nil => rfl
  | cons r rs ih =>
    cases n with
    | zero => rfl
    | succ n =>
      rw [List.take_succ_cons, List.map_cons, List.mem_cons, not_or] at h
      rw [List.filter_cons_of_pos (lacks_iff.2 (Ne.symm h.1)), Nat.add_sub_cancel]
      cases n with
      | zero => rfl
      | succ n =>
        rw [List.take_succ_cons, List.take_succ_cons]
        exact congrArg (r :: ·) (ih h.2)

/-- When a key is written, a queue of the latest records keeps the latest ones of other keys. -/
private theorem kept_of_latest {q : RecordQueue V} {rs : List (Record V)} {n : Nat} (hn : n = max q.capacity 1)
    (nodup : (rs.map Record.key).Nodup) (h : q.records = (rs.take n).reverse) (key : String) :
    q.kept key = ((rs.filter (lacks key)).take (n - 1)).reverse := by
  have hkeys : key ∈ q.records.map Record.key ↔ key ∈ (rs.take n).map Record.key := by
    rw [h, List.map_reverse, List.mem_reverse]
  unfold kept
  simp only [← hn, hkeys]
  rw [h]
  split_ifs with hmem hfull
  · rw [take_filter_of_mem nodup hmem, List.filter_reverse]
  · rw [List.length_reverse, List.length_take] at hfull
    have hdrop : (rs.take n).dropLast = rs.take (n - 1) := by
      rw [List.dropLast_eq_take, List.length_take, hfull, List.take_take, Nat.min_eq_left (Nat.sub_le n 1)]
    rw [take_filter_of_notMem hmem, List.tail_reverse, hdrop]
  · rw [List.length_reverse, List.length_take] at hfull
    have hall : rs.length ≤ n - 1 := by omega
    have hall' : rs.length ≤ n := Nat.le_trans hall (Nat.sub_le n 1)
    rw [take_filter_of_notMem hmem, List.take_of_length_le hall, List.take_of_length_le hall']

/-- A queue that holds the latest of some records holds the latest after one more is written. -/
private theorem records_set_of_latest {q : RecordQueue V} {rs : List (Record V)} (httl : q.ttl.nanos ≠ 0)
    (h : q.records = ((Record.latest rs).take (max q.capacity 1)).reverse) (key : String) (value : V) (now : Instant) :
    (q.set key value now).records = ((Record.latest (rs ++ [⟨key, value, now⟩])).take (max q.capacity 1)).reverse := by
  obtain ⟨n, hn⟩ : ∃ n, max q.capacity 1 = n + 1 := ⟨max q.capacity 1 - 1, by omega⟩
  have hkept := kept_of_latest rfl (Record.nodup_latest rs) h key
  rw [set, if_neg httl, Record.latest_concat]
  rw [hn] at hkept ⊢
  rw [hkept, List.take_succ_cons, List.reverse_cons, Nat.add_sub_cancel]

end RecordQueue

/-! ### The entries of a cache -/

namespace Cache

/-- The record that a command makes, if it is a write. -/
def Command.written? : Command V → Option (Record V)
  | .set key value now => some ⟨key, value, now⟩
  | _ => none

/-- The records that commands make, in order. -/
def writes (commands : List (Command V)) : List (Record V) := commands.filterMap Command.written?

/-- The commands that make records. -/
def onlyWrites (commands : List (Command V)) : List (Command V) := commands.filter (·.written?.isSome)

theorem writes_append (commands commands' : List (Command V)) :
    writes (commands ++ commands') = writes commands ++ writes commands' :=
  List.filterMap_append

theorem onlyWrites_append (commands commands' : List (Command V)) :
    onlyWrites (commands ++ commands') = onlyWrites commands ++ onlyWrites commands' :=
  List.filter_append _ _

private theorem nothing_written {command : Command V} (h : command.written? = none) :
    writes [command] = [] ∧ onlyWrites [command] = [] := by
  simp [writes, onlyWrites, h]

/-- At the time of each command no entry has expired. -/
def NothingExpires (c : Cache V) (commands : List (Command V)) : Prop :=
  ∀ earlier command later now, commands = earlier ++ command :: later → command.time? = some now →
    ∀ (key : String) (entry : Entry V), (c.after earlier).entries[key]? = some entry →
      (c.after earlier).isExpired now entry = false

theorem NothingExpires.of_append {c : Cache V} {commands commands' : List (Command V)}
    (h : c.NothingExpires (commands ++ commands')) : c.NothingExpires commands := by
  intro earlier command later now heq
  refine h earlier command (later ++ commands') now ?_
  rw [heq, List.append_assoc, List.cons_append]

private theorem storedAt_mem_times {ttl : Duration} {capacity : Nat} {commands : List (Command V)} {r : Record V}
    (h : r ∈ ((RecordQueue.empty ttl capacity).after commands).records) : r.storedAt ∈ times commands := by
  induction commands using List.reverseRecOn with
  | nil => cases h
  | append_singleton commands command ih =>
    rw [RecordQueue.after_concat] at h
    rw [times, List.filterMap_append, List.mem_append]
    rcases RecordQueue.mem_records_perform h with h | htime
    · exact .inl (ih h)
    · exact .inr (by simp [htime])

/-- Nothing expires where no two commands are further apart than the time to live. -/
theorem nothingExpires_of_within (ttl : Duration) (capacity : Nat) {commands : List (Command V)}
    (h : ∀ s ∈ times commands, ∀ t ∈ times commands, t.since s ≤ ttl) :
    (empty ttl capacity : Cache V).NothingExpires commands := by
  rintro earlier command later now rfl htime key entry hentry
  have hrefines := (Refines.empty (V := V) ttl capacity).after earlier
  have hrecord : (⟨key, entry.value, entry.storedAt⟩ : Record V) ∈ ((RecordQueue.empty ttl capacity).after earlier).records :=
    hrefines.mem_records_iff.2 ⟨entry, hentry, rfl⟩
  have hstored : entry.storedAt ∈ times earlier := storedAt_mem_times hrecord
  have httl : ((empty ttl capacity : Cache V).after earlier).ttl = ttl :=
    hrefines.ttl.trans ((RecordQueue.empty ttl capacity : RecordQueue V).after_bounds earlier).1
  have hwithin := h entry.storedAt (by rw [times, List.filterMap_append]; exact List.mem_append_left _ hstored) now
    (by simp [times, htime])
  rw [isExpired, httl, decide_eq_false_iff_not]
  exact Nat.not_lt.2 hwithin

/-- A read or a purge that finds no expired entry leaves the contents alone. -/
theorem contents_perform_of_fresh {c : Cache V} {command : Command V} (hclear : command ≠ .clear)
    (hwrite : command.written? = none) {now : Instant} (htime : command.time? = some now)
    (hfresh : ∀ (key : String) (entry : Entry V), c.entries[key]? = some entry → c.isExpired now entry = false) :
    (c.perform command).2.contents = c.contents := by
  cases command with
  | set key value t => cases hwrite
  | get key t =>
    obtain rfl := Option.some.inj htime
    have hkeep : ¬(c.contents.entries[key]?.any (c.contents.isExpired t)) = true := by
      rw [Option.any_eq_true]
      rintro ⟨entry, hentry, hexpired⟩
      rw [show c.contents.isExpired t entry = c.isExpired t entry from rfl, hfresh key entry hentry] at hexpired
      cases hexpired
    rw [perform, contents_get, dropExpired, if_neg hkeep]
  | purge t =>
    obtain rfl := Option.some.inj htime
    have hnone : c.expiredKeys t = [] := by
      rw [List.eq_nil_iff_forall_not_mem]
      intro key hkey
      obtain ⟨entry, hentry, hexpired⟩ := mem_expiredKeys_iff.1 hkey
      rw [hfresh key entry hentry] at hexpired
      cases hexpired
    rw [perform, purge, hnone]
    rfl
  | clear => exact absurd rfl hclear

/-- While nothing expires, what a cache holds depends on the writes alone. -/
theorem contents_after {c : Cache V} {commands : List (Command V)} (hclear : .clear ∉ commands)
    (hnothing : c.NothingExpires commands) :
    (c.after commands).contents = (c.after (onlyWrites commands)).contents := by
  induction commands using List.reverseRecOn with
  | nil => rfl
  | append_singleton commands command ih =>
    have hbefore := ih (fun hmem => hclear (List.mem_append_left _ hmem)) hnothing.of_append
    have hlast : ∀ d : Cache V, d.after [command] = (d.perform command).2 := fun _ => rfl
    rw [after_append, hlast, onlyWrites_append]
    cases hwrite : command.written? with
    | none =>
      have hne : command ≠ .clear := fun heq => hclear (by simp [heq])
      obtain ⟨now, htime⟩ : ∃ now, command.time? = some now := by
        cases command with
        | clear => exact absurd rfl hne
        | _ => exact ⟨_, rfl⟩
      have hfresh := hnothing commands command [] now rfl htime
      rw [contents_perform_of_fresh hne hwrite htime hfresh, hbefore, (nothing_written hwrite).2, List.append_nil]
    | some r =>
      cases command with
      | set key value now =>
        have hset : ∀ d : Cache V, (d.perform (.set key value now)).2.contents = d.contents.set key value now :=
          fun d => contents_set d key value now
        have honly : onlyWrites [.set key value now] = [.set key value now] := rfl
        rw [hset, hbefore, ← hset, honly, after_append, hlast]
      | _ => cases hwrite

/-- A queue that is only written to holds the latest records. -/
theorem records_after_writes (ttl : Duration) (capacity : Nat) (httl : ttl.nanos ≠ 0) (commands : List (Command V)) :
    ((RecordQueue.empty ttl capacity : RecordQueue V).after (onlyWrites commands)).records =
      ((Record.latest (writes commands)).take (max capacity 1)).reverse := by
  induction commands using List.reverseRecOn with
  | nil => simp [onlyWrites, writes, RecordQueue.after, RecordQueue.empty, Record.latest]
  | append_singleton commands command ih =>
    obtain ⟨httl', hcapacity⟩ := (RecordQueue.empty ttl capacity : RecordQueue V).after_bounds (onlyWrites commands)
    rw [writes_append, onlyWrites_append]
    cases hwrite : command.written? with
    | none =>
      obtain ⟨hwrites, honly⟩ := nothing_written hwrite
      rw [hwrites, honly, List.append_nil, List.append_nil, ih]
    | some r =>
      cases command with
      | set key value now =>
        have honly : onlyWrites [.set key value now] = [.set key value now] := rfl
        rw [honly, RecordQueue.after_concat]
        generalize (RecordQueue.empty ttl capacity : RecordQueue V).after (onlyWrites commands) = q at *
        obtain rfl : ttl = q.ttl := httl'.symm
        obtain rfl : capacity = q.capacity := hcapacity.symm
        exact RecordQueue.records_set_of_latest httl ih key value now
      | _ => cases hwrite

/-- What a key reads as when no entry has expired. -/
theorem get_of_fresh {c : Cache V} {now : Instant}
    (hfresh : ∀ (key : String) (entry : Entry V), c.entries[key]? = some entry → c.isExpired now entry = false)
    (key : String) : (c.get key now).1 = c.entries[key]?.map Entry.value := by
  unfold get
  cases hentry : c.entries[key]? with
  | none => rfl
  | some entry =>
    dsimp only
    rw [if_neg (by rw [hfresh key entry hentry]; exact Bool.false_ne_true)]
    rfl

/-- As long as nothing expires, a key reads as the value that was written last, if since then fewer other keys have been
written than there is room for, and as nothing otherwise. The reads have no part in what the cache holds. -/
theorem get_eq_some_iff_recent (ttl : Duration) (capacity : Nat) (httl : 0 < ttl.nanos) {commands : List (Command V)}
    (hclear : .clear ∉ commands) (key : String) (value : V) (now : Instant)
    (hnothing : (empty ttl capacity).NothingExpires (commands ++ [.get key now])) :
    let c : Cache V := (empty ttl capacity).after commands
    ((c.get key now).1 = some value ↔
      ∃ earlier time later, writes commands = earlier ++ ⟨key, value, time⟩ :: later ∧ key ∉ later.map Record.key ∧
        (later.map Record.key).dedup.length < max capacity 1) ∧
    c.contents = ((empty ttl capacity : Cache V).after (onlyWrites commands)).contents := by
  intro c
  have hcontents := contents_after hclear hnothing.of_append
  refine ⟨?_, hcontents⟩
  have hfresh := hnothing commands (.get key now) [] now rfl rfl
  have hentries : c.entries = ((empty ttl capacity : Cache V).after (onlyWrites commands)).entries := by
    show c.contents.entries = ((empty ttl capacity : Cache V).after (onlyWrites commands)).contents.entries
    rw [hcontents]
  have hrefines := (Refines.empty (V := V) ttl capacity).after (onlyWrites commands)
  have hrecord : ∀ time, (∃ entry, c.entries[key]? = some entry ∧ entry.value = value ∧ entry.storedAt = time) ↔
      (⟨key, value, time⟩ : Record V) ∈ (Record.latest (writes commands)).take (max capacity 1) := by
    intro time
    rw [← List.mem_reverse, ← records_after_writes ttl capacity (Nat.ne_of_gt httl), hrefines.mem_records_iff, hentries]
    simp [eq_comm]
  rw [get_of_fresh hfresh, Option.map_eq_some_iff]
  constructor
  · rintro ⟨entry, hentry, hvalue⟩
    obtain ⟨earlier, later, hsplit⟩ := Record.mem_take_latest_iff.1 ((hrecord entry.storedAt).1 ⟨entry, hentry, hvalue, rfl⟩)
    exact ⟨earlier, entry.storedAt, later, hsplit⟩
  · rintro ⟨earlier, time, later, hsplit⟩
    obtain ⟨entry, hentry, hvalue, -⟩ := (hrecord time).2 (Record.mem_take_latest_iff.2 ⟨earlier, later, hsplit⟩)
    exact ⟨entry, hentry, hvalue⟩

/-- In a cache with room for two, a key that is written again outlives one that was written between its two writes,
though that one was read last. -/
theorem rewritten_key_survives :
    let commands : List (Command Nat) :=
      [.set "a" 1 ⟨0⟩, .set "b" 2 ⟨1⟩, .set "a" 3 ⟨2⟩, .get "b" ⟨3⟩, .set "c" 4 ⟨4⟩]
    let c : Cache Nat := (empty ⟨10⟩ 2).after commands
    (empty ⟨10⟩ 2 : Cache Nat).NothingExpires (commands ++ [.get "a" ⟨5⟩]) ∧ (c.get "a" ⟨5⟩).1 = some 3 := by
  intro commands c
  have hnothing : (empty ⟨10⟩ 2 : Cache Nat).NothingExpires (commands ++ [.get "a" ⟨5⟩]) :=
    nothingExpires_of_within ⟨10⟩ 2 (by decide)
  refine ⟨hnothing, (get_eq_some_iff_recent ⟨10⟩ 2 (by decide) (by simp [commands]) "a" 3 ⟨5⟩ hnothing).1.2 ?_⟩
  exact ⟨[⟨"a", 1, ⟨0⟩⟩, ⟨"b", 2, ⟨1⟩⟩], ⟨2⟩, [⟨"c", 4, ⟨4⟩⟩], rfl, by decide, by decide⟩

end Cache

end RepoSearch
