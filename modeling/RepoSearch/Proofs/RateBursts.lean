import RepoSearch.Proofs.RateHistory
import Mathlib.Data.List.TakeWhile

/-!
# Bursts

A client's windows open with its own requests, so a span of a window's length can lie across two of them, but not across
three. If it begins after the opening of the first, it leaves that request out. In no such span are twice as many requests
of a client accepted as are allowed in a window, and one less can be.
-/

namespace RepoSearch.RateLimiter

/-! ### Windows of ascending times -/

/-- No time comes before an earlier one in the list. -/
def Ascending (times : List Instant) : Prop := times.Pairwise fun t u => t.nanos ≤ u.nanos

/-- The span of the given length that begins at `start` holds a time. The end of the span is not part of it. -/
def Spans (start : Instant) (length : Duration) (t : Instant) : Prop :=
  start.nanos ≤ t.nanos ∧ t.nanos < start.nanos + length.nanos

instance (start : Instant) (length : Duration) (t : Instant) : Decidable (Spans start length t) :=
  inferInstanceAs (Decidable (_ ∧ _))

/-- The number of times in the span. -/
def countSpanned (start : Instant) (length : Duration) (times : List Instant) : Nat :=
  times.countP fun t => Spans start length t

/-- No window holds more than `most` times. -/
def Limited (length : Duration) (most : Nat) (times : List Instant) : Prop :=
  ∀ w ∈ windows length times, w.2.length + 1 ≤ most

variable {start t : Instant} {ts : List Instant} {length : Duration}

private theorem countSpanned_eq_zero {times : List Instant} (h : ∀ u ∈ times, ¬Spans start length u) :
    countSpanned start length times = 0 := by
  unfold countSpanned
  rw [List.countP_eq_zero]
  intro u hu
  simpa using h u hu

/-- The times in a window come before its end. -/
private theorem lt_end_of_mem_takeWhile {u : Instant} (hu : u ∈ ts.takeWhile fun u => u.since t < length) :
    u.nanos < t.nanos + length.nanos := by
  have hsince : u.since t < length := by simpa using List.mem_takeWhile_imp hu
  have hnanos : (u.nanos - t.nanos).toNat < length.nanos := hsince
  omega

/-- The times after a window come at its end or later. -/
theorem Ascending.end_le (h : Ascending (t :: ts)) :
    ∀ u ∈ ts.dropWhile fun u => u.since t < length, t.nanos + length.nanos ≤ u.nanos := by
  induction ts with
  | nil => simp
  | cons v vs ih =>
    obtain ⟨hfirst, hrest⟩ := List.pairwise_cons.1 h
    obtain ⟨hv, hvs⟩ := List.pairwise_cons.1 hrest
    by_cases hin : v.since t < length
    · rw [List.dropWhile_cons_of_pos (by simpa using hin)]
      exact ih (List.pairwise_cons.2 ⟨fun u hu => hfirst u (List.mem_cons_of_mem v hu), hvs⟩)
    · rw [List.dropWhile_cons_of_neg (by simpa using hin)]
      have hend : t.nanos + length.nanos ≤ v.nanos := by
        have hout : ¬(v.nanos - t.nanos).toNat < length.nanos := hin
        have := hfirst v List.mem_cons_self
        omega
      intro u hu
      rcases List.mem_cons.1 hu with rfl | hu
      · exact hend
      · exact Int.le_trans hend (hv u hu)

private theorem Ascending.dropWhile (h : Ascending (t :: ts)) (p : Instant → Bool) : Ascending (ts.dropWhile p) :=
  (List.pairwise_cons.1 h).2.sublist (List.dropWhile_sublist p)

/-! ### Spans across windows -/

/-- The times in a span are those in the first window and those after it. -/
private theorem countSpanned_cons (start t : Instant) (length : Duration) (ts : List Instant) :
    countSpanned start length (t :: ts) =
      (if Spans start length t then 1 else 0) + countSpanned start length (ts.takeWhile fun u => u.since t < length) +
        countSpanned start length (ts.dropWhile fun u => u.since t < length) := by
  have hparts : countSpanned start length ts =
      countSpanned start length (ts.takeWhile fun u => u.since t < length) +
        countSpanned start length (ts.dropWhile fun u => u.since t < length) := by
    unfold countSpanned
    rw [← List.countP_append, List.takeWhile_append_dropWhile]
  have hcons : countSpanned start length (t :: ts) =
      countSpanned start length ts + if Spans start length t then 1 else 0 := by
    simp [countSpanned, List.countP_cons]
  omega

private theorem countSpanned_le_length (start : Instant) (length : Duration) (times : List Instant) :
    countSpanned start length times ≤ times.length := List.countP_le_length

/-- A span that does not begin after the first time ends before the second window. -/
theorem Ascending.countSpanned_le_first (h : Ascending (t :: ts)) (hstart : start.nanos ≤ t.nanos) :
    countSpanned start length (t :: ts) ≤ (ts.takeWhile fun u => u.since t < length).length + 1 := by
  have hlater : countSpanned start length (ts.dropWhile fun u => u.since t < length) = 0 := by
    apply countSpanned_eq_zero
    rintro u hu ⟨-, hend⟩
    have := h.end_le u hu
    omega
  have hfirst := countSpanned_le_length start length (ts.takeWhile fun u => u.since t < length)
  rw [countSpanned_cons, hlater]
  split_ifs <;> omega

theorem Limited.of_cons {most : Nat} (h : Limited length most (t :: ts)) :
    (ts.takeWhile fun u => u.since t < length).length + 1 ≤ most ∧
      Limited length most (ts.dropWhile fun u => u.since t < length) := by
  rw [Limited, windows, List.forall_mem_cons] at h
  exact h

/-- A span of a window's length that begins no later than the first time holds no more than a window may. -/
theorem Limited.countSpanned_le {most : Nat} {times : List Instant} (h : Limited length most times)
    (hascending : Ascending times) (hstart : ∀ u ∈ times, start.nanos ≤ u.nanos) :
    countSpanned start length times ≤ most := by
  cases times with
  | nil => exact Nat.zero_le _
  | cons t ts => exact Nat.le_trans (hascending.countSpanned_le_first (hstart t List.mem_cons_self)) h.of_cons.1

/-- If each window holds at most so many times, a span of a window's length holds fewer than twice as many. -/
theorem Limited.countSpanned_lt {most : Nat} {times : List Instant} (h : Limited length most times)
    (hascending : Ascending times) (hmost : 0 < most) (start : Instant) :
    countSpanned start length times < 2 * most := by
  induction times using windows.induct length with
  | case1 => exact Nat.mul_pos (by decide) hmost
  | case2 t ts ih =>
    obtain ⟨hfirst, hlater⟩ := h.of_cons
    have hlaterAscending := hascending.dropWhile fun u => u.since t < length
    by_cases hbefore : start.nanos ≤ t.nanos
    · have : countSpanned start length (t :: ts) ≤ _ := hascending.countSpanned_le_first hbefore
      omega
    · have hopening : ¬Spans start length t := fun hspans => hbefore hspans.1
      rw [countSpanned_cons, if_neg hopening]
      by_cases hpassed : t.nanos + length.nanos ≤ start.nanos
      · -- The first window ends before the span begins.
        have hnone : countSpanned start length (ts.takeWhile fun u => u.since t < length) = 0 := by
          apply countSpanned_eq_zero
          rintro u hu ⟨hstart, -⟩
          have := lt_end_of_mem_takeWhile hu
          omega
        have := ih hlater hlaterAscending
        omega
      · -- The span begins inside the first window and ends before the third.
        have hinside := countSpanned_le_length start length (ts.takeWhile fun u => u.since t < length)
        have hnext : countSpanned start length (ts.dropWhile fun u => u.since t < length) ≤ most := by
          apply hlater.countSpanned_le hlaterAscending
          intro u hu
          have := hascending.end_le u hu
          omega
        omega

/-! ### Windows of a client's accepted requests -/

/-- The limit on each window is kept by a time whose window has room for it. -/
theorem Limited.concat {most : Nat} {accepted : List Instant} {now : Instant} (h : Limited length most accepted)
    (hroom : countAt length accepted now < most) : Limited length most (accepted ++ [now]) := by
  unfold Limited
  rw [windows_concat]
  rw [countAt] at hroom
  cases hcurrent : currentWindow? length accepted now with
  | none =>
    rw [hcurrent] at hroom
    intro w hw
    rcases List.mem_append.1 hw with hw | hw
    · exact h w hw
    · rw [List.mem_singleton.1 hw]
      exact hroom
  | some v =>
    rw [hcurrent] at hroom
    intro w hw
    rcases List.mem_append.1 hw with hw | hw
    · exact h w (List.dropLast_subset _ hw)
    · rw [List.mem_singleton.1 hw, List.length_append]
      exact hroom

theorem Limited.answer {l : RateLimiter} {a : Attempt} {accepted : List Instant} {now : Instant}
    (h : Limited l.window l.maxRequests accepted) (remembers : Remembers l a.client accepted now)
    (htime : now.nanos ≤ a.now.nanos) :
    Limited l.window l.maxRequests (accepted ++ if (l.answer a).1 = .accepted then [a.now] else []) := by
  by_cases haccepted : (l.answer a).1 = .accepted
  · rw [if_pos haccepted]
    apply h.concat
    rw [answer_accepted_iff, remembers a.now htime, count_windowOf] at haccepted
    exact haccepted
  · rw [if_neg haccepted, List.append_nil]
    exact h

/-- No window of a client's accepted requests holds more than are allowed, whatever other clients do. -/
theorem Limited.after {l : RateLimiter} {client : String} {accepted : List Instant} {now : Instant}
    (h : Limited l.window l.maxRequests accepted) (remembers : Remembers l client accepted now)
    (hmax : 0 < l.maxRequests) {attempts : List Attempt} (times : ∀ a ∈ attempts, now.nanos ≤ a.now.nanos)
    (inOrder : InOrder attempts) :
    Limited l.window l.maxRequests (accepted ++ l.acceptedTimes client attempts) := by
  induction attempts generalizing l accepted now with
  | nil =>
    rw [show l.acceptedTimes client [] = [] from rfl, List.append_nil]
    exact h
  | cons a attempts ih =>
    obtain ⟨hfirst, hrest⟩ := List.pairwise_cons.1 inOrder
    have htime := times a List.mem_cons_self
    obtain ⟨hsame, hwindow⟩ := answer_bounds l a
    rw [← hwindow, ← hsame, acceptedTimes_cons, ← List.append_assoc]
    apply ih _ _ _ hfirst hrest
    · rw [hwindow, hsame]
      by_cases hclient : a.client = client
      · subst hclient
        simpa using h.answer remembers htime
      · simpa [hclient] using h
    · by_cases hclient : a.client = client
      · subst hclient
        simpa using remembers.answer htime hmax
      · simpa [hclient] using remembers.other htime hclient
    · rw [hsame]
      exact hmax

theorem acceptedTimes_sublist (l : RateLimiter) (client : String) (attempts : List Attempt) :
    (l.acceptedTimes client attempts).Sublist (attempts.map (·.now)) := by
  induction attempts generalizing l with
  | nil => exact List.Sublist.slnil
  | cons a attempts ih =>
    rw [acceptedTimes_cons]
    split_ifs
    · exact (ih _).cons_cons a.now
    · exact (ih _).cons a.now

theorem ascending_acceptedTimes {attempts : List Attempt} (inOrder : InOrder attempts) (l : RateLimiter)
    (client : String) : Ascending (l.acceptedTimes client attempts) := by
  have htimes : Ascending (attempts.map (·.now)) := List.pairwise_map.2 inOrder
  exact htimes.sublist (acceptedTimes_sublist l client attempts)

/-- Where no requests are allowed, none are accepted. -/
theorem acceptedTimes_of_zero {l : RateLimiter} (hmax : l.maxRequests = 0) (client : String) (attempts : List Attempt) :
    l.acceptedTimes client attempts = [] := by
  induction attempts generalizing l with
  | nil => rfl
  | cons a attempts ih =>
    have hrejected : ¬(l.answer a).1 = .accepted := by
      rw [answer_accepted_iff, hmax]
      exact Nat.not_lt_zero _
    rw [acceptedTimes_cons, if_neg fun h => hrejected h.2, List.nil_append, ih ((answer_bounds l a).1.trans hmax)]

/-! ### Bursts -/

/-- In every span as long as a window, wherever it begins, at most twice as many requests of a client are accepted as are
allowed in a window, and if any are allowed, fewer. -/
theorem burst_bounded (maxRequests : Nat) (window : Duration) {attempts : List Attempt} (inOrder : InOrder attempts)
    (client : String) (start : Instant) :
    countSpanned start window ((empty maxRequests window).acceptedTimes client attempts) ≤ 2 * maxRequests ∧
    (0 < maxRequests →
      countSpanned start window ((empty maxRequests window).acceptedTimes client attempts) < 2 * maxRequests) := by
  have hbound : 0 < maxRequests →
      countSpanned start window ((empty maxRequests window).acceptedTimes client attempts) < 2 * maxRequests := by
    intro hpos
    obtain ⟨first, hfirst⟩ := inOrder.exists_start
    have hnone : Limited window maxRequests [] := by simp [Limited, windows]
    have hlimited : Limited window maxRequests ((empty maxRequests window).acceptedTimes client attempts) :=
      Limited.after (l := empty maxRequests window) hnone (Remembers.empty maxRequests window client first) hpos hfirst
        inOrder
    exact hlimited.countSpanned_lt (ascending_acceptedTimes inOrder _ client) hpos start
  refine ⟨?_, hbound⟩
  rcases Nat.eq_zero_or_pos maxRequests with hzero | hpos
  · rw [acceptedTimes_of_zero hzero]
    exact Nat.zero_le _
  · exact Nat.le_of_lt (hbound hpos)

/-- Where two requests in ten seconds are allowed, three are accepted in the ten seconds from the ninth on, and no more
can be. -/
theorem three_accepted_in_span :
    let attempts : List Attempt :=
      [⟨"ann", ⟨0⟩, ⟨0, 0⟩⟩, ⟨"ann", ⟨9000000000⟩, ⟨9, 0⟩⟩, ⟨"bob", ⟨9000000000⟩, ⟨9, 0⟩⟩,
        ⟨"ann", ⟨10000000000⟩, ⟨10, 0⟩⟩, ⟨"ann", ⟨18000000000⟩, ⟨18, 0⟩⟩, ⟨"ann", ⟨18500000000⟩, ⟨18, 500000000⟩⟩]
    let accepted := (empty 2 (.ofSecs 10)).acceptedTimes "ann" attempts
    InOrder attempts ∧ 0 < 2 ∧ countSpanned ⟨9000000000⟩ (.ofSecs 10) accepted = 3 ∧
    countSpanned ⟨9000000000⟩ (.ofSecs 10) accepted < 2 * 2 := by
  intro attempts accepted
  have inOrder : InOrder attempts := by simp [attempts, InOrder]
  obtain ⟨-, bounded⟩ := burst_bounded 2 (.ofSecs 10) inOrder "ann" ⟨9000000000⟩
  exact ⟨inOrder, by decide, by decide +kernel, bounded (by decide)⟩

end RepoSearch.RateLimiter
