import RepoSearch.Proofs.RateWaits

/-!
# Rejections

A rejection tells what is left of the client's window and the date on which it ends. Where any requests are allowed, it
leaves all windows as they are. Where none are allowed, requests open windows though they are rejected.
-/

namespace RepoSearch.RateLimiter

variable {l : RateLimiter} {a : Attempt}

/-! ### Windows after a rejection -/

/-- The table holds the window in which a request falls. -/
def Holds (l : RateLimiter) (a : Attempt) : Prop :=
  l.clients[a.client]? = some (l.currentWindow a.client a.now)

/-- Nothing is forgotten for a client that is known. -/
theorem Holds.tidy_eq_self (h : l.Holds a) : l.tidy a.client a.now = l := by
  have hmem : a.client ∈ l.clients := by
    rw [Std.ExtTreeMap.mem_iff_isSome_getElem?, h]
    rfl
  exact tidy_of_known hmem a.now

/-- The windows after a rejected request: the one in which it falls is kept for its client. -/
theorem clients_of_full (hfull : l.maxRequests ≤ (l.currentWindow a.client a.now).count) :
    (l.answer a).2 = { l with
      clients := (l.tidy a.client a.now).clients.insert a.client (l.currentWindow a.client a.now) } := by
  rw [answer_eq l a rfl, filled_of_full hfull]

/-- A rejected request that falls in a window of the table leaves the limiter as it is, and no other one does. -/
theorem answer_eq_self_iff (hfull : l.maxRequests ≤ (l.currentWindow a.client a.now).count) :
    (l.answer a).2 = l ↔ l.Holds a := by
  rw [clients_of_full hfull]
  constructor
  · intro h
    have hclients := congrArg (fun m : RateLimiter => m.clients[a.client]?) h
    rw [Holds, ← hclients]
    exact Std.ExtTreeMap.getElem?_insert_self
  · intro h
    rw [h.tidy_eq_self]
    have hsame : l.clients.insert a.client (l.currentWindow a.client a.now) = l.clients := by
      apply Std.ExtTreeMap.ext_getElem?
      intro client
      rw [Std.ExtTreeMap.getElem?_insert]
      split_ifs with hclient
      · rw [← Std.LawfulEqCmp.compare_eq_iff_eq.1 hclient]
        exact h.symm
      · rfl
    rw [hsame]

/-- Whatever windows the limiter knows, a request that is not accepted leaves them all as they are if any requests are
allowed. If none are, it does so exactly if it falls in a window that the limiter knows. -/
theorem rejected_unchanged_iff (l : RateLimiter) (a : Attempt) (hrejected : (l.answer a).1 ≠ .accepted) :
    (l.answer a).2 = l ↔ 0 < l.maxRequests ∨ l.Holds a := by
  have hfull := full_of_not_accepted hrejected
  rw [answer_eq_self_iff hfull]
  constructor
  · exact Or.inr
  · rintro (hpos | hholds)
    · exact (known_of_count_pos (Nat.lt_of_lt_of_le hpos hfull)).1
    · exact hholds

/-- Where one request in ten seconds is allowed, a client's second request is rejected and changes nothing. -/
theorem second_request_changes_nothing :
    let l := (empty 1 (.ofSecs 10)).after [⟨"ann", ⟨0⟩, ⟨0, 0⟩⟩]
    let a : Attempt := ⟨"ann", ⟨4000000000⟩, ⟨4, 0⟩⟩
    (l.answer a).1 = .rejected (.ofSecs 6) ⟨10, 0⟩ ∧ 0 < l.maxRequests ∧ (l.answer a).2 = l := by
  intro l a
  have hverdict : (l.answer a).1 = .rejected (.ofSecs 6) ⟨10, 0⟩ := by decide +kernel
  have hrejected : (l.answer a).1 ≠ .accepted := by
    rw [hverdict]
    exact Verdict.noConfusion
  have hpos : 0 < l.maxRequests := by decide +kernel
  exact ⟨hverdict, hpos, (rejected_unchanged_iff l a hrejected).2 (Or.inl hpos)⟩

/-- Where no requests are allowed, a rejected request opens a window, and after that has passed another one moves it. -/
theorem rejected_request_opens_window :
    let l := empty 0 (.ofSecs 60)
    let a : Attempt := ⟨"ann", ⟨0⟩, ⟨0, 0⟩⟩
    let b : Attempt := ⟨"ann", ⟨60000000000⟩, ⟨60, 0⟩⟩
    ((l.answer a).1 = .rejected (.ofSecs 60) ⟨60, 0⟩ ∧ l.clients["ann"]? = none ∧
      (l.answer a).2.clients["ann"]? = some ⟨⟨0⟩, 0⟩) ∧
    ((l.after [a]).answer b).1 = .rejected (.ofSecs 60) ⟨120, 0⟩ ∧
    (l.after [a, b]).clients["ann"]? = some ⟨⟨60000000000⟩, 0⟩ := by
  decide +kernel

/-! ### The date given with a rejection -/

/-- What is left of the window in which a request falls. -/
def waitLeft (l : RateLimiter) (a : Attempt) : Duration :=
  l.window - a.now.since (l.currentWindow a.client a.now).started

theorem verdict_of_not_accepted (h : (l.answer a).1 ≠ .accepted) :
    (l.answer a).1 = l.rejection a.date (l.currentWindow a.client a.now) a.now :=
  (answer_of_full rfl (full_of_not_accepted h)).1

theorem rejection_of_le {date reset : Timestamp} {w : Window} {now : Instant}
    (hshort : l.window - now.since w.started ≤ longestWait)
    (hreset : date.add? (l.window - now.since w.started) = some reset) :
    l.rejection date w now = .rejected (l.window - now.since w.started) reset := by
  have hnot : ¬longestWait < l.window - now.since w.started := Nat.not_lt.2 hshort
  unfold rejection
  dsimp only
  rw [if_neg hnot, hreset]

theorem rejection_of_longestWait_lt {date : Timestamp} {w : Window} {now : Instant} (hdate : date.OnClock)
    (hlong : longestWait < l.window - now.since w.started) :
    l.rejection date w now = .rejected (l.window - now.since w.started) date := by
  unfold rejection
  dsimp only
  rw [if_pos hlong, hdate.add?_zero]

/-- A request that is not accepted is rejected with what is left of the window. The date given is the end of the wait if
that can be computed and is one of the calendar, and the current date if the wait is too long to be computed with. -/
theorem rejected_until_date (maxRequests : Nat) (window : Duration) (before : List Attempt) (a : Attempt)
    (hdate : a.date.OnClock) (hrejected : (((empty maxRequests window).after before).answer a).1 ≠ .accepted) :
    let l := (empty maxRequests window).after before
    l.waitLeft a ≤ window ∧
    (l.waitLeft a ≤ longestWait → a.date.Reaches (l.waitLeft a) →
      ∃ reset, (l.answer a).1 = .rejected (l.waitLeft a) reset ∧
        reset.totalNanos = a.date.totalNanos + (l.waitLeft a).nanos) ∧
    (longestWait < l.waitLeft a → (l.answer a).1 = .rejected (l.waitLeft a) a.date) := by
  intro l
  have hverdict := verdict_of_not_accepted hrejected
  refine ⟨?_, ?_, ?_⟩
  · have hwindow : l.window = window := (after_bounds (empty maxRequests window) before).2
    rw [← hwindow]
    exact Nat.sub_le _ _
  · rintro hshort ⟨-, hreaches⟩
    obtain ⟨reset, hreset⟩ := Option.isSome_iff_exists.1 hreaches
    exact ⟨reset, hverdict.trans (rejection_of_le hshort hreset), (Timestamp.add?_eq_some_iff.1 hreset).2⟩
  · intro hlong
    exact hverdict.trans (rejection_of_longestWait_lt hdate hlong)

/-- Where one request in ten seconds is allowed, a client rejected after four seconds is given the date six seconds on. -/
theorem rejected_until_window_ends :
    let l := (empty 1 (.ofSecs 10)).after [⟨"ann", ⟨0⟩, ⟨1700000000, 500000000⟩⟩]
    let a : Attempt := ⟨"ann", ⟨4000000000⟩, ⟨1700000004, 500000000⟩⟩
    a.date.OnClock ∧ (l.answer a).1 ≠ .accepted ∧
    ∃ reset, (l.answer a).1 = .rejected (.ofSecs 6) reset ∧ reset.totalNanos = 1700000010500000000 := by
  intro l a
  have hdate : a.date.OnClock := by decide +kernel
  have hrejected : (l.answer a).1 ≠ .accepted := by decide +kernel
  have hwait : l.waitLeft a = .ofSecs 6 := by decide +kernel
  obtain ⟨-, dated, -⟩ := rejected_until_date 1 (.ofSecs 10) [⟨"ann", ⟨0⟩, ⟨1700000000, 500000000⟩⟩] a hdate hrejected
  have hshort : l.waitLeft a ≤ longestWait := by decide +kernel
  have hreaches : a.date.Reaches (l.waitLeft a) := by decide +kernel
  obtain ⟨reset, hverdict, htotal⟩ := dated hshort hreaches
  have hend : a.date.totalNanos + (Duration.ofSecs 6).nanos = 1700000010500000000 := by decide +kernel
  rw [hwait] at hverdict htotal
  exact ⟨hdate, hrejected, reset, hverdict, htotal.trans hend⟩

/-- In the longest window that an environment can set, a rejected client is told to wait for all of it, but the date given
is the current one and not the end of the wait. -/
theorem longest_window_dated_now :
    let window := Duration.ofSecs Decimal.max64
    let a : Attempt := ⟨"ann", ⟨0⟩, ⟨1700000000, 0⟩⟩
    (((empty 1 window).after [a]).answer a).1 = .rejected window a.date ∧
    a.date.totalNanos ≠ a.date.totalNanos + window.nanos := by
  decide +kernel

end RepoSearch.RateLimiter
