import RepoSearch.Proofs.Numerals
import RepoSearch.Proofs.RateRejections
import RepoSearch.Service.Route

/-!
# Told to wait

The response to a search that a rate limit stopped tells the client how many seconds to wait. For the limit of the service
these are rounded up and reach the date given with the error. For GitHub's limit they are rounded down, so that a client
that keeps to them may come back before the date.
-/

namespace RepoSearch

/-- The response to an error tells the client to wait so many seconds. -/
def SearchError.Tells (e : SearchError) (now : Timestamp) (n : Nat) : Prop :=
  (Service.errorResponse now e).headers.lookup "retry-after" = some (Decimal.render n)

instance (e : SearchError) (now : Timestamp) (n : Nat) : Decidable (e.Tells now n) :=
  inferInstanceAs (Decidable (_ = _))

theorem SearchError.tells_iff {e : SearchError} {now : Timestamp} {n : Nat} :
    e.Tells now n ↔ e.retryAfter? now = some n := by
  have hheader : (Service.errorResponse now e).headers.lookup "retry-after" =
      (e.retryAfter? now).map Decimal.render := by
    unfold Service.errorResponse
    cases e.retryAfter? now <;> rfl
  rw [Tells, hheader, Option.map_eq_some_iff]
  constructor
  · rintro ⟨m, hm, hrender⟩
    rw [hm, Decimal.render_inj hrender]
  · intro h
    exact ⟨n, h, rfl⟩

namespace RateLimiter

/-- The date given with a rejection is the end of the wait, or the current date if the wait is too long. -/
theorem reset_of_rejection {l : RateLimiter} {date reset : Timestamp} {w : Window} {now : Instant} {wait : Duration}
    (h : l.rejection date w now = .rejected wait reset) :
    date.add? (if longestWait < wait then ⟨0⟩ else wait) = some reset := by
  obtain rfl := wait_of_rejection h
  unfold rejection at h
  dsimp only at h
  split at h
  · rename_i t ht
    rw [ht]
    injection h with _ hreset
    rw [hreset]
  · cases h

/-- The seconds that a rejected client is told to wait reach the date given, whenever the response is sent, and are no
more than those of the window. -/
theorem rejection_told {maxRequests windowSecs : Nat} {before : List Attempt} {a : Attempt} {wait : Duration}
    {reset now : Timestamp} (hdate : a.date.OnClock) (hnow : a.date ≤ now)
    (h : (((empty maxRequests (.ofSecs windowSecs)).after before).answer a).1 = .rejected wait reset) :
    (SearchError.rateLimited wait reset).Tells now wait.secsUp ∧ wait.secsUp ≤ windowSecs ∧
      reset ≤ now.later wait.secsUp := by
  have hrejected : (((empty maxRequests (.ofSecs windowSecs)).after before).answer a).1 ≠ .accepted := by
    rw [h]
    exact Verdict.noConfusion
  have hrejection := (verdict_of_not_accepted hrejected).symm.trans h
  refine ⟨SearchError.tells_iff.2 rfl, ?_, ?_⟩
  · have hwindow := (after_bounds (empty maxRequests (.ofSecs windowSecs)) before).2
    have hwait : wait ≤ .ofSecs windowSecs := by
      rw [wait_of_rejection hrejection, hwindow]
      exact Nat.sub_le _ _
    exact Duration.secsUp_le_of_le_ofSecs hwait
  · apply Timestamp.le_later_of_add? (reset_of_rejection hrejection) hdate hnow
    split
    · exact Nat.zero_le _
    · exact wait.nanos_le_secsUp

end RateLimiter

open RateLimiter

/-- For the limit of the service the seconds that a client is told to wait reach the date given. For GitHub's limit they
do so exactly if the date does not lie ahead or no fraction of a second is lost, as when the date falls on the same
fraction as the clock's; one second more always reaches it, and two seconds more if it is a leap second. No number that is
computed on the way leaves its bounds. -/
theorem told_wait_reaches_reset (reset now : Timestamp) (hnow : now.OnClock) :
    (∀ (maxRequests windowSecs : Nat) (before : List Attempt) (a : Attempt) (wait : Duration),
      windowSecs ≤ Decimal.max64 → a.date.OnClock → a.date ≤ now →
      (((empty maxRequests (.ofSecs windowSecs)).after before).answer a).1 = .rejected wait reset →
      ∃ n, (SearchError.rateLimited wait reset).Tells now n ∧ n ≤ Decimal.max64 ∧ reset ≤ now.later n) ∧
    (reset.InCalendar →
      (reset.nanosFrom now).natAbs ≤ longestWait.nanos ∧
      ∃ n, (SearchError.quotaExhausted (some reset)).Tells now n ∧ n ≤ Decimal.max64 ∧
        (reset ≤ now.later n ↔ reset ≤ now ∨ reset.nanos = now.nanos ∨
          (now.secOfDay ≤ reset.secOfDay ∧ now.nanos + 1000000000 ≤ reset.nanos)) ∧
        (reset.nanos < 1000000000 → reset ≤ now.later (n + 1)) ∧ reset ≤ now.later (n + 2)) := by
  constructor
  · intro maxRequests windowSecs before a wait hwindow hdate hlater h
    obtain ⟨htells, hsecs, hreset⟩ := rejection_told hdate hlater h
    exact ⟨wait.secsUp, htells, Nat.le_trans hsecs hwindow, hreset⟩
  · intro hreset
    have hnanos : reset.nanos < 2000000000 := by
      have := (Timestamp.inCalendar_iff.1 hreset).2.2
      omega
    refine ⟨?_, reset.secsFrom now, SearchError.tells_iff.2 rfl, ?_, ?_, ?_, ?_⟩
    · exact Nat.le_of_lt (Nat.lt_of_lt_of_le (Timestamp.natAbs_nanosFrom_lt hreset hnow) (by decide))
    · exact Nat.le_of_lt (Nat.lt_of_lt_of_le (Timestamp.secsFrom_lt hreset hnow) (by decide))
    · exact Timestamp.le_later_secsFrom_iff hnanos hnow.2
    · intro hplain
      exact Timestamp.le_later_secsFrom_add_one hplain hnow.2
    · exact Timestamp.le_later_secsFrom_add_two hnanos hnow.2

/-- A client rejected 5.7 seconds before its window ends is told to wait six seconds, and one stopped by GitHub's limit 56
seconds before it is lifted is told 56. -/
theorem told_waits_reach_dates :
    let before : List Attempt := [⟨"ann", ⟨0⟩, ⟨1700000000, 0⟩⟩]
    let a : Attempt := ⟨"ann", ⟨4300000000⟩, ⟨1700000004, 300000000⟩⟩
    let now : Timestamp := ⟨1700000004, 800000000⟩
    let ends : Timestamp := ⟨1700000010, 0⟩
    let lifted : Timestamp := ⟨1700000060, 800000000⟩
    (10 ≤ Decimal.max64 ∧ a.date.OnClock ∧ a.date ≤ now ∧
      (((empty 1 (.ofSecs 10)).after before).answer a).1 = .rejected ⟨5700000000⟩ ends) ∧
    ((SearchError.rateLimited ⟨5700000000⟩ ends).Tells now 6 ∧ ends ≤ now.later 6) ∧
    (lifted.InCalendar ∧ now.OnClock) ∧
    (SearchError.quotaExhausted (some lifted)).Tells now 56 ∧ lifted ≤ now.later 56 := by
  intro before a now ends lifted
  have hbound : 10 ≤ Decimal.max64 := by decide +kernel
  have hdate : a.date.OnClock := by decide +kernel
  have hlater : a.date ≤ now := by decide +kernel
  have hverdict : (((empty 1 (.ofSecs 10)).after before).answer a).1 = .rejected ⟨5700000000⟩ ends := by
    decide +kernel
  have hlifted : lifted.InCalendar := by decide +kernel
  have hnow : now.OnClock := by decide +kernel
  have hown : (SearchError.rateLimited ⟨5700000000⟩ ends).Tells now 6 ∧ ends ≤ now.later 6 := by
    obtain ⟨own, -⟩ := told_wait_reaches_reset ends now hnow
    obtain ⟨n, htells, -, hreaches⟩ := own 1 10 before a _ hbound hdate hlater hverdict
    obtain rfl : 6 = n := Option.some.inj (SearchError.tells_iff.1 htells)
    exact ⟨htells, hreaches⟩
  have hgithub : (SearchError.quotaExhausted (some lifted)).Tells now 56 ∧ lifted ≤ now.later 56 := by
    obtain ⟨-, github⟩ := told_wait_reaches_reset lifted now hnow
    obtain ⟨-, n, htells, -, hreaches, -⟩ := github hlifted
    have hsecs : (SearchError.quotaExhausted (some lifted)).retryAfter? now = some 56 := by decide +kernel
    obtain rfl : 56 = n := Option.some.inj (hsecs.symm.trans (SearchError.tells_iff.1 htells))
    exact ⟨htells, hreaches.2 (Or.inr (Or.inl rfl))⟩
  exact ⟨⟨hbound, hdate, hlater, hverdict⟩, hown, ⟨hlifted, hnow⟩, hgithub⟩

/-- A client stopped by GitHub's limit 59.5 seconds before it is lifted is told to wait 59 seconds, which is too short. One
stopped for as long by the limit of the service is told 60. -/
theorem told_wait_falls_short :
    let now : Timestamp := ⟨1700000000, 500000000⟩
    let lifted : Timestamp := ⟨1700000060, 0⟩
    (lifted.InCalendar ∧ now.OnClock) ∧
    ((SearchError.quotaExhausted (some lifted)).Tells now 59 ∧ ¬lifted ≤ now.later 59) ∧
    (SearchError.rateLimited ⟨59500000000⟩ lifted).Tells now 60 ∧ lifted ≤ now.later 60 := by
  intro now lifted
  refine ⟨by decide +kernel, ⟨?_, by decide +kernel⟩, ?_, by decide +kernel⟩
  · exact SearchError.tells_iff.2 (by decide +kernel)
  · exact SearchError.tells_iff.2 (by decide +kernel)

end RepoSearch
