import RepoSearch.Proofs.Dates
import RepoSearch.Proofs.RateHistory

/-!
# How long to wait

A rejected client is told how long to wait. Until then all its requests are rejected, each with the wait that is left,
and its first request after that is accepted, whatever other clients ask for in between.
-/

namespace RepoSearch

namespace Timestamp

/-- The calendar holds a date and the moment a span after it. -/
def Reaches (t : Timestamp) (d : Duration) : Prop :=
  ofUnix? t.secs t.nanos = some t ∧ (t.add? d).isSome = true

instance (t : Timestamp) (d : Duration) : Decidable (t.Reaches d) :=
  inferInstanceAs (Decidable (_ ∧ _))

/-- A calendar that reaches over a span reaches over all shorter ones. -/
theorem Reaches.add?_of_le {t : Timestamp} {d shorter : Duration} (h : t.Reaches d) (hle : shorter ≤ d) :
    ∃ date, t.add? shorter = some date := by
  obtain ⟨hdate, hreaches⟩ := h
  obtain ⟨last, hlast⟩ := Option.isSome_iff_exists.1 hreaches
  obtain ⟨⟨hcalendar, hfraction⟩, htotal⟩ := add?_eq_some_iff.1 hlast
  have hfirst : minSecs ≤ t.secs := (inCalendar_iff.1 hdate).1
  have hmax : last.secs ≤ maxSecs := (inCalendar_iff.1 hcalendar).2.1
  have hnanos : shorter.nanos ≤ d.nanos := hle
  rw [totalNanos, totalNanos] at htotal
  let date : Timestamp :=
    ⟨(t.totalNanos + shorter.nanos) / 1000000000, ((t.totalNanos + shorter.nanos) % 1000000000).toNat⟩
  have hsplit : date.totalNanos = t.totalNanos + shorter.nanos ∧ date.nanos < 1000000000 := by
    rw [totalNanos]
    dsimp only [date]
    omega
  have hbounds : minSecs ≤ date.secs ∧ date.secs ≤ maxSecs := by
    have hsum := hsplit.1
    rw [totalNanos, totalNanos] at hsum
    omega
  exact ⟨date, add?_eq_some_iff.2
    ⟨⟨inCalendar_iff.2 ⟨hbounds.1, hbounds.2, Or.inl hsplit.2⟩, hsplit.2⟩, hsplit.1⟩⟩

end Timestamp

namespace RateLimiter

variable {l : RateLimiter} {client : String}

/-! ### Used-up windows -/

/-- From a time on, a client's requests fall in a window of which no request is left, until the window has passed. -/
structure UsedUp (l : RateLimiter) (client : String) (w : Window) (now : Instant) : Prop where
  full : l.maxRequests ≤ w.count
  current : ∀ later : Instant, now.nanos ≤ later.nanos →
    l.currentWindow client later = if l.isOpen later w then w else ⟨later, 0⟩

/-- A window in which requests have been accepted is one of the table and still open when the next request falls in
it. -/
theorem known_of_count_pos {now : Instant} (h : 0 < (l.currentWindow client now).count) :
    l.clients[client]? = some (l.currentWindow client now) ∧ l.isOpen now (l.currentWindow client now) = true := by
  unfold currentWindow at h ⊢
  cases hknown : l.clients[client]? with
  | none =>
    rw [hknown] at h
    exact absurd h (Nat.lt_irrefl 0)
  | some w =>
    rw [hknown] at h
    dsimp only at h ⊢
    by_cases hopen : l.isOpen now w = true
    · rw [if_pos hopen]
      exact ⟨rfl, hopen⟩
    · rw [if_neg hopen] at h
      exact absurd h (Nat.lt_irrefl 0)

theorem full_of_not_accepted {a : Attempt} (h : (l.answer a).1 ≠ .accepted) :
    l.maxRequests ≤ (l.currentWindow a.client a.now).count :=
  Nat.le_of_not_lt fun hless => h ((answer_accepted_iff l a).2 hless)

theorem filled_of_full {w : Window} (hfull : l.maxRequests ≤ w.count) : l.filled w = w :=
  if_neg (Nat.not_lt.2 hfull)

/-- A request that falls in a used-up window is rejected and leaves the window used up. -/
theorem answer_of_full {a : Attempt} {w : Window} (hw : w = l.currentWindow a.client a.now)
    (hfull : l.maxRequests ≤ w.count) :
    (l.answer a).1 = l.rejection a.date w a.now ∧ UsedUp (l.answer a).2 a.client w a.now := by
  constructor
  · rw [answer_eq l a hw]
    exact if_neg (Nat.not_lt.2 hfull)
  · refine ⟨?_, ?_⟩
    · rw [(answer_bounds l a).1]
      exact hfull
    · intro later _
      rw [currentWindow_answer l a hw, filled_of_full hfull, isOpen, isOpen, (answer_bounds l a).2]

theorem UsedUp.other {w : Window} {now : Instant} {a : Attempt} (h : UsedUp l client w now)
    (htime : now.nanos ≤ a.now.nanos) (hne : a.client ≠ client) : UsedUp (l.answer a).2 client w a.now := by
  refine ⟨?_, ?_⟩
  · rw [(answer_bounds l a).1]
    exact h.full
  · intro later hlater
    rw [currentWindow_answer_of_ne l hne hlater, h.current later (Int.le_trans htime hlater), isOpen, isOpen,
      (answer_bounds l a).2]

theorem UsedUp.currentWindow_of_open {w : Window} {now later : Instant} (h : UsedUp l client w now)
    (htime : now.nanos ≤ later.nanos) (hopen : later.since w.started < l.window) : w = l.currentWindow client later := by
  rw [h.current later htime, if_pos (isOpen_iff.2 hopen)]

/-- A window stays used up as long as the client's requests come before it has passed, whatever other clients do. -/
theorem UsedUp.after {w : Window} {now last : Instant} (h : UsedUp l client w now) {attempts : List Attempt}
    (inOrder : InOrder attempts) (times : ∀ a ∈ attempts, now.nanos ≤ a.now.nanos ∧ a.now.nanos ≤ last.nanos)
    (hlast : now.nanos ≤ last.nanos)
    (early : ∀ a ∈ attempts, a.client = client → a.now.since w.started < l.window) :
    UsedUp (l.after attempts) client w last := by
  have hrun : (l.after attempts).window = l.window ∧ UsedUp (l.after attempts) client w last := by
    apply inOrder.after_induction (P := fun m t => m.window = l.window ∧ UsedUp m client w t) ?lasting ?kept ⟨rfl, h⟩
      hlast times
    case lasting =>
      rintro m t later ⟨hwindow, hused⟩ hlater
      exact ⟨hwindow, hused.full, fun u hu => hused.current u (Int.le_trans hlater hu)⟩
    case kept =>
      rintro m t a ha ⟨hwindow, hused⟩ htime
      refine ⟨(answer_bounds m a).2.trans hwindow, ?_⟩
      by_cases hclient : a.client = client
      · subst hclient
        have hopen : a.now.since w.started < m.window := by
          rw [hwindow]
          exact early a ha rfl
        exact (answer_of_full (hused.currentWindow_of_open htime hopen) hused.full).2
      · exact hused.other htime hclient
  exact hrun.2

/-! ### Windows open with requests -/

/-- From a time on, no request falls in a window that opens only after it. -/
def OpenedBefore (l : RateLimiter) (now : Instant) : Prop :=
  ∀ (client : String) (later : Instant), now.nanos ≤ later.nanos →
    (l.currentWindow client later).started.nanos ≤ later.nanos

theorem OpenedBefore.answer {now : Instant} {a : Attempt} (h : OpenedBefore l now) (htime : now.nanos ≤ a.now.nanos) :
    OpenedBefore (l.answer a).2 a.now := by
  intro client later hlater
  by_cases hclient : a.client = client
  · subst hclient
    have hstarted : (l.filled (l.currentWindow a.client a.now)).started.nanos ≤ a.now.nanos := by
      have := h a.client a.now htime
      unfold filled
      split <;> exact this
    rw [currentWindow_answer l a rfl]
    split
    · exact Int.le_trans hstarted hlater
    · exact Int.le_refl _
  · rw [currentWindow_answer_of_ne l hclient hlater]
    exact h client later (Int.le_trans htime hlater)

theorem OpenedBefore.after {now last : Instant} (h : OpenedBefore l now) {attempts : List Attempt}
    (inOrder : InOrder attempts) (times : ∀ a ∈ attempts, now.nanos ≤ a.now.nanos ∧ a.now.nanos ≤ last.nanos)
    (hlast : now.nanos ≤ last.nanos) : OpenedBefore (l.after attempts) last := by
  apply inOrder.after_induction (P := OpenedBefore) ?lasting ?kept h hlast times
  case lasting =>
    intro m t later hopened hlater client u hu
    exact hopened client u (Int.le_trans hlater hu)
  case kept =>
    intro m t a _ hopened htime
    exact hopened.answer htime

theorem OpenedBefore.empty (maxRequests : Nat) (window : Duration) (now : Instant) :
    OpenedBefore (.empty maxRequests window) now := by
  intro client later _
  have hnew : (RateLimiter.empty maxRequests window).currentWindow client later = ⟨later, 0⟩ := by
    simp [currentWindow, RateLimiter.empty]
  exact Int.le_of_eq (congrArg (·.started.nanos) hnew)

/-! ### Rejections -/

/-- If the calendar reaches far enough, a rejection tells what is left of the window. -/
theorem rejection_eq {date : Timestamp} (hdate : date.Reaches l.window) (w : Window) (now : Instant) :
    ∃ reset, l.rejection date w now = .rejected (l.window - now.since w.started) reset := by
  have hwait : l.window - now.since w.started ≤ l.window := Nat.sub_le _ _
  have hspan : (if longestWait < l.window - now.since w.started then ⟨0⟩ else l.window - now.since w.started) ≤
      l.window := by
    split
    · exact Nat.zero_le _
    · exact hwait
  obtain ⟨reset, hreset⟩ := hdate.add?_of_le hspan
  refine ⟨reset, ?_⟩
  rw [rejection, hreset]

theorem wait_of_rejection {date : Timestamp} {w : Window} {now : Instant} {wait : Duration} {reset : Timestamp}
    (h : l.rejection date w now = .rejected wait reset) : wait = l.window - now.since w.started := by
  unfold rejection at h
  dsimp only at h
  split at h
  · injection h with hwait
    exact hwait.symm
  · cases h

/-- The window of a rejected request, which opened before the request and ends when the wait does. -/
theorem exists_usedUp_of_rejected {a : Attempt} {wait : Duration} {reset : Timestamp} (hmax : 0 < l.maxRequests)
    (hopened : OpenedBefore l a.now) (h : (l.answer a).1 = .rejected wait reset) :
    ∃ w, UsedUp (l.answer a).2 a.client w a.now ∧ w.started.nanos ≤ a.now.nanos ∧ 0 < wait.nanos ∧
      a.now.nanos + wait.nanos = w.started.nanos + l.window.nanos := by
  have hrejected : (l.answer a).1 ≠ .accepted := by
    rw [h]
    exact Verdict.noConfusion
  have hfull := full_of_not_accepted hrejected
  obtain ⟨hverdict, hused⟩ := answer_of_full rfl hfull
  have hstarted := hopened a.client a.now (Int.le_refl _)
  have hopen : (a.now.nanos - (l.currentWindow a.client a.now).started.nanos).toNat < l.window.nanos :=
    isOpen_iff.1 (known_of_count_pos (Nat.lt_of_lt_of_le hmax hfull)).2
  have hwait : wait.nanos = l.window.nanos - (a.now.nanos - (l.currentWindow a.client a.now).started.nanos).toNat := by
    rw [hverdict] at h
    rw [wait_of_rejection h]
    rfl
  refine ⟨l.currentWindow a.client a.now, hused, hstarted, ?_, ?_⟩
  · omega
  · omega

/-! ### Requests after a rejection -/

/-- While a used-up window is open, the client is rejected with what is left of it. -/
theorem UsedUp.answer_early {b : Attempt} {w : Window} (h : UsedUp l b.client w b.now)
    (hopen : b.now.since w.started < l.window) (hdate : b.date.Reaches l.window) :
    ∃ reset, (l.answer b).1 = .rejected (l.window - b.now.since w.started) reset := by
  have hcurrent := h.currentWindow_of_open (Int.le_refl _) hopen
  rw [(answer_of_full hcurrent h.full).1]
  exact rejection_eq hdate w b.now

/-- Once it has passed, the client is accepted. -/
theorem UsedUp.answer_late {b : Attempt} {w : Window} (h : UsedUp l b.client w b.now)
    (hpassed : ¬b.now.since w.started < l.window) (hmax : 0 < l.maxRequests) : (l.answer b).1 = .accepted := by
  have hnot : ¬l.isOpen b.now w = true := fun hopen => hpassed (isOpen_iff.1 hopen)
  rw [answer_accepted_iff, h.current b.now (Int.le_refl _), if_neg hnot]
  exact hmax

/-- After a rejection the client's requests before the end of the wait are rejected and the first one from its end on is
accepted, whatever other clients do in between. -/
theorem answer_after_rejection {a b : Attempt} {between : List Attempt} {wait : Duration} {reset : Timestamp}
    (hmax : 0 < l.maxRequests) (hopened : OpenedBefore l a.now) (hrejected : (l.answer a).1 = .rejected wait reset)
    (inOrder : InOrder (a :: (between ++ [b]))) (hclient : b.client = a.client) (hdate : b.date.Reaches l.window)
    (hearly : ∀ c ∈ between, c.client = a.client → c.now.nanos < a.now.nanos + wait.nanos) :
    (b.now.nanos < a.now.nanos + wait.nanos →
      ∃ reset, ((l.after (a :: between)).answer b).1 = .rejected (wait - b.now.since a.now) reset) ∧
    (a.now.nanos + wait.nanos ≤ b.now.nanos → ((l.after (a :: between)).answer b).1 = .accepted) := by
  obtain ⟨hfirst, hrest⟩ := List.pairwise_cons.1 inOrder
  obtain ⟨hbetween, -, hlast⟩ := List.pairwise_append.1 hrest
  have htime : a.now.nanos ≤ b.now.nanos := hfirst b (by simp)
  obtain ⟨w, hused, hstarted, hwait, hend⟩ := exists_usedUp_of_rejected hmax hopened hrejected
  have hsince : ∀ c : Attempt, c.now.since w.started < l.window ↔ c.now.nanos < a.now.nanos + wait.nanos := by
    intro c
    show (c.now.nanos - w.started.nanos).toNat < l.window.nanos ↔ _
    omega
  obtain ⟨hsame, hwindow⟩ := after_bounds l (a :: between)
  have hstill : UsedUp (l.after (a :: between)) b.client w b.now := by
    rw [hclient, after_cons]
    apply hused.after hbetween
    · intro c hc
      exact ⟨hfirst c (List.mem_append_left _ hc), hlast c hc b (List.mem_singleton_self b)⟩
    · exact htime
    · intro c hc hcclient
      rw [(answer_bounds l a).2, hsince]
      exact hearly c hc hcclient
  constructor
  · intro hbound
    have hleft : l.window - b.now.since w.started = wait - b.now.since a.now := by
      show Duration.mk (l.window.nanos - (b.now.nanos - w.started.nanos).toNat) =
        Duration.mk (wait.nanos - (b.now.nanos - a.now.nanos).toNat)
      congr 1
      omega
    rw [← hleft, ← hwindow]
    apply hstill.answer_early
    · rw [hwindow, hsince]
      exact hbound
    · rw [hwindow]
      exact hdate
  · intro hbound
    apply hstill.answer_late
    · rw [hwindow, hsince]
      exact Int.not_lt.2 hbound
    · rw [hsame]
      exact hmax

/-- A rejection is exact about the wait: if any requests are allowed at all, the wait is positive and no longer than the
window, the client's requests before its end are rejected with as much less to wait as time has passed, and the first one
from its end on is accepted, whatever other clients do in between. -/
theorem retryAfter_exact (maxRequests : Nat) (window : Duration) {attempts : List Attempt} (inOrder : InOrder attempts)
    (dated : ∀ a ∈ attempts, a.date.Reaches window) :
    (maxRequests = 0 → ∀ before a later, attempts = before ++ a :: later →
      ∃ wait reset, (((empty maxRequests window).after before).answer a).1 = .rejected wait reset) ∧
    (0 < maxRequests → ∀ before a rest wait reset, attempts = before ++ a :: rest →
      (((empty maxRequests window).after before).answer a).1 = .rejected wait reset →
      (0 < wait.nanos ∧ wait ≤ window) ∧
      ∀ between b later, rest = between ++ b :: later → b.client = a.client →
        (b.now.nanos < a.now.nanos + wait.nanos →
          ∃ reset, (((empty maxRequests window).after (before ++ a :: between)).answer b).1 =
            .rejected (wait - b.now.since a.now) reset) ∧
        (a.now.nanos + wait.nanos ≤ b.now.nanos →
          (∀ c ∈ between, c.client = a.client → c.now.nanos < a.now.nanos + wait.nanos) →
          (((empty maxRequests window).after (before ++ a :: between)).answer b).1 = .accepted)) := by
  obtain ⟨start, hstart⟩ := inOrder.exists_start
  constructor
  · rintro hzero before a later rfl
    obtain ⟨hmax, hwindow⟩ := after_bounds (empty maxRequests window) before
    generalize (empty maxRequests window).after before = l at hmax hwindow ⊢
    have hfull : l.maxRequests ≤ (l.currentWindow a.client a.now).count := by
      rw [hmax]
      exact hzero ▸ Nat.zero_le _
    have hdate : a.date.Reaches l.window := by
      rw [hwindow]
      exact dated a (List.mem_append_right before List.mem_cons_self)
    obtain ⟨reset, hreset⟩ := rejection_eq hdate (l.currentWindow a.client a.now) a.now
    exact ⟨_, reset, (answer_of_full rfl hfull).1.trans hreset⟩
  · rintro hpos before a rest wait reset rfl hrejected
    obtain ⟨hbefore, hrest, htimes⟩ := List.pairwise_append.1 inOrder
    have hopened : OpenedBefore ((empty maxRequests window).after before) a.now := by
      apply (OpenedBefore.empty maxRequests window start).after hbefore
      · intro b hb
        exact ⟨hstart b (List.mem_append_left _ hb), htimes b hb a List.mem_cons_self⟩
      · exact hstart a (List.mem_append_right _ List.mem_cons_self)
    simp only [after_append]
    obtain ⟨hmax, hwindow⟩ := after_bounds (empty maxRequests window) before
    generalize (empty maxRequests window).after before = l at hmax hwindow hopened hrejected ⊢
    obtain rfl : l.maxRequests = maxRequests := hmax
    obtain rfl : l.window = window := hwindow
    obtain ⟨w, -, hstarted, hwait, hend⟩ := exists_usedUp_of_rejected hpos hopened hrejected
    refine ⟨⟨hwait, ?_⟩, ?_⟩
    · show wait.nanos ≤ l.window.nanos
      omega
    · rintro between b later rfl hclient
      have hparts : a :: (between ++ b :: later) = a :: (between ++ [b]) ++ later := by simp
      have hrun : InOrder (a :: (between ++ [b])) := by
        rw [hparts] at hrest
        exact (List.pairwise_append.1 hrest).1
      have hdate : b.date.Reaches l.window := dated b (by simp)
      have hanswer := answer_after_rejection hpos hopened hrejected hrun hclient hdate
      constructor
      · intro hbound
        have hlast : ∀ c ∈ between, c.now.nanos ≤ b.now.nanos := by
          obtain ⟨-, hfrom⟩ := List.pairwise_cons.1 hrun
          exact fun c hc => (List.pairwise_append.1 hfrom).2.2 c hc b (List.mem_singleton_self b)
        exact (hanswer fun c hc _ => Int.lt_of_le_of_lt (hlast c hc) hbound).1 hbound
      · intro hbound hearly
        exact (hanswer hearly).2 hbound

/-- Where one request in ten seconds is allowed, a client rejected after four seconds is told to wait for six. It is
rejected again when one is left, another client comes and goes, and after ten seconds it is accepted. -/
theorem rejected_until_wait_ends :
    let first : Attempt := ⟨"ann", ⟨0⟩, ⟨0, 0⟩⟩
    let rejected : Attempt := ⟨"ann", ⟨4000000000⟩, ⟨4, 0⟩⟩
    let other : Attempt := ⟨"bob", ⟨5000000000⟩, ⟨5, 0⟩⟩
    let early : Attempt := ⟨"ann", ⟨9000000000⟩, ⟨9, 0⟩⟩
    let late : Attempt := ⟨"ann", ⟨10000000000⟩, ⟨10, 0⟩⟩
    let l := empty 1 (.ofSecs 10)
    let attempts := [first, rejected, other, early, late]
    InOrder attempts ∧ (∀ a ∈ attempts, a.date.Reaches (.ofSecs 10)) ∧
    ((l.after [first]).answer rejected).1 = .rejected (.ofSecs 6) ⟨10, 0⟩ ∧
    (∃ reset, ((l.after [first, rejected, other]).answer early).1 = .rejected (.ofSecs 1) reset) ∧
    ((l.after [first, rejected, other, early]).answer late).1 = .accepted := by
  intro first rejected other early late l attempts
  have inOrder : InOrder attempts := by simp [attempts, InOrder, first, rejected, other, early, late]
  have dated : ∀ a ∈ attempts, a.date.Reaches (.ofSecs 10) := by
    simp only [attempts, List.forall_mem_cons]
    decide
  have hrejected : ((l.after [first]).answer rejected).1 = .rejected (.ofSecs 6) ⟨10, 0⟩ := by decide +kernel
  obtain ⟨-, countdown⟩ := retryAfter_exact 1 (.ofSecs 10) inOrder dated
  obtain ⟨-, later⟩ := countdown (by decide) [first] rejected [other, early, late] _ _ rfl hrejected
  have hbefore : early.now.nanos < rejected.now.nanos + (Duration.ofSecs 6).nanos := by decide +kernel
  have hend : rejected.now.nanos + (Duration.ofSecs 6).nanos ≤ late.now.nanos := by decide +kernel
  have hbetween : ∀ c ∈ [other, early], c.client = rejected.client →
      c.now.nanos < rejected.now.nanos + (Duration.ofSecs 6).nanos := by
    simp only [List.forall_mem_cons]
    decide +kernel
  have hleft : Duration.ofSecs 6 - early.now.since rejected.now = .ofSecs 1 := by decide +kernel
  have hearly := (later [other] early [late] rfl rfl).1 hbefore
  rw [hleft] at hearly
  have hlate := (later [other, early] late [] rfl rfl).2 hend hbetween
  exact ⟨inOrder, dated, hrejected, hearly, hlate⟩

end RateLimiter

end RepoSearch
