import RepoSearch.RateLimiter
import Mathlib.Tactic.SplitIfs

/-!
# The history of a client

What the limiter decides on a client's request depends on that client's earlier requests alone, though all clients share
one table and a newcomer may cause passed windows to be forgotten. For a client the table matters only through the
window in which its next request falls, and this window is told by the times of its accepted requests.
-/

namespace RepoSearch.RateLimiter

/-! ### Sequences of requests -/

/-- A request: its client, its time, and the date then. -/
structure Attempt where
  client : String
  now : Instant
  date : Timestamp

/-- The limiter's answer to a request, and the limiter after it. -/
def answer (l : RateLimiter) (a : Attempt) : Verdict × RateLimiter := l.check a.date a.client a.now

/-- The limiter after a sequence of requests. -/
def after (l : RateLimiter) (attempts : List Attempt) : RateLimiter := attempts.foldl (fun l a => (l.answer a).2) l

/-- The answers to a sequence of requests. -/
def verdicts (l : RateLimiter) : List Attempt → List Verdict
  | [] => []
  | a :: attempts => (l.answer a).1 :: (l.answer a).2.verdicts attempts

/-- The requests of a client in a sequence, with the answers that they get. -/
def seenBy (l : RateLimiter) (client : String) (attempts : List Attempt) : List (Attempt × Verdict) :=
  (attempts.zip (l.verdicts attempts)).filter fun seen => seen.1.client = client

/-- The times of a client's accepted requests. -/
def acceptedTimes (l : RateLimiter) (client : String) (attempts : List Attempt) : List Instant :=
  ((l.seenBy client attempts).filter fun seen => seen.2 = .accepted).map (·.1.now)

/-- No request comes before an earlier one. -/
def InOrder (attempts : List Attempt) : Prop := attempts.Pairwise fun a b => a.now.nanos ≤ b.now.nanos

theorem after_cons (l : RateLimiter) (a : Attempt) (attempts : List Attempt) :
    l.after (a :: attempts) = (l.answer a).2.after attempts := rfl

theorem after_append (l : RateLimiter) (earlier later : List Attempt) :
    l.after (earlier ++ later) = (l.after earlier).after later := List.foldl_append

theorem InOrder.exists_start {attempts : List Attempt} (h : InOrder attempts) :
    ∃ start : Instant, ∀ a ∈ attempts, start.nanos ≤ a.now.nanos := by
  cases attempts with
  | nil => exact ⟨⟨0⟩, by simp⟩
  | cons a attempts =>
    refine ⟨a.now, fun b hb => ?_⟩
    rcases List.mem_cons.1 hb with rfl | hb
    · exact Int.le_refl _
    · exact (List.pairwise_cons.1 h).1 b hb

/-- What time does not end and each request of a sequence keeps from its time on holds after the sequence. -/
theorem InOrder.after_induction {P : RateLimiter → Instant → Prop} {attempts : List Attempt} (inOrder : InOrder attempts)
    (lasting : ∀ {m : RateLimiter} {now later : Instant}, P m now → now.nanos ≤ later.nanos → P m later)
    (kept : ∀ {m : RateLimiter} {now : Instant} {a : Attempt}, a ∈ attempts → P m now → now.nanos ≤ a.now.nanos →
      P (m.answer a).2 a.now)
    {l : RateLimiter} {now last : Instant} (h : P l now) (hlast : now.nanos ≤ last.nanos)
    (times : ∀ a ∈ attempts, now.nanos ≤ a.now.nanos ∧ a.now.nanos ≤ last.nanos) : P (l.after attempts) last := by
  induction attempts generalizing l now with
  | nil => exact lasting h hlast
  | cons a attempts ih =>
    obtain ⟨hfirst, hrest⟩ := List.pairwise_cons.1 inOrder
    obtain ⟨htime, hbefore⟩ := times a List.mem_cons_self
    apply ih hrest
    · intro m now b hb
      exact kept (List.mem_cons_of_mem a hb)
    · exact kept List.mem_cons_self h htime
    · exact hbefore
    · intro b hb
      exact ⟨hfirst b hb, (times b (List.mem_cons_of_mem a hb)).2⟩

/-! ### Windows of accepted requests -/

/-- Accepted requests in windows of a given length, each with the time that opens it and the later times in it. A window
is opened by the first request and by each one that comes at least the length after the previous opening. -/
def windows (length : Duration) : List Instant → List (Instant × List Instant)
  | [] => []
  | t :: ts =>
    (t, ts.takeWhile fun u => u.since t < length) :: windows length (ts.dropWhile fun u => u.since t < length)
termination_by ts => ts.length
decreasing_by
  have := (List.dropWhile_sublist (l := ts) fun u => u.since t < length).length_le
  simp only [List.length_cons]
  omega

/-- The last window, if it was opened less than its length ago. -/
def currentWindow? (length : Duration) (accepted : List Instant) (now : Instant) : Option (Instant × List Instant) :=
  (windows length accepted).getLast?.filter fun w => now.since w.1 < length

/-- The number of requests in the current window. -/
def countAt (length : Duration) (accepted : List Instant) (now : Instant) : Nat :=
  (currentWindow? length accepted now).elim 0 fun w => w.2.length + 1

/-- One more accepted request falls in the current window, or opens one if there is none. The other windows stay. -/
theorem windows_concat (length : Duration) (accepted : List Instant) (now : Instant) :
    windows length (accepted ++ [now]) = (currentWindow? length accepted now).elim
      (windows length accepted ++ [(now, [])])
      fun w => (windows length accepted).dropLast ++ [(w.1, w.2 ++ [now])] := by
  induction accepted using windows.induct length with
  | case1 => simp [windows, currentWindow?]
  | case2 t ts ih =>
    rw [List.cons_append, windows, currentWindow?, windows, List.dropWhile_append, List.takeWhile_append]
    rw [currentWindow?] at ih
    cases hdrop : ts.dropWhile fun u => u.since t < length with
    | nil =>
      -- All requests so far are in one window.
      have htake : ts.takeWhile (fun u => u.since t < length) = ts := by
        simpa [hdrop] using List.takeWhile_append_dropWhile (p := fun u => u.since t < length) (l := ts)
      by_cases hopen : now.since t < length
      · simp [htake, hopen, windows, Option.filter]
      · simp [htake, hopen, windows, Option.filter]
    | cons v vs =>
      have hne : (ts.takeWhile fun u => u.since t < length).length ≠ ts.length := by
        have := congrArg List.length (List.takeWhile_append_dropWhile (p := fun u => u.since t < length) (l := ts))
        rw [hdrop, List.length_append, List.length_cons] at this
        omega
      have hwindows : windows length (v :: vs) ≠ [] := by simp [windows]
      rw [hdrop] at ih
      rw [if_neg hne, List.isEmpty_cons, if_neg Bool.false_ne_true, ih, List.dropLast_cons_of_ne_nil hwindows]
      have hlast : ((t, ts.takeWhile fun u => u.since t < length) :: windows length (v :: vs)).getLast? =
          (windows length (v :: vs)).getLast? := by
        rw [windows, List.getLast?_cons_cons]
      rw [hlast]
      cases (windows length (v :: vs)).getLast?.filter fun w => now.since w.1 < length <;> rfl

theorem getLast?_windows_concat (length : Duration) (accepted : List Instant) (now : Instant) :
    (windows length (accepted ++ [now])).getLast? =
      some ((currentWindow? length accepted now).elim (now, []) fun w => (w.1, w.2 ++ [now])) := by
  rw [windows_concat]
  cases currentWindow? length accepted now with
  | none => simp
  | some w => simp

/-! ### The window of a client's next request -/

variable {l : RateLimiter} {client : String}

theorem since_lt_mono {now later opening : Instant} {length : Duration} (h : now.nanos ≤ later.nanos)
    (hlt : later.since opening < length) : now.since opening < length := by
  have hle : (now.nanos - opening.nanos).toNat ≤ (later.nanos - opening.nanos).toNat := by omega
  exact Nat.lt_of_le_of_lt hle hlt

theorem isOpen_iff {now : Instant} {w : Window} : l.isOpen now w = true ↔ now.since w.started < l.window := by
  rw [isOpen, decide_eq_true_eq]

/-- Windows that have passed can be forgotten without any client seeing it. -/
theorem currentWindow_sweep {now later : Instant} (h : now.nanos ≤ later.nanos) :
    (l.sweep now).currentWindow client later = l.currentWindow client later := by
  rw [currentWindow, currentWindow, sweep, Std.ExtTreeMap.getElem?_filter']
  cases l.clients[client]? with
  | none => rfl
  | some w =>
    by_cases hnow : l.isOpen now w = true
    · rw [Option.filter_some_pos hnow]
      rfl
    · have hlater : ¬l.isOpen later w = true := fun hlater =>
        hnow (isOpen_iff.2 (since_lt_mono h (isOpen_iff.1 hlater)))
      rw [Option.filter_some_neg (Bool.eq_false_iff.2 hnow)]
      dsimp only
      rw [if_neg hlater]

theorem currentWindow_tidy (newcomer : String) {now later : Instant} (h : now.nanos ≤ later.nanos) :
    (l.tidy newcomer now).currentWindow client later = l.currentWindow client later := by
  unfold tidy
  split_ifs
  · exact currentWindow_sweep h
  · rfl

private theorem tidy_eq (l : RateLimiter) (newcomer : String) (now : Instant) :
    l.tidy newcomer now = { l with clients := (l.tidy newcomer now).clients } := by
  unfold tidy
  split_ifs <;> rfl

/-- Nothing is forgotten for a client that is known. -/
theorem tidy_of_known (h : client ∈ l.clients) (now : Instant) : l.tidy client now = l :=
  if_neg fun hnew => hnew.2 (Std.ExtTreeMap.contains_iff_mem.2 h)

theorem tidy_of_full (hfull : sweepThreshold ≤ l.size) (hnew : client ∉ l.clients) (now : Instant) :
    l.tidy client now = l.sweep now :=
  if_pos ⟨hfull, fun hknown => hnew (Std.ExtTreeMap.contains_iff_mem.1 hknown)⟩

/-- The window kept for a client that is answered: with one request more if that is accepted. -/
def filled (l : RateLimiter) (w : Window) : Window :=
  if w.count < l.maxRequests then { w with count := w.count + 1 } else w

/-- The answer depends on the table only through the client's window, and only the client's window changes. -/
theorem answer_eq (l : RateLimiter) (a : Attempt) {w : Window} (hw : w = l.currentWindow a.client a.now) :
    l.answer a = (if w.count < l.maxRequests then .accepted else l.rejection a.date w a.now,
      { l with clients := (l.tidy a.client a.now).clients.insert a.client (l.filled w) }) := by
  have hwindow : (l.tidy a.client a.now).currentWindow a.client a.now = l.currentWindow a.client a.now :=
    currentWindow_tidy a.client (Int.le_refl _)
  rw [answer, check, hwindow, ← hw, tidy_eq]
  dsimp only
  rw [filled]
  split_ifs <;> rfl

theorem answer_bounds (l : RateLimiter) (a : Attempt) :
    (l.answer a).2.maxRequests = l.maxRequests ∧ (l.answer a).2.window = l.window := by
  rw [answer_eq l a rfl]
  exact ⟨rfl, rfl⟩

/-- A client that is answered has its window filled. -/
theorem currentWindow_answer (l : RateLimiter) (a : Attempt) {w : Window} (hw : w = l.currentWindow a.client a.now)
    (later : Instant) : (l.answer a).2.currentWindow a.client later =
      if l.isOpen later (l.filled w) then l.filled w else ⟨later, 0⟩ := by
  rw [answer_eq l a hw, currentWindow, Std.ExtTreeMap.getElem?_insert_self]
  rfl

/-- The other clients see no difference. -/
theorem currentWindow_answer_of_ne (l : RateLimiter) {a : Attempt} (hne : a.client ≠ client) {later : Instant}
    (h : a.now.nanos ≤ later.nanos) : (l.answer a).2.currentWindow client later = l.currentWindow client later := by
  have hcompare : ¬compare a.client client = .eq := fun heq => hne (Std.LawfulEqCmp.compare_eq_iff_eq.1 heq)
  rw [← currentWindow_tidy (l := l) a.client h, answer_eq l a rfl, currentWindow, Std.ExtTreeMap.getElem?_insert,
    if_neg hcompare, currentWindow, tidy_eq]
  rfl

/-! ### Answers of one client -/

/-- Two limiters are the same to a client from a time on. -/
structure SameTo (client : String) (now : Instant) (l m : RateLimiter) : Prop where
  maxRequests : l.maxRequests = m.maxRequests
  window : l.window = m.window
  current : ∀ later : Instant, now.nanos ≤ later.nanos → l.currentWindow client later = m.currentWindow client later

theorem SameTo.isOpen {client : String} {now : Instant} {l m : RateLimiter} (h : SameTo client now l m)
    (later : Instant) (w : Window) : l.isOpen later w = m.isOpen later w := by
  rw [RateLimiter.isOpen, RateLimiter.isOpen, h.window]

theorem SameTo.answer {now : Instant} {l m : RateLimiter} {a : Attempt} (h : SameTo a.client now l m)
    (htime : now.nanos ≤ a.now.nanos) :
    (l.answer a).1 = (m.answer a).1 ∧ SameTo a.client a.now (l.answer a).2 (m.answer a).2 := by
  have hwindow := h.current a.now htime
  constructor
  · rw [answer_eq l a rfl, answer_eq m a rfl, ← hwindow, h.maxRequests, rejection, rejection, h.window]
  · refine ⟨?_, ?_, fun later hlater => ?_⟩
    · rw [(answer_bounds l a).1, (answer_bounds m a).1, h.maxRequests]
    · rw [(answer_bounds l a).2, (answer_bounds m a).2, h.window]
    · rw [currentWindow_answer l a rfl, currentWindow_answer m a hwindow, filled, filled, h.maxRequests, h.isOpen]

theorem SameTo.other {client : String} {now : Instant} {l m : RateLimiter} {a : Attempt} (h : SameTo client now l m)
    (htime : now.nanos ≤ a.now.nanos) (hne : a.client ≠ client) : SameTo client a.now (l.answer a).2 m := by
  refine ⟨?_, ?_, fun later hlater => ?_⟩
  · rw [(answer_bounds l a).1, h.maxRequests]
  · rw [(answer_bounds l a).2, h.window]
  · rw [currentWindow_answer_of_ne l hne hlater]
    exact h.current later (Int.le_trans htime hlater)

/-- A client that shares the limiter with others gets the answers that it would get alone. -/
theorem SameTo.verdicts {client : String} {now : Instant} {l m : RateLimiter} (h : SameTo client now l m)
    {attempts : List Attempt} (later : ∀ a ∈ attempts, now.nanos ≤ a.now.nanos) (inOrder : InOrder attempts) :
    (l.seenBy client attempts).map (·.2) = m.verdicts (attempts.filter fun a => a.client = client) := by
  induction attempts generalizing l m now with
  | nil => rfl
  | cons a attempts ih =>
    obtain ⟨hfirst, hrest⟩ := List.pairwise_cons.1 inOrder
    have htime := later a (List.mem_cons_self ..)
    rw [seenBy, RateLimiter.verdicts, List.zip_cons_cons]
    by_cases hclient : a.client = client
    · subst hclient
      obtain ⟨hverdict, hafter⟩ := h.answer htime
      rw [List.filter_cons_of_pos (by simp), List.filter_cons_of_pos (by simp), List.map_cons, RateLimiter.verdicts,
        hverdict]
      exact congrArg _ (ih hafter hfirst hrest)
    · rw [List.filter_cons_of_neg (by simpa using hclient), List.filter_cons_of_neg (by simpa using hclient)]
      exact ih (h.other htime hclient) hfirst hrest

/-! ### Answers and the history -/

/-- The window that the history gives to a request. -/
def windowOf (length : Duration) (accepted : List Instant) (now : Instant) : Window :=
  (currentWindow? length accepted now).elim ⟨now, 0⟩ fun w => ⟨w.1, w.2.length + 1⟩

theorem count_windowOf (length : Duration) (accepted : List Instant) (now : Instant) :
    (windowOf length accepted now).count = countAt length accepted now := by
  rw [windowOf, countAt]
  cases currentWindow? length accepted now <;> rfl

theorem windowOf_concat (length : Duration) (accepted : List Instant) (now later : Instant) {w : Window}
    (hw : w = windowOf length accepted now) : windowOf length (accepted ++ [now]) later =
      if later.since w.started < length then ⟨w.started, w.count + 1⟩ else ⟨later, 0⟩ := by
  rw [hw, windowOf, windowOf, currentWindow?, getLast?_windows_concat]
  cases currentWindow? length accepted now with
  | none => by_cases h : later.since now < length <;> simp [h, Option.filter]
  | some v => by_cases h : later.since v.1 < length <;> simp [h, Option.filter]

theorem windowOf_of_count_pos (length : Duration) (accepted : List Instant) (now later : Instant) {w : Window}
    (hw : w = windowOf length accepted now) (hpos : 0 < w.count) : windowOf length accepted later =
      if later.since w.started < length then w else ⟨later, 0⟩ := by
  rw [windowOf] at hw
  cases hcurrent : currentWindow? length accepted now with
  | none =>
    rw [hw, hcurrent] at hpos
    exact absurd hpos (Nat.lt_irrefl 0)
  | some v =>
    rw [hcurrent] at hw
    rw [currentWindow?, Option.filter_eq_some_iff] at hcurrent
    rw [hw, windowOf, currentWindow?, hcurrent.1]
    by_cases h : later.since v.1 < length <;> simp [h, Option.filter]

/-- The limiter's window for a client is the one that the history gives. -/
def Remembers (l : RateLimiter) (client : String) (accepted : List Instant) (now : Instant) : Prop :=
  ∀ later : Instant, now.nanos ≤ later.nanos → l.currentWindow client later = windowOf l.window accepted later

theorem rejection_ne_accepted (l : RateLimiter) (date : Timestamp) (w : Window) (now : Instant) :
    l.rejection date w now ≠ .accepted := by
  unfold rejection
  dsimp only
  split <;> simp

theorem answer_accepted_iff (l : RateLimiter) (a : Attempt) :
    (l.answer a).1 = .accepted ↔ (l.currentWindow a.client a.now).count < l.maxRequests := by
  rw [answer_eq l a rfl]
  dsimp only
  split_ifs with h
  · exact iff_of_true rfl h
  · exact iff_of_false (rejection_ne_accepted _ _ _ _) h

theorem Remembers.answer {l : RateLimiter} {a : Attempt} {accepted : List Instant} {now : Instant}
    (h : Remembers l a.client accepted now) (htime : now.nanos ≤ a.now.nanos) (hmax : 0 < l.maxRequests) :
    Remembers (l.answer a).2 a.client (accepted ++ if (l.answer a).1 = .accepted then [a.now] else []) a.now := by
  have hw := h a.now htime
  intro later hlater
  rw [currentWindow_answer l a rfl, (answer_bounds l a).2]
  simp only [isOpen_iff, answer_accepted_iff, filled]
  split_ifs with haccepted hopen hopen
  · rw [windowOf_concat _ _ _ later hw, if_pos hopen]
  · rw [windowOf_concat _ _ _ later hw, if_neg hopen]
  -- A request is rejected only when the window has accepted some.
  · rw [List.append_nil, windowOf_of_count_pos _ _ _ later hw (by omega), if_pos hopen]
  · rw [List.append_nil, windowOf_of_count_pos _ _ _ later hw (by omega), if_neg hopen]

theorem Remembers.other {l : RateLimiter} {client : String} {a : Attempt} {accepted : List Instant} {now : Instant}
    (h : Remembers l client accepted now) (htime : now.nanos ≤ a.now.nanos) (hne : a.client ≠ client) :
    Remembers (l.answer a).2 client accepted a.now := by
  intro later hlater
  rw [currentWindow_answer_of_ne l hne hlater, (answer_bounds l a).2]
  exact h later (Int.le_trans htime hlater)

theorem after_bounds (l : RateLimiter) (attempts : List Attempt) :
    (l.after attempts).maxRequests = l.maxRequests ∧ (l.after attempts).window = l.window := by
  induction attempts generalizing l with
  | nil => exact ⟨rfl, rfl⟩
  | cons a attempts ih =>
    obtain ⟨hmax, hwindow⟩ := ih (l.answer a).2
    exact ⟨hmax.trans (answer_bounds l a).1, hwindow.trans (answer_bounds l a).2⟩

theorem acceptedTimes_cons (l : RateLimiter) (client : String) (a : Attempt) (attempts : List Attempt) :
    l.acceptedTimes client (a :: attempts) =
      (if a.client = client ∧ (l.answer a).1 = .accepted then [a.now] else []) ++
        (l.answer a).2.acceptedTimes client attempts := by
  rw [acceptedTimes, seenBy, verdicts, List.zip_cons_cons]
  by_cases hclient : a.client = client <;> by_cases hverdict : (l.answer a).1 = .accepted <;>
    simp [acceptedTimes, seenBy, hclient, hverdict]

/-- The limiter remembers of a client what its history tells, whatever other requests come between. -/
theorem Remembers.after {l : RateLimiter} {client : String} {accepted : List Instant} {now last : Instant}
    (h : Remembers l client accepted now) (hmax : 0 < l.maxRequests) {attempts : List Attempt}
    (between : ∀ a ∈ attempts, now.nanos ≤ a.now.nanos ∧ a.now.nanos ≤ last.nanos) (hlast : now.nanos ≤ last.nanos)
    (inOrder : InOrder attempts) :
    Remembers (l.after attempts) client (accepted ++ l.acceptedTimes client attempts) last := by
  induction attempts generalizing l accepted now with
  | nil =>
    rw [show l.acceptedTimes client [] = [] from rfl, List.append_nil]
    exact fun later hlater => h later (Int.le_trans hlast hlater)
  | cons a attempts ih =>
    obtain ⟨hfirst, hrest⟩ := List.pairwise_cons.1 inOrder
    obtain ⟨htime, hbefore⟩ := between a (List.mem_cons_self ..)
    have rest : ∀ b ∈ attempts, a.now.nanos ≤ b.now.nanos ∧ b.now.nanos ≤ last.nanos := fun b hb =>
      ⟨hfirst b hb, (between b (List.mem_cons_of_mem _ hb)).2⟩
    have hmax' : 0 < (l.answer a).2.maxRequests := by rwa [(answer_bounds l a).1]
    rw [after_cons, acceptedTimes_cons]
    by_cases hclient : a.client = client
    · subst hclient
      have := ih (h.answer htime hmax) hmax' rest hbefore hrest
      simpa using this
    · have := ih (h.other htime hclient) hmax' rest hbefore hrest
      simpa [hclient] using this

theorem Remembers.empty (maxRequests : Nat) (window : Duration) (client : String) (now : Instant) :
    Remembers (.empty maxRequests window) client [] now := by
  intro later _
  rw [windowOf, currentWindow?, windows]
  simp [currentWindow, RateLimiter.empty]

/-- Whatever the clients, each request is accepted exactly if fewer requests of its client than allowed have been
accepted in the client's current window, and a client gets the same answers as if there were no others. -/
theorem accepted_iff_own_history (maxRequests : Nat) (window : Duration) {attempts : List Attempt}
    (inOrder : InOrder attempts) :
    (∀ before a later, attempts = before ++ a :: later →
      ((((empty maxRequests window).after before).answer a).1 = .accepted ↔
        countAt window ((empty maxRequests window).acceptedTimes a.client before) a.now < maxRequests)) ∧
    ∀ client, ((empty maxRequests window).seenBy client attempts).map (·.2) =
      (empty maxRequests window).verdicts (attempts.filter fun a => a.client = client) := by
  constructor
  · rintro before a later rfl
    obtain ⟨hmax, hwindow⟩ := after_bounds (empty maxRequests window) before
    rw [answer_accepted_iff, hmax]
    rcases Nat.eq_zero_or_pos maxRequests with rfl | hpos
    · exact iff_of_false (Nat.not_lt_zero _) (Nat.not_lt_zero _)
    · obtain ⟨start, hstart⟩ := inOrder.exists_start
      obtain ⟨hbefore, -, hlast⟩ := List.pairwise_append.1 inOrder
      have hfirst : ∀ b ∈ before, start.nanos ≤ b.now.nanos ∧ b.now.nanos ≤ a.now.nanos := fun b hb =>
        ⟨hstart b (List.mem_append_left _ hb), hlast b hb a (List.mem_cons_self ..)⟩
      have remembers := (Remembers.empty maxRequests window a.client start).after hpos hfirst
        (hstart a (List.mem_append_right _ (List.mem_cons_self ..))) hbefore
      rw [remembers a.now (Int.le_refl _), hwindow, count_windowOf]
      rfl
  · intro client
    obtain ⟨start, hstart⟩ := inOrder.exists_start
    have same : SameTo client start (empty maxRequests window) (empty maxRequests window) := ⟨rfl, rfl, fun _ _ => rfl⟩
    exact same.verdicts hstart inOrder

/-- Where one request in ten seconds is allowed, a client is accepted again after ten seconds, though it was rejected in
between and another client was accepted. -/
theorem accepted_after_own_window :
    let attempts : List Attempt :=
      [⟨"ann", ⟨0⟩, ⟨0, 0⟩⟩, ⟨"bob", ⟨5000000000⟩, ⟨0, 0⟩⟩, ⟨"ann", ⟨5000000000⟩, ⟨0, 0⟩⟩,
        ⟨"ann", ⟨10000000000⟩, ⟨0, 0⟩⟩]
    InOrder attempts ∧
    countAt (.ofSecs 10) ((empty 1 (.ofSecs 10)).acceptedTimes "ann" (attempts.take 3)) ⟨10000000000⟩ < 1 ∧
    ((empty 1 (.ofSecs 10)).seenBy "ann" attempts).map (·.2) =
      [.accepted, .rejected (.ofSecs 5) ⟨5, 0⟩, .accepted] := by
  intro attempts
  have inOrder : InOrder attempts := by simp [attempts, InOrder]
  obtain ⟨counted, alone⟩ := accepted_iff_own_history 1 (.ofSecs 10) inOrder
  refine ⟨inOrder, (counted (attempts.take 3) _ [] rfl).1 (by decide +kernel), ?_⟩
  rw [alone]
  decide +kernel

end RepoSearch.RateLimiter
