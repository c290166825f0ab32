import RepoSearch.Proofs.Numerals
import RepoSearch.Proofs.RateBursts
import Mathlib.Data.List.Dedup
import Mathlib.Data.List.Induction
import Mathlib.Data.List.Perm.Subperm

/-!
# How many clients are tracked

Passed windows are forgotten only when a client is added to a table that is full already. So the table holds no more
clients than fill it, or the windows of all its clients were still open when the last client was added. Where requests
are allowed, each window was opened by an accepted request, so the clients beyond those were accepted recently.
-/

namespace RepoSearch.RateLimiter

variable {l : RateLimiter} {a : Attempt}

/-! ### Requests that add their client -/

/-- The request adds its client to the table. -/
def adds (l : RateLimiter) (a : Attempt) : Bool :=
  !l.clients.contains a.client && (l.answer a).2.clients.contains a.client

/-- The time of the last request that adds its client to the table. -/
def lastAddition? (l : RateLimiter) : List Attempt → Option Instant
  | [] => none
  | a :: attempts => ((l.answer a).2.lastAddition? attempts).or (if l.adds a then some a.now else none)

theorem clients_answer (l : RateLimiter) (a : Attempt) : (l.answer a).2.clients =
    (l.tidy a.client a.now).clients.insert a.client (l.filled (l.currentWindow a.client a.now)) := by
  rw [answer_eq l a rfl]

/-- Exactly the clients that are not known are added. -/
theorem adds_iff : l.adds a = true ↔ a.client ∉ l.clients := by
  rw [adds, clients_answer, Std.ExtTreeMap.contains_insert_self, Bool.and_true, Bool.not_eq_true',
    ← Std.ExtTreeMap.contains_iff_mem, Bool.not_eq_true]

/-- All windows of the table are open at a time. -/
def AllOpen (l : RateLimiter) (t : Instant) : Prop :=
  ∀ (client : String) (w : Window), l.clients[client]? = some w → t.since w.started < l.window

theorem started_filled (l : RateLimiter) (w : Window) : (l.filled w).started = w.started := by
  unfold filled
  split_ifs <;> rfl

theorem currentWindow_of_new {client : String} (hnew : client ∉ l.clients) (now : Instant) :
    l.currentWindow client now = ⟨now, 0⟩ := by
  rw [currentWindow, Std.ExtTreeMap.getElem?_eq_none hnew]

/-- A known client's window stays open: it is moved only after its end, and then to a later time. -/
theorem AllOpen.answer {t : Instant} (h : l.AllOpen t) (known : a.client ∈ l.clients) : (l.answer a).2.AllOpen t := by
  obtain ⟨v, hv⟩ := Option.isSome_iff_exists.1 (Std.ExtTreeMap.mem_iff_isSome_getElem?.1 known)
  have hopen := h a.client v hv
  intro client w hw
  rw [(answer_bounds l a).2]
  rw [clients_answer, tidy_of_known known a.now, Std.ExtTreeMap.getElem?_insert] at hw
  split_ifs at hw with hclient
  · rw [← Option.some.inj hw, started_filled, currentWindow, hv]
    dsimp only
    split_ifs with hnow
    · exact hopen
    · have hpassed : ¬(a.now.nanos - v.started.nanos).toNat < l.window.nanos := fun hlt => hnow (isOpen_iff.2 hlt)
      have hstill : (t.nanos - v.started.nanos).toNat < l.window.nanos := hopen
      show (t.nanos - a.now.nanos).toNat < l.window.nanos
      omega
  · exact h client w hw

/-- A client that is added has a window that opens with its request. -/
theorem AllOpen.added (hnew : a.client ∉ l.clients) (hwindow : 0 < l.window.nanos)
    (h : (l.tidy a.client a.now).AllOpen a.now) : (l.answer a).2.AllOpen a.now := by
  have hlength : (l.tidy a.client a.now).window = l.window := by
    unfold tidy
    split_ifs <;> rfl
  intro client w hw
  rw [(answer_bounds l a).2]
  rw [clients_answer, Std.ExtTreeMap.getElem?_insert] at hw
  split_ifs at hw
  · rw [← Option.some.inj hw, started_filled, currentWindow_of_new hnew]
    show (a.now.nanos - a.now.nanos).toNat < l.window.nanos
    omega
  · exact hlength ▸ h client w hw

theorem allOpen_sweep (l : RateLimiter) (now : Instant) : (l.sweep now).AllOpen now := by
  intro client w hw
  rw [sweep, Std.ExtTreeMap.getElem?_filter', Option.filter_eq_some_iff] at hw
  exact isOpen_iff.1 hw.2

/-- Where windows have no length, none is kept in a full table. -/
theorem sweep_of_no_length (h : l.window.nanos = 0) (now : Instant) : (l.sweep now).clients = ∅ := by
  apply Std.ExtTreeMap.ext_getElem?
  intro client
  rw [sweep, Std.ExtTreeMap.getElem?_filter', Std.ExtTreeMap.getElem?_empty, Option.filter_eq_none_iff]
  intro w _ hopen
  have hlt : (now.nanos - w.started.nanos).toNat < l.window.nanos := isOpen_iff.1 hopen
  omega

/-- A request of a known client leaves the number of clients as it is. One that adds its client leaves no more than fill
the table, or only clients whose windows are open. -/
theorem tracked_cases (l : RateLimiter) (a : Attempt) :
    (a.client ∈ l.clients ∧ (l.answer a).2.size = l.size) ∨
    (a.client ∉ l.clients ∧ ((l.answer a).2.size ≤ sweepThreshold ∨ (l.answer a).2.AllOpen a.now)) := by
  by_cases hknown : a.client ∈ l.clients
  · refine .inl ⟨hknown, ?_⟩
    rw [size, clients_answer, tidy_of_known hknown a.now, Std.ExtTreeMap.size_insert,
      if_pos (Std.ExtTreeMap.contains_iff_mem.2 hknown), size]
  · refine .inr ⟨hknown, ?_⟩
    have hsize : (l.answer a).2.size ≤ (l.tidy a.client a.now).size + 1 := by
      rw [size, clients_answer]
      exact Std.ExtTreeMap.size_insert_le
    by_cases hfull : sweepThreshold ≤ l.size
    · by_cases hwindow : 0 < l.window.nanos
      · exact .inr (AllOpen.added hknown hwindow (tidy_of_full hfull hknown a.now ▸ allOpen_sweep l a.now))
      · left
        have hlength : l.window.nanos = 0 := by omega
        have hswept : (l.tidy a.client a.now).size = 0 := by
          rw [tidy_of_full hfull hknown a.now, size, sweep_of_no_length hlength, Std.ExtTreeMap.size_empty]
        rw [hswept] at hsize
        exact Nat.le_trans hsize (by decide)
    · left
      have hroom : l.tidy a.client a.now = l := if_neg fun h => hfull h.1
      rw [hroom] at hsize
      omega

/-! ### The bound -/

/-- The table holds no more clients than fill it, or their windows are all open at the given time. -/
def Bounded (l : RateLimiter) (t? : Option Instant) : Prop :=
  l.size ≤ sweepThreshold ∨ ∃ t, t? = some t ∧ l.AllOpen t

theorem Bounded.answer {t? : Option Instant} (h : l.Bounded t?) (a : Attempt) :
    (l.answer a).2.Bounded ((if l.adds a then some a.now else none).or t?) := by
  rcases tracked_cases l a with ⟨hknown, hsize⟩ | ⟨hnew, hbound⟩
  · have hadds : ¬l.adds a = true := fun hadds => adds_iff.1 hadds hknown
    rw [if_neg hadds, Option.none_or]
    rcases h with hfew | ⟨t, ht, hopen⟩
    · exact .inl (hsize ▸ hfew)
    · exact .inr ⟨t, ht, hopen.answer hknown⟩
  · rw [if_pos (adds_iff.2 hnew), Option.some_or]
    exact hbound.imp_right fun hopen => ⟨a.now, rfl, hopen⟩

theorem Bounded.after {t? : Option Instant} (h : l.Bounded t?) (attempts : List Attempt) :
    (l.after attempts).Bounded ((l.lastAddition? attempts).or t?) := by
  induction attempts generalizing l t? with
  | nil => exact h
  | cons a attempts ih =>
    rw [after_cons, lastAddition?, Option.or_assoc]
    exact ih (h.answer a)

/-! ### Clients with accepted requests -/

/-- The clients of which a request was accepted in the window that ends at a time. -/
def recentClients (l : RateLimiter) (attempts : List Attempt) (t : Instant) : List String :=
  (attempts.map (·.client)).dedup.filter fun client =>
    (l.acceptedTimes client attempts).any fun u => u.nanos ≤ t.nanos ∧ t.since u < l.window

theorem acceptedTimes_concat (l : RateLimiter) (client : String) (attempts : List Attempt) (a : Attempt) :
    l.acceptedTimes client (attempts ++ [a]) = l.acceptedTimes client attempts ++
      if a.client = client ∧ ((l.after attempts).answer a).1 = .accepted then [a.now] else [] := by
  induction attempts generalizing l with
  | nil =>
    rw [List.nil_append, acceptedTimes_cons]
    exact List.append_nil _
  | cons b attempts ih =>
    rw [List.cons_append, acceptedTimes_cons, ih, acceptedTimes_cons, List.append_assoc, after_cons]

theorem exists_of_mem_acceptedTimes {client : String} {attempts : List Attempt} {u : Instant}
    (hu : u ∈ l.acceptedTimes client attempts) : ∃ a ∈ attempts, a.client = client ∧ a.now = u := by
  induction attempts generalizing l with
  | nil => cases hu
  | cons b attempts ih =>
    rw [acceptedTimes_cons, List.mem_append] at hu
    rcases hu with hfirst | hlater
    · split_ifs at hfirst with hb
      · exact ⟨b, List.mem_cons_self, hb.1, (List.mem_singleton.1 hfirst).symm⟩
      · cases hfirst
    · obtain ⟨a, ha, hclient⟩ := ih hlater
      exact ⟨a, List.mem_cons_of_mem b ha, hclient⟩

/-- Where requests are allowed, a window is moved only by an accepted request of its client. -/
theorem started_answer (hmax : 0 < l.maxRequests) {client : String} {w : Window}
    (hw : (l.answer a).2.clients[client]? = some w) :
    (∃ v, l.clients[client]? = some v ∧ w.started = v.started) ∨
      (a.client = client ∧ (l.answer a).1 = .accepted ∧ w.started = a.now) := by
  rw [clients_answer, Std.ExtTreeMap.getElem?_insert] at hw
  split_ifs at hw with hclient
  · obtain rfl := Std.LawfulEqCmp.compare_eq_iff_eq.1 hclient
    rw [← Option.some.inj hw, started_filled, answer_accepted_iff]
    have hopened : l.currentWindow a.client a.now = ⟨a.now, 0⟩ ∨ l.clients[a.client]? =
        some (l.currentWindow a.client a.now) := by
      rw [currentWindow]
      cases l.clients[a.client]? with
      | none => exact .inl rfl
      | some v =>
        dsimp only
        split_ifs
        · exact .inr rfl
        · exact .inl rfl
    rcases hopened with hnew | hknown
    · rw [hnew]
      exact .inr ⟨rfl, hmax, rfl⟩
    · exact .inl ⟨_, hknown, rfl⟩
  · left
    unfold tidy at hw
    split_ifs at hw
    · rw [sweep, Std.ExtTreeMap.getElem?_filter', Option.filter_eq_some_iff] at hw
      exact ⟨w, hw.1, rfl⟩
    · exact ⟨w, hw, rfl⟩

/-- Where requests are allowed, each window of the table was opened by an accepted request of its client. -/
theorem started_mem_acceptedTimes {maxRequests : Nat} (hmax : 0 < maxRequests) (window : Duration)
    (attempts : List Attempt) {client : String} {w : Window}
    (hw : ((empty maxRequests window).after attempts).clients[client]? = some w) :
    w.started ∈ (empty maxRequests window).acceptedTimes client attempts := by
  induction attempts using List.reverseRecOn generalizing w with
  | nil => simp [after, RateLimiter.empty] at hw
  | append_singleton attempts a ih =>
    have hallowed : 0 < ((empty maxRequests window).after attempts).maxRequests := by
      rw [(after_bounds _ _).1]
      exact hmax
    rw [after_append] at hw
    rw [acceptedTimes_concat, List.mem_append]
    rcases started_answer hallowed hw with ⟨v, hv, hstarted⟩ | ⟨hclient, haccepted, hstarted⟩
    · exact .inl (hstarted ▸ ih hv)
    · rw [if_pos ⟨hclient, haccepted⟩]
      exact .inr (List.mem_singleton.2 hstarted)

/-- Clients whose windows are all open at the time of the last request were accepted recently. -/
theorem size_le_recent {maxRequests : Nat} (hmax : 0 < maxRequests) {window : Duration} {attempts : List Attempt}
    {t : Instant} (htimes : ∀ a ∈ attempts, a.now.nanos ≤ t.nanos)
    (hopen : ((empty maxRequests window).after attempts).AllOpen t) :
    ((empty maxRequests window).after attempts).size ≤ ((empty maxRequests window).recentClients attempts t).length := by
  have hsubset : ((empty maxRequests window).after attempts).clients.keys ⊆
      (empty maxRequests window).recentClients attempts t := by
    intro client hclient
    rw [Std.ExtTreeMap.mem_keys, Std.ExtTreeMap.mem_iff_isSome_getElem?, Option.isSome_iff_exists] at hclient
    obtain ⟨w, hw⟩ := hclient
    have hstarted := started_mem_acceptedTimes hmax window attempts hw
    obtain ⟨a, ha, rfl, hnow⟩ := exists_of_mem_acceptedTimes hstarted
    have hwindow := hopen a.client w hw
    rw [(after_bounds _ _).2] at hwindow
    rw [recentClients, List.mem_filter, List.mem_dedup, List.any_eq_true]
    exact ⟨List.mem_map_of_mem ha, w.started, hstarted, decide_eq_true ⟨hnow ▸ htimes a ha, hwindow⟩⟩
  rw [size, ← Std.ExtTreeMap.length_keys]
  exact (Std.ExtTreeMap.nodup_keys.subperm hsubset).length_le

/-- After any requests at any times the limiter tracks no more clients than its threshold, or each client's window was
still open when the last client was added. If requests are allowed and none comes before an earlier one, then it tracks
no more clients than its threshold, or no more than had a request accepted in the window that ended with some request. -/
theorem tracking_bounded (maxRequests : Nat) (window : Duration) (attempts : List Attempt) :
    let l := empty maxRequests window
    ((l.after attempts).size ≤ sweepThreshold ∨ ∃ t, l.lastAddition? attempts = some t ∧
      ∀ (client : String) (w : Window), (l.after attempts).clients[client]? = some w → t.since w.started < window) ∧
    (0 < maxRequests → InOrder attempts → (l.after attempts).size ≤ sweepThreshold ∨
      ∃ before a later, attempts = before ++ a :: later ∧
        (l.after attempts).size ≤ (l.recentClients (before ++ [a]) a.now).length) := by
  intro l
  constructor
  · have hstart : l.Bounded none := .inl (Nat.zero_le _)
    have hbounded := hstart.after attempts
    rw [Option.or_none] at hbounded
    refine hbounded.imp_right ?_
    rintro ⟨t, ht, hopen⟩
    refine ⟨t, ht, fun client w hw => ?_⟩
    have hwindow : (l.after attempts).window = window := (after_bounds l attempts).2
    exact hwindow ▸ hopen client w hw
  · intro hmax inOrder
    induction attempts using List.reverseRecOn with
    | nil => exact .inl (Nat.zero_le _)
    | append_singleton attempts a ih =>
      obtain ⟨hearlier, -, hlast⟩ := List.pairwise_append.1 inOrder
      have hafter : l.after (attempts ++ [a]) = ((l.after attempts).answer a).2 := after_append l attempts [a]
      rcases tracked_cases (l.after attempts) a with ⟨-, hsize⟩ | ⟨-, hfew | hopen⟩
      · rw [hafter, hsize]
        refine (ih hearlier).imp_right ?_
        rintro ⟨before, b, later, rfl, hrecent⟩
        exact ⟨before, b, later ++ [a], by simp, hrecent⟩
      · rw [hafter]
        exact .inl hfew
      · right
        rw [← hafter] at hopen
        refine ⟨attempts, a, [], rfl, size_le_recent hmax ?_ hopen⟩
        intro b hb
        rcases List.mem_append.1 hb with hb | hb
        · exact hlast b hb a (List.mem_singleton_self a)
        · exact List.mem_singleton.1 hb ▸ Int.le_refl a.now.nanos

/-! ### A table beyond the threshold -/

theorem AllOpen.sweep_eq {t : Instant} (h : l.AllOpen t) : l.sweep t = l := by
  have hclients : l.clients.filter (fun _ w => l.isOpen t w) = l.clients := by
    apply Std.ExtTreeMap.ext_getElem?
    intro client
    rw [Std.ExtTreeMap.getElem?_filter']
    cases hw : l.clients[client]? with
    | none => rfl
    | some w => exact Option.filter_some_pos (isOpen_iff.2 (h client w hw))
  rw [sweep, hclients]

theorem AllOpen.tidy_eq {t : Instant} (h : l.AllOpen t) (client : String) : l.tidy client t = l := by
  unfold tidy
  split_ifs
  · exact h.sweep_eq
  · rfl

/-- New clients that all come at one time are all tracked, however many they are. -/
theorem AllOpen.size_after_crowd {t : Instant} (h : l.AllOpen t) (hwindow : 0 < l.window.nanos) (date : Timestamp)
    {crowd : List String} (nodup : crowd.Nodup) (hnew : ∀ client ∈ crowd, client ∉ l.clients) :
    (l.after (crowd.map fun client => ⟨client, t, date⟩)).size = l.size + crowd.length := by
  induction crowd generalizing l with
  | nil => rfl
  | cons client crowd ih =>
    obtain ⟨hfirst, hrest⟩ := List.nodup_cons.1 nodup
    have hclient := hnew client List.mem_cons_self
    have hclients := clients_answer l ⟨client, t, date⟩
    rw [h.tidy_eq] at hclients
    have hsize : (l.answer ⟨client, t, date⟩).2.size = l.size + 1 := by
      rw [size, hclients, Std.ExtTreeMap.size_insert, if_neg (mt Std.ExtTreeMap.contains_iff_mem.1 hclient), size]
    have hlength := (answer_bounds l ⟨client, t, date⟩).2
    have hopen : (l.answer ⟨client, t, date⟩).2.AllOpen t := .added hclient hwindow ((h.tidy_eq client).symm ▸ h)
    have hnext : ∀ other ∈ crowd, other ∉ (l.answer ⟨client, t, date⟩).2.clients := by
      intro other hother hmem
      rw [hclients, Std.ExtTreeMap.mem_insert] at hmem
      rcases hmem with hsame | hknown
      · have heq : client = other := Std.LawfulEqCmp.compare_eq_iff_eq.1 hsame
        exact hfirst (heq ▸ hother)
      · exact hnew other (List.mem_cons_of_mem client hother) hknown
    rw [List.map_cons, after_cons, ih hopen (hlength ▸ hwindow) hrest hnext, hsize, List.length_cons]
    omega

/-- One more client than fills the table is tracked when all come at once, and then all of them were accepted in the
window that ends with some request. -/
theorem crowd_tracked :
    let l := empty 1 (.ofSecs 10)
    let attempts : List Attempt := ((List.range 1025).map Decimal.render).map fun client => ⟨client, ⟨0⟩, ⟨0, 0⟩⟩
    0 < 1 ∧ InOrder attempts ∧ (l.after attempts).size = 1025 ∧
    ∃ before a later, attempts = before ++ a :: later ∧ 1025 ≤ (l.recentClients (before ++ [a]) a.now).length := by
  intro l attempts
  have nodup : ((List.range 1025).map Decimal.render).Nodup :=
    List.nodup_range.map_on fun _ _ _ _ => Decimal.render_inj
  have hopen : l.AllOpen ⟨0⟩ := fun _ _ hw => by simp [l, empty] at hw
  have hsize : (l.after attempts).size = 1025 := by
    rw [hopen.size_after_crowd (by decide) ⟨0, 0⟩ nodup (fun _ _ => Std.ExtTreeMap.not_mem_empty), List.length_map,
      List.length_range]
    rfl
  have inOrder : InOrder attempts := by
    rw [InOrder, List.pairwise_map]
    exact nodup.imp fun _ => Int.le_refl _
  refine ⟨by decide, inOrder, hsize, ?_⟩
  rcases (tracking_bounded 1 (.ofSecs 10) attempts).2 (by decide) inOrder with hfew | hrecent
  · rw [hsize] at hfew
    exact absurd hfew (by decide)
  · rw [hsize] at hrecent
    exact hrecent

end RepoSearch.RateLimiter
