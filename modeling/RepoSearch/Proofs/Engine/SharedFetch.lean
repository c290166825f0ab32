import RepoSearch.Proofs.Engine.Calls
import RepoSearch.Proofs.Engine.Supersession
import Mathlib.Data.List.Induction

/-!
# Fetches that searches share

The end and the outcome of a fetch are settled when its call is made, no matter who waits for it, from when and for how
long. Whoever waits for it to its end ends with it, and nobody else's leaving makes a difference.
-/

namespace RepoSearch

theorem Duration.millisUp_ofMillis (ms : Nat) : (Duration.ofMillis ms).millisUp = ms := by
  simp [millisUp, ofMillis, nanosPerMilli]

theorem Reply.within_ofMillis {r : Reply} {d T : Nat} (hd : r.delay = .ofMillis d) : r.within (.ofMillis T) =
    (min d T, if d ≤ T then r.outcome.map RawPage.reduce else .error (.timedOut (.ofMillis T))) := by
  rw [within, hd, Duration.millisUp_ofMillis, Duration.millisUp_ofMillis]
  split_ifs with hdT
  · rw [Nat.min_eq_left hdT]
  · rw [Nat.min_eq_right (Nat.le_of_not_le hdT)]

namespace Engine

/-! ### Time -/

theorem enter_now {e : Engine} (h : HoldsSlots e) (rest : AtRest e) (st : Step) : (e.enter st).2.now = e.now := by
  rcases enter_cases h rest st with
    ⟨s, page, -, -, henter⟩ | ⟨s, f, -, -, -, henter⟩ | ⟨s, -, -, -, henter⟩ | ⟨-, -, cache, henter⟩ <;> rw [henter]
  · rw [release_eq]
    rfl
  · rfl
  · rfl
  · rfl

theorem step_now {e : Engine} (h : HoldsSlots e) (rest : AtRest e) (st : Step) :
    (e.step st).2.now = e.now + st.millis := by
  rw [step_eq rest, ← enter_now h rest st]
  rfl

/-- In the middle of a step fetches may end, but none has ended before. -/
theorem now_le_endsAt {e : Engine} (h : Consistent e) (rest : AtRest e) {st : Step} {w : Waiting}
    (hw : w ∈ (e.enter st).2.waiting) : e.now ≤ w.fetch.endsAt := by
  rcases waiting_enter_cases h rest hw with ⟨v, hv, -, hfetch⟩ | ⟨-, -, ⟨v, hv, -, hfetch⟩ | hfetch⟩
  · rw [hfetch]
    exact Nat.le_of_lt (rest v hv).2
  · rw [hfetch]
    exact Nat.le_of_lt (rest v hv).2
  · rw [hfetch]
    exact Nat.le_add_right _ _

/-! ### Waiting to the end -/

/-- A search whose slot a step does not take waits on as before. -/
theorem mem_enter_of_not_takes {e : Engine} (h : HoldsSlots e) (rest : AtRest e) {st : Step} {w : Waiting}
    (hw : w ∈ e.waiting) (hnot : ¬e.Takes w.search.slot st) : w ∈ (e.enter st).2.waiting := by
  have stays : ∀ {s}, e.begun st = some s → w ∈ e.waiting.map (·.yielding s.slot) := by
    intro s hs
    refine List.mem_map.2 ⟨w, hw, ?_⟩
    rw [Waiting.yielding, if_neg]
    exact fun hslot => hnot ⟨s, hs, hslot.symm⟩
  rcases enter_cases h rest st with
    ⟨s, page, hs, -, henter⟩ | ⟨s, f, hs, -, -, henter⟩ | ⟨s, hs, -, -, henter⟩ | ⟨-, -, cache, henter⟩ <;> rw [henter]
  · rw [release_eq]
    exact stays hs
  · exact List.mem_append_left _ (stays hs)
  · exact List.mem_append_left _ (stays hs)
  · exact hw

/-- The event by which a search ends with its fetch. -/
def Waiting.atEnd (w : Waiting) : Event :=
  .finished w.search (some w.fetch.id) w.fetch.endsAt (w.fetch.outcome.map w.search.answer)

/-- In its second half a step lets a search that is neither superseded nor given up wait on, or the search ends with its
fetch. -/
theorem waits_or_ends {e : Engine} (h : Consistent e) (rest : AtRest e) {st : Step} {w : Waiting}
    (hw : w ∈ (e.enter st).2.waiting) (hsup : w.superseded = false) (hgives : ¬st.givesUp w.search = true) :
    (w ∈ (e.step st).2.waiting ∧ (e.step st).2.now < w.fetch.endsAt) ∨
    (w.fetch.endsAt ≤ (e.step st).2.now ∧ w.atEnd ∈ (e.step st).1) := by
  have hnow := enter_now h.toHoldsSlots rest st
  have hends := now_le_endsAt h rest hw
  by_cases hstops : st.stops (e.enter st).2.now w = true
  · right
    have houtcome : w.outcome = w.fetch.outcome := by
      rw [Waiting.outcome, hsup]
      rfl
    have finishes : w ∈ (e.enter st).2.finishers st → st.endOf (e.enter st).2.now w = w.fetch.endsAt →
        w.atEnd ∈ (e.step st).1 := by
      intro hfin htime
      have hevent := ending_mem_step rest hfin
      rwa [Waiting.ending, htime, houtcome] at hevent
    have hleaves := mem_leavers.2 ⟨hw, hstops⟩
    -- Where no time passes, a fetch that ends has ended at once.
    have atOnce : w.ready (e.enter st).2.now = true → w ∈ (e.enter st).2.finishers st →
        st.endOf (e.enter st).2.now w = (e.enter st).2.now →
        w.fetch.endsAt ≤ e.now + st.millis ∧ w.atEnd ∈ (e.step st).1 := by
      intro hready hfin htime
      rw [Waiting.ready, hsup, Bool.false_or, decide_eq_true_eq, hnow] at hready
      exact ⟨by omega, finishes hfin (by omega)⟩
    rw [step_now h.toHoldsSlots rest]
    cases st with
    | advance millis =>
      rw [Step.stops, decide_eq_true_eq, hnow] at hstops
      exact ⟨hstops, finishes hleaves rfl⟩
    | abort caller => exact absurd hstops hgives
    | search caller slot request => exact atOnce hstops hleaves rfl
    | clear => exact atOnce hstops hleaves rfl
    | seed criteria age totalCount => exact atOnce hstops hleaves rfl
  · left
    have hmem : w ∈ (e.step st).2.waiting := by
      rw [step_eq rest, left_waiting (h.enter rest st).toHoldsSlots]
      exact List.mem_filter.2 ⟨hw, by simpa using hstops⟩
    exact ⟨hmem, (rest.step h st w hmem).2⟩

/-! ### Runs -/

/-- A step makes an unfinished search quit when it takes its slot or gives it up. -/
def Quits (e : Engine) (before : List Step) (st : Step) (s : Search) : Prop :=
  s ∈ e.unfinished before ∧ ((e.run before).2.Takes s.slot st ∨ st.givesUp s = true)

/-- In a run a step makes the search quit before the given time. -/
def QuitsBefore (e : Engine) (steps : List Step) (time : Nat) (s : Search) : Prop :=
  ∃ before st later, steps = before ++ st :: later ∧ (e.run before).2.now < time ∧ e.Quits before st s

/-- In a run the search begins and waits for the fetch, be it that it makes the call or that it joins others. -/
def Boards (e : Engine) (steps : List Step) (s : Search) (fetch : Nat) : Prop :=
  ∃ before st later, steps = before ++ st :: later ∧ (e.run before).2.begun st = some s ∧
    ∃ w ∈ ((e.run before).2.enter st).2.waiting, w.search = s ∧ w.fetch.id = fetch

theorem not_quits_of_begun_eq_none {e : Engine} {before : List Step} {st : Step} {s : Search}
    (hbegun : (e.run before).2.begun st = none) (hgives : ¬st.givesUp s = true) : ¬e.Quits before st s := by
  rintro ⟨-, ⟨s', hs', -⟩ | hgives'⟩
  · rw [hbegun] at hs'
    cases hs'
  · exact hgives hgives'

theorem not_quitsBefore_nil (e : Engine) (time : Nat) (s : Search) : ¬e.QuitsBefore [] time s := by
  rintro ⟨before, st, later, hsteps, -⟩
  exact List.append_ne_nil_of_right_ne_nil before (List.cons_ne_nil st later) hsteps.symm

theorem quitsBefore_concat {e : Engine} {steps : List Step} {st : Step} {time : Nat} {s : Search} :
    e.QuitsBefore (steps ++ [st]) time s ↔ e.QuitsBefore steps time s ∨
      ((e.run steps).2.now < time ∧ e.Quits steps st s) := by
  constructor
  · rintro ⟨before, st', later, hsteps, hquits⟩
    rcases List.eq_nil_or_concat later with rfl | ⟨later, last, rfl⟩
    · obtain ⟨rfl, hst⟩ := List.append_inj' hsteps rfl
      obtain rfl := List.singleton_inj.1 hst
      exact .inr hquits
    · rw [List.concat_eq_append, ← List.cons_append, ← List.append_assoc] at hsteps
      obtain ⟨rfl, -⟩ := List.append_inj' hsteps rfl
      exact .inl ⟨before, st', later, rfl, hquits⟩
  · rintro (⟨before, st', later, rfl, hquits⟩ | hquits)
    · exact ⟨before, st', later ++ [st], by rw [List.append_assoc, List.cons_append], hquits⟩
    · exact ⟨steps, st, [], rfl, hquits⟩

/-- A search that boards a fetch and does not quit before its end waits on until it ends with the fetch. -/
theorem waits_or_ended (setup : Setup) (cache : Cache ResultPage) {before : List Step} {st : Step} {w : Waiting}
    (hbegun : ((start setup cache).run before).2.begun st = some w.search)
    (hw : w ∈ (((start setup cache).run before).2.enter st).2.waiting) (later : List Step)
    (hstays : ¬(start setup cache).QuitsBefore (before ++ st :: later) w.fetch.endsAt w.search) :
    (w ∈ ((start setup cache).run (before ++ st :: later)).2.waiting ∧
      ((start setup cache).run (before ++ st :: later)).2.now < w.fetch.endsAt) ∨
    (w.fetch.endsAt ≤ ((start setup cache).run (before ++ st :: later)).2.now ∧
      w.atEnd ∈ ((start setup cache).run (before ++ st :: later)).1) := by
  induction later using List.reverseRecOn with
  | nil =>
    obtain ⟨h, rest⟩ := run_consistent setup cache before
    have hsup : w.superseded = false := by
      rcases superseded_of_mem_enter h.toHoldsSlots rest hw with ⟨hold, -⟩ | ⟨-, hsup⟩
      · exact absurd hold (h.not_mem_of_begun hbegun)
      · exact hsup
    have hgives : ¬st.givesUp w.search = true := by
      obtain ⟨slot, request, rfl, -⟩ := search_of_begun hbegun
      exact Bool.false_ne_true
    rw [run_concat]
    rcases waits_or_ends h rest hw hsup hgives with hwaits | ⟨hends, hevent⟩
    · exact .inl hwaits
    · exact .inr ⟨hends, List.mem_append_right _ hevent⟩
  | append_singleton later st' ih =>
    have hsteps : before ++ st :: (later ++ [st']) = (before ++ st :: later) ++ [st'] := by simp
    rw [hsteps] at hstays ⊢
    obtain ⟨h, rest⟩ := run_consistent setup cache (before ++ st :: later)
    rw [quitsBefore_concat, not_or] at hstays
    rw [run_concat]
    rcases ih hstays.1 with ⟨hmem, hnow⟩ | ⟨hends, hevent⟩
    · have hunfinished : w.search ∈ (start setup cache).unfinished (before ++ st :: later) := by
        rw [unfinished_eq]
        exact List.mem_map_of_mem hmem
      have hnot : ¬((start setup cache).run (before ++ st :: later)).2.Takes w.search.slot st' := fun htakes =>
        hstays.2 ⟨hnow, hunfinished, .inl htakes⟩
      have hgives : ¬st'.givesUp w.search = true := fun hgives =>
        hstays.2 ⟨hnow, hunfinished, .inr hgives⟩
      have hmem' := mem_enter_of_not_takes h.toHoldsSlots rest hmem hnot
      rcases waits_or_ends h rest hmem' (rest w hmem).1 hgives with hwaits | ⟨hends, hevent⟩
      · exact .inl hwaits
      · exact .inr ⟨hends, List.mem_append_right _ hevent⟩
    · right
      refine ⟨?_, List.mem_append_left _ hevent⟩
      rw [step_now h.toHoldsSlots rest]
      exact Nat.le_add_right_of_le hends

/-- A search that boards a fetch and does not quit before its end is unfinished until then, and ends once, with the
fetch. -/
theorem finished_iff_of_boarded (setup : Setup) (cache : Cache ResultPage) {before : List Step} {st : Step}
    {w : Waiting} (hbegun : ((start setup cache).run before).2.begun st = some w.search)
    (hw : w ∈ (((start setup cache).run before).2.enter st).2.waiting) (later : List Step)
    (hstays : ¬(start setup cache).QuitsBefore (before ++ st :: later) w.fetch.endsAt w.search) :
    (((start setup cache).run (before ++ st :: later)).2.now < w.fetch.endsAt →
      w.search ∈ (start setup cache).unfinished (before ++ st :: later)) ∧
    ∀ fetch time result, .finished w.search fetch time result ∈ ((start setup cache).run (before ++ st :: later)).1 ↔
      w.fetch.endsAt ≤ ((start setup cache).run (before ++ st :: later)).2.now ∧
        .finished w.search fetch time result = w.atEnd := by
  have hstart := Consistent.start setup cache
  have hrest := AtRest.start setup cache
  rcases waits_or_ended setup cache hbegun hw later hstays with ⟨hmem, hnow⟩ | ⟨hends, hend⟩
  · have hsearch : w.search ∈ ((start setup cache).run (before ++ st :: later)).2.searches := List.mem_map_of_mem hmem
    refine ⟨fun _ => by rwa [unfinished_eq], fun fetch time result => iff_of_false (fun hevent => ?_) ?_⟩
    · exact not_mem_ended_of_searches hstart hrest hsearch (mem_ended.2 ⟨fetch, time, result, hevent⟩)
    · rintro ⟨hends, -⟩
      omega
  · refine ⟨fun hnow => by omega, fun fetch time result => ⟨fun hevent => ?_, ?_⟩⟩
    · exact ⟨hends, finished_unique hstart hrest hevent hend⟩
    · rintro ⟨-, hevent⟩
      rwa [hevent]

/-! ### The end and the outcome of a fetch -/

private theorem calls_prefix_enter (setup : Setup) (cache : Cache ResultPage) (before : List Step) (st : Step)
    (later : List Step) : (((start setup cache).run before).2.enter st).2.calls <+:
      ((start setup cache).run (before ++ st :: later)).2.calls := by
  obtain ⟨h, rest⟩ := run_consistent setup cache before
  rw [run_append, ← step_calls rest]
  exact calls_prefix_run (h.step rest st) (rest.step h st) later

private theorem awaits_of_fetch {e e' : Engine} (sourced : Sourced e) (grown : e.calls <+: e'.calls)
    (numbered : Numbered e') {w : Waiting} (hw : w ∈ e.waiting) {call : Call} (hcall : call ∈ e'.calls)
    (hid : w.fetch.id = call.fetch) : w.Awaits e.setup.timeout call := by
  obtain ⟨call', hcall', hawaits⟩ := sourced.awaited w hw
  obtain rfl := List.inj_on_of_nodup_map numbered.distinct (grown.subset hcall') hcall (hawaits.fetch.symm.trans hid)
  exact hawaits

private theorem eq_newCall {e : Engine} (h : Orderly e) {st : Step} {call : Call}
    (hcall : (e.step st).2.calls = e.calls ++ [call]) : ∃ s, call = e.newCall s := by
  have hne : (e.step st).2.calls ≠ e.calls := by
    rw [hcall]
    simp
  obtain ⟨s, -, -, -, hcall'⟩ := call_of_step h.books h.rest hne
  rw [hcall, List.append_right_inj, List.singleton_inj] at hcall'
  exact ⟨s, hcall'⟩

private theorem settled_of_awaits {timeout : Duration} {w : Waiting} {call : Call} (hawaits : w.Awaits timeout call)
    {d T : Nat} (hd : call.reply.delay = .ofMillis d) (hT : timeout = .ofMillis T) :
    w.fetch.endsAt = call.sentAt + min d T ∧
    w.fetch.outcome = if d ≤ T then call.reply.outcome.map RawPage.reduce else .error (.timedOut timeout) := by
  subst hT
  have hwithin := Reply.within_ofMillis (T := T) hd
  rw [hawaits.endsAt, hawaits.outcome, hwithin]
  exact ⟨rfl, rfl⟩

/-- Once everyone who awaits a call has the same end and outcome before them, those who board its fetch and stay end so. -/
private theorem finished_iff_of_boards (setup : Setup) (cache : Cache ResultPage) {steps : List Step} {s : Search}
    {call : Call} {ends : Nat} {outcome : Except SearchError Fetched}
    (hmem : call ∈ ((start setup cache).run steps).2.calls)
    (settled : ∀ w : Waiting, w.Awaits setup.timeout call → w.fetch.endsAt = ends ∧ w.fetch.outcome = outcome)
    (hboards : (start setup cache).Boards steps s call.fetch) (hstays : ¬(start setup cache).QuitsBefore steps ends s) :
    (((start setup cache).run steps).2.now < ends → s ∈ (start setup cache).unfinished steps) ∧
    ∀ fetch time result, .finished s fetch time result ∈ ((start setup cache).run steps).1 ↔
      ends ≤ ((start setup cache).run steps).2.now ∧ fetch = some call.fetch ∧ time = ends ∧
        result = outcome.map s.answer := by
  obtain ⟨before, st, later, rfl, hbegun, w, hw, rfl, hid⟩ := hboards
  have h := run_orderly setup cache before
  have last := run_orderly setup cache (before ++ st :: later)
  have hsetup := run_setup (Consistent.start setup cache) (AtRest.start setup cache) before
  have hawaits := awaits_of_fetch (h.sourced.enter h.books h.rest st) (calls_prefix_enter setup cache before st later)
    last.numbered hw hmem hid
  rw [enter_setup h.books.toHoldsSlots h.rest, hsetup] at hawaits
  obtain ⟨hends, houtcome⟩ := settled w hawaits
  obtain ⟨hunfinished, hfinished⟩ := finished_iff_of_boarded setup cache hbegun hw later (by rwa [hends])
  rw [hends] at hunfinished
  refine ⟨hunfinished, fun fetch time result => ?_⟩
  rw [hfinished, Waiting.atEnd, Event.finished.injEq, hends, houtcome, hid]
  exact and_congr_right fun _ => and_iff_right rfl

/-- Let a step make a call, with the time of its reply and the timeout in whole milliseconds. The end and the outcome of
its fetch are settled: a search that boards the fetch and does not quit before that end is unfinished until then and
ends then, once, with that outcome. Nor do they change for those that wait while others leave, and while anybody waits,
no step makes a call for the same key. -/
theorem shared_fetch_settled (setup : Setup) (cache : Cache ResultPage) (before : List Step) (st : Step)
    (later : List Step) {call : Call} {d T ends : Nat} {outcome : Except SearchError Fetched}
    (hcall : ((start setup cache).run (before ++ [st])).2.calls = ((start setup cache).run before).2.calls ++ [call])
    (hd : call.reply.delay = .ofMillis d) (hT : setup.timeout = .ofMillis T)
    (hends : ends = ((start setup cache).run before).2.now + min d T)
    (houtcome : outcome =
      if d ≤ T then call.reply.outcome.map RawPage.reduce else .error (.timedOut setup.timeout)) :
    call.reply = (setup.replies[((start setup cache).run before).2.calls.length]?).getD .emptyPage ∧
    (∀ s, (start setup cache).Boards (before ++ st :: later) s call.fetch →
      ¬(start setup cache).QuitsBefore (before ++ st :: later) ends s →
      (((start setup cache).run (before ++ st :: later)).2.now < ends →
        s ∈ (start setup cache).unfinished (before ++ st :: later)) ∧
      ∀ fetch time result, .finished s fetch time result ∈ ((start setup cache).run (before ++ st :: later)).1 ↔
        ends ≤ ((start setup cache).run (before ++ st :: later)).2.now ∧ fetch = some call.fetch ∧ time = ends ∧
          result = outcome.map s.answer) ∧
    ∀ w ∈ ((start setup cache).run (before ++ st :: later)).2.waiting, w.fetch.id = call.fetch →
      ((start setup cache).run (before ++ st :: later)).2.now < ends ∧ w.fetch.endsAt = ends ∧
      w.fetch.outcome = outcome ∧
      ∀ next, ((start setup cache).run (before ++ st :: later ++ [next])).2.calls ≠
          ((start setup cache).run (before ++ st :: later)).2.calls →
        ∃ s, ((start setup cache).run (before ++ st :: later)).2.begun next = some s ∧ s.criteria.cacheKey ≠ w.key := by
  have hsetup : ∀ steps, ((start setup cache).run steps).2.setup = setup :=
    run_setup (Consistent.start setup cache) (AtRest.start setup cache)
  have first := run_orderly setup cache before
  have last := run_orderly setup cache (before ++ st :: later)
  rw [run_concat] at hcall
  obtain ⟨s₀, hnew⟩ := eq_newCall first hcall
  have hmem : call ∈ ((start setup cache).run (before ++ st :: later)).2.calls := by
    refine (calls_prefix_enter setup cache before st later).subset ?_
    rw [← step_calls first.rest, hcall]
    exact List.mem_append_right _ (List.mem_singleton_self call)
  -- Whoever waits for the fetch, at any time, awaits this call.
  have settled : ∀ w : Waiting, w.Awaits setup.timeout call → w.fetch.endsAt = ends ∧ w.fetch.outcome = outcome := by
    intro w hawaits
    have hsent : call.sentAt = ((start setup cache).run before).2.now := by rw [hnew, newCall]
    rw [hends, houtcome, ← hsent]
    exact settled_of_awaits hawaits hd hT
  refine ⟨?_, fun s => finished_iff_of_boards setup cache hmem settled, fun w hw hid => ?_⟩
  · rw [hnew, newCall, nextReply, hsetup]
  · have hawaits := awaits_of_fetch last.sourced List.prefix_rfl last.numbered hw hmem hid
    rw [hsetup] at hawaits
    obtain ⟨hendsAt, hwoutcome⟩ := settled w hawaits
    refine ⟨hendsAt ▸ (last.rest w hw).2, hendsAt, hwoutcome, fun next hcalls => ?_⟩
    rw [run_concat] at hcalls
    obtain ⟨s, hs, -, halone, -⟩ := call_of_step last.books last.rest hcalls
    exact ⟨s, hs, (halone w.search (List.mem_map_of_mem hw)).symm⟩

/-- A search that joins a fetch three milliseconds late ends with it, although the one that began it has gone. -/
theorem late_search_ends_with_fetch :
    let setup : Setup := ⟨{}, .ofMillis 1000, [⟨.ofMillis 5, .ok ⟨7, [], ⟨none, none⟩⟩⟩], ⟨0⟩⟩
    let cache : Cache ResultPage := .empty (.ofSecs 60) 4
    let late : Search := ⟨"late", "b", 2, ⟨"rust", 1, 10, .stars, [], none⟩⟩
    .finished late (some 1) 5 (.ok (late.answer ⟨⟨7, []⟩, ⟨none, none⟩⟩)) ∈
      ((start setup cache).run [.search "early" (some "a") { q := some "rust" }, .advance 3,
        .search "late" (some "b") { q := some "rust" }, .abort "early", .advance 2]).1 := by
  intro setup cache late
  let first : Step := .search "early" (some "a") { q := some "rust" }
  let second : Step := .search "late" (some "b") { q := some "rust" }
  let call : Call := (start setup cache).newCall ⟨"early", "a", 0, ⟨"rust", 1, 10, .stars, [], none⟩⟩
  have hcall : ((start setup cache).run ([] ++ [first])).2.calls = ((start setup cache).run []).2.calls ++ [call] := by
    unfold setup cache first call
    rfl
  have hd : call.reply.delay = .ofMillis 5 := rfl
  have hT : setup.timeout = .ofMillis 1000 := rfl
  have houtcome : Except.ok (⟨⟨7, []⟩, ⟨none, none⟩⟩ : Fetched) = if 5 ≤ 1000 then call.reply.outcome.map RawPage.reduce
      else .error (.timedOut setup.timeout) := rfl
  have hends : 5 = ((start setup cache).run []).2.now + min 5 1000 := rfl
  obtain ⟨-, settled, -⟩ := shared_fetch_settled setup cache [] first [.advance 3, second, .abort "early", .advance 2]
    hcall hd hT hends houtcome
  have hboards : (start setup cache).Boards [first, .advance 3, second, .abort "early", .advance 2] late 1 := by
    refine ⟨[first, .advance 3], second, _, rfl, by decide +kernel, ?_⟩
    decide +kernel
  have hstays : ¬(start setup cache).QuitsBefore
      ([] ++ [first] ++ [.advance 3] ++ [second] ++ [.abort "early"] ++ [.advance 2]) 5 late := by
    simp only [quitsBefore_concat, not_or, not_and]
    refine ⟨⟨⟨⟨⟨not_quitsBefore_nil _ _ _, fun _ => ?_⟩, fun _ => ?_⟩, fun _ => ?_⟩, fun _ => ?_⟩, fun _ => ?_⟩
    · exact fun hquits => absurd hquits.1 (by decide +kernel)
    · exact not_quits_of_begun_eq_none rfl Bool.false_ne_true
    · exact fun hquits => absurd hquits.1 (by decide +kernel)
    · exact not_quits_of_begun_eq_none rfl (by decide)
    · exact not_quits_of_begun_eq_none rfl Bool.false_ne_true
  have hnow :
      5 ≤ ((start setup cache).run ([] ++ first :: [.advance 3, second, .abort "early", .advance 2])).2.now := by
    decide +kernel
  exact ((settled late hboards hstays).2 (some 1) 5 (.ok (late.answer ⟨⟨7, []⟩, ⟨none, none⟩⟩))).2 ⟨hnow, rfl, rfl, rfl⟩

end Engine

end RepoSearch
