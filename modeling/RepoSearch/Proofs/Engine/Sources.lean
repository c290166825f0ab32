import RepoSearch.Proofs.Engine.Steps
import RepoSearch.Proofs.CacheKey

/-!
# Calls to GitHub

Calls are answered by GitHub's replies in turn. Every search that waits for a fetch waits for a call that asks for
what its own criteria ask for, no matter which search made the call: searches that share a flight share its key, and
so their criteria.
-/

namespace RepoSearch.Engine

/-- A waiting search awaits a call: the call asks for its page, and its fetch ends as the call's reply says. -/
structure Waiting.Awaits (timeout : Duration) (w : Waiting) (call : Call) : Prop where
  fetch : w.fetch.id = call.fetch
  request : call.request = w.search.criteria.pageRequest
  endsAt : w.fetch.endsAt = call.sentAt + (call.reply.within timeout).1
  outcome : w.fetch.outcome = (call.reply.within timeout).2

/-- Calls get GitHub's replies in turn, and every waiting search awaits one of them. -/
structure Sourced (e : Engine) : Prop where
  replied : ∀ (n : Nat) (call : Call), e.calls[n]? = some call →
    call.reply = (e.setup.replies[n]?).getD Reply.emptyPage
  awaited : ∀ w ∈ e.waiting, ∃ call ∈ e.calls, w.Awaits e.setup.timeout call

theorem left_setup (e : Engine) (st : Step) : (e.left st).setup = e.setup := by
  rw [left, foldl_dismiss_eq]
  rfl

theorem left_calls (e : Engine) (st : Step) : (e.left st).calls = e.calls := by
  rw [left, foldl_dismiss_eq]
  rfl

theorem enter_setup {e : Engine} (h : HoldsSlots e) (rest : AtRest e) (st : Step) :
    (e.enter st).2.setup = e.setup := by
  rcases enter_cases h rest st with
    ⟨s, page, -, -, henter⟩ | ⟨s, f, -, -, -, henter⟩ | ⟨s, -, -, -, henter⟩ | ⟨-, -, cache, henter⟩ <;> rw [henter]
  · rw [release_eq]
    rfl
  · rfl
  · rfl
  · rfl

theorem step_setup {e : Engine} (h : HoldsSlots e) (rest : AtRest e) (st : Step) : (e.step st).2.setup = e.setup := by
  rw [step_eq rest, left_setup, enter_setup h rest]

theorem run_setup {e : Engine} (h : Consistent e) (rest : AtRest e) (steps : List Step) :
    (e.run steps).2.setup = e.setup := by
  induction steps generalizing e with
  | nil => rfl
  | cons st steps ih => exact (ih (h.step rest st) (rest.step h st)).trans (step_setup h.toHoldsSlots rest st)

/-! ### Waiting for a call -/

private theorem Sourced.entered {e : Engine} (h : Sourced e) (s : Search) : Sourced (e.entered s) := by
  refine ⟨h.replied, fun w hw => ?_⟩
  obtain ⟨v, hv, rfl⟩ := List.mem_map.1 hw
  obtain ⟨call, hcall, hv⟩ := h.awaited v hv
  refine ⟨call, hcall, ?_, ?_, ?_, ?_⟩
  · rw [Waiting.yielding_fetch, hv.fetch]
  · rw [Waiting.yielding_search, hv.request]
  · rw [Waiting.yielding_fetch]
    exact hv.endsAt
  · rw [Waiting.yielding_fetch]
    exact hv.outcome

private theorem Sourced.joined {e : Engine} (h : Sourced e) (counts : CountsWaiters e) {s : Search} {f : Flight}
    (hf : e.flights[s.criteria.cacheKey]? = some f) : Sourced (e.joined s f) := by
  refine ⟨h.replied, fun w hw => ?_⟩
  rcases List.mem_append.1 hw with hw | hw
  · exact h.awaited w hw
  · obtain rfl := List.mem_singleton.1 hw
    -- Somebody waits for the same key already, and so has the same criteria.
    obtain ⟨v, hv, hkey, hfetch⟩ := counts.exists_aboard hf
    obtain ⟨call, hcall, hv⟩ := h.awaited v hv
    have hcriteria : v.search.criteria = s.criteria := Criteria.cacheKey_inj hkey
    rw [← hfetch]
    exact ⟨call, hcall, hv.fetch, hcriteria ▸ hv.request, hv.endsAt, hv.outcome⟩

private theorem Sourced.departed {e : Engine} (h : Sourced e) (s : Search) : Sourced (e.departed s) := by
  constructor
  · intro n call hn
    rw [Engine.departed, List.getElem?_append] at hn
    split_ifs at hn with hlt
    · exact h.replied n call hn
    · rw [List.getElem?_singleton] at hn
      split_ifs at hn with hlast
      -- The new call is the last one, and its reply the one whose turn it is.
      have hlength : n = e.calls.length := by omega
      rw [← Option.some.inj hn, hlength]
      rfl
  · intro w hw
    rcases List.mem_append.1 hw with hw | hw
    · obtain ⟨call, hcall, hw⟩ := h.awaited w hw
      exact ⟨call, List.mem_append_left _ hcall, hw⟩
    · obtain rfl := List.mem_singleton.1 hw
      exact ⟨_, List.mem_append_right _ (List.mem_singleton_self _), rfl, rfl, rfl, rfl⟩

theorem Sourced.enter {e : Engine} (h : Sourced e) (books : Consistent e) (rest : AtRest e) (st : Step) :
    Sourced (e.enter st).2 := by
  rcases enter_cases books.toHoldsSlots rest st with
    ⟨s, page, -, -, henter⟩ | ⟨s, f, -, -, hf, henter⟩ | ⟨s, -, -, -, henter⟩ | ⟨-, -, cache, henter⟩ <;> rw [henter]
  · rw [release_eq]
    exact ⟨h.replied, (h.entered s).awaited⟩
  · have counts : CountsWaiters (e.entered s) := books.toCountsWaiters.yielding rfl rfl
    exact (h.entered s).joined counts hf
  · exact (h.entered s).departed s
  · exact ⟨h.replied, h.awaited⟩

theorem Sourced.step {e : Engine} (h : Sourced e) (books : Consistent e) (rest : AtRest e) (st : Step) :
    Sourced (e.step st).2 := by
  have entered := h.enter books rest st
  have awaited := fun w hw => entered.awaited w (waiting_of_step books rest hw)
  rw [step_eq rest] at awaited ⊢
  refine ⟨?_, ?_⟩ <;> dsimp only <;> rw [left_calls, left_setup]
  · exact entered.replied
  · exact awaited

theorem Sourced.start (setup : Setup) (cache : Cache ResultPage) : Sourced (start setup cache) := by
  constructor <;> simp [Engine.start]

/-- In every run from the start the calls get GitHub's replies in turn, and every waiting search awaits one of them. -/
theorem run_sourced (setup : Setup) (cache : Cache ResultPage) (steps : List Step) :
    Sourced ((start setup cache).run steps).2 :=
  (run_induction (P := fun e => Sourced e ∧ Consistent e ∧ AtRest e)
    ⟨Sourced.start setup cache, Consistent.start setup cache, AtRest.start setup cache⟩
    (fun _ st h => ⟨h.1.step h.2.1 h.2.2 st, h.2.1.step h.2.2 st, h.2.2.step h.2.1 st⟩) steps).1

end RepoSearch.Engine
