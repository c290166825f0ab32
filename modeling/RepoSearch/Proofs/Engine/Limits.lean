import RepoSearch.Proofs.Criteria
import RepoSearch.Proofs.Engine.Calls

/-!
# Calls within the limits

Every call is made by a step that asks for a search with an acceptable request, and it asks for what the request's
criteria ask for. So the limits on requests are limits on calls.
-/

namespace RepoSearch.Engine

/-! ### The steps that make calls -/

/-- A call after a run was there before it, or a step of the run makes it. -/
theorem step_of_call {e : Engine} (h : Consistent e) (rest : AtRest e) {steps : List Step} {call : Call}
    (hcall : call ∈ (e.run steps).2.calls) : call ∈ e.calls ∨ ∃ earlier st later, steps = earlier ++ st :: later ∧
      ((e.run earlier).2.step st).2.calls = (e.run earlier).2.calls ++ [call] := by
  induction steps generalizing e with
  | nil => exact .inl hcall
  | cons st steps ih =>
    rcases ih (h.step rest st) (rest.step h st) hcall with hfirst | ⟨earlier, st', later, rfl, hmakes⟩
    · by_cases hsame : (e.step st).2.calls = e.calls
      · rw [hsame] at hfirst
        exact .inl hfirst
      · obtain ⟨s, -, -, -, hmakes⟩ := call_of_step h rest hsame
        rw [hmakes, List.mem_append, List.mem_singleton] at hfirst
        rcases hfirst with hold | rfl
        · exact .inl hold
        · exact .inr ⟨[], st, steps, rfl, hmakes⟩
    · exact .inr ⟨st :: earlier, st', later, rfl, hmakes⟩

/-- A step that makes a call asks for a search, and the call asks for what its acceptable request gives. -/
theorem request_of_call {e : Engine} (h : Consistent e) (rest : AtRest e) {st : Step} {call : Call}
    (hmakes : (e.step st).2.calls = e.calls ++ [call]) : ∃ caller slot request criteria,
      st = .search caller slot request ∧ request.check e.setup.limits = .ok criteria ∧
      call.request = criteria.pageRequest := by
  have hnew : (e.step st).2.calls ≠ e.calls := by
    rw [hmakes]
    simp
  obtain ⟨s, hbegun, -, -, hmakes'⟩ := call_of_step h rest hnew
  obtain ⟨slot, request, hst, hcheck⟩ := search_of_begun hbegun
  have hcall : call = e.newCall s := by
    rw [hmakes] at hmakes'
    exact List.singleton_inj.1 (List.append_cancel_left hmakes')
  exact ⟨s.caller, slot, request, s.criteria, hst, hcheck, by rw [hcall, newCall]⟩

/-! ### What calls ask for -/

/-- In every run with sensible defaults, every call asks for a page and for as many results as the limits allow, and its
query ends with the restriction to public repositories. A step of the run makes it for an acceptable request, and the
query is that of the request's text with its filters. The labels of both together are no more than the limits allow, and
all of them are clean. -/
theorem calls_within_limits (setup : Setup) (cache : Cache ResultPage)
    (page : 1 ≤ setup.limits.defaultPage ∧ setup.limits.defaultPage ≤ setup.limits.maxPage)
    (perPage : 1 ≤ setup.limits.defaultPerPage ∧ setup.limits.defaultPerPage ≤ setup.limits.maxPerPage)
    (steps : List Step) {call : Call} (hcall : call ∈ ((start setup cache).run steps).2.calls) :
    (1 ≤ call.request.page ∧ call.request.page ≤ setup.limits.maxPage) ∧
    (1 ≤ call.request.perPage ∧ call.request.perPage ≤ setup.limits.maxPerPage) ∧
    "+is:public".toList <:+ call.request.query.toList ∧
    ∃ earlier caller slot request later criteria parsed,
      steps = earlier ++ .search caller slot request :: later ∧
      (((start setup cache).run earlier).2.step (.search caller slot request)).2.calls =
        ((start setup cache).run earlier).2.calls ++ [call] ∧
      request.check setup.limits = .ok criteria ∧ call.request = criteria.pageRequest ∧
      parsed = (ParsedQuery.parse criteria.query).withFilters criteria.language criteria.labels ∧
      call.request.query = parsed.queryString ∧
      parsed.labels = (ParsedQuery.parse criteria.query).labels ++ criteria.labels.filterMap cleanLabel? ∧
      parsed.labels.length ≤ setup.limits.maxLabels ∧ ∀ label ∈ parsed.labels, CleanLabel label := by
  rcases step_of_call (Consistent.start setup cache) (AtRest.start setup cache) hcall with
    hnone | ⟨earlier, st, later, hsteps, hmakes⟩
  · cases hnone
  · obtain ⟨h, rest⟩ := run_consistent setup cache earlier
    obtain ⟨caller, slot, request, criteria, rfl, hcheck, hrequest⟩ := request_of_call h rest hmakes
    rw [run_setup (Consistent.start setup cache) (AtRest.start setup cache)] at hcheck
    have gives := SearchRequest.check_eq_ok_iff.1 hcheck
    have hquery : criteria.pageRequest.query =
        " ".intercalate (criteria.compile.parsed.terms ++ criteria.compile.parsed.clauses) ++ "+is:public" := rfl
    refine ⟨?_, ?_, ?_, earlier, caller, slot, request, later, criteria, criteria.compile.parsed, hsteps, hmakes, hcheck,
      hrequest, rfl, ?_, criteria.labels_compile, Nat.le_trans gives.labels_le gives.count,
      fun label => Criteria.cleanLabel_of_mem⟩ <;>
      rw [hrequest]
    · exact SearchRequest.bounds_of_boundedNumber? page gives.page
    · exact SearchRequest.bounds_of_boundedNumber? perPage gives.perPage
    · rw [hquery, String.toList_append]
      exact List.suffix_append _ _
    · rfl

/-- The call for a text with one label and a filter with another asks for two clean labels. -/
theorem two_labels_within_limits :
    let setup : Setup := ⟨{}, .ofSecs 1, [], ⟨0⟩⟩
    let steps := [Step.search "first" none { q := some "rust #bug", page := some "2", labels := some "help \"wanted" }]
    ∃ call ∈ ((start setup (.empty (.ofSecs 60) 4)).run steps).2.calls,
      call.request = ⟨"rust label:\"bug\" label:\"help wanted\"+is:public", .stars, 2, 10⟩ ∧
      (1 ≤ call.request.page ∧ call.request.page ≤ setup.limits.maxPage) ∧
      (1 ≤ call.request.perPage ∧ call.request.perPage ≤ setup.limits.maxPerPage) ∧
      "+is:public".toList <:+ call.request.query.toList := by
  intro setup steps
  have hrequests : ((start setup (.empty (.ofSecs 60) 4)).run steps).2.calls.map Call.request =
      [⟨"rust label:\"bug\" label:\"help wanted\"+is:public", .stars, 2, 10⟩] := by
    decide +kernel
  obtain ⟨call, hcall, hrequest⟩ := List.mem_map.1 (hrequests ▸ List.mem_singleton_self _)
  obtain ⟨page, perPage, restricted, -⟩ :=
    calls_within_limits setup (.empty (.ofSecs 60) 4) (by decide) (by decide) steps hcall
  exact ⟨call, hcall, hrequest, page, perPage, restricted⟩

end RepoSearch.Engine
