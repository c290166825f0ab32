import RepoSearch.Proofs.Criteria

/-!
# The labels of a request and of its query

A request is charged with the entries of its list of labels and with the labels of its text. The query that it gives asks
for the labels of its text and for what remains of the entries once they are clean. So the request is charged with more
labels than its query asks for exactly if some of its entries are made of quotes and blanks alone.
-/

namespace RepoSearch

/-! ### Entries of which nothing remains -/

/-- A text is made of quotes and blanks alone. -/
def Faded (s : String) : Prop :=
  ∀ c ∈ s.toList, c = '"' ∨ Text.isBlank c = true

instance (s : String) : Decidable (Faded s) := List.decidableBAll (fun c => c = '"' ∨ Text.isBlank c = true) s.toList

namespace Text

/-- Only blanks are trimmed off. -/
theorem mem_trim {s : String} {c : Char} (hc : c ∈ s.toList) (hblank : isBlank c = false) : c ∈ (trim s).toList := by
  have hfront : c ∈ trimLeft s.toList := by
    rw [← List.takeWhile_append_dropWhile (p := isBlank) (l := s.toList), List.mem_append] at hc
    rcases hc with hc | hc
    · rw [List.mem_takeWhile_imp hc] at hblank
      cases hblank
    · exact hc
  have hback : c ∈ trimLeft (trimLeft s.toList).reverse := by
    rw [← List.mem_reverse, ← List.takeWhile_append_dropWhile (p := isBlank) (l := (trimLeft s.toList).reverse),
      List.mem_append] at hfront
    rcases hfront with hfront | hfront
    · rw [List.mem_takeWhile_imp hfront] at hblank
      cases hblank
    · exact hfront
  rw [trim, String.toList_ofList, trimRight, List.mem_reverse]
  exact hback

theorem trim_eq_empty_iff {s : String} : trim s = "" ↔ ∀ c ∈ s.toList, isBlank c = true := by
  constructor
  · intro htrim c hc
    by_contra hblank
    have hmem := mem_trim hc (Bool.eq_false_iff.2 hblank)
    rw [htrim] at hmem
    cases hmem
  · intro hall
    by_contra hne
    obtain ⟨c, cs, hcs⟩ := List.exists_cons_of_ne_nil (l := (trim s).toList) fun hnil => hne (String.toList_inj.1 hnil)
    have hfront := (trimmed_trim s).front c (by rw [hcs, List.head?_cons])
    have hmem : c ∈ s.toList := (trim_sublist s).subset (by rw [hcs]; exact List.mem_cons_self)
    rw [hall c hmem] at hfront
    cases hfront

end Text

/-- Nothing remains of a label exactly if it is made of quotes and blanks. -/
theorem cleanLabel?_eq_none_iff {label : String} : cleanLabel? label = none ↔ Faded label := by
  have hempty : cleanLabel? label = none ↔
      Text.trim (String.ofList ((Text.trim label).toList.filter (· ≠ '"'))) = "" := by
    rw [cleanLabel?]
    split_ifs with h
    · exact iff_of_true rfl (String.isEmpty_iff.1 h)
    · exact iff_of_false (by simp) fun heq => h (String.isEmpty_iff.2 heq)
  rw [hempty, Text.trim_eq_empty_iff, String.toList_ofList]
  constructor
  · intro h c hc
    by_contra hplain
    obtain ⟨hquote, hblank⟩ := not_or.1 hplain
    have hmem := Text.mem_trim hc (Bool.eq_false_iff.2 hblank)
    exact hblank (h c (List.mem_filter.2 ⟨hmem, decide_eq_true hquote⟩))
  · intro h c hc
    obtain ⟨hmem, hquote⟩ := List.mem_filter.1 hc
    exact (h c ((Text.trim_sublist label).subset hmem)).resolve_left (of_decide_eq_true hquote)

/-- Each entry of a list gives a clean label, or is made of quotes and blanks. -/
theorem length_eq_clean_add_faded (labels : List String) :
    labels.length = (labels.filterMap cleanLabel?).length + labels.countP fun label => Faded label := by
  have hnone : ∀ label, (cleanLabel? label).isSome = !decide (Faded label) := by
    intro label
    rw [← Option.not_isNone, Bool.not_inj_iff, Bool.eq_iff_iff, decide_eq_true_eq, Option.isNone_iff_eq_none]
    exact cleanLabel?_eq_none_iff
  have hsplit := List.length_eq_countP_add_countP (fun label => decide (Faded label)) (l := labels)
  simp only [List.length_filterMap_eq_countP, hnone]
  simp only [decide_eq_true_eq] at hsplit
  simp only [← decide_not]
  omega

/-! ### Clauses that ask for a label -/

/-- The clauses of a compiled query that ask for a label. A free-text term is no clause, even if it looks like one. -/
def CompiledQuery.labelClauses (q : CompiledQuery) : List String :=
  q.parsed.clauses.filter fun clause => "label:".toList.isPrefixOf clause.toList

theorem Operator.isPrefixOf_clause (op : Operator) (value : String) :
    "label:".toList.isPrefixOf (op.clause value).toList = decide (op = .label) := by
  rw [clause, String.toList_append, String.toList_append]
  cases op <;> rfl

theorem CompiledQuery.labelClauses_eq (q : CompiledQuery) :
    q.labelClauses = q.parsed.labels.map Operator.label.quotedClause := by
  have hother : ∀ (op : Operator) (values : List String), op ≠ .label →
      (values.map op.clause).filter (fun clause => "label:".toList.isPrefixOf clause.toList) = [] := by
    intro op values hop
    rw [List.filter_eq_nil_iff]
    intro clause hclause
    obtain ⟨value, -, rfl⟩ := List.mem_map.1 hclause
    rw [op.isPrefixOf_clause, decide_eq_true_eq]
    exact hop
  have hlabels : (q.parsed.labels.map Operator.label.quotedClause).filter
      (fun clause => "label:".toList.isPrefixOf clause.toList) = q.parsed.labels.map Operator.label.quotedClause := by
    rw [List.filter_eq_self]
    intro clause hclause
    obtain ⟨value, -, rfl⟩ := List.mem_map.1 hclause
    rw [Operator.quotedClause, Operator.isPrefixOf_clause]
    rfl
  rw [labelClauses, ParsedQuery.clauses]
  simp only [List.filter_append, hlabels]
  rw [hother .language _ (by decide), hother .stars _ (by decide), hother .forks _ (by decide),
    hother .updated _ (by decide), hother .owner _ (by decide), hother .topic _ (by decide)]
  simp only [List.nil_append, List.append_nil]

/-- A compiled query has a clause for each label of its text and for each entry of which something remains. -/
theorem CompiledQuery.length_labelClauses (raw : String) (order : SortOrder) (language : Option Language)
    (labels : List String) : (ofTextWithFilters raw order language labels).labelClauses.length =
      (ParsedQuery.parse raw).labels.length + (labels.filterMap cleanLabel?).length := by
  rw [labelClauses_eq, List.length_map, ← List.length_append]
  rfl

/-! ### Requests with too many labels -/

namespace SearchRequest

/-- The parameters that are checked before the labels are acceptable. -/
structure ReachesLabels (r : SearchRequest) (limits : Limits) : Prop where
  long : limits.minQueryLength ≤ r.queryText.length
  page : (boundedNumber? (present? r.page) limits.defaultPage limits.maxPage).isSome = true
  perPage : (boundedNumber? (present? r.perPage) limits.defaultPerPage limits.maxPerPage).isSome = true
  sort : ∃ order, r.sortOrder? = .ok order

private theorem unsupported_of_language? {r : SearchRequest} {fault : RequestError} (h : r.language? = .error fault) :
    ∃ text, fault = .unsupportedLanguage text := by
  unfold language? at h
  split at h
  · cases h
  · rename_i text _
    split at h
    · cases h
    · exact ⟨text, (Except.error.inj h).symm⟩

/-- Such a request is reported for its labels exactly if it is charged with too many. -/
theorem ReachesLabels.check_eq_iff {r : SearchRequest} {limits : Limits} (h : r.ReachesLabels limits) (max got : Nat) :
    r.check limits = .error (.tooManyLabels max got) ↔
      max = limits.maxLabels ∧ got = r.labelCount ∧ limits.maxLabels < r.labelCount := by
  obtain ⟨page, hpage⟩ := Option.isSome_iff_exists.1 h.page
  obtain ⟨perPage, hperPage⟩ := Option.isSome_iff_exists.1 h.perPage
  obtain ⟨order, hsort⟩ := h.sort
  unfold check
  simp only [bind, Except.bind, throw, throwThe, MonadExceptOf.throw, pure, Except.pure]
  rw [if_neg (Nat.not_lt.2 h.long)]
  simp only [hpage, hperPage, hsort]
  by_cases hmany : limits.maxLabels < r.labelCount
  · rw [if_pos hmany]
    simp [hmany, eq_comm]
  · rw [if_neg hmany]
    refine iff_of_false ?_ fun hcharged => hmany hcharged.2.2
    cases hlanguage : r.language? with
    | ok language => simp
    | error fault =>
      obtain ⟨text, rfl⟩ := unsupported_of_language? hlanguage
      simp

/-- A request is charged with the labels that its query asks for and with its entries of quotes and blanks. -/
theorem labelCount_eq (r : SearchRequest) (order : SortOrder) (language : Option Language) :
    r.labelCount =
      (CompiledQuery.ofTextWithFilters r.queryText order language (splitLabels (present? r.labels))).labelClauses.length +
        (splitLabels (present? r.labels)).countP fun entry => Faded entry := by
  have hentries := length_eq_clean_add_faded (splitLabels (present? r.labels))
  rw [CompiledQuery.length_labelClauses, labelCount]
  omega

/-- A request whose other parameters are acceptable so far is reported for too many labels exactly if the clauses for
labels in its query, together with its entries of quotes and blanks, are too many, and the number reported is that of
both. So the report is about the clauses alone exactly if there are no such entries or they are not too many. -/
theorem tooManyLabels_iff {r : SearchRequest} {limits : Limits} (h : r.ReachesLabels limits) (order : SortOrder)
    (language : Option Language) :
    let entries := splitLabels (present? r.labels)
    let clauses := (CompiledQuery.ofTextWithFilters r.queryText order language entries).labelClauses.length
    let faded := entries.countP fun entry => Faded entry
    (∀ max got, r.check limits = .error (.tooManyLabels max got) ↔
      max = limits.maxLabels ∧ got = clauses + faded ∧ limits.maxLabels < clauses + faded) ∧
    ((∀ max got, r.check limits = .error (.tooManyLabels max got) ↔
      max = limits.maxLabels ∧ got = clauses ∧ limits.maxLabels < clauses) ↔
        faded = 0 ∨ clauses + faded ≤ limits.maxLabels) := by
  intro entries clauses faded
  have hcharged : ∀ max got, r.check limits = .error (.tooManyLabels max got) ↔
      max = limits.maxLabels ∧ got = clauses + faded ∧ limits.maxLabels < clauses + faded := by
    intro max got
    rw [h.check_eq_iff, r.labelCount_eq order language]
  refine ⟨hcharged, ?_⟩
  simp only [hcharged]
  constructor
  · intro hagree
    by_contra hbad
    have hreport := (hagree limits.maxLabels (clauses + faded)).1 ⟨rfl, rfl, by omega⟩
    omega
  · intro hgood max got
    omega

/-- Three labels in the text and three entries, one of them with quotes, are reported as the six that the query would ask
for. -/
theorem six_labels_reported :
    let r : SearchRequest := { q := some "ui #d #e #f", labels := some "a, b ,\"c\"" }
    let query := CompiledQuery.ofTextWithFilters r.queryText .stars none (splitLabels (present? r.labels))
    r.ReachesLabels {} ∧ query.labelClauses =
      ["label:\"d\"", "label:\"e\"", "label:\"f\"", "label:\"a\"", "label:\"b\"", "label:\"c\""] ∧
    r.check {} = .error (.tooManyLabels 5 query.labelClauses.length) := by
  intro r query
  have reaches : r.ReachesLabels {} :=
    ⟨by decide +kernel, by decide +kernel, by decide +kernel, .stars, by decide +kernel⟩
  have hclauses : query.labelClauses =
      ["label:\"d\"", "label:\"e\"", "label:\"f\"", "label:\"a\"", "label:\"b\"", "label:\"c\""] := by
    decide +kernel
  have hfaded : (splitLabels (present? r.labels)).countP (fun entry => Faded entry) = 0 := by decide +kernel
  obtain ⟨-, agrees⟩ := tooManyLabels_iff reaches .stars none
  refine ⟨reaches, hclauses, (agrees.2 (.inl hfaded) 5 query.labelClauses.length).2 ⟨rfl, rfl, ?_⟩⟩
  show 5 < query.labelClauses.length
  rw [hclauses]
  decide

/-- A sixth entry of one quote is counted, though the query asks for five labels only. -/
theorem lone_quote_counted_as_label :
    let r : SearchRequest := { q := some "ui", labels := some "a,b,c,d,e,\"" }
    let query := CompiledQuery.ofTextWithFilters r.queryText .stars none (splitLabels (present? r.labels))
    r.ReachesLabels {} ∧ r.check {} = .error (.tooManyLabels 5 6) ∧ query.labelClauses.length = 5 := by
  intro r query
  exact ⟨⟨by decide +kernel, by decide +kernel, by decide +kernel, .stars, by decide +kernel⟩, by decide +kernel,
    by decide +kernel⟩

end SearchRequest

end RepoSearch
