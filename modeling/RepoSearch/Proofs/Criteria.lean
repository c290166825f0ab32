import RepoSearch.Search.Criteria
import RepoSearch.Proofs.Query.Fields
import Mathlib.Data.List.DropRight
import Mathlib.Tactic.SplitIfs

/-!
# What acceptable requests ask for

A request that is acceptable gives criteria within the limits: its numbers lie between their bounds, and the query that
is sent has no more labels than were counted. The labels are counted in one way and put into the query in another, which
cleans them and leaves out those of which nothing remains.
-/

namespace RepoSearch

/-! ### Trimmed texts -/

namespace Text

/-- A text has no blank at either end. -/
structure Trimmed (s : String) : Prop where
  front : ∀ c, s.toList.head? = some c → isBlank c = false
  back : ∀ c, s.toList.getLast? = some c → isBlank c = false

private theorem toList_trim (s : String) : (trim s).toList = (s.toList.dropWhile isBlank).rdropWhile isBlank :=
  String.toList_ofList

theorem trimmed_trim (s : String) : Trimmed (trim s) := by
  constructor <;> intro c hc <;> rw [toList_trim] at hc
  · -- What is cut off at the end does not change the front, unless nothing remains.
    have hfront : (s.toList.dropWhile isBlank).head? = some c := by
      obtain ⟨rest, hrest⟩ := List.rdropWhile_prefix isBlank (s.toList.dropWhile isBlank)
      rw [← hrest, List.head?_append, hc, Option.some_or]
    have hnot := s.toList.head?_dropWhile_not isBlank
    rwa [hfront] at hnot
  · have hnot := (s.toList.dropWhile isBlank).reverse.head?_dropWhile_not isBlank
    rw [List.rdropWhile, List.getLast?_reverse] at hc
    rwa [hc] at hnot

/-- There is nothing to trim off a trimmed text. -/
theorem Trimmed.trim_eq {s : String} (h : Trimmed s) : trim s = s := by
  have hfront : s.toList.dropWhile isBlank = s.toList := by
    cases hs : s.toList with
    | nil => rfl
    | cons c cs =>
      have hc := h.front c (by rw [hs, List.head?_cons])
      exact List.dropWhile_cons_of_neg (by simp [hc])
  have hback : s.toList.rdropWhile isBlank = s.toList := by
    rw [List.rdropWhile_eq_self_iff]
    intro hne hblank
    have hlast := h.back _ (List.getLast?_eq_some_getLast hne)
    rw [hlast] at hblank
    cases hblank
  rw [← String.toList_inj, toList_trim, hfront, hback]

/-- A text with blanks around it. -/
def Pads (padded s : String) : Prop :=
  ∃ front back : String, (∀ c ∈ front.toList, isBlank c = true) ∧ (∀ c ∈ back.toList, isBlank c = true) ∧
    padded = front ++ s ++ back

/-- Blanks around a text are trimmed off with those at its ends. -/
theorem Pads.trim_eq {padded s : String} (h : Pads padded s) : trim padded = trim s := by
  obtain ⟨front, back, hfront, hback, rfl⟩ := h
  have hend : ∀ cs : List Char, (cs ++ back.toList).rdropWhile isBlank = cs.rdropWhile isBlank := by
    intro cs
    have hreverse : ∀ c ∈ back.toList.reverse, isBlank c = true := fun c hc => hback c (List.mem_reverse.1 hc)
    rw [List.rdropWhile, List.reverse_append, List.dropWhile_append_of_pos hreverse, List.rdropWhile]
  have hstart : (front ++ s ++ back).toList.dropWhile isBlank = (s.toList ++ back.toList).dropWhile isBlank := by
    rw [String.toList_append, String.toList_append, List.append_assoc, List.dropWhile_append_of_pos hfront]
  rw [← String.toList_inj, toList_trim, toList_trim, hstart, List.dropWhile_append]
  cases hs : s.toList.dropWhile isBlank with
  | nil =>
    -- The text itself is blank, and what follows goes with it.
    have hrest : back.toList.dropWhile isBlank = [] := List.dropWhile_eq_nil_iff.2 hback
    rw [hrest]
    rfl
  | cons c cs => exact hend (c :: cs)

theorem trim_sublist (s : String) : (trim s).toList.Sublist s.toList := by
  have hback := List.rdropWhile_prefix isBlank (s.toList.dropWhile isBlank)
  rw [toList_trim]
  exact hback.sublist.trans (List.dropWhile_sublist isBlank)

end Text

/-! ### Labels -/

/-- A label as it is sent: not empty, without blanks at its ends and without quotes. -/
structure CleanLabel (label : String) : Prop where
  nonempty : label ≠ ""
  trimmed : Text.Trimmed label
  unquoted : '"' ∉ label.toList

theorem cleanLabel_of_eq_some {raw label : String} (h : cleanLabel? raw = some label) : CleanLabel label := by
  unfold cleanLabel? at h
  dsimp only at h
  split_ifs at h with hempty
  obtain rfl := Option.some.inj h
  refine ⟨fun heq => hempty (by rw [heq]; rfl), Text.trimmed_trim _, fun hquote => ?_⟩
  have hmem := (Text.trim_sublist _).subset hquote
  rw [String.toList_ofList, List.mem_filter] at hmem
  simp at hmem

/-- A clean label stays as it is. -/
theorem CleanLabel.cleanLabel?_eq {label : String} (h : CleanLabel label) : cleanLabel? label = some label := by
  have hkept : label.toList.filter (· ≠ '"') = label.toList := by
    rw [List.filter_eq_self]
    intro c hc
    have hquote : c ≠ '"' := fun heq => h.unquoted (heq ▸ hc)
    simpa using hquote
  have hne : label.isEmpty = false := by
    rw [← Bool.not_eq_true, String.isEmpty_iff]
    exact h.nonempty
  rw [cleanLabel?, h.trimmed.trim_eq, hkept, String.ofList_toList, h.trimmed.trim_eq, hne]
  rfl

/-- The label that a word of a query selects. -/
def labelOf? (word : String) : Option String :=
  match Operator.classify? word with
  | some (.label, value) => cleanLabel? value
  | _ => none

theorem putIn?_label (word : String) : putIn? (.of .label) word = labelOf? word := by
  rw [putIn?, labelOf?]
  cases hclassify : Operator.classify? word with
  | none =>
    rw [placed_of_none hclassify]
    rfl
  | some operator =>
    obtain ⟨op, value⟩ := operator
    by_cases hlabel : op = .label
    · subst hlabel
      rw [placed_of_label hclassify]
      dsimp only
      cases cleanLabel? value <;> rfl
    · rw [placed_of_operator hclassify hlabel, if_neg fun heq => hlabel (Field.of.inj heq)]
      cases op with
      | label => exact absurd rfl hlabel
      | _ => rfl

namespace ParsedQuery

/-- The labels of a query's text are those that its words select. -/
theorem labels_parse (raw : String) : (parse raw).labels = (Text.words raw).filterMap labelOf? := by
  have hput : putIn? (.of .label) = labelOf? := funext putIn?_label
  have hfield := inField_parse raw (.of .label)
  rw [hput] at hfield
  exact hfield

theorem cleanLabel_of_mem_parse {raw label : String} (h : label ∈ (parse raw).labels) : CleanLabel label := by
  rw [labels_parse, List.mem_filterMap] at h
  obtain ⟨word, -, hlabel⟩ := h
  unfold labelOf? at hlabel
  split at hlabel
  · exact cleanLabel_of_eq_some hlabel
  · cases hlabel

end ParsedQuery

/-- A query that is sent has the labels of its text, and after them those of the filter once they are clean. -/
theorem Criteria.labels_compile (c : Criteria) : c.compile.parsed.labels =
    (ParsedQuery.parse c.query).labels ++ c.labels.filterMap cleanLabel? := rfl

theorem Criteria.cleanLabel_of_mem {c : Criteria} {label : String} (h : label ∈ c.compile.parsed.labels) :
    CleanLabel label := by
  rw [labels_compile, List.mem_append, List.mem_filterMap] at h
  rcases h with htext | ⟨raw, -, hfilter⟩
  · exact ParsedQuery.cleanLabel_of_mem_parse htext
  · exact cleanLabel_of_eq_some hfilter

/-! ### Acceptable requests -/

namespace SearchRequest

/-- A request keeps within the limits and gives the criteria. -/
structure Gives (r : SearchRequest) (limits : Limits) (c : Criteria) : Prop where
  long : limits.minQueryLength ≤ r.queryText.length
  query : c.query = r.queryText
  page : boundedNumber? (present? r.page) limits.defaultPage limits.maxPage = some c.page
  perPage : boundedNumber? (present? r.perPage) limits.defaultPerPage limits.maxPerPage = some c.perPage
  sort : r.sortOrder? = .ok c.sort
  count : r.labelCount ≤ limits.maxLabels
  labels : c.labels = splitLabels (present? r.labels)
  language : r.language? = .ok c.language

private theorem gives_of_check {r : SearchRequest} {limits : Limits} {c : Criteria} (h : r.check limits = .ok c) :
    r.Gives limits c := by
  unfold check at h
  simp only [bind, Except.bind, throw, throwThe, MonadExceptOf.throw, pure, Except.pure] at h
  have hshort : ¬r.queryText.length < limits.minQueryLength := by
    intro hshort
    rw [if_pos hshort] at h
    cases h
  rw [if_neg hshort] at h
  cases hpage : boundedNumber? (present? r.page) limits.defaultPage limits.maxPage with
  | none => simp [hpage] at h
  | some page =>
    cases hperPage : boundedNumber? (present? r.perPage) limits.defaultPerPage limits.maxPerPage with
    | none => simp [hpage, hperPage] at h
    | some perPage =>
      cases hsort : r.sortOrder? with
      | error err => simp [hpage, hperPage, hsort] at h
      | ok sort =>
        simp only [hpage, hperPage, hsort] at h
        have hmany : ¬limits.maxLabels < r.labelCount := by
          intro hmany
          rw [if_pos hmany] at h
          cases h
        rw [if_neg hmany] at h
        cases hlanguage : r.language? with
        | error err => simp [hlanguage] at h
        | ok language =>
          rw [hlanguage] at h
          obtain rfl := Except.ok.inj h
          exact ⟨Nat.le_of_not_lt hshort, rfl, hpage, hperPage, hsort, Nat.le_of_not_lt hmany, rfl, hlanguage⟩

/-- A request is accepted exactly when it keeps within the limits, and the criteria are those that it gives. -/
theorem check_eq_ok_iff {r : SearchRequest} {limits : Limits} {c : Criteria} :
    r.check limits = .ok c ↔ r.Gives limits c := by
  constructor
  · exact gives_of_check
  · intro h
    unfold check
    simp only [bind, Except.bind, throw, throwThe, MonadExceptOf.throw, pure, Except.pure]
    rw [if_neg (Nat.not_lt.2 h.long)]
    simp only [h.page, h.perPage, h.sort]
    rw [if_neg (Nat.not_lt.2 h.count)]
    simp only [h.language, ← h.query, ← h.labels]

/-- A bounded number lies within its bounds if the one that stands in for an absent one does. -/
theorem bounds_of_boundedNumber? {text : Option String} {fallback max n : Nat} (hfallback : 1 ≤ fallback ∧ fallback ≤ max)
    (h : boundedNumber? text fallback max = some n) : 1 ≤ n ∧ n ≤ max := by
  cases text with
  | none =>
    obtain rfl := Option.some.inj h
    exact hfallback
  | some text =>
    rw [boundedNumber?, Option.filter_eq_some_iff] at h
    exact of_decide_eq_true h.2

/-- The query that is sent has no more labels than its request was charged with. -/
theorem Gives.labels_le {r : SearchRequest} {limits : Limits} {c : Criteria} (h : r.Gives limits c) :
    c.compile.parsed.labels.length ≤ r.labelCount := by
  have filters := List.length_filterMap_le cleanLabel? (splitLabels (present? r.labels))
  rw [c.labels_compile, h.query, h.labels, List.length_append, labelCount]
  omega

end SearchRequest

end RepoSearch
