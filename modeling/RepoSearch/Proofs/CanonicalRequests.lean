import RepoSearch.Proofs.CacheKey
import RepoSearch.Proofs.Criteria
import RepoSearch.Proofs.Numerals
import RepoSearch.Proofs.Query.Filters

/-!
# Canonical requests

The criteria that an acceptable request gives can be written as a request again, and this request is accepted and gives
the same criteria. Of any request only what remains of its parameters without the blanks at their ends is seen.
-/

namespace RepoSearch

/-! ### Parameters -/

theorem present?_eq_some {s : String} (htrim : Text.trim s = s) (hne : s ≠ "") : present? (some s) = some s := by
  have hempty : s.isEmpty = false := by
    rw [← Bool.not_eq_true, String.isEmpty_iff]
    exact hne
  rw [present?, Option.map_some, htrim, Option.filter_some_pos (by simp [hempty])]

theorem Text.IsWord.present?_eq {s : String} (h : Text.IsWord s) : present? (some s) = some s :=
  present?_eq_some (Text.trim_of_unblank h.unblank) h.nonempty

/-- A parameter with blanks around it is the same parameter. -/
theorem present?_of_pads {padded parameter : Option String} (h : Option.Rel Text.Pads padded parameter) :
    present? padded = present? parameter := by
  cases h with
  | none => rfl
  | some hpads => rw [present?, present?, Option.map_some, Option.map_some, hpads.trim_eq]

theorem trim_getD_of_pads {padded parameter : Option String} (h : Option.Rel Text.Pads padded parameter) :
    Text.trim (padded.getD "") = Text.trim (parameter.getD "") := by
  cases h with
  | none => rfl
  | some hpads => exact hpads.trim_eq

namespace Decimal

private theorem unblank_digitChar {d : Nat} (h : d < 10) : Text.isBlank (Nat.digitChar d) = false := by
  decide +revert

theorem isWord_render (n : Nat) : Text.IsWord (render n) := by
  refine ⟨render_ne_empty n, ?_⟩
  intro c hc
  rw [toList_render] at hc
  obtain ⟨d, hd, rfl⟩ := digit_of_mem_toDigits (by omega) hc
  exact unblank_digitChar hd

end Decimal

/-- A number within its bounds is read back from its numeral. -/
theorem boundedNumber?_render {n fallback max : Nat} (hn : 1 ≤ n ∧ n ≤ max) (hword : n ≤ Decimal.max32) :
    boundedNumber? (present? (some (Decimal.render n))) fallback max = some n := by
  rw [(Decimal.isWord_render n).present?_eq, boundedNumber?, Decimal.read?_render hword]
  exact Option.filter_some_pos (decide_eq_true hn)

theorem SortOrder.isWord_name (o : SortOrder) : Text.IsWord o.name := by
  cases o <;> decide

theorem SortOrder.read?_name (o : SortOrder) : read? o.name = some o := by
  rw [read?, Text.trim_of_unblank o.isWord_name.unblank, ofName?_name]

theorem Language.read?_name (l : Language) : read? l.name = some l := by
  have hlower : lowerAscii l.name = l.name := by cases l <;> decide
  rw [read?, Text.trim_of_unblank l.isWord_name.unblank, hlower, ofName?_name]

/-! ### Lists of labels -/

/-- An entry of a list as it is read: not empty, without blanks at its ends and without commas. -/
structure ListEntry (s : String) : Prop where
  nonempty : s ≠ ""
  trimmed : Text.Trimmed s
  undivided : ',' ∉ s.toList

theorem listEntry_of_mem_splitLabels {text : Option String} {entry : String} (h : entry ∈ splitLabels text) :
    ListEntry entry := by
  cases text with
  | none => cases h
  | some s =>
    obtain ⟨hentry, hne⟩ := List.mem_filter.1 h
    obtain ⟨piece, hpiece, rfl⟩ := List.mem_map.1 hentry
    rw [List.splitOn_eq_splitOnP] at hpiece
    refine ⟨?_, Text.trimmed_trim _, ?_⟩
    · intro heq
      rw [heq] at hne
      exact absurd hne (by decide)
    · intro hcomma
      have hmem := (Text.trim_sublist _).subset hcomma
      rw [String.toList_ofList] at hmem
      have hnot := (Text.forall_of_mem_splitOnP hpiece ',' hmem).2
      simp at hnot

private theorem head?_intercalate {entry : String} (entries : List String) (hne : entry ≠ "") :
    (",".intercalate (entry :: entries)).toList.head? = entry.toList.head? := by
  have hlist : entry.toList ≠ [] := fun hnil => hne (String.toList_inj.1 hnil)
  cases entries with
  | nil => rw [String.intercalate_singleton]
  | cons next entries =>
    rw [String.intercalate_cons_cons, String.toList_append, String.toList_append, List.append_assoc,
      List.head?_append_of_ne_nil _ hlist]

private theorem getLast?_intercalate {entry : String} {entries : List String} (h : ∀ e ∈ entry :: entries, e ≠ "") :
    ∃ e ∈ entry :: entries, (",".intercalate (entry :: entries)).toList.getLast? = e.toList.getLast? := by
  induction entries generalizing entry with
  | nil => exact ⟨entry, List.mem_cons_self, by rw [String.intercalate_singleton]⟩
  | cons next entries ih =>
    obtain ⟨e, he, hlast⟩ := ih fun e he => h e (List.mem_cons_of_mem entry he)
    have hne : e.toList ≠ [] := fun hnil => h e (List.mem_cons_of_mem entry he) (String.toList_inj.1 hnil)
    have hsome : ∃ c, e.toList.getLast? = some c := ⟨_, List.getLast?_eq_some_getLast hne⟩
    obtain ⟨c, hc⟩ := hsome
    refine ⟨e, List.mem_cons_of_mem entry he, ?_⟩
    rw [String.intercalate_cons_cons, String.toList_append, List.getLast?_append, hlast, hc, Option.some_or]

/-- Entries are read back from the list that is written with commas between them. -/
theorem splitLabels_intercalate {entries : List String} (h : ∀ e ∈ entries, ListEntry e) :
    splitLabels (present? (some (",".intercalate entries))) = entries := by
  cases entries with
  | nil => rfl
  | cons entry entries =>
    have hentry := h entry List.mem_cons_self
    have htrimmed : Text.Trimmed (",".intercalate (entry :: entries)) := by
      constructor
      · rw [head?_intercalate entries hentry.nonempty]
        exact hentry.trimmed.front
      · obtain ⟨e, he, hlast⟩ := getLast?_intercalate fun e he => (h e he).nonempty
        rw [hlast]
        exact (h e he).trimmed.back
    have hne : ",".intercalate (entry :: entries) ≠ "" := by
      intro hempty
      have hhead := head?_intercalate entries hentry.nonempty
      rw [hempty, String.toList_empty, List.head?_nil, eq_comm, List.head?_eq_none_iff] at hhead
      exact hentry.nonempty (String.toList_inj.1 hhead)
    have hpieces : (",".intercalate (entry :: entries)).toList.splitOn ',' = (entry :: entries).map String.toList := by
      rw [String.toList_intercalate]
      apply List.splitOn_intercalate
      · intro piece hpiece
        obtain ⟨e, he, rfl⟩ := List.mem_map.1 hpiece
        exact (h e he).undivided
      · simp
    have hread : ((entry :: entries).map String.toList).map (fun cs => Text.trim (String.ofList cs)) =
        entry :: entries := by
      rw [List.map_map]
      conv_rhs => rw [← List.map_id (entry :: entries)]
      apply List.map_congr_left
      intro e he
      rw [Function.comp_apply, String.ofList_toList, (h e he).trimmed.trim_eq, id]
    rw [present?_eq_some htrimmed.trim_eq hne, splitLabels, hpieces, hread, List.filter_eq_self]
    intro e he
    have hnonempty := (h e he).nonempty
    rw [Bool.not_eq_true', ← Bool.not_eq_true, String.isEmpty_iff]
    exact hnonempty

/-! ### Requests -/

/-- Limits whose defaults lie within the bounds, which are words of 32 bits. -/
structure Limits.Sensible (limits : Limits) : Prop where
  page : 1 ≤ limits.defaultPage ∧ limits.defaultPage ≤ limits.maxPage
  perPage : 1 ≤ limits.defaultPerPage ∧ limits.defaultPerPage ≤ limits.maxPerPage
  words : limits.maxPage ≤ Decimal.max32 ∧ limits.maxPerPage ≤ Decimal.max32

/-- The request that says what the criteria say. -/
def Criteria.toRequest (c : Criteria) : SearchRequest where
  q := some c.query
  page := some (Decimal.render c.page)
  perPage := some (Decimal.render c.perPage)
  language := c.language.map Language.name
  labels := some (",".intercalate c.labels)
  sort := some c.sort.name

namespace SearchRequest

/-- The parameters of a request are those of another with blanks around them. -/
structure Pads (padded r : SearchRequest) : Prop where
  q : Option.Rel Text.Pads padded.q r.q
  page : Option.Rel Text.Pads padded.page r.page
  perPage : Option.Rel Text.Pads padded.perPage r.perPage
  language : Option.Rel Text.Pads padded.language r.language
  labels : Option.Rel Text.Pads padded.labels r.labels
  sort : Option.Rel Text.Pads padded.sort r.sort

/-- A request is checked through what its parameters are without the blanks at their ends. -/
theorem Pads.check_eq {padded r : SearchRequest} (h : padded.Pads r) (limits : Limits) :
    padded.check limits = r.check limits := by
  have hquery : padded.queryText = r.queryText := trim_getD_of_pads h.q
  have hlabels : padded.labelCount = r.labelCount := by
    rw [labelCount, labelCount, hquery, present?_of_pads h.labels]
  have hsort : padded.sortOrder? = r.sortOrder? := by
    rw [sortOrder?, sortOrder?, present?_of_pads h.sort]
  have hlanguage : padded.language? = r.language? := by
    rw [language?, language?, present?_of_pads h.language]
  rw [check, check, hquery, hlabels, hsort, hlanguage, present?_of_pads h.page, present?_of_pads h.perPage,
    present?_of_pads h.labels]

/-- What a request gives is given by the request that says the same. -/
theorem Gives.toRequest {r : SearchRequest} {limits : Limits} {c : Criteria} (h : r.Gives limits c)
    (hlimits : limits.Sensible) : c.toRequest.Gives limits c := by
  have hquery : c.toRequest.queryText = r.queryText := by
    show Text.trim c.query = r.queryText
    rw [h.query]
    exact (Text.trimmed_trim _).trim_eq
  have hlabels : splitLabels (present? c.toRequest.labels) = c.labels := by
    show splitLabels (present? (some (",".intercalate c.labels))) = c.labels
    rw [h.labels]
    exact splitLabels_intercalate fun e he => listEntry_of_mem_splitLabels he
  have hpage := bounds_of_boundedNumber? hlimits.page h.page
  have hperPage := bounds_of_boundedNumber? hlimits.perPage h.perPage
  refine ⟨?_, ?_, ?_, ?_, ?_, ?_, hlabels.symm, ?_⟩
  · rw [hquery]
    exact h.long
  · rw [hquery, h.query]
  · exact boundedNumber?_render hpage (Nat.le_trans hpage.2 hlimits.words.1)
  · exact boundedNumber?_render hperPage (Nat.le_trans hperPage.2 hlimits.words.2)
  · have hsort : present? c.toRequest.sort = some c.sort.name := c.sort.isWord_name.present?_eq
    simp only [sortOrder?, hsort, SortOrder.read?_name]
  · have hcount := h.count
    rw [labelCount, ← h.labels] at hcount
    rw [labelCount, hquery, hlabels]
    exact hcount
  · have hlanguage : present? c.toRequest.language = c.language.map Language.name := by
      show present? (c.language.map Language.name) = c.language.map Language.name
      cases c.language with
      | none => rfl
      | some l => exact l.isWord_name.present?_eq
    rw [language?, hlanguage]
    cases c.language with
    | none => rfl
    | some l => simp only [Option.map_some, Language.read?_name]

/-- With sensible limits the criteria of an acceptable request, written as a request, are accepted and give the same
criteria, so also the same key. With any limits, blanks around the parameters of any request change neither its criteria
nor its fault. -/
theorem check_stable (limits : Limits) (r : SearchRequest) :
    (limits.Sensible → ∀ c, r.check limits = .ok c → c.toRequest.check limits = .ok c ∧
      (c.toRequest.check limits).map Criteria.cacheKey = .ok c.cacheKey) ∧
    ∀ padded : SearchRequest, padded.Pads r → padded.check limits = r.check limits := by
  constructor
  · intro hlimits c hcheck
    have hgives : c.toRequest.Gives limits c := (check_eq_ok_iff.1 hcheck).toRequest hlimits
    have hsame : c.toRequest.check limits = .ok c := check_eq_ok_iff.2 hgives
    refine ⟨hsame, ?_⟩
    rw [hsame]
    rfl
  · intro padded hpads
    exact hpads.check_eq limits

/-- A number with a sign and a leading zero, a name in capitals and an empty entry of the list are written plainly, and a
wide blank and a line break around parameters are not seen. -/
theorem plain_request_checked_again :
    let r : SearchRequest :=
      { q := some " web #bug", page := some "+07", language := some "RUST", labels := some "help wanted,, Good ",
        sort := some "forks" }
    let c : Criteria := ⟨"web #bug", 7, 10, .forks, ["help wanted", "Good"], some .rust⟩
    let padded : SearchRequest := { r with page := some "\u3000+07", labels := some "help wanted,, Good \n" }
    ({} : Limits).Sensible ∧ r.check {} = .ok c ∧
    c.toRequest =
      { q := some "web #bug", page := some "7", perPage := some "10", language := some "rust",
        labels := some "help wanted,Good", sort := some "forks" } ∧
    c.toRequest.check {} = .ok c ∧ padded.Pads r ∧ padded.check {} = .ok c := by
  intro r c padded
  have hlimits : ({} : Limits).Sensible := by constructor <;> decide
  have hcheck : r.check {} = .ok c := by decide +kernel
  have hself : ∀ s : String, Text.Pads s s := fun s => ⟨"", "", by simp, by simp, by simp⟩
  have hwide : Text.IsGap "\u3000" := by decide
  have hbreak : Text.IsGap "\n" := by decide
  have hpads : padded.Pads r := by
    refine ⟨.some (hself _), .some ⟨"\u3000", "", hwide.blank, by simp, rfl⟩, .none, .some (hself _),
      .some ⟨"", "\n", by simp, hbreak.blank, rfl⟩, .some (hself _)⟩
  obtain ⟨again, unseen⟩ := check_stable {} r
  exact ⟨hlimits, hcheck, by decide +kernel, (again hlimits c hcheck).1, hpads, (unseen padded hpads).trans hcheck⟩

end SearchRequest

end RepoSearch
