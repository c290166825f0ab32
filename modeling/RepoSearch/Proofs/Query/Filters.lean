import RepoSearch.Query.Compiled
import RepoSearch.Proofs.Query.Fields

/-!
# Filters and operators

Filters that are given apart from a query's text can be written into the text: the language as an operator in front of
it, and the labels as operators behind.
-/

namespace RepoSearch

theorem Language.isWord_name (l : Language) : Text.IsWord l.name := by
  cases l <;> decide

/-- A label that can be written as an operator: it has no blanks, and a character other than a quote. -/
structure WritableLabel (label : String) : Prop where
  unblank : ∀ c ∈ label.toList, Text.isBlank c = false
  unquoted : ∃ c ∈ label.toList, c ≠ '"'

instance (label : String) : Decidable (WritableLabel label) :=
  decidable_of_iff (label.toList.all (!Text.isBlank ·) = true ∧ label.toList.any (· != '"') = true)
    ⟨fun h => ⟨fun c hc => by simpa using List.all_eq_true.1 h.1 c hc, by simpa using List.any_eq_true.1 h.2⟩,
      fun h => ⟨List.all_eq_true.2 fun c hc => by simp [h.unblank c hc], by simpa using h.unquoted⟩⟩

theorem WritableLabel.isWord {label : String} (h : WritableLabel label) : Text.IsWord label := by
  refine ⟨?_, h.unblank⟩
  rintro rfl
  obtain ⟨c, hc, -⟩ := h.unquoted
  cases hc

/-- Such a label only loses its quotes, and something remains of it. -/
theorem WritableLabel.cleanLabel?_eq {label : String} (h : WritableLabel label) :
    cleanLabel? label = some (String.ofList (label.toList.filter (· ≠ '"'))) := by
  have hunblank : ∀ c ∈ (String.ofList (label.toList.filter (· ≠ '"'))).toList, Text.isBlank c = false := by
    intro c hc
    rw [String.toList_ofList] at hc
    exact h.unblank c (List.mem_filter.1 hc).1
  have hne : (String.ofList (label.toList.filter (· ≠ '"'))).isEmpty = false := by
    obtain ⟨c, hc, hquote⟩ := h.unquoted
    rw [← Bool.not_eq_true, String.isEmpty_iff, ← String.toList_inj, String.toList_ofList]
    exact List.ne_nil_of_mem (List.mem_filter.2 ⟨hc, by simpa using hquote⟩)
  rw [cleanLabel?, Text.trim_of_unblank h.unblank, Text.trim_of_unblank hunblank, hne]
  rfl

namespace Operator

/-- The value of a word as an operator of one kind. -/
def valueOf? (op : Operator) (word : String) : Option String :=
  match classify? word with
  | some (found, value) => if found = op then some value else none
  | none => none

end Operator

namespace ParsedQuery

/-- The language of a text is the last one that it names. -/
theorem language_parse (raw : String) :
    (parse raw).language = ((Text.words raw).filterMap Operator.language.valueOf?).getLast? := by
  have hput : putIn? (.of .language) = Operator.language.valueOf? := funext (putIn?_of (by decide))
  have hfield := inField_parse raw (.of .language)
  rw [hput] at hfield
  exact eq_of_toList hfield

theorem addWord_language (p : ParsedQuery) (l : Language) :
    p.addWord ("@" ++ l.name) = { p with language := some l.name } := by
  have howner : l.name.toList.head? ≠ some '/' := by cases l <;> decide
  have hclassify := Operator.classify?_marker_append .language l.isWord_name.nonempty fun _ => howner
  rw [addWord, show "@" = Operator.language.marker from rfl, hclassify]

theorem foldl_addWord_labels (p : ParsedQuery) {labels : List String} (h : ∀ label ∈ labels, WritableLabel label) :
    (labels.map ("#" ++ ·)).foldl addWord p = p.extendLabels labels := by
  induction labels generalizing p with
  | nil => simp [extendLabels]
  | cons label labels ih =>
    have hlabel := h label List.mem_cons_self
    have hclassify := Operator.classify?_marker_append .label hlabel.isWord.nonempty (by simp)
    have hclean := hlabel.cleanLabel?_eq
    have hfirst : p.addWord ("#" ++ label) = p.extendLabels [label] := by
      rw [addWord, show "#" = Operator.label.marker from rfl, hclassify]
      simp only [hclean, extendLabels, List.filterMap_cons, List.filterMap_nil]
    rw [List.map_cons, List.foldl_cons, hfirst, ih _ fun l hl => h l (List.mem_cons_of_mem label hl)]
    simp [extendLabels, hclean]

end ParsedQuery

namespace CompiledQuery

/-- Compiling a text with filters is compiling the text with the filters written into it as operators, whatever blanks
stand between. So a language in the text outweighs the filter, the last one if there are several, and the labels of the
filter follow those of the text. -/
theorem filters_as_operators (raw : String) (sort : SortOrder) (language : Option Language) {labels : List String}
    (hlabels : ∀ label ∈ labels, WritableLabel label)
    {gap : String} (hgap : Text.IsGap gap) :
    let compiled := ofTextWithFilters raw sort language labels
    compiled = ofText
      (gap.intercalate (language.toList.map ("@" ++ ·.name) ++ [raw] ++ labels.map ("#" ++ ·))) sort ∧
    (∀ value, ((Text.words raw).filterMap Operator.language.valueOf?).getLast? = some value →
      compiled.parsed.language = some value) ∧
    compiled.parsed.labels = (ofText raw sort).parsed.labels ++ labels.filterMap cleanLabel? := by
  intro compiled
  have hlanguage : compiled.parsed.language = (ParsedQuery.parse raw).language.or (language.map Language.name) := rfl
  refine ⟨?_, ?_, rfl⟩
  · have hfront : ∀ text ∈ language.toList.map ("@" ++ ·.name), Text.IsWord text := by
      intro text htext
      obtain ⟨l, -, rfl⟩ := List.mem_map.1 htext
      exact Operator.isWord_marker_append .language l.isWord_name
    have hback : ∀ text ∈ labels.map ("#" ++ ·), Text.IsWord text := by
      intro text htext
      obtain ⟨label, hlabel, rfl⟩ := List.mem_map.1 htext
      exact Operator.isWord_marker_append .label (hlabels label hlabel).isWord
    have hwords : Text.words
        (gap.intercalate (language.toList.map ("@" ++ ·.name) ++ [raw] ++ labels.map ("#" ++ ·))) =
          language.toList.map ("@" ++ ·.name) ++ Text.words raw ++ labels.map ("#" ++ ·) := by
      rw [Text.words_intercalate hgap, List.flatMap_append, List.flatMap_append, List.flatMap_singleton,
        Text.flatMap_words hfront, Text.flatMap_words hback]
    have hparsed : (ParsedQuery.parse raw).withFilters language labels = ParsedQuery.parse
        (gap.intercalate (language.toList.map ("@" ++ ·.name) ++ [raw] ++ labels.map ("#" ++ ·))) := by
      rw [ParsedQuery.parse, ParsedQuery.parse, hwords, List.foldl_append, List.foldl_append,
        ParsedQuery.foldl_addWord_labels _ hlabels, ParsedQuery.foldl_addWord (List.foldl _ _ (language.toList.map _))]
      cases language with
      | none => simp [ParsedQuery.withFilters, ParsedQuery.merge]
      | some l => simp [ParsedQuery.withFilters, ParsedQuery.merge, ParsedQuery.addWord_language]
    exact congrArg (ParsedQuery.compile · sort) hparsed
  · intro value hvalue
    rw [hlanguage, ParsedQuery.language_parse, hvalue, Option.some_or]

/-- The text names a language other than the filter's, and one label of the filter looks like an operator itself. -/
theorem two_labels_as_operators :
    ofTextWithFilters "orm @go #bug" .stars (some .rust) ["help", "#\"x\""] =
      ofText "@rust  orm @go #bug  #help  ##\"x\"" .stars ∧
    (ofTextWithFilters "orm @go #bug" .stars (some .rust) ["help", "#\"x\""]).parsed.language = some "go" ∧
    (ofTextWithFilters "orm @go #bug" .stars (some .rust) ["help", "#\"x\""]).parsed.labels = ["bug", "help", "#x"] := by
  have hgap : Text.IsGap "  " := by decide
  have hlabels : ∀ label ∈ ["help", "#\"x\""], WritableLabel label := by decide
  obtain ⟨written, overridden, labels⟩ := filters_as_operators "orm @go #bug" .stars (some .rust) hlabels hgap
  exact ⟨written, overridden "go" (by decide), labels.trans (by decide)⟩

end CompiledQuery

end RepoSearch
