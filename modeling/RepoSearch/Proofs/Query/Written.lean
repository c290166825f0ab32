import RepoSearch.Proofs.Criteria
import RepoSearch.Proofs.Query.Fields

/-!
# Queries are written back

A parsed query is written as the words that would put its values in its fields: the terms as they stand, and each other
value behind the marker of its operator. Parsing these words gives the query back, if it is the parsed query of some text.
-/

namespace RepoSearch

/-! ### One value -/

/-- The word that puts a value in a field. -/
def Field.write : Field → String → String
  | terms, value => value
  | of op, value => op.marker ++ value

/-- What a word puts in a field is put there again by the word written for it. -/
theorem Puts.write {word value : String} {f : Field} (h : Puts word f value) : Puts (f.write value) f value := by
  cases h with
  | unmarked hnone => exact .unmarked hnone
  | bare op => exact .bare op
  | faded hclean => exact .faded hclean
  | label hclean => exact .label (cleanLabel_of_eq_some hclean).cleanLabel?_eq
  | value hlabel hvalue hslash => exact .value hlabel hvalue hslash

theorem cleanLabel?_subset {raw label : String} (h : cleanLabel? raw = some label) : label.toList ⊆ raw.toList := by
  rw [cleanLabel?] at h
  split at h
  · cases h
  · obtain rfl := Option.some.inj h
    intro c hc
    have hfiltered := (Text.trim_sublist _).subset hc
    rw [String.toList_ofList, List.mem_filter] at hfiltered
    exact (Text.trim_sublist raw).subset hfiltered.1

/-- The word written for a value of a word is one word. -/
theorem Puts.isWord_write {word value : String} {f : Field} (h : Puts word f value) (hword : Text.IsWord word) :
    Text.IsWord (f.write value) := by
  cases h with
  | unmarked _ => exact hword
  | bare _ => exact hword
  | faded _ => exact hword
  | value _ _ _ => exact hword
  | @label raw label hclean =>
    apply Operator.isWord_marker_append
    refine ⟨(cleanLabel_of_eq_some hclean).nonempty, ?_⟩
    intro c hc
    apply hword.unblank
    rw [String.toList_append]
    exact List.mem_append_right _ (cleanLabel?_subset hclean hc)

/-! ### All values -/

namespace ParsedQuery

/-- The words of a query: its terms, and then for each operator its values behind its marker. -/
def written (p : ParsedQuery) : List String :=
  p.terms ++ Operator.all.flatMap fun op => (p.inField (.of op)).map fun value => op.marker ++ value

/-- A value in a field of a text was put there by a word of the text. -/
theorem exists_puts_of_mem_inField {raw value : String} {f : Field} (h : value ∈ (parse raw).inField f) :
    ∃ word ∈ Text.words raw, Puts word f value := by
  rw [inField_parse] at h
  obtain ⟨word, hword, hput⟩ := List.mem_filterMap.1 (Cardinality.mem_of_mem_keep h)
  rw [putIn?] at hput
  split at hput
  · rename_i hf
    refine ⟨word, hword, puts_iff.2 ?_⟩
    rw [← hf, ← Option.some.inj hput]
  · cases hput

theorem isWord_of_mem_written {raw word : String} (h : word ∈ (parse raw).written) : Text.IsWord word := by
  have hfield : ∀ (f : Field) (value : String), value ∈ (parse raw).inField f → Text.IsWord (f.write value) := by
    intro f value hvalue
    obtain ⟨origin, horigin, hputs⟩ := exists_puts_of_mem_inField hvalue
    exact hputs.isWord_write (Text.isWord_of_mem_words horigin).1
  rcases List.mem_append.1 h with hterm | hvalue
  · exact hfield .terms word hterm
  · obtain ⟨op, -, hop⟩ := List.mem_flatMap.1 hvalue
    obtain ⟨value, hmem, rfl⟩ := List.mem_map.1 hop
    exact hfield (.of op) value hmem

/-- Of the words written for one field, all put their values there, and none puts one elsewhere. -/
theorem filterMap_putIn?_write (raw : String) (f g : Field) :
    (((parse raw).inField f).map f.write).filterMap (putIn? g) = if f = g then (parse raw).inField f else [] := by
  have hput : ∀ value ∈ (parse raw).inField f, putIn? g (f.write value) = if f = g then some value else none := by
    intro value hvalue
    obtain ⟨word, -, hputs⟩ := exists_puts_of_mem_inField hvalue
    rw [putIn?, placed_of_puts hputs.write]
  calc (((parse raw).inField f).map f.write).filterMap (putIn? g)
      = ((parse raw).inField f).filterMap fun value => putIn? g (f.write value) := List.filterMap_map
    _ = ((parse raw).inField f).filterMap fun value => if f = g then some value else none := List.filterMap_congr hput
    _ = if f = g then (parse raw).inField f else [] := by
      by_cases hfg : f = g
      · simp [hfg]
      · simp [hfg]

/-- The words written for a text put in each field what the text put there. -/
theorem filterMap_putIn?_written (raw : String) (g : Field) :
    (parse raw).written.filterMap (putIn? g) = (parse raw).inField g := by
  have hterms : (parse raw).terms.filterMap (putIn? g) = if Field.terms = g then (parse raw).inField .terms else [] := by
    have hwritten : ((parse raw).inField .terms).map Field.terms.write = (parse raw).terms := List.map_id _
    rw [← hwritten, filterMap_putIn?_write]
  have hop : ∀ op : Operator,
      (((parse raw).inField (.of op)).map fun value => op.marker ++ value).filterMap (putIn? g) =
        if Field.of op = g then (parse raw).inField (.of op) else [] :=
    fun op => filterMap_putIn?_write raw (.of op) g
  rw [written, List.filterMap_append, hterms, List.filterMap_flatMap]
  simp only [hop]
  cases g with
  | terms => simp
  | of op => cases op <;> simp [Operator.all]

/-- A text with the words of a query is parsed as the query. -/
theorem parse_of_words_eq_written {raw text : String} (h : Text.words text = (parse raw).written) :
    parse text = parse raw := by
  apply eq_of_inField
  intro f
  rw [inField_parse, h, filterMap_putIn?_written, keep_inField]

end ParsedQuery

namespace CompiledQuery

/-- A query that is written back, with whatever blanks between the words, is parsed and compiled as before. -/
theorem written_back (raw : String) {gap : String} (hgap : Text.IsGap gap) :
    let p := ParsedQuery.parse raw
    let text := gap.intercalate (p.terms ++ p.owner.toList.map ("@/" ++ ·) ++ p.language.toList.map ("@" ++ ·) ++
      p.labels.map ("#" ++ ·) ++ p.stars.toList.map (">" ++ ·) ++ p.forks.toList.map ("^" ++ ·) ++
      p.updated.toList.map ("~" ++ ·) ++ p.topics.map ("+" ++ ·))
    ParsedQuery.parse text = p ∧ ∀ sort, ofText text sort = ofText raw sort := by
  intro p text
  have htext : text = gap.intercalate p.written := by
    simp [text, ParsedQuery.written, Operator.all, Operator.marker, ParsedQuery.inField]
  have hwords : Text.words text = p.written := by
    rw [htext, Text.words_intercalate hgap, Text.flatMap_words]
    exact fun word hword => ParsedQuery.isWord_of_mem_written hword
  have hparse : ParsedQuery.parse text = p := ParsedQuery.parse_of_words_eq_written hwords
  refine ⟨hparse, ?_⟩
  intro sort
  rw [ofText, hparse]
  rfl

/-- A bare marker stays a term, a label is written without its quotes, and of two languages the second one is written. -/
theorem written_back_in_order :
    ParsedQuery.parse ">>5 @/ #\"bug\" @go +cli @rust #\"\"" =
      ParsedQuery.parse "@/ #\"\" @rust #bug >>5 +cli" ∧
    (∀ sort, ofText "@/ #\"\" @rust #bug >>5 +cli" sort = ofText ">>5 @/ #\"bug\" @go +cli @rust #\"\"" sort) := by
  have hgap : Text.IsGap " " := by decide
  obtain ⟨hparse, hcompile⟩ := written_back ">>5 @/ #\"bug\" @go +cli @rust #\"\"" hgap
  exact ⟨hparse.symm, hcompile⟩

end CompiledQuery

end RepoSearch
