import RepoSearch.Query.Parsed
import RepoSearch.Proofs.Query.Words

/-!
# Operators and parsed queries

A word is an operator exactly if it is written as a marker with a value. The words of a text can be parsed in parts: the
lists of the parts are joined, and of a single-valued field the last part that sets it counts.
-/

namespace RepoSearch

/-! ### Operators -/

namespace Operator

theorem isWord_marker_append (op : Operator) {value : String} (h : Text.IsWord value) :
    Text.IsWord (op.marker ++ value) := by
  have hmarker : Text.IsWord op.marker := by cases op <;> decide
  refine ⟨fun hempty => h.nonempty (String.append_eq_empty_iff.1 hempty).2, fun c hc => ?_⟩
  rw [String.toList_append, List.mem_append] at hc
  rcases hc with hc | hc
  · exact hmarker.unblank c hc
  · exact h.unblank c hc

/-- A word with an operator is its marker followed by its value. -/
theorem eq_of_classify? {word value : String} {op : Operator} (h : classify? word = some (op, value)) :
    word = op.marker ++ value ∧ value ≠ "" := by
  unfold classify? at h
  rw [Option.bind_eq_some_iff] at h
  obtain ⟨found, hfound, hvalue⟩ := h
  have hmarks : found.marks word = true := by simpa using List.find?_some hfound
  rw [marks, List.isPrefixOf_iff_prefix] at hmarks
  obtain ⟨rest, hrest⟩ := hmarks
  have hlength : found.marker.length = found.marker.toList.length := String.length_toList.symm
  rw [← hrest, hlength, List.drop_left] at hvalue
  cases rest with
  | nil => cases hvalue
  | cons c cs =>
    obtain ⟨rfl, rfl⟩ : found = op ∧ String.ofList (c :: cs) = value := by simpa using hvalue
    refine ⟨?_, fun hempty => ?_⟩
    · rw [← String.toList_inj, String.toList_append, String.toList_ofList, hrest]
    · rw [← String.toList_inj, String.toList_ofList] at hempty
      cases hempty

/-- A marker with a value is an operator. Only a language must not begin with the second character of an owner. -/
theorem classify?_marker_append (op : Operator) {value : String} (hne : value ≠ "")
    (howner : op = .language → value.toList.head? ≠ some '/') : classify? (op.marker ++ value) = some (op, value) := by
  obtain ⟨c, cs, hvalue⟩ := List.exists_cons_of_ne_nil (l := value.toList) fun hnil => hne (String.toList_inj.1 hnil)
  have hword : (op.marker ++ value).toList = op.marker.toList ++ c :: cs := by rw [String.toList_append, hvalue]
  have hfound : all.find? (·.marks (op.marker ++ value)) = some op := by
    unfold marks
    rw [hword]
    cases op with
    | language =>
      have hc : c ≠ '/' := by
        rw [hvalue] at howner
        simpa using howner rfl
      simp [all, marker, hc.symm]
    | _ => simp [all, marker]
  have hlength : op.marker.length = op.marker.toList.length := String.length_toList.symm
  rw [classify?, hfound, Option.bind_some, hword, hlength, List.drop_left]
  show some (op, String.ofList (c :: cs)) = some (op, value)
  rw [← hvalue, String.ofList_toList]

end Operator

/-! ### Parsing in parts -/

namespace ParsedQuery

/-- The fields of a text that is followed by another one. -/
def merge (p q : ParsedQuery) : ParsedQuery where
  language := q.language.or p.language
  labels := p.labels ++ q.labels
  stars := q.stars.or p.stars
  forks := q.forks.or p.forks
  updated := q.updated.or p.updated
  owner := q.owner.or p.owner
  topics := p.topics ++ q.topics
  terms := p.terms ++ q.terms

theorem merge_empty (p : ParsedQuery) : p.merge {} = p := by
  simp [merge]

theorem merge_assoc (p q r : ParsedQuery) : (p.merge q).merge r = p.merge (q.merge r) := by
  simp [merge, Option.or_assoc, List.append_assoc]

theorem addWord_eq_merge (p : ParsedQuery) (word : String) : p.addWord word = p.merge (addWord {} word) := by
  unfold addWord
  cases Operator.classify? word with
  | none => simp [addTerm, merge]
  | some operator =>
    obtain ⟨op, value⟩ := operator
    cases op with
    | label =>
      dsimp only
      cases cleanLabel? value <;> simp [addTerm, merge]
    | _ => simp [merge]

theorem foldl_addWord (p : ParsedQuery) (words : List String) :
    words.foldl addWord p = p.merge (words.foldl addWord {}) := by
  induction words generalizing p with
  | nil => exact p.merge_empty.symm
  | cons word words ih =>
    rw [List.foldl_cons, List.foldl_cons, ih, ih (addWord {} word), addWord_eq_merge, merge_assoc]

/-! ### Where the texts of a parsed query come from -/

/-- All texts of a parsed query have a property, labels apart. -/
structure Each (P : String → Prop) (p : ParsedQuery) : Prop where
  terms : ∀ text ∈ p.terms, P text
  language : ∀ text ∈ p.language, P text
  stars : ∀ text ∈ p.stars, P text
  forks : ∀ text ∈ p.forks, P text
  updated : ∀ text ∈ p.updated, P text
  owner : ∀ text ∈ p.owner, P text
  topics : ∀ text ∈ p.topics, P text

variable {P : String → Prop}

private theorem forall_mem_concat {texts : List String} {text : String} (h : ∀ t ∈ texts, P t) (htext : P text) :
    ∀ t ∈ texts ++ [text], P t := by
  intro t ht
  rcases List.mem_append.1 ht with ht | ht
  · exact h t ht
  · rwa [List.mem_singleton.1 ht]

theorem Each.addWord {p : ParsedQuery} (h : p.Each P) {word : String} (hword : P word)
    (hvalue : ∀ op value, Operator.classify? word = some (op, value) → P value) : (p.addWord word).Each P := by
  obtain ⟨terms, language, stars, forks, updated, owner, topics⟩ := h
  have hterms := forall_mem_concat terms hword
  unfold ParsedQuery.addWord
  cases hclassify : Operator.classify? word with
  | none => exact ⟨hterms, language, stars, forks, updated, owner, topics⟩
  | some operator =>
    obtain ⟨op, value⟩ := operator
    have hvalue := hvalue op value hclassify
    have hsome : ∀ text ∈ some value, P text := by
      rintro text ⟨⟩
      exact hvalue
    cases op with
    | owner => exact ⟨terms, language, stars, forks, updated, hsome, topics⟩
    | language => exact ⟨terms, hsome, stars, forks, updated, owner, topics⟩
    | stars => exact ⟨terms, language, hsome, forks, updated, owner, topics⟩
    | forks => exact ⟨terms, language, stars, hsome, updated, owner, topics⟩
    | updated => exact ⟨terms, language, stars, forks, hsome, owner, topics⟩
    | topic => exact ⟨terms, language, stars, forks, updated, owner, forall_mem_concat topics hvalue⟩
    | label =>
      dsimp only
      cases cleanLabel? value with
      | none => exact ⟨hterms, language, stars, forks, updated, owner, topics⟩
      | some label => exact ⟨terms, language, stars, forks, updated, owner, topics⟩

/-- A property of all words of a text, and of the values of its operators, is one of all its fields. -/
theorem each_parse {raw : String} (hword : ∀ word ∈ Text.words raw, P word)
    (hvalue : ∀ word ∈ Text.words raw, ∀ op value, Operator.classify? word = some (op, value) → P value) :
    (parse raw).Each P := by
  have hrun : ∀ (words : List String) (p : ParsedQuery), p.Each P → words ⊆ Text.words raw →
      (words.foldl ParsedQuery.addWord p).Each P := by
    intro words
    induction words with
    | nil => exact fun p h _ => h
    | cons word words ih =>
      intro p h hsub
      have hmem := hsub List.mem_cons_self
      exact ih _ (h.addWord (hword word hmem) (hvalue word hmem)) fun w hw => hsub (List.mem_cons_of_mem word hw)
  exact hrun _ {} (by constructor <;> simp) fun _ h => h

end ParsedQuery

end RepoSearch
