import RepoSearch.Query.Compiled
import RepoSearch.Proofs.Criteria
import RepoSearch.Proofs.Query.Filters

/-!
# Clauses are read back

A compiled query can be cut into its terms and clauses again, at the blanks outside quotes. Of the labels this needs that
they have no quotes, and of everything else that it has no blanks and no quotes.
-/

namespace RepoSearch

/-! ### Cutting a text outside quotes -/

namespace Text

/-- Cuts a list of characters at each blank outside quotes, of which the flag tells whether one is open. -/
def splitUnquoted (quoted : Bool) : List Char → List (List Char)
  | [] => [[]]
  | c :: cs =>
    if !quoted && isBlank c then [] :: splitUnquoted quoted cs
    else (splitUnquoted (if c = '"' then !quoted else quoted) cs).modifyHead (c :: ·)

/-- The pieces into which a text falls at the blanks outside quotes; an empty text has none. -/
def unquotedPieces (s : String) : List String :=
  if s.isEmpty then [] else (splitUnquoted false s.toList).map String.ofList

/-- Characters among which there is no cut, and after which no quote is open. -/
def Unbroken (cs : List Char) : Prop :=
  ∀ rest, splitUnquoted false (cs ++ rest) = (splitUnquoted false rest).modifyHead (cs ++ ·)

private theorem modifyHead_append (cs ds : List Char) (pieces : List (List Char)) :
    (pieces.modifyHead (ds ++ ·)).modifyHead (cs ++ ·) = pieces.modifyHead ((cs ++ ds) ++ ·) := by
  cases pieces <;> simp

theorem Unbroken.append {cs ds : List Char} (hcs : Unbroken cs) (hds : Unbroken ds) : Unbroken (cs ++ ds) := by
  intro rest
  rw [List.append_assoc, hcs, hds, modifyHead_append]

theorem unbroken_of_plain {cs : List Char} (h : ∀ c ∈ cs, isBlank c = false ∧ c ≠ '"') : Unbroken cs := by
  induction cs with
  | nil =>
    intro rest
    cases h : splitUnquoted false rest <;> simp [h]
  | cons c cs ih =>
    intro rest
    obtain ⟨hblank, hquote⟩ := h c List.mem_cons_self
    have hrest := ih (fun d hd => h d (List.mem_cons_of_mem c hd)) rest
    have hcut : (!false && isBlank c) = false := by simp [hblank]
    rw [List.cons_append, splitUnquoted, hcut, if_neg Bool.false_ne_true, if_neg hquote, hrest]
    exact modifyHead_append [c] cs _

private theorem splitUnquoted_true {cs : List Char} (h : '"' ∉ cs) (rest : List Char) :
    splitUnquoted true (cs ++ '"' :: rest) = (splitUnquoted false rest).modifyHead ((cs ++ ['"']) ++ ·) := by
  induction cs with
  | nil => rfl
  | cons c cs ih =>
    rw [List.mem_cons, not_or] at h
    rw [List.cons_append, splitUnquoted, Bool.not_true, Bool.false_and, if_neg Bool.false_ne_true,
      if_neg (Ne.symm h.1), ih h.2]
    exact modifyHead_append [c] (cs ++ ['"']) _

/-- There is no cut between two quotes. -/
theorem unbroken_quoted {cs : List Char} (h : '"' ∉ cs) : Unbroken ('"' :: cs ++ ['"']) := by
  intro rest
  have hcut : (!false && isBlank '"') = false := by decide
  have htext : '"' :: cs ++ ['"'] ++ rest = '"' :: (cs ++ '"' :: rest) := by simp
  rw [htext, splitUnquoted, hcut, if_neg Bool.false_ne_true, if_pos rfl, Bool.not_false, splitUnquoted_true h]
  exact modifyHead_append ['"'] (cs ++ ['"']) _

theorem splitUnquoted_intercalate {pieces : List (List Char)} (hne : pieces ≠ []) (h : ∀ piece ∈ pieces, Unbroken piece) :
    splitUnquoted false ([' '].intercalate pieces) = pieces := by
  induction pieces with
  | nil => exact absurd rfl hne
  | cons piece pieces ih =>
    have hpiece := h piece List.mem_cons_self
    cases pieces with
    | nil =>
      have := hpiece []
      rw [List.append_nil] at this
      simpa [splitUnquoted] using this
    | cons next pieces =>
      have hrest := ih (List.cons_ne_nil next pieces) fun p hp => h p (List.mem_cons_of_mem piece hp)
      have hcut : (!false && isBlank ' ') = true := by decide
      rw [List.intercalate_cons_cons, List.append_assoc, hpiece, List.singleton_append, splitUnquoted, hcut, if_pos rfl,
        hrest, List.modifyHead_cons, List.append_nil]

/-- Texts joined by blanks are read back if there is no cut in them. -/
theorem unquotedPieces_intercalate {pieces : List String} (h : ∀ piece ∈ pieces, piece ≠ "" ∧ Unbroken piece.toList) :
    unquotedPieces (" ".intercalate pieces) = pieces := by
  cases pieces with
  | nil => rfl
  | cons piece pieces =>
    have hpiece := (h piece List.mem_cons_self).1
    have hwritten : (" ".intercalate (piece :: pieces)).isEmpty = false := by
      rw [← Bool.not_eq_true, String.isEmpty_iff]
      cases pieces with
      | nil => rwa [String.intercalate_singleton]
      | cons next pieces =>
        rw [String.intercalate_cons_cons, String.append_eq_empty_iff, String.append_eq_empty_iff]
        exact fun hempty => hpiece hempty.1.1
    have hunbroken : ∀ cs ∈ (piece :: pieces).map String.toList, Unbroken cs := by
      intro cs hcs
      obtain ⟨p, hp, rfl⟩ := List.mem_map.1 hcs
      exact (h p hp).2
    rw [unquotedPieces, hwritten, if_neg Bool.false_ne_true, String.toList_intercalate]
    show (splitUnquoted false ([' '].intercalate ((piece :: pieces).map String.toList))).map String.ofList = piece :: pieces
    rw [splitUnquoted_intercalate (by simp) hunbroken, List.map_map]
    simp [Function.comp_def]

end Text

/-! ### The pieces of a compiled query -/

/-- A word without quotes. -/
def PlainWord (s : String) : Prop := Text.IsWord s ∧ '"' ∉ s.toList

instance (s : String) : Decidable (PlainWord s) :=
  inferInstanceAs (Decidable (Text.IsWord s ∧ '"' ∉ s.toList))

private theorem PlainWord.unbroken {s : String} (h : PlainWord s) : Text.Unbroken s.toList :=
  Text.unbroken_of_plain fun c hc => ⟨h.1.unblank c hc, fun heq => h.2 (heq ▸ hc)⟩

theorem Language.plainWord_name (l : Language) : PlainWord l.name := by
  cases l <;> decide

namespace ParsedQuery

/-- The texts of a query without quotes are plain words, labels apart. -/
theorem plainWord_parse {raw : String} (h : '"' ∉ raw.toList) : (parse raw).Each PlainWord := by
  have hword : ∀ word ∈ Text.words raw, PlainWord word := by
    intro word hmem
    obtain ⟨hword, hchars⟩ := Text.isWord_of_mem_words hmem
    exact ⟨hword, fun hquote => h (hchars _ hquote)⟩
  refine each_parse hword fun word hmem op value hclassify => ?_
  obtain ⟨hword, hquote⟩ := hword word hmem
  obtain ⟨rfl, hne⟩ := Operator.eq_of_classify? hclassify
  have hchars : ∀ c ∈ value.toList, c ∈ (op.marker ++ value).toList := by
    intro c hc
    rw [String.toList_append]
    exact List.mem_append_right _ hc
  exact ⟨⟨hne, fun c hc => hword.unblank c (hchars c hc)⟩, fun hc => hquote (hchars _ hc)⟩

/-- The filters keep the texts of a query plain words, labels apart. -/
theorem Each.withFilters {p : ParsedQuery} (h : p.Each PlainWord) (language : Option Language) (labels : List String) :
    (p.withFilters language labels).Each PlainWord := by
  obtain ⟨terms, hlanguage, stars, forks, updated, owner, topics⟩ := h
  refine ⟨terms, ?_, stars, forks, updated, owner, topics⟩
  intro text htext
  have hset : p.language.or (language.map Language.name) = some text := htext
  rw [Option.or_eq_some_iff] at hset
  rcases hset with hset | ⟨-, hset⟩
  · exact hlanguage text hset
  · obtain ⟨l, -, rfl⟩ := Option.map_eq_some_iff.1 hset
    exact l.plainWord_name

end ParsedQuery

/-- A text that stays whole when a compiled query is cut. -/
def Uncut (s : String) : Prop := s ≠ "" ∧ Text.Unbroken s.toList

private theorem PlainWord.uncut {s : String} (h : PlainWord s) : Uncut s :=
  ⟨h.1.nonempty, h.unbroken⟩

namespace Operator

theorem uncut_clause (op : Operator) {value : String} (h : Text.Unbroken value.toList) : Uncut (op.clause value) := by
  have hfront : PlainWord (op.qualifier ++ ":") := by cases op <;> decide
  refine ⟨fun hempty => ?_, ?_⟩
  · rw [clause, String.append_eq_empty_iff, String.append_eq_empty_iff] at hempty
    exact absurd hempty.1.2 (by decide)
  · rw [clause, String.toList_append]
    exact hfront.unbroken.append h

theorem uncut_quotedClause (op : Operator) {value : String} (h : '"' ∉ value.toList) : Uncut (op.quotedClause value) := by
  refine op.uncut_clause ?_
  have hquoted : ("\"" ++ value ++ "\"").toList = '"' :: value.toList ++ ['"'] := by
    rw [String.toList_append, String.toList_append]
    rfl
  rw [hquoted]
  exact Text.unbroken_quoted h

end Operator

namespace ParsedQuery

theorem uncut_of_mem {p : ParsedQuery} (h : p.Each PlainWord) (hlabels : ∀ label ∈ p.labels, '"' ∉ label.toList) :
    ∀ piece ∈ p.terms ++ p.clauses, Uncut piece := by
  obtain ⟨terms, language, stars, forks, updated, owner, topics⟩ := h
  have single : ∀ (op : Operator) {value? : Option String}, (∀ v ∈ value?, PlainWord v) →
      ∀ piece ∈ value?.toList.map op.clause, Uncut piece := by
    intro op value? hvalue piece hpiece
    obtain ⟨v, hv, rfl⟩ := List.mem_map.1 hpiece
    exact op.uncut_clause (hvalue v (Option.mem_toList.1 hv)).unbroken
  intro piece hpiece
  simp only [clauses, List.mem_append] at hpiece
  rcases hpiece with hpiece | (((((hpiece | hpiece) | hpiece) | hpiece) | hpiece) | hpiece) | hpiece
  · exact (terms piece hpiece).uncut
  · exact single .language language piece hpiece
  · obtain ⟨label, hlabel, rfl⟩ := List.mem_map.1 hpiece
    exact Operator.label.uncut_quotedClause (hlabels label hlabel)
  · exact single .stars stars piece hpiece
  · exact single .forks forks piece hpiece
  · exact single .updated updated piece hpiece
  · exact single .owner owner piece hpiece
  · obtain ⟨topic, htopic, rfl⟩ := List.mem_map.1 hpiece
    exact Operator.topic.uncut_clause (topics topic htopic).unbroken

end ParsedQuery

namespace CompiledQuery

/-- A query whose text has no quotes falls, at the blanks outside quotes, into its terms and one clause for each value, in
a fixed order. The labels of the filter, whatever they are, change nothing but the labels among these. -/
theorem labels_stay_quoted (raw : String) (sort : SortOrder) (language : Option Language) (labels : List String)
    (hraw : '"' ∉ raw.toList) :
    let compiled := ofTextWithFilters raw sort language labels
    let p := compiled.parsed
    (∃ text, compiled.queryString = text ++ "+is:public" ∧
      Text.unquotedPieces text = p.terms ++ p.language.toList.map ("language:" ++ ·) ++
        p.labels.map ("label:\"" ++ · ++ "\"") ++ p.stars.toList.map ("stars:" ++ ·) ++
        p.forks.toList.map ("forks:" ++ ·) ++ p.updated.toList.map ("pushed:" ++ ·) ++
        p.owner.toList.map ("user:" ++ ·) ++ p.topics.map ("topic:" ++ ·)) ∧
    p = { (ofTextWithFilters raw sort language []).parsed with
      labels := (ParsedQuery.parse raw).labels ++ labels.filterMap cleanLabel? } := by
  intro compiled p
  refine ⟨⟨" ".intercalate (p.terms ++ p.clauses), rfl, ?_⟩, rfl⟩
  have heach : p.Each PlainWord := (ParsedQuery.plainWord_parse hraw).withFilters language labels
  have hlabels : ∀ label ∈ p.labels, '"' ∉ label.toList := by
    intro label hlabel
    have hmem : label ∈ (ParsedQuery.parse raw).labels ++ labels.filterMap cleanLabel? := hlabel
    rw [List.mem_append, List.mem_filterMap] at hmem
    rcases hmem with htext | ⟨written, -, hclean⟩
    · exact (ParsedQuery.cleanLabel_of_mem_parse htext).unquoted
    · exact (cleanLabel_of_eq_some hclean).unquoted
  have hquoted : Operator.label.quotedClause = ("label:\"" ++ · ++ "\"") := by
    funext label
    show "label" ++ ":" ++ ("\"" ++ label ++ "\"") = "label:\"" ++ label ++ "\""
    rw [← String.append_assoc, ← String.append_assoc]
    rfl
  rw [Text.unquotedPieces_intercalate (ParsedQuery.uncut_of_mem heach hlabels), ParsedQuery.clauses, hquoted]
  simp only [List.append_assoc]
  rfl

/-- Two labels of the filter have blanks, quotes and the look of another clause, and stay one clause each. -/
theorem blanks_and_quotes_stay_quoted :
    '"' ∉ "orm #bug +web".toList ∧
    ∃ text, (ofTextWithFilters "orm #bug +web" .stars (some .rust) [" good \"first\" issue", "x\" user:y"]).queryString =
        text ++ "+is:public" ∧
      Text.unquotedPieces text = ["orm", "language:rust", "label:\"bug\"", "label:\"good first issue\"",
        "label:\"x user:y\"", "topic:web"] := by
  have hraw : '"' ∉ "orm #bug +web".toList := by decide
  obtain ⟨⟨text, hquery, hpieces⟩, -⟩ :=
    labels_stay_quoted "orm #bug +web" .stars (some .rust) [" good \"first\" issue", "x\" user:y"] hraw
  exact ⟨hraw, text, hquery, hpieces.trans (by decide)⟩

end CompiledQuery

end RepoSearch
