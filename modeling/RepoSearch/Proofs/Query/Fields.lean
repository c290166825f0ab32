import RepoSearch.Query.Compiled
import RepoSearch.Proofs.Query.Parsing
import Mathlib.Data.List.Forall2

/-!
# Fields of a query

Each word of a query goes to one field. What a field holds is told by the words that go to it: a field of many values
holds what all of them put there, and a single-valued one what the last of them did. So words that go to different
fields can stand in any order, and no order of the words changes the order of the clauses.
-/

namespace RepoSearch

/-! ### Fields -/

/-- A field of a parsed query: the free-text terms, or what an operator selects. -/
inductive Field where
  | terms
  | of (op : Operator)
  deriving DecidableEq, Repr

/-- How many values a field can hold. -/
def Field.cardinality : Field → Cardinality
  | terms => .many
  | of op => op.cardinality

/-- What remains of values that are put in a field one after the other. -/
def Cardinality.keep : Cardinality → List String → List String
  | many, values => values
  | atMostOne, values => values.getLast?.toList

namespace Cardinality

theorem keep_keep_append (n : Cardinality) (xs ys : List String) : n.keep (n.keep xs ++ ys) = n.keep (xs ++ ys) := by
  cases n with
  | many => rfl
  | atMostOne =>
    show ((xs.getLast?.toList ++ ys).getLast?).toList = ((xs ++ ys).getLast?).toList
    rw [List.getLast?_append, List.getLast?_append]
    cases xs.getLast? <;> rfl

theorem mem_of_mem_keep {n : Cardinality} {values : List String} {v : String} (h : v ∈ n.keep values) : v ∈ values := by
  cases n with
  | many => exact h
  | atMostOne => exact List.mem_of_getLast? (Option.mem_toList.1 h)

/-- How many values remain does not depend on the values. -/
theorem length_keep (n : Cardinality) {xs ys : List String} (h : xs.length = ys.length) :
    (n.keep xs).length = (n.keep ys).length := by
  cases n with
  | many => exact h
  | atMostOne =>
    show xs.getLast?.toList.length = ys.getLast?.toList.length
    cases xs with
    | nil => rw [List.length_eq_zero_iff.1 h.symm]
    | cons x xs =>
      cases ys with
      | nil => cases h
      | cons y ys => rw [List.getLast?_cons, List.getLast?_cons, Option.toList_some, Option.toList_some,
          List.length_singleton, List.length_singleton]

end Cardinality

namespace ParsedQuery

/-- The values that a field holds. -/
def inField (p : ParsedQuery) : Field → List String
  | .terms => p.terms
  | .of .owner => p.owner.toList
  | .of .language => p.language.toList
  | .of .label => p.labels
  | .of .stars => p.stars.toList
  | .of .forks => p.forks.toList
  | .of .updated => p.updated.toList
  | .of .topic => p.topics

theorem eq_of_toList {a b : Option String} (h : a.toList = b.toList) : a = b := by
  cases a <;> cases b <;> simp_all

/-- A parsed query is told by what its fields hold. -/
theorem eq_of_inField {p q : ParsedQuery} (h : ∀ f, p.inField f = q.inField f) : p = q := by
  have terms : p.terms = q.terms := h .terms
  have owner : p.owner = q.owner := eq_of_toList (h (.of .owner))
  have language : p.language = q.language := eq_of_toList (h (.of .language))
  have labels : p.labels = q.labels := h (.of .label)
  have stars : p.stars = q.stars := eq_of_toList (h (.of .stars))
  have forks : p.forks = q.forks := eq_of_toList (h (.of .forks))
  have updated : p.updated = q.updated := eq_of_toList (h (.of .updated))
  have topics : p.topics = q.topics := h (.of .topic)
  cases p
  cases q
  simp_all only

/-- A single-valued field holds no more than one value. -/
theorem keep_inField (p : ParsedQuery) (f : Field) : f.cardinality.keep (p.inField f) = p.inField f := by
  have single : ∀ value : Option String, value.toList.getLast?.toList = value.toList := by
    intro value
    cases value <;> rfl
  cases f with
  | terms => rfl
  | of op =>
    cases op with
    | label => rfl
    | topic => rfl
    | _ => exact single _

end ParsedQuery

/-! ### Where a word goes -/

/-- A word puts a value in a field. -/
inductive Puts : String → Field → String → Prop where
  /-- A word that begins with no marker is a term. -/
  | unmarked {word : String} : (∀ op : Operator, ¬op.marker.toList <+: word.toList) → Puts word .terms word
  /-- So is a marker alone, -/
  | bare (op : Operator) : Puts op.marker .terms op.marker
  /-- and a label of which nothing remains. -/
  | faded {value : String} : cleanLabel? value = none → Puts ("#" ++ value) .terms ("#" ++ value)
  /-- A label goes to the labels once it is clean. -/
  | label {value label : String} : cleanLabel? value = some label → Puts ("#" ++ value) (.of .label) label
  /-- The value of any other operator goes to the operator's field. After the marker of a language the second character of
  an owner's marker is not the beginning of a value. -/
  | value {op : Operator} {value : String} : op ≠ .label → value ≠ "" →
      (op = .language → value.toList.head? ≠ some '/') → Puts (op.marker ++ value) (.of op) value

/-- The field that a word goes to, and what it puts there. -/
def placed (word : String) : Field × String :=
  match Operator.classify? word with
  | none => (.terms, word)
  | some (.label, value) =>
    match cleanLabel? value with
    | some label => (.of .label, label)
    | none => (.terms, word)
  | some (op, value) => (.of op, value)

theorem placed_of_none {word : String} (h : Operator.classify? word = none) : placed word = (.terms, word) := by
  rw [placed, h]

theorem placed_of_label {word value : String} (h : Operator.classify? word = some (.label, value)) :
    placed word = match cleanLabel? value with
      | some label => (.of .label, label)
      | none => (.terms, word) := by
  rw [placed, h]

theorem placed_of_operator {word value : String} {op : Operator} (h : Operator.classify? word = some (op, value))
    (hlabel : op ≠ .label) : placed word = (.of op, value) := by
  rw [placed, h]
  cases op with
  | label => exact absurd rfl hlabel
  | _ => rfl

/-- What a word puts in a field, if it goes there. -/
def putIn? (f : Field) (word : String) : Option String :=
  if (placed word).1 = f then some (placed word).2 else none

namespace Operator

/-- A word without an operator begins with no marker, or it is one. -/
theorem unmarked_or_bare {word : String} (h : classify? word = none) :
    (∀ op : Operator, ¬op.marker.toList <+: word.toList) ∨ ∃ op : Operator, word = op.marker := by
  rw [classify?] at h
  cases hfound : all.find? (·.marks word) with
  | none =>
    left
    intro op hprefix
    have hop : op ∈ all := by cases op <;> decide
    have hnot := List.find?_eq_none.1 hfound op hop
    rw [marks, List.isPrefixOf_iff_prefix] at hnot
    exact hnot hprefix
  | some op =>
    right
    have hmarks : op.marks word = true := by simpa using List.find?_some hfound
    rw [marks, List.isPrefixOf_iff_prefix] at hmarks
    obtain ⟨rest, hrest⟩ := hmarks
    have hlength : op.marker.length = op.marker.toList.length := String.length_toList.symm
    rw [hfound, Option.bind_some, ← hrest, hlength, List.drop_left] at h
    cases rest with
    | nil =>
      rw [List.append_nil] at hrest
      exact ⟨op, String.toList_inj.1 hrest.symm⟩
    | cons c cs => cases h

theorem classify?_of_unmarked {word : String} (h : ∀ op : Operator, ¬op.marker.toList <+: word.toList) :
    classify? word = none := by
  have hnone : all.find? (·.marks word) = none := by
    rw [List.find?_eq_none]
    intro op _ hmarks
    rw [marks, List.isPrefixOf_iff_prefix] at hmarks
    exact h op hmarks
  rw [classify?, hnone, Option.bind_none]

theorem classify?_marker (op : Operator) : classify? op.marker = none := by
  cases op <;> decide

/-- What begins like an owner is no language. -/
theorem head?_of_classify?_language {word value : String} (h : classify? word = some (.language, value)) :
    value.toList.head? ≠ some '/' := by
  intro hhead
  obtain ⟨hword, -⟩ := eq_of_classify? h
  cases hvalue : value.toList with
  | nil => simp [hvalue] at hhead
  | cons c cs =>
    obtain rfl : c = '/' := by simpa [hvalue] using hhead
    have howner : word = Operator.owner.marker ++ String.ofList cs := by
      rw [← String.toList_inj, hword, String.toList_append, String.toList_append, String.toList_ofList, hvalue]
      rfl
    by_cases hcs : String.ofList cs = ""
    · rw [howner, hcs, String.append_empty, classify?_marker] at h
      cases h
    · rw [howner, classify?_marker_append .owner hcs (by simp)] at h
      cases h

end Operator

theorem cleanLabel?_empty : cleanLabel? "" = none := by decide

theorem placed_of_puts {word value : String} {f : Field} (h : Puts word f value) : placed word = (f, value) := by
  have hmarker : "#" = Operator.label.marker := rfl
  cases h with
  | unmarked hnone => exact placed_of_none (Operator.classify?_of_unmarked hnone)
  | bare op => exact placed_of_none (Operator.classify?_marker op)
  | @faded value hclean =>
    by_cases hvalue : value = ""
    · rw [hvalue, String.append_empty, hmarker]
      exact placed_of_none (Operator.classify?_marker .label)
    · rw [hmarker, placed_of_label (Operator.classify?_marker_append .label hvalue (by simp)), hclean]
  | @label value _ hclean =>
    have hvalue : value ≠ "" := by
      rintro rfl
      rw [cleanLabel?_empty] at hclean
      cases hclean
    rw [hmarker, placed_of_label (Operator.classify?_marker_append .label hvalue (by simp)), hclean]
  | @value op value hlabel hvalue hslash =>
    exact placed_of_operator (Operator.classify?_marker_append op hvalue hslash) hlabel

theorem puts_placed (word : String) : Puts word (placed word).1 (placed word).2 := by
  cases hclassify : Operator.classify? word with
  | none =>
    rw [placed_of_none hclassify]
    rcases Operator.unmarked_or_bare hclassify with hnone | ⟨op, rfl⟩
    · exact .unmarked hnone
    · exact .bare op
  | some operator =>
    obtain ⟨op, value⟩ := operator
    obtain ⟨hword, hvalue⟩ := Operator.eq_of_classify? hclassify
    by_cases hlabel : op = .label
    · subst hlabel
      rw [placed_of_label hclassify, hword]
      cases hclean : cleanLabel? value with
      | none => exact .faded hclean
      | some label => exact .label hclean
    · rw [placed_of_operator hclassify hlabel, hword]
      refine .value hlabel hvalue ?_
      rintro rfl
      exact Operator.head?_of_classify?_language hclassify

theorem puts_iff {word value : String} {f : Field} : Puts word f value ↔ placed word = (f, value) := by
  constructor
  · exact placed_of_puts
  · intro h
    have := puts_placed word
    rwa [h] at this

/-- Each word puts exactly one value in exactly one field. -/
theorem existsUnique_puts (word : String) : ∃! place : Field × String, Puts word place.1 place.2 := by
  refine ⟨placed word, puts_placed word, ?_⟩
  intro place hplace
  exact (placed_of_puts hplace).symm

/-- Words that are no operators are terms as they stand. -/
theorem puts_terms_iff {word value : String} : Puts word .terms value ↔
    value = word ∧ ((∀ op : Operator, ¬op.marker.toList <+: word.toList) ∨ (∃ op : Operator, word = op.marker) ∨
      ∃ label, word = "#" ++ label ∧ cleanLabel? label = none) := by
  constructor
  · intro h
    cases h with
    | unmarked hnone => exact ⟨rfl, .inl hnone⟩
    | bare op => exact ⟨rfl, .inr (.inl ⟨op, rfl⟩)⟩
    | faded hclean => exact ⟨rfl, .inr (.inr ⟨_, rfl, hclean⟩)⟩
  · rintro ⟨rfl, hnone | ⟨op, rfl⟩ | ⟨label, rfl, hclean⟩⟩
    · exact .unmarked hnone
    · exact .bare op
    · exact .faded hclean

/-- What words put in a field, told by where each of them goes. -/
theorem filterMap_putIn? (f : Field) (words : List String) :
    words.filterMap (putIn? f) = ((words.map placed).filter fun place => place.1 = f).map fun place => place.2 := by
  induction words with
  | nil => rfl
  | cons word words ih =>
    by_cases h : (placed word).1 = f
    · rw [List.filterMap_cons, putIn?, if_pos h, List.map_cons, List.filter_cons_of_pos (by simpa using h), List.map_cons,
        ih]
    · rw [List.filterMap_cons, putIn?, if_neg h, List.map_cons, List.filter_cons_of_neg (by simpa using h), ih]

/-- Labels apart, a word puts the value of its operator in the operator's field. -/
theorem putIn?_of {op : Operator} (hop : op ≠ .label) (word : String) :
    putIn? (.of op) word = match Operator.classify? word with
      | some (found, value) => if found = op then some value else none
      | none => none := by
  rw [putIn?]
  cases hclassify : Operator.classify? word with
  | none =>
    rw [placed_of_none hclassify]
    rfl
  | some operator =>
    obtain ⟨found, value⟩ := operator
    by_cases hlabel : found = .label
    · subst hlabel
      have hplace : (placed word).1 ≠ .of op := by
        rw [placed_of_label hclassify]
        cases cleanLabel? value with
        | none => exact Field.noConfusion
        | some label => exact fun heq => hop (Field.of.inj heq).symm
      rw [if_neg hplace]
      exact (if_neg (Ne.symm hop)).symm
    · rw [placed_of_operator hclassify hlabel]
      simp only [Field.of.injEq]

/-! ### What the fields hold -/

namespace ParsedQuery

/-- The query with one more value in a field. -/
def put (p : ParsedQuery) : Field → String → ParsedQuery
  | .terms, v => p.addTerm v
  | .of .owner, v => { p with owner := some v }
  | .of .language, v => { p with language := some v }
  | .of .label, v => { p with labels := p.labels ++ [v] }
  | .of .stars, v => { p with stars := some v }
  | .of .forks, v => { p with forks := some v }
  | .of .updated, v => { p with updated := some v }
  | .of .topic, v => { p with topics := p.topics ++ [v] }

theorem addWord_eq_put (p : ParsedQuery) (word : String) : p.addWord word = p.put (placed word).1 (placed word).2 := by
  rw [addWord, placed]
  cases Operator.classify? word with
  | none => rfl
  | some operator =>
    obtain ⟨op, value⟩ := operator
    cases op with
    | label =>
      dsimp only
      cases cleanLabel? value <;> rfl
    | _ => rfl

theorem inField_put_self (p : ParsedQuery) (f : Field) (v : String) :
    (p.put f v).inField f = f.cardinality.keep (p.inField f ++ [v]) := by
  have single : ∀ value : Option String, (some v).toList = (value.toList ++ [v]).getLast?.toList := by
    intro value
    rw [List.getLast?_concat]
  cases f with
  | terms => rfl
  | of op =>
    cases op with
    | label => rfl
    | topic => rfl
    | _ => exact single _

theorem inField_put_of_ne (p : ParsedQuery) {f g : Field} (h : f ≠ g) (v : String) :
    (p.put f v).inField g = p.inField g := by
  cases f with
  | terms =>
    cases g with
    | terms => exact absurd rfl h
    | of op => cases op <;> rfl
  | of op =>
    cases g with
    | terms => cases op <;> rfl
    | of other => cases op <;> cases other <;> simp_all [put, inField]

/-- One more word changes the field that it goes to, and no other. -/
theorem inField_addWord (p : ParsedQuery) (word : String) (f : Field) :
    (p.addWord word).inField f = f.cardinality.keep (p.inField f ++ (putIn? f word).toList) := by
  rw [addWord_eq_put, putIn?]
  by_cases h : (placed word).1 = f
  · rw [if_pos h, ← h, inField_put_self]
    rfl
  · rw [if_neg h, inField_put_of_ne p h, Option.toList_none, List.append_nil, keep_inField]

theorem inField_foldl (p : ParsedQuery) (words : List String) (f : Field) :
    (words.foldl addWord p).inField f = f.cardinality.keep (p.inField f ++ words.filterMap (putIn? f)) := by
  induction words generalizing p with
  | nil => rw [List.foldl_nil, List.filterMap_nil, List.append_nil, keep_inField]
  | cons word words ih =>
    have hsplit : (word :: words).filterMap (putIn? f) = (putIn? f word).toList ++ words.filterMap (putIn? f) := by
      rw [List.filterMap_cons]
      cases putIn? f word <;> rfl
    rw [List.foldl_cons, ih, inField_addWord, Cardinality.keep_keep_append, hsplit, List.append_assoc]

/-- A field holds what remains of what the words of the text put there. -/
theorem inField_parse (raw : String) (f : Field) :
    (parse raw).inField f = f.cardinality.keep ((Text.words raw).filterMap (putIn? f)) := by
  have hempty : ({} : ParsedQuery).inField f = [] := by
    cases f with
    | terms => rfl
    | of op => cases op <;> rfl
  rw [parse, inField_foldl, hempty, List.nil_append]

/-! ### Other orders of the words -/

/-- Two neighbouring words that go to different fields can change places. -/
theorem parse_eq_of_swap {raw raw' : String} {before after : List String} {v w : String}
    (hraw : Text.words raw = before ++ v :: w :: after) (hraw' : Text.words raw' = before ++ w :: v :: after)
    (hfields : (placed v).1 ≠ (placed w).1) : parse raw = parse raw' := by
  apply eq_of_inField
  intro f
  have hone : putIn? f v = none ∨ putIn? f w = none := by
    by_cases hv : (placed v).1 = f
    · right
      exact if_neg fun hw => hfields (hv.trans hw.symm)
    · left
      exact if_neg hv
  have hsame : (Text.words raw).filterMap (putIn? f) = (Text.words raw').filterMap (putIn? f) := by
    rw [hraw, hraw', List.filterMap_append, List.filterMap_append]
    rcases hone with h | h <;> simp [List.filterMap_cons, h]
  rw [inField_parse, inField_parse, hsame]

/-- No order of the words changes how many values a field holds. -/
theorem length_inField_of_perm {raw raw' : String} (h : (Text.words raw).Perm (Text.words raw')) (f : Field) :
    ((parse raw).inField f).length = ((parse raw').inField f).length := by
  have hput : ((Text.words raw).filterMap (putIn? f)).length = ((Text.words raw').filterMap (putIn? f)).length :=
    (h.filterMap (putIn? f)).length_eq
  rw [inField_parse, inField_parse]
  exact f.cardinality.length_keep hput

end ParsedQuery

/-! ### The clauses of the fields -/

namespace Operator

/-- The operators in the order of their clauses. -/
def clauseOrder : List Operator := [language, label, stars, forks, updated, owner, topic]

/-- The clause for a value of an operator. -/
def clauseFor : Operator → String → String
  | label => quotedClause label
  | op => op.clause

end Operator

namespace ParsedQuery

/-- The values that have clauses, each with its operator, in the order of the clauses. -/
def selections (p : ParsedQuery) : List (Operator × String) :=
  Operator.clauseOrder.flatMap fun op => (p.inField (.of op)).map fun value => (op, value)

theorem clauses_eq (p : ParsedQuery) : p.clauses = p.selections.map fun s => s.1.clauseFor s.2 := by
  simp [clauses, selections, Operator.clauseOrder, Operator.clauseFor, inField, Function.comp_def]

/-- The operators of the clauses are told by how many values each field holds. -/
theorem operators_selections (p : ParsedQuery) : p.selections.map (·.1) =
    Operator.clauseOrder.flatMap fun op => List.replicate (p.inField (.of op)).length op := by
  rw [selections, List.map_flatMap]
  simp only [List.map_map, Function.comp_def, List.map_const']

end ParsedQuery

namespace CompiledQuery

/-- A text is parsed in parts, whatever blanks stand between them. Each word goes to exactly one field, and it is a term as
it stands if it is no operator, or a label of which nothing remains; a field holds what its words put there. So
neighbouring words that go to different fields can change places, and the clauses stand in one order of the operators,
the same for all orders of the words. -/
theorem words_sorted_into_fields :
    (∀ (a b : String) {gap : String}, Text.IsGap gap →
      ParsedQuery.parse (a ++ gap ++ b) = (ParsedQuery.parse a).merge (ParsedQuery.parse b)) ∧
    (∀ word, ∃! place : Field × String, Puts word place.1 place.2) ∧
    (∀ word value, Puts word .terms value ↔
      value = word ∧ ((∀ op : Operator, ¬op.marker.toList <+: word.toList) ∨ (∃ op : Operator, word = op.marker) ∨
        ∃ label, word = "#" ++ label ∧ cleanLabel? label = none)) ∧
    (∀ raw, ∃ places : List (Field × String),
      List.Forall₂ (fun word place => Puts word place.1 place.2) (Text.words raw) places ∧
      ∀ f, (ParsedQuery.parse raw).inField f =
        f.cardinality.keep ((places.filter fun place => place.1 = f).map fun place => place.2)) ∧
    (∀ {raw raw' : String} {before after : List String} {v w x y : String} {f g : Field},
      Text.words raw = before ++ v :: w :: after → Text.words raw' = before ++ w :: v :: after →
      Puts v f x → Puts w g y → f ≠ g → ∀ sort, ofText raw sort = ofText raw' sort) ∧
    (∀ raw sort, (ofText raw sort).queryString = " ".intercalate ((ofText raw sort).parsed.terms ++
        (ofText raw sort).parsed.selections.map fun s => s.1.clauseFor s.2) ++ "+is:public" ∧
      (ofText raw sort).parsed.selections.map (·.1) =
        [.language, .label, .stars, .forks, .updated, .owner, .topic].flatMap fun op =>
          List.replicate ((ofText raw sort).parsed.inField (.of op)).length op) ∧
    (∀ {raw raw' : String}, (Text.words raw).Perm (Text.words raw') → ∀ sort,
      (ofText raw sort).parsed.selections.map (·.1) = (ofText raw' sort).parsed.selections.map (·.1)) := by
  refine ⟨?parts, existsUnique_puts, fun word value => puts_terms_iff, ?places, ?swap, ?clauses, ?order⟩
  case parts =>
    intro a b gap hgap
    rw [ParsedQuery.parse, Text.words_append_gap hgap, List.foldl_append, ParsedQuery.foldl_addWord]
    rfl
  case places =>
    intro raw
    refine ⟨(Text.words raw).map placed, ?_, ?_⟩
    · rw [List.forall₂_map_right_iff, List.forall₂_same]
      exact fun word _ => puts_placed word
    · intro f
      rw [ParsedQuery.inField_parse, filterMap_putIn?]
  case swap =>
    intro raw raw' before after v w x y f g hraw hraw' hv hw hne sort
    have hfields : (placed v).1 ≠ (placed w).1 := by
      rw [placed_of_puts hv, placed_of_puts hw]
      exact hne
    rw [ofText, ParsedQuery.parse_eq_of_swap hraw hraw' hfields]
    rfl
  case clauses =>
    intro raw sort
    constructor
    · rw [← ParsedQuery.clauses_eq]
      rfl
    · exact ParsedQuery.operators_selections _
  case order =>
    intro raw raw' hperm sort
    have hlength : ∀ op : Operator, ((ofText raw sort).parsed.inField (.of op)).length =
        ((ofText raw' sort).parsed.inField (.of op)).length := fun op =>
      ParsedQuery.length_inField_of_perm hperm (.of op)
    rw [ParsedQuery.operators_selections, ParsedQuery.operators_selections]
    simp only [hlength]

/-- A label and a language change places, and a wide blank stands between two parts that name a language each. -/
theorem neighbours_change_places :
    ParsedQuery.parse ("cli @go #\"\"" ++ "\u3000" ++ "@rust >") =
      (ParsedQuery.parse "cli @go #\"\"").merge (ParsedQuery.parse "@rust >") ∧
    (∀ sort, ofText "cli @go #bug >5" sort = ofText "cli #bug  @go >5" sort) ∧
    (ofText "+cli ~>2024 #bug @rust" .stars).parsed.selections.map (·.1) =
      (ofText "@rust #bug ~>2024 +cli" .stars).parsed.selections.map (·.1) := by
  have hgap : Text.IsGap "\u3000" := by decide
  have hlanguage : Puts "@go" (.of .language) "go" := puts_iff.2 (by decide)
  have hlabel : Puts "#bug" (.of .label) "bug" := puts_iff.2 (by decide)
  have hwords : Text.words "cli @go #bug >5" = ["cli"] ++ "@go" :: "#bug" :: [">5"] := by decide
  have hwords' : Text.words "cli #bug  @go >5" = ["cli"] ++ "#bug" :: "@go" :: [">5"] := by decide
  have hperm : (Text.words "+cli ~>2024 #bug @rust").Perm (Text.words "@rust #bug ~>2024 +cli") := by
    decide +kernel
  obtain ⟨parts, -, -, -, swap, -, order⟩ := words_sorted_into_fields
  exact ⟨parts _ _ hgap, swap hwords hwords' hlanguage hlabel (by decide), order hperm .stars⟩

end CompiledQuery

end RepoSearch
