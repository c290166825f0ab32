import RepoSearch.Json.Basic
import RepoSearch.Query.Operator
import RepoSearch.Text.Blank

/-!
# Parsed queries

A query is a sequence of words. Each word goes to one field: an operator to the field it selects, where a single-valued
one replaces what an earlier word put there, and any other word to the free-text terms. Labels are cleaned of quotes and
outer blanks; a label of which nothing remains is a free-text term as it stands.
-/

namespace RepoSearch

/-- The words of a query, sorted by what they select. -/
structure ParsedQuery where
  language : Option String := none
  labels : List String := []
  stars : Option String := none
  forks : Option String := none
  updated : Option String := none
  owner : Option String := none
  topics : List String := []
  terms : List String := []
  deriving DecidableEq, Repr

/-- A label without quotes and without blanks at its ends, if anything remains. -/
def cleanLabel? (label : String) : Option String :=
  let cleaned := Text.trim (String.ofList ((Text.trim label).toList.filter (· ≠ '"')))
  if cleaned.isEmpty then none else some cleaned

namespace ParsedQuery

/-- The query with one more free-text term. -/
def addTerm (p : ParsedQuery) (word : String) : ParsedQuery :=
  { p with terms := p.terms ++ [word] }

/-- The query with one more word. -/
def addWord (p : ParsedQuery) (word : String) : ParsedQuery :=
  match Operator.classify? word with
  | none => p.addTerm word
  | some (.owner, value) => { p with owner := some value }
  | some (.language, value) => { p with language := some value }
  | some (.stars, value) => { p with stars := some value }
  | some (.forks, value) => { p with forks := some value }
  | some (.updated, value) => { p with updated := some value }
  | some (.topic, value) => { p with topics := p.topics ++ [value] }
  | some (.label, value) =>
    match cleanLabel? value with
    | some label => { p with labels := p.labels ++ [label] }
    | none => p.addTerm word

/-- The fields of a query's text. -/
def parse (raw : String) : ParsedQuery :=
  (Text.words raw).foldl addWord {}

/-- The query with further labels after its own. Labels of which nothing remains are left out. -/
def extendLabels (p : ParsedQuery) (labels : List String) : ParsedQuery :=
  { p with labels := p.labels ++ labels.filterMap cleanLabel? }

def toJson (p : ParsedQuery) : Json :=
  .obj [
    ("language", .orNull .str p.language),
    ("labels", .strings p.labels),
    ("stars", .orNull .str p.stars),
    ("forks", .orNull .str p.forks),
    ("updated", .orNull .str p.updated),
    ("owner", .orNull .str p.owner),
    ("topics", .strings p.topics),
    ("base_query", .strings p.terms)]

end ParsedQuery

end RepoSearch
