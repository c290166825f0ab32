import RepoSearch.Language
import RepoSearch.Query.Parsed
import RepoSearch.SortOrder

/-!
# Compiled queries

A parsed query becomes GitHub's search syntax: the free-text terms, one clause for each selected value in a fixed order
of the fields, and a suffix that keeps the search to public repositories. Labels are quoted.
-/

namespace RepoSearch

/-- A clause that asks for a value as it stands. -/
def Operator.clause (op : Operator) (value : String) : String :=
  op.qualifier ++ ":" ++ value

/-- A clause that asks for a value between quotes. -/
def Operator.quotedClause (op : Operator) (value : String) : String :=
  op.clause ("\"" ++ value ++ "\"")

namespace ParsedQuery

/-- The end of every compiled query. -/
def visibilitySuffix : String := "+is:public"

/-- The clauses of the fields that are set. -/
def clauses (p : ParsedQuery) : List String :=
  p.language.toList.map Operator.language.clause ++
  p.labels.map Operator.label.quotedClause ++
  p.stars.toList.map Operator.stars.clause ++
  p.forks.toList.map Operator.forks.clause ++
  p.updated.toList.map Operator.updated.clause ++
  p.owner.toList.map Operator.owner.clause ++
  p.topics.map Operator.topic.clause

/-- The query in GitHub's syntax. -/
def queryString (p : ParsedQuery) : String :=
  " ".intercalate (p.terms ++ p.clauses) ++ visibilitySuffix

end ParsedQuery

/-- A query ready to be sent. -/
structure CompiledQuery where
  queryString : String
  sort : SortOrder
  parsed : ParsedQuery
  deriving DecidableEq, Repr

namespace ParsedQuery

def compile (p : ParsedQuery) (sort : SortOrder) : CompiledQuery :=
  ⟨p.queryString, sort, p⟩

/-- The query with filters that do not come from its text. A language in the text outweighs the filter. -/
def withFilters (p : ParsedQuery) (language : Option Language) (labels : List String) : ParsedQuery :=
  { p with language := p.language.or (language.map Language.name) }.extendLabels labels

end ParsedQuery

namespace CompiledQuery

/-- Compiles the text of a query. -/
def ofText (raw : String) (sort : SortOrder) : CompiledQuery :=
  (ParsedQuery.parse raw).compile sort

/-- Compiles the text of a query together with filters given apart from it. -/
def ofTextWithFilters (raw : String) (sort : SortOrder) (language : Option Language) (labels : List String) :
    CompiledQuery :=
  ((ParsedQuery.parse raw).withFilters language labels).compile sort

end CompiledQuery

end RepoSearch
