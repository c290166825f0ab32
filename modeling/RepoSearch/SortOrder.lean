import RepoSearch.Text.Blank

/-!
# Sort orders

The orders in which GitHub's repository search can list its results.
-/

namespace RepoSearch

/-- A sort order. -/
inductive SortOrder where
  | stars | forks | updated | helpWantedIssues
  deriving DecidableEq, Repr

namespace SortOrder

/-- All sort orders, in the order in which they are listed to users. -/
def all : List SortOrder := [stars, forks, updated, helpWantedIssues]

/-- The name by which GitHub knows the order. -/
def name : SortOrder → String
  | stars => "stars"
  | forks => "forks"
  | updated => "updated"
  | helpWantedIssues => "help-wanted-issues"

/-- The text shown to users. -/
def label : SortOrder → String
  | stars => "Most stars"
  | forks => "Most forks"
  | updated => "Recently updated"
  | helpWantedIssues => "Most help-wanted issues"

/-- The order of exactly this name. -/
def ofName? (s : String) : Option SortOrder :=
  all.find? (·.name == s)

/-- Reads an order as users write it: blanks around the name do not matter, its case does. -/
def read? (s : String) : Option SortOrder :=
  ofName? (Text.trim s)

end SortOrder

end RepoSearch
