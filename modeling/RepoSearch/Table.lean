import Std.Data.ExtTreeMap

/-!
# Tables

A table maps finitely many names to values. Two tables with the same entries are equal.
-/

namespace RepoSearch

/-- A finite map from names. -/
abbrev Table (α : Type) := Std.ExtTreeMap String α compare

end RepoSearch
