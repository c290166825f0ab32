import RepoSearch.Json.Basic
import RepoSearch.Query.Operator

/-!
# Reference of the query language

What the service tells its users about the operators.
-/

namespace RepoSearch.Reference

/-- Queries that show several operators together. -/
def samples : List String := [
  "react @javascript #good-first-issue >1000",
  "cli @/rust-lang +terminal",
  "parser @rust ~>2024-01-01 ^>10"]

def notes : List String := [
  "Tokens are separated by whitespace; anything without an operator prefix is a free-text term.",
  "Single-valued operators keep their last occurrence.",
  "Only public repositories are searched."]

/-- The entry of one operator. -/
def entry (op : Operator) : Json :=
  .obj [
    ("operator", .str op.name),
    ("prefix", .str op.marker),
    ("qualifier", .str op.qualifier),
    ("cardinality", .str op.cardinality.name),
    ("description", .str op.description),
    ("example", .str op.sample)]

def toJson : Json :=
  .obj [
    ("operators", .arr (Operator.all.map entry)),
    ("examples", .strings samples),
    ("notes", .strings notes)]

end RepoSearch.Reference
