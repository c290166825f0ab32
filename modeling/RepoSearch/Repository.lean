import RepoSearch.Json.Basic

/-!
# Repositories

A repository record is reduced to the fields that every consumer relies on. The reduction never fails: a field that is
absent or of another type counts as zero, false, empty or none.
-/

namespace RepoSearch

/-- The fields of a repository that are kept. -/
structure Repository where
  id : Nat
  name : String
  fullName : String
  ownerLogin : Option String
  htmlUrl : String
  description : Option String
  stargazersCount : Nat
  watchersCount : Nat
  forksCount : Nat
  openIssuesCount : Nat
  language : Option String
  topics : List String
  hasIssues : Bool
  hasWiki : Bool
  createdAt : Option String
  updatedAt : Option String
  pushedAt : Option String
  licenseName : Option String
  defaultBranch : Option String
  deriving DecidableEq, Repr

namespace Repository

def text? (raw : Json) (field : String) : Option String :=
  (raw.get? field).bind Json.asString?

def count (raw : Json) (field : String) : Nat :=
  ((raw.get? field).bind Json.asNat?).getD 0

def flag (raw : Json) (field : String) : Bool :=
  ((raw.get? field).bind Json.asBool?).getD false

/-- Reduces a record. -/
def ofJson (raw : Json) : Repository where
  id := count raw "id"
  name := (text? raw "name").getD ""
  fullName := (text? raw "full_name").getD ""
  ownerLogin := (raw.get? "owner").bind fun owner => text? owner "login"
  htmlUrl := (text? raw "html_url").getD ""
  description := text? raw "description"
  stargazersCount := count raw "stargazers_count"
  watchersCount := count raw "watchers_count"
  forksCount := count raw "forks_count"
  openIssuesCount := count raw "open_issues_count"
  language := text? raw "language"
  topics := (((raw.get? "topics").bind Json.asArray?).getD []).filterMap Json.asString?
  hasIssues := flag raw "has_issues"
  hasWiki := flag raw "has_wiki"
  createdAt := text? raw "created_at"
  updatedAt := text? raw "updated_at"
  pushedAt := text? raw "pushed_at"
  licenseName := (raw.get? "license").bind fun license => text? license "name"
  defaultBranch := text? raw "default_branch"

def toJson (r : Repository) : Json :=
  .obj [
    ("id", .ofNat r.id),
    ("name", .str r.name),
    ("full_name", .str r.fullName),
    ("owner_login", .orNull .str r.ownerLogin),
    ("html_url", .str r.htmlUrl),
    ("description", .orNull .str r.description),
    ("stargazers_count", .ofNat r.stargazersCount),
    ("watchers_count", .ofNat r.watchersCount),
    ("forks_count", .ofNat r.forksCount),
    ("open_issues_count", .ofNat r.openIssuesCount),
    ("language", .orNull .str r.language),
    ("topics", .strings r.topics),
    ("has_issues", .bool r.hasIssues),
    ("has_wiki", .bool r.hasWiki),
    ("created_at", .orNull .str r.createdAt),
    ("updated_at", .orNull .str r.updatedAt),
    ("pushed_at", .orNull .str r.pushedAt),
    ("license_name", .orNull .str r.licenseName),
    ("default_branch", .orNull .str r.defaultBranch)]

end Repository

end RepoSearch
