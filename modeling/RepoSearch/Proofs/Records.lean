import RepoSearch.GitHub.Page
import Mathlib.Data.Option.Basic
import Mathlib.Data.List.Forall2

/-!
# Records and what is kept of them

A record of GitHub's may hold anything. What is kept of it depends on the values at a few paths alone, so records that
agree there are reduced to the same repository; and every repository is what is kept of a record that holds nothing
else. Replies to the same effect agree in everything but their records, and these agree pairwise.
-/

namespace RepoSearch

/-! ### Paths -/

namespace Json

/-- The value to which a path of member names leads. -/
def at? : List String → Json → Option Json
  | [], value => some value
  | name :: path, value => (value.get? name).bind (at? path)

/-- Two values are the same up to the order of members, to members that later ones of the same name override, and to
numbers that are not whole, which nobody reads. -/
inductive Alike : Json → Json → Prop where
  | same (value : Json) : Alike value value
  | decimals (literal literal' : String) : Alike (.decimal literal) (.decimal literal')
  | items {items items' : List Json} : List.Forall₂ Alike items items' → Alike (.arr items) (.arr items')
  | members {members members' : List (String × Json)} :
    (∀ name, Option.Rel Alike ((obj members).get? name) ((obj members').get? name)) →
      Alike (.obj members) (.obj members')

theorem Alike.asString?_eq {a b : Json} (h : Alike a b) : a.asString? = b.asString? := by
  cases h <;> rfl

theorem Alike.asNat?_eq {a b : Json} (h : Alike a b) : a.asNat? = b.asNat? := by
  cases h <;> rfl

theorem Alike.asBool?_eq {a b : Json} (h : Alike a b) : a.asBool? = b.asBool? := by
  cases h <;> rfl

/-- Of an array only the texts among its items are read. -/
theorem Alike.texts_eq {a b : Json} (h : Alike a b) :
    (a.asArray?.getD []).filterMap asString? = (b.asArray?.getD []).filterMap asString? := by
  cases h with
  | same => rfl
  | decimals => rfl
  | members => rfl
  | items hitems =>
    simp only [asArray?, Option.getD_some]
    induction hitems with
    | nil => rfl
    | cons hitem _ ih => rw [List.filterMap_cons, List.filterMap_cons, hitem.asString?_eq, ih]

/-- The path leads to values that are alike, or nowhere in both. -/
def AlikeAt (path : List String) (a b : Json) : Prop := Option.Rel Alike (a.at? path) (b.at? path)

theorem AlikeAt.bind_eq {α : Type} {path : List String} {a b : Json} (h : AlikeAt path a b) {read : Json → Option α}
    (hread : ∀ {x y}, Alike x y → read x = read y) : (a.at? path).bind read = (b.at? path).bind read := by
  unfold AlikeAt at h
  generalize a.at? path = x, b.at? path = y at h
  cases h with
  | some hxy => exact hread hxy
  | none => rfl

theorem at?_singleton (raw : Json) (field : String) : raw.at? [field] = raw.get? field := by
  rw [at?]
  cases raw.get? field <;> rfl

end Json

/-! ### What is kept of a record -/

namespace Repository

open Json

/-- The paths of a record that are kept. -/
def keptPaths : List (List String) :=
  [["id"], ["name"], ["full_name"], ["owner", "login"], ["html_url"], ["description"], ["stargazers_count"],
    ["watchers_count"], ["forks_count"], ["open_issues_count"], ["language"], ["topics"], ["has_issues"], ["has_wiki"],
    ["created_at"], ["updated_at"], ["pushed_at"], ["license", "name"], ["default_branch"]]

/-- Two records agree on all that is kept. -/
def Agree (a b : Json) : Prop := ∀ path ∈ keptPaths, AlikeAt path a b

theorem agree_of_eq {a b : Json} (h : ∀ path ∈ keptPaths, a.at? path = b.at? path) : Agree a b := by
  intro path hpath
  rw [AlikeAt, h path hpath]
  cases b.at? path with
  | none => exact .none
  | some value => exact .some (.same value)

private theorem text?_eq {a b : Json} {field : String} (h : AlikeAt [field] a b) : text? a field = text? b field := by
  have := h.bind_eq Alike.asString?_eq
  rwa [at?_singleton, at?_singleton] at this

private theorem count_eq {a b : Json} {field : String} (h : AlikeAt [field] a b) : count a field = count b field := by
  have := h.bind_eq Alike.asNat?_eq
  rw [at?_singleton, at?_singleton] at this
  rw [count, count, this]

private theorem flag_eq {a b : Json} {field : String} (h : AlikeAt [field] a b) : flag a field = flag b field := by
  have := h.bind_eq Alike.asBool?_eq
  rw [at?_singleton, at?_singleton] at this
  rw [flag, flag, this]

private theorem inner_eq {a b : Json} {outer field : String} (h : AlikeAt [outer, field] a b) :
    (a.get? outer).bind (text? · field) = (b.get? outer).bind (text? · field) := by
  have inner : ∀ raw : Json, (raw.get? outer).bind (text? · field) = (raw.at? [outer, field]).bind asString? := by
    intro raw
    rw [at?]
    cases raw.get? outer with
    | none => rfl
    | some value => rw [Option.bind_some, Option.bind_some, at?_singleton, text?]
  rw [inner, inner]
  exact h.bind_eq Alike.asString?_eq

private theorem texts_eq {a b : Json} {field : String} (h : AlikeAt [field] a b) :
    (((a.get? field).bind asArray?).getD []).filterMap asString? =
      (((b.get? field).bind asArray?).getD []).filterMap asString? := by
  unfold AlikeAt at h
  rw [at?_singleton, at?_singleton] at h
  generalize a.get? field = x, b.get? field = y at h
  cases h with
  | some hxy => exact hxy.texts_eq
  | none => rfl

/-- Records that agree on the kept paths are reduced to the same repository. -/
theorem ofJson_eq_of_agree {a b : Json} (h : Agree a b) : ofJson a = ofJson b := by
  unfold Agree keptPaths at h
  simp only [List.forall_mem_cons] at h
  obtain ⟨id, name, fullName, owner, url, description, stars, watchers, forks, issues, language, topics, hasIssues,
    hasWiki, created, updated, pushed, license, branch, -⟩ := h
  unfold ofJson
  rw [count_eq id, text?_eq name, text?_eq fullName, inner_eq owner, text?_eq url, text?_eq description,
    count_eq stars, count_eq watchers, count_eq forks, count_eq issues, text?_eq language, texts_eq topics,
    flag_eq hasIssues, flag_eq hasWiki, text?_eq created, text?_eq updated, text?_eq pushed, inner_eq license,
    text?_eq branch]

/-- The record that holds nothing but what is kept. -/
def record (r : Repository) : Json :=
  .obj [
    ("id", .ofNat r.id),
    ("name", .str r.name),
    ("full_name", .str r.fullName),
    ("owner", .obj [("login", .orNull .str r.ownerLogin)]),
    ("html_url", .str r.htmlUrl),
    ("description", .orNull .str r.description),
    ("stargazers_count", .ofNat r.stargazersCount),
    ("watchers_count", .ofNat r.watchersCount),
    ("forks_count", .ofNat r.forksCount),
    ("open_issues_count", .ofNat r.openIssuesCount),
    ("language", .orNull .str r.language),
    ("topics", .strings r.topics),
    ("has_issues", .bool r.hasIssues),
    ("has_wiki", .bool r.hasWiki),
    ("created_at", .orNull .str r.createdAt),
    ("updated_at", .orNull .str r.updatedAt),
    ("pushed_at", .orNull .str r.pushedAt),
    ("license", .obj [("name", .orNull .str r.licenseName)]),
    ("default_branch", .orNull .str r.defaultBranch)]

private theorem asString?_str (text : String) : (Json.str text).asString? = some text := rfl

private theorem asString?_orNull (text : Option String) : (Json.orNull .str text).asString? = text := by
  cases text <;> rfl

private theorem texts_strings (texts : List String) :
    ((Json.strings texts).asArray?.getD []).filterMap asString? = texts := by
  rw [Json.strings, asArray?, Option.getD_some, List.filterMap_map]
  exact List.filterMap_some

/-- Every repository is the reduction of a record. -/
theorem ofJson_record (r : Repository) : ofJson r.record = r := by
  simp [ofJson, record, count, text?, flag, get?, ofNat, asNat?, asBool?, asString?_str, asString?_orNull, texts_strings]

end Repository

/-! ### Replies to the same effect -/

/-- Two pages agree in all but their records, and these agree pairwise. -/
structure RawPage.Agree (p p' : RawPage) : Prop where
  totalCount : p.totalCount = p'.totalCount
  items : List.Forall₂ Repository.Agree p.items p'.items
  quota : p.quota = p'.quota

/-- Two replies come after the same time with the same error or with pages that agree. -/
inductive Reply.Agree : Reply → Reply → Prop where
  | page (delay : Duration) {p p' : RawPage} : p.Agree p' → Reply.Agree ⟨delay, .ok p⟩ ⟨delay, .ok p'⟩
  | error (delay : Duration) (err : SearchError) : Reply.Agree ⟨delay, .error err⟩ ⟨delay, .error err⟩

/-- A page whose records hold nothing but what is kept. -/
def RawPage.stripped (p : RawPage) : RawPage :=
  { p with items := (p.items.map Repository.ofJson).map Repository.record }

def Reply.stripped (r : Reply) : Reply := { r with outcome := r.outcome.map RawPage.stripped }

theorem RawPage.reduce_stripped (p : RawPage) : p.stripped.reduce = p.reduce := by
  have items : ((p.items.map Repository.ofJson).map Repository.record).map Repository.ofJson =
      p.items.map Repository.ofJson := by
    rw [List.map_map]
    exact List.map_id'' Repository.ofJson_record _
  unfold reduce stripped
  rw [items]

/-- A wait for a reply does not depend on what its records hold otherwise. -/
theorem Reply.within_stripped (timeout : Duration) (r : Reply) : r.stripped.within timeout = r.within timeout := by
  have outcome : r.stripped.outcome.map RawPage.reduce = r.outcome.map RawPage.reduce := by
    rw [stripped]
    cases r.outcome with
    | error err => rfl
    | ok p => exact congrArg Except.ok p.reduce_stripped
  rw [within, within, outcome]
  rfl

private theorem map_ofJson_of_agree {items items' : List Json} (h : List.Forall₂ Repository.Agree items items') :
    items.map Repository.ofJson = items'.map Repository.ofJson := by
  induction h with
  | nil => rfl
  | cons hitem _ ih => rw [List.map_cons, List.map_cons, Repository.ofJson_eq_of_agree hitem, ih]

theorem RawPage.Agree.stripped_eq {p p' : RawPage} (h : p.Agree p') : p.stripped = p'.stripped := by
  rw [stripped, stripped, map_ofJson_of_agree h.items, h.totalCount, h.quota]

theorem Reply.Agree.stripped_eq {r r' : Reply} (h : r.Agree r') : r.stripped = r'.stripped := by
  cases h with
  | page delay hpage => exact congrArg (fun p => Reply.mk delay (.ok p)) hpage.stripped_eq
  | error delay err => rfl

theorem map_stripped_of_agree {replies replies' : List Reply} (h : List.Forall₂ Reply.Agree replies replies') :
    replies.map Reply.stripped = replies'.map Reply.stripped := by
  induction h with
  | nil => rfl
  | cons hreply _ ih => rw [List.map_cons, List.map_cons, hreply.stripped_eq, ih]

end RepoSearch
