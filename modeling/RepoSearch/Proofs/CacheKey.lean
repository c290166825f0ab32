import RepoSearch.Proofs.JsonText
import RepoSearch.Search.Criteria

/-!
# Cache keys

A cache key is the text of an array of strings, numbers and a null, and such a text determines the array.  Languages and
sort orders are known by their names, so no two different criteria have the same key.
-/

namespace RepoSearch

theorem Language.ofName?_name (l : Language) : ofName? l.name = some l := by
  cases l <;> decide

theorem Language.name_inj {l m : Language} (h : l.name = m.name) : l = m :=
  Option.some.inj (by rw [← ofName?_name l, h, ofName?_name])

theorem SortOrder.ofName?_name (o : SortOrder) : ofName? o.name = some o := by
  cases o <;> decide

theorem SortOrder.name_inj {o p : SortOrder} (h : o.name = p.name) : o = p :=
  Option.some.inj (by rw [← ofName?_name o, h, ofName?_name])

namespace Criteria

/-- The array whose text is the key. -/
private def keyArray (c : Criteria) : Json :=
  .arr [.str c.query, .orNull (fun l => .str l.name) c.language, .strings c.labels, .str c.sort.name, .ofNat c.page,
    .ofNat c.perPage]

private theorem whole_keyArray (c : Criteria) : c.keyArray.Whole := by
  refine .arr fun v hv => ?_
  simp only [List.mem_cons, List.not_mem_nil, or_false] at hv
  rcases hv with rfl | rfl | rfl | rfl | rfl | rfl
  · exact .str _
  · cases c.language with
    | none => exact .null
    | some l => exact .str _
  · refine .arr fun v hv => ?_
    obtain ⟨s, -, rfl⟩ := List.mem_map.1 hv
    exact .str s
  · exact .str _
  · exact .int _
  · exact .int _

private theorem orNull_name_inj {l m : Option Language}
    (h : Json.orNull (fun l => .str l.name) l = Json.orNull (fun l => .str l.name) m) : l = m := by
  cases l <;> cases m <;> simp_all [Json.orNull]
  exact Language.name_inj h

private theorem strings_inj {ss ts : List String} (h : Json.strings ss = Json.strings ts) : ss = ts :=
  (List.map_inj_right fun _ _ => Json.str.inj).1 (Json.arr.inj h)

private theorem keyArray_inj {a b : Criteria} (h : a.keyArray = b.keyArray) : a = b := by
  simp only [keyArray, Json.arr.injEq, List.cons.injEq, Json.str.injEq, Json.ofNat, Json.int.injEq, Int.natCast_inj,
    and_true] at h
  obtain ⟨query, language, labels, sort, page, perPage⟩ := h
  cases a
  cases b
  simp_all only [mk.injEq, true_and]
  exact ⟨SortOrder.name_inj sort, strings_inj labels, orNull_name_inj language⟩

theorem cacheKey_inj {a b : Criteria} (h : a.cacheKey = b.cacheKey) : a = b :=
  keyArray_inj (a.whole_keyArray.render_inj b.whole_keyArray h)

/-- Criteria have the same key exactly if they agree in every parameter. -/
theorem cacheKey_eq_iff (a b : Criteria) : a.cacheKey = b.cacheKey ↔
    a.query = b.query ∧ a.page = b.page ∧ a.perPage = b.perPage ∧ a.sort = b.sort ∧ a.labels = b.labels ∧
      a.language = b.language := by
  constructor
  · intro h
    obtain rfl := cacheKey_inj h
    exact ⟨rfl, rfl, rfl, rfl, rfl, rfl⟩
  · rintro ⟨query, page, perPage, sort, labels, language⟩
    simp only [cacheKey, query, page, perPage, sort, labels, language]

end Criteria

end RepoSearch
