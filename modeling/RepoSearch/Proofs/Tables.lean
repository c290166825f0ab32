import Std.Data.ExtTreeMap
import Std.Data.DTreeMap.Internal.WF.Lemmas
import Mathlib.Data.List.Nodup

/-!
# Sizes and least entries of finite maps

A finite map has as many entries as there are keys in any list that names each of its keys once, and its least entry is
the first of its ordered list.
-/

namespace RepoSearch

variable {κ α : Type} {cmp : κ → κ → Ordering} [Std.TransCmp cmp] [Std.LawfulEqCmp cmp]

theorem size_eq_length {t : Std.ExtTreeMap κ α cmp} {keys : List κ} (nodup : keys.Nodup)
    (mem : ∀ key, key ∈ t ↔ key ∈ keys) : t.size = keys.length := by
  rw [← Std.ExtTreeMap.length_keys]
  refine ((List.perm_ext_iff_of_nodup Std.ExtTreeMap.nodup_keys nodup).2 fun key => ?_).length_eq
  rw [Std.ExtTreeMap.mem_keys, mem]

open Std.DTreeMap.Internal in
private theorem tree_minEntry? (t : Impl κ fun _ => α) : Impl.Const.minEntry? t = (Impl.Const.toList t).head? := by
  rw [Impl.Const.toList_eq_toListModel_map]
  induction t using Impl.Const.minEntry?.induct with
  | case1 => simp [Impl.Const.minEntry?]
  | case2 => simp [Impl.Const.minEntry?]
  | case3 _ _ _ _ _ _ _ _ _ ih =>
    rw [Impl.Const.minEntry?, ih]
    simp

omit [Std.LawfulEqCmp cmp] in
/-- The least entry stands at the head of the ordered list of entries. -/
theorem minEntry?_eq_head? (t : Std.ExtTreeMap κ α cmp) : t.minEntry? = t.toList.head? := by
  obtain ⟨t⟩ := t
  induction t using Std.ExtDTreeMap.inductionOn with
  | mk t => exact tree_minEntry? t.inner

end RepoSearch
