import RepoSearch.Text.Decimal
import RepoSearch.Text.Hex
import Mathlib.Tactic.SplitIfs

/-!
# Numerals are read back

A number is told by its numeral, in decimal as in hexadecimal notation.
-/

namespace RepoSearch

theorem digit_of_mem_toDigits {b n : Nat} (hb : 1 < b) {c : Char} (hc : c ∈ Nat.toDigits b n) :
    ∃ d < b, c = Nat.digitChar d := by
  induction n using Nat.strongRecOn with
  | ind n ih =>
    rw [Nat.toDigits_eq_if hb] at hc
    split_ifs at hc with hn
    · exact ⟨n, hn, List.mem_singleton.1 hc⟩
    · rcases List.mem_append.1 hc with hc | hc
      · exact ih (n / b) (Nat.div_lt_self (by omega) hb) hc
      · exact ⟨n % b, Nat.mod_lt n (by omega), List.mem_singleton.1 hc⟩

namespace Decimal

theorem toList_render (n : Nat) : (render n).toList = Nat.toDigits 10 n := String.toList_ofList

theorem isDigit_of_mem_render {n : Nat} {c : Char} (hc : c ∈ (render n).toList) : c.isDigit = true := by
  rw [toList_render] at hc
  exact Nat.isDigit_of_mem_toDigits (by omega) (by omega) hc

theorem ofDigits?_render (n : Nat) : ofDigits? (render n).toList = some n := by
  have all : (render n).toList.all Char.isDigit = true := List.all_eq_true.2 fun _ => isDigit_of_mem_render
  rw [ofDigits?, all, toList_render, Nat.ofDigitChars_ten_toDigits]
  simp

theorem render_ne_empty (n : Nat) : render n ≠ "" := by
  intro h
  have hlist : Nat.toDigits 10 n = [] := by rw [← toList_render, h, String.toList_empty]
  exact Nat.toDigits_ne_nil hlist

/-- A numeral within the bound is read as its number. -/
theorem read?_render {n bound : Nat} (h : n ≤ bound) : read? bound (render n) = some n := by
  have hunsigned : ∀ cs, (render n).toList ≠ '+' :: cs := by
    intro cs hn
    have hplus : '+'.isDigit = true := isDigit_of_mem_render (hn ▸ List.mem_cons_self)
    exact absurd hplus (by decide)
  rw [read?]
  split
  · rename_i cs hn
    exact absurd hn (hunsigned cs)
  · rw [ofDigits?_render, Option.filter_some_pos (by simpa using h)]

theorem render_inj {m n : Nat} (h : render m = render n) : m = n := by
  have hm := ofDigits?_render m
  rw [h, ofDigits?_render] at hm
  exact (Option.some.inj hm).symm

/-- Numerals have no leading zeros. -/
theorem head?_toDigits {n : Nat} (hn : n ≠ 0) : (Nat.toDigits 10 n).head? ≠ some '0' := by
  induction n using Nat.strongRecOn with
  | ind n ih =>
    rw [Nat.toDigits_eq_if (by omega)]
    split_ifs with hlt
    · rw [List.head?_cons]
      exact fun h => hn (Nat.digitChar_eq_zero.1 (Option.some.inj h))
    · have hfirst := ih (n / 10) (by omega) (by omega)
      obtain ⟨c, cs, hcs⟩ := List.exists_cons_of_ne_nil (Nat.toDigits_ne_nil (n := n / 10) (b := 10))
      rw [hcs] at hfirst ⊢
      exact hfirst

end Decimal

namespace Hex

theorem value?_digitChar {n : Nat} (h : n < 16) : value? (Nat.digitChar n) = some n := by
  decide +revert

/-- The values of a numeral's digits are digits of the number. -/
theorem exists_values_toDigits (n : Nat) : ∃ ds, (Nat.toDigits 16 n).mapM value? = some ds ∧
    ds.foldl (fun n d => 16 * n + d) 0 = n := by
  induction n using Nat.strongRecOn with
  | ind n ih =>
    rw [Nat.toDigits_eq_if (by omega)]
    split_ifs with hn
    · exact ⟨[n], by simp [value?_digitChar hn], by simp⟩
    · obtain ⟨ds, hds, hvalue⟩ := ih (n / 16) (by omega)
      have last : value? (Nat.digitChar (n % 16)) = some (n % 16) := value?_digitChar (by omega)
      refine ⟨ds ++ [n % 16], by simp [List.mapM_append, hds, last], ?_⟩
      rw [List.foldl_append, hvalue]
      exact Nat.div_add_mod n 16

end Hex

end RepoSearch
