/-!
# Hexadecimal digits

Digits above nine are read in either case and written in upper case.
-/

namespace RepoSearch.Hex

/-- The value of a digit. -/
def value? (c : Char) : Option Nat :=
  if c.isDigit then some (c.toNat - 0x30)
  else if 'a' ≤ c ∧ c ≤ 'f' then some (c.toNat - 0x57)
  else if 'A' ≤ c ∧ c ≤ 'F' then some (c.toNat - 0x37)
  else none

theorem lt_of_value? {c : Char} {d : Nat} (h : value? c = some d) : d < 16 := by
  unfold value? at h
  split at h
  · rename_i hdigit
    have hc : c.toNat ≤ 0x39 := (Char.isDigit_iff_toNat.1 hdigit).2
    cases h
    omega
  · split at h
    · rename_i hlower
      have hc : c.toNat ≤ 0x66 := hlower.2
      cases h
      omega
    · split at h
      · rename_i hupper
        have hc : c.toNat ≤ 0x46 := hupper.2
        cases h
        omega
      · cases h

/-- The digit of a number below sixteen. -/
def digit (n : Nat) : Char :=
  (Nat.digitChar n).toUpper

end RepoSearch.Hex
