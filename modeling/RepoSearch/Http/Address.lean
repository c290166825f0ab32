import RepoSearch.Text.Decimal
import RepoSearch.Text.Hex

/-!
# IP addresses

Addresses of both versions are read from their usual texts and written in one form: an address of version 6 in lower
case, with its longest run of at least two zero groups left out, and with a mapped address of version 4 in dotted form.
An address has as many parts as its version says, and none is too large for its place.
-/

namespace RepoSearch.Http

/-- So many numbers, each below the bound. -/
def Parts (count bound : Nat) (ns : List Nat) : Prop :=
  ns.length = count ∧ ∀ n ∈ ns, n < bound

instance (count bound : Nat) (ns : List Nat) : Decidable (Parts count bound ns) :=
  @instDecidableAnd _ _ (Nat.decEq ns.length count) (List.decidableBAll (· < bound) ns)

/-- An IP address: four octets, or eight groups of two octets. -/
inductive Address where
  | v4 (octets : List Nat) (parts : Parts 4 256 octets := by decide)
  | v6 (groups : List Nat) (parts : Parts 8 65536 groups := by decide)
  deriving DecidableEq, Repr

namespace Address

/-! ### Writing -/

def dotted (octets : List Nat) : String :=
  ".".intercalate (octets.map Decimal.render)

def hexText (n : Nat) : String :=
  String.ofList (Nat.toDigits 16 n)

def colons (groups : List Nat) : String :=
  ":".intercalate (groups.map hexText)

/-- The length of the run of zeros at the beginning. -/
def zeros (groups : List Nat) : Nat :=
  (groups.takeWhile (· = 0)).length

/-- Start and length of the longest run of zeros, the first of several. -/
def longestZeros : List Nat → Nat × Nat
  | [] => (0, 0)
  | g :: gs =>
    let (start, length) := longestZeros gs
    let here := zeros (g :: gs)
    if length ≤ here then (0, here) else (start + 1, length)

/-- The text of the groups of an address of version 6. -/
def compact : List Nat → String
  | [0, 0, 0, 0, 0, 0xFFFF, a, b] => "::ffff:" ++ dotted [a / 256, a % 256, b / 256, b % 256]
  | groups =>
    let (start, length) := longestZeros groups
    if 1 < length then colons (groups.take start) ++ "::" ++ colons (groups.drop (start + length))
    else colons groups

/-- The text of an address. -/
def render : Address → String
  | v4 octets _ => dotted octets
  | v6 groups _ => compact groups

/-! ### Reading -/

/-- An octet in decimal, of at most three digits and without leading zeros. -/
def octet? (cs : List Char) : Option Nat :=
  if cs.length ≤ 3 ∧ (cs.length = 1 ∨ cs.head? ≠ some '0') then (Decimal.ofDigits? cs).filter (· ≤ 255)
  else none

/-- Four octets with points between them. -/
def readV4? (cs : List Char) : Option (List Nat) :=
  ((cs.splitOn '.').mapM octet?).filter (·.length = 4)

/-- A group in hexadecimal, of at most four digits. -/
def group? (cs : List Char) : Option Nat :=
  if cs.isEmpty ∨ 4 < cs.length then none
  else (cs.mapM Hex.value?).map fun ds => ds.foldl (fun n d => 16 * n + d) 0

/-- Groups with colons between them; the last two may be written as four octets. -/
def groups? : List (List Char) → Option (List Nat)
  | [] => some []
  | [cs] =>
    if cs.contains '.' then
      match readV4? cs with
      | some [a, b, c, d] => some [a * 256 + b, c * 256 + d]
      | _ => none
    else (group? cs).map ([·])
  | cs :: rest => do return (← group? cs) :: (← groups? rest)

/-- The groups of one side of a double colon, which may have none. -/
def side? (cs : List Char) : Option (List Nat) :=
  if cs.isEmpty then some [] else groups? (cs.splitOn ':')

/-- What stands before and after the first double colon. -/
def cutDouble : List Char → Option (List Char × List Char)
  | ':' :: ':' :: cs => some ([], cs)
  | c :: cs => (cutDouble cs).map fun (a, b) => (c :: a, b)
  | [] => none

/-- Eight groups, of which a double colon leaves out at least one. -/
def readV6? (cs : List Char) : Option (List Nat) :=
  match cutDouble cs with
  | none => (groups? (cs.splitOn ':')).filter (·.length = 8)
  | some (before, after) => do
    if before.contains '.' then none
    let a ← side? before
    let b ← side? after
    if a.length + b.length < 8 then
      return a ++ List.replicate (8 - a.length - b.length) 0 ++ b
    else none

/-! ### What is read -/

/-- What is read piece by piece has as many values as there are pieces, and each value is that of a piece. -/
theorem mapM_eq_some {α β : Type} {g : α → Option β} {l : List α} {l' : List β} (h : l.mapM g = some l') :
    l'.length = l.length ∧ (∀ x ∈ l, ∃ y, g x = some y) ∧ ∀ y ∈ l', ∃ x ∈ l, g x = some y := by
  induction l generalizing l' with
  | nil =>
    obtain rfl := Option.some.inj h
    simp
  | cons x l ih =>
    rw [List.mapM_cons] at h
    cases hfirst : g x with
    | none => simp [hfirst] at h
    | some y =>
      cases hrest : l.mapM g with
      | none => simp [hfirst, hrest] at h
      | some ys =>
        obtain rfl : y :: ys = l' := by simpa [hfirst, hrest] using h
        obtain ⟨length, all, back⟩ := ih hrest
        refine ⟨by simp [length], ?_, ?_⟩
        · simpa [hfirst] using all
        · intro y' hy'
          rcases List.mem_cons.1 hy' with rfl | hy'
          · exact ⟨x, List.mem_cons_self, hfirst⟩
          · obtain ⟨x', hx', hg⟩ := back y' hy'
            exact ⟨x', List.mem_cons_of_mem x hx', hg⟩

private theorem octet?_lt {cs : List Char} {o : Nat} (h : octet? cs = some o) : o < 256 := by
  rw [octet?] at h
  split at h
  · have bound := of_decide_eq_true (Option.filter_eq_some_iff.1 h).2
    omega
  · cases h

theorem parts_of_readV4? {cs : List Char} {octets : List Nat} (h : readV4? cs = some octets) : Parts 4 256 octets := by
  obtain ⟨hread, hlength⟩ := Option.filter_eq_some_iff.1 h
  refine ⟨of_decide_eq_true hlength, fun o ho => ?_⟩
  obtain ⟨piece, -, hpiece⟩ := (mapM_eq_some hread).2.2 o ho
  exact octet?_lt hpiece

private theorem group?_lt {cs : List Char} {g : Nat} (h : group? cs = some g) : g < 65536 := by
  rw [group?] at h
  split at h
  · cases h
  · rename_i hlength
    obtain ⟨ds, hds, rfl⟩ := Option.map_eq_some_iff.1 h
    obtain ⟨length, -, back⟩ := mapM_eq_some hds
    have small : ∀ d ∈ ds, d < 16 := by
      intro d hd
      obtain ⟨c, -, hc⟩ := back d hd
      exact Hex.lt_of_value? hc
    have short : ds.length ≤ 4 := by
      rw [not_or] at hlength
      omega
    match ds, short with
    | [], _ => simp
    | [a], _ | [a, b], _ | [a, b, c], _ | [a, b, c, d], _ =>
      simp only [List.mem_cons, List.not_mem_nil, or_false, forall_eq_or_imp, forall_eq] at small
      simp only [List.foldl_cons, List.foldl_nil]
      omega

private theorem groups?_lt {pieces : List (List Char)} {groups : List Nat} (h : groups? pieces = some groups) :
    ∀ g ∈ groups, g < 65536 := by
  induction pieces using groups?.induct generalizing groups with
  | case1 =>
    obtain rfl := Option.some.inj h
    simp
  | case2 cs hpoint a b c d hread =>
    rw [groups?, if_pos hpoint, hread] at h
    obtain rfl := Option.some.inj h
    obtain ⟨-, small⟩ := parts_of_readV4? hread
    simp only [List.mem_cons, List.not_mem_nil, or_false, forall_eq_or_imp, forall_eq] at small ⊢
    omega
  | case3 cs hpoint hread =>
    rw [groups?, if_pos hpoint] at h
    split at h
    · rename_i a b c d hread'
      exact absurd hread' (hread a b c d)
    · cases h
  | case4 cs hpoint =>
    rw [groups?, if_neg hpoint] at h
    obtain ⟨g, hg, rfl⟩ := Option.map_eq_some_iff.1 h
    simpa using group?_lt hg
  | case5 cs rest hrest ih =>
    rw [groups?] at h
    · cases hfirst : group? cs with
      | none => simp [hfirst] at h
      | some g =>
        cases hlater : groups? rest with
        | none => simp [hlater] at h
        | some gs =>
          obtain rfl : g :: gs = groups := by simpa [hfirst, hlater] using h
          intro g' hg'
          rcases List.mem_cons.1 hg' with rfl | hg'
          · exact group?_lt hfirst
          · exact ih hlater g' hg'
    · exact hrest

private theorem side?_lt {cs : List Char} {groups : List Nat} (h : side? cs = some groups) :
    ∀ g ∈ groups, g < 65536 := by
  rw [side?] at h
  split at h
  · obtain rfl := Option.some.inj h
    simp
  · exact groups?_lt h

theorem parts_of_readV6? {cs : List Char} {groups : List Nat} (h : readV6? cs = some groups) :
    Parts 8 65536 groups := by
  rw [readV6?] at h
  split at h
  · obtain ⟨hread, hlength⟩ := Option.filter_eq_some_iff.1 h
    exact ⟨of_decide_eq_true hlength, groups?_lt hread⟩
  · rename_i before after _
    cases hbefore : side? before with
    | none => simp [hbefore] at h
    | some gs =>
      cases hafter : side? after with
      | none => simp [hbefore, hafter] at h
      | some gs' =>
        simp only [hbefore, hafter, Option.bind_eq_bind, Option.bind_some, Option.bind_none] at h
        split at h
        · cases h
        · split at h
          · rename_i hshort
            obtain rfl := Option.some.inj h
            refine ⟨by simp only [List.length_append, List.length_replicate]; omega, fun g hg => ?_⟩
            rcases List.mem_append.1 hg with hg | hg
            · rcases List.mem_append.1 hg with hg | hg
              · exact side?_lt hbefore g hg
              · rw [List.eq_of_mem_replicate hg]
                omega
            · exact side?_lt hafter g hg
          · cases h

/-- Reads an address of either version. -/
def read? (s : String) : Option Address :=
  match h : readV4? s.toList with
  | some octets => some (v4 octets (parts_of_readV4? h))
  | none =>
    match h : readV6? s.toList with
    | some groups => some (v6 groups (parts_of_readV6? h))
    | none => none

end Address

end RepoSearch.Http
