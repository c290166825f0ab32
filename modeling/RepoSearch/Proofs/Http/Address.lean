import RepoSearch.Http.Address
import RepoSearch.Proofs.Numerals
import Mathlib.Tactic.SplitIfs

/-!
# Addresses are read back

The text of an address is read as that address again, so different addresses have different texts. The text consists
of hexadecimal digits, points and colons.
-/

namespace RepoSearch.Http.Address

/-! ### Joined texts -/

private theorem mem_intercalate {α : Type} {x y : α} {ls : List (List α)} (hy : y ∈ [x].intercalate ls) :
    y = x ∨ ∃ l ∈ ls, y ∈ l := by
  induction ls with
  | nil => simp at hy
  | cons l ls ih =>
    cases ls with
    | nil =>
      rw [List.intercalate_singleton] at hy
      exact .inr ⟨l, by simp, hy⟩
    | cons l' ls =>
      rw [List.intercalate_cons_cons, List.append_assoc, List.mem_append] at hy
      rcases hy with hy | hy
      · exact .inr ⟨l, by simp, hy⟩
      · rcases List.mem_cons.1 hy with hy | hy
        · exact .inl hy
        · rcases ih hy with hx | ⟨l'', hl'', hy⟩
          · exact .inl hx
          · exact .inr ⟨l'', List.mem_cons_of_mem l hl'', hy⟩

theorem toList_dotted (octets : List Nat) :
    (dotted octets).toList = ['.'].intercalate (octets.map (Nat.toDigits 10)) := by
  rw [dotted, String.toList_intercalate, List.map_map]
  exact congrArg _ (List.map_congr_left fun n _ => Decimal.toList_render n)

theorem toList_colons (groups : List Nat) :
    (colons groups).toList = [':'].intercalate (groups.map (Nat.toDigits 16)) := by
  rw [colons, String.toList_intercalate, List.map_map]
  exact congrArg _ (List.map_congr_left fun n _ => String.toList_ofList)

/-- The characters that the texts of addresses consist of. -/
def IsTextChar (c : Char) : Prop :=
  c = '.' ∨ c = ':' ∨ ∃ d < 16, c = Nat.digitChar d

private theorem isTextChar_of_mem_dotted {octets : List Nat} {c : Char} (hc : c ∈ (dotted octets).toList) :
    c = '.' ∨ ∃ d < 10, c = Nat.digitChar d := by
  rw [toList_dotted] at hc
  rcases mem_intercalate hc with hc | ⟨l, hl, hc⟩
  · exact .inl hc
  · obtain ⟨n, -, rfl⟩ := List.mem_map.1 hl
    exact .inr (digit_of_mem_toDigits (by omega) hc)

private theorem isTextChar_of_mem_colons {groups : List Nat} {c : Char} (hc : c ∈ (colons groups).toList) :
    c = ':' ∨ ∃ d < 16, c = Nat.digitChar d := by
  rw [toList_colons] at hc
  rcases mem_intercalate hc with hc | ⟨l, hl, hc⟩
  · exact .inl hc
  · obtain ⟨n, -, rfl⟩ := List.mem_map.1 hl
    exact .inr (digit_of_mem_toDigits (by omega) hc)

theorem isTextChar_of_mem_render {a : Address} {c : Char} (hc : c ∈ a.render.toList) : IsTextChar c := by
  have points : ∀ {octets : List Nat}, c ∈ (dotted octets).toList → IsTextChar c := fun hc =>
    (isTextChar_of_mem_dotted hc).imp_right fun ⟨d, hd, hdigit⟩ => .inr ⟨d, by omega, hdigit⟩
  have groups : ∀ {groups : List Nat}, c ∈ (colons groups).toList → IsTextChar c := fun hc =>
    .inr (isTextChar_of_mem_colons hc)
  cases a with
  | v4 _ _ => exact points hc
  | v6 _ _ =>
    rw [render, compact.eq_def] at hc
    split at hc
    · rw [String.toList_append, List.mem_append] at hc
      rcases hc with hc | hc
      · have mark : "::ffff:".toList.all (fun c => c = ':' ∨ c = 'f') = true := by decide
        rcases of_decide_eq_true (List.all_eq_true.1 mark c hc) with rfl | rfl
        · exact .inr (.inl rfl)
        · exact .inr (.inr ⟨15, by omega, rfl⟩)
      · exact points hc
    · dsimp only at hc
      split_ifs at hc
      · rw [String.toList_append, String.toList_append, List.mem_append, List.mem_append] at hc
        rcases hc with (hc | hc) | hc
        · exact groups hc
        · have double : c = ':' := by simpa using hc
          exact .inr (.inl double)
        · exact groups hc
      · exact groups hc

theorem slash_notMem_render (a : Address) : '/' ∉ a.render.toList := by
  intro hc
  rcases isTextChar_of_mem_render hc with h | h | ⟨d, -, h⟩
  · exact absurd h (by decide)
  · exact absurd h (by decide)
  · exact Nat.digitChar_ne '/' rfl h.symm

/-! ### Reading -/

private theorem mapM_map_eq {α β : Type} {f : α → β} {g : β → Option α} {l : List α}
    (h : ∀ x ∈ l, g (f x) = some x) : (l.map f).mapM g = some l := by
  induction l with
  | nil => rfl
  | cons x l ih =>
    have first := h x List.mem_cons_self
    have rest := ih fun y hy => h y (List.mem_cons_of_mem x hy)
    simp [List.mapM_cons, first, rest]

private theorem octet?_toDigits {n : Nat} (hn : n < 256) : octet? (Nat.toDigits 10 n) = some n := by
  have length : (Nat.toDigits 10 n).length ≤ 3 := (Nat.length_toDigits_le_iff (by omega) (by omega)).2 (by omega)
  have leading : (Nat.toDigits 10 n).length = 1 ∨ (Nat.toDigits 10 n).head? ≠ some '0' := by
    by_cases h0 : n = 0
    · left
      rw [h0, Nat.toDigits_zero]
      rfl
    · exact .inr (Decimal.head?_toDigits h0)
  have value : Decimal.ofDigits? (Nat.toDigits 10 n) = some n := by
    rw [← Decimal.toList_render]
    exact Decimal.ofDigits?_render n
  rw [octet?, if_pos ⟨length, leading⟩, value]
  simp
  omega

private theorem readV4?_dotted {octets : List Nat} (h : Parts 4 256 octets) :
    readV4? (dotted octets).toList = some octets := by
  obtain ⟨length, small⟩ := h
  have pieces : (dotted octets).toList.splitOn '.' = octets.map (Nat.toDigits 10) := by
    rw [toList_dotted]
    refine List.splitOn_intercalate '.' ?_ ?_
    · intro l hl hpoint
      obtain ⟨n, -, rfl⟩ := List.mem_map.1 hl
      obtain ⟨d, -, hd⟩ := digit_of_mem_toDigits (by omega) hpoint
      exact Nat.digitChar_ne '.' rfl hd.symm
    · intro hnil
      rw [List.map_eq_nil_iff.1 hnil] at length
      cases length
  rw [readV4?, pieces, mapM_map_eq fun n hn => octet?_toDigits (small n hn)]
  simp [length]

private theorem readV4?_eq_none {cs : List Char} (h : ':' ∈ cs) : readV4? cs = none := by
  have joined : ['.'].intercalate (cs.splitOn '.') = cs := List.intercalate_splitOn '.'
  rw [← joined] at h
  rcases mem_intercalate h with h | ⟨l, hl, h⟩
  · exact absurd h (by decide)
  · rw [readV4?, Option.filter_eq_none_iff]
    intro octets hoctets
    -- The piece with the colon would have to be an octet.
    obtain ⟨n, hn⟩ := (mapM_eq_some hoctets).2.1 l hl
    rw [octet?] at hn
    split_ifs at hn
    rw [Decimal.ofDigits?] at hn
    split_ifs at hn with hdigits
    · rw [Bool.and_eq_true, List.all_eq_true] at hdigits
      exact absurd (hdigits.2 ':' h) (by decide)
    · simp at hn

private theorem group?_toDigits {n : Nat} (hn : n < 65536) : group? (Nat.toDigits 16 n) = some n := by
  have length : (Nat.toDigits 16 n).length ≤ 4 := (Nat.length_toDigits_le_iff (by omega) (by omega)).2 (by omega)
  have fits : ¬((Nat.toDigits 16 n).isEmpty = true ∨ 4 < (Nat.toDigits 16 n).length) := by
    rw [List.isEmpty_iff]
    rintro (hnil | hlong)
    · exact Nat.toDigits_ne_nil hnil
    · omega
  obtain ⟨ds, hds, hvalue⟩ := Hex.exists_values_toDigits n
  rw [group?, if_neg fits, hds, Option.map_some, hvalue]

private theorem point_notMem_toDigits (n : Nat) : (Nat.toDigits 16 n).contains '.' = false := by
  rw [List.contains_eq_mem, decide_eq_false_iff_not]
  intro hpoint
  obtain ⟨d, -, hd⟩ := digit_of_mem_toDigits (by omega) hpoint
  exact Nat.digitChar_ne '.' rfl hd.symm

private theorem colon_notMem_toDigits (n : Nat) : ':' ∉ Nat.toDigits 16 n := by
  intro hcolon
  obtain ⟨d, -, hd⟩ := digit_of_mem_toDigits (by omega) hcolon
  exact Nat.digitChar_ne ':' rfl hd.symm

private theorem groups?_map {groups : List Nat} (h : ∀ g ∈ groups, g < 65536) :
    groups? (groups.map (Nat.toDigits 16)) = some groups := by
  induction groups with
  | nil => rfl
  | cons g groups ih =>
    have first := group?_toDigits (h g List.mem_cons_self)
    have rest := ih fun g' hg' => h g' (List.mem_cons_of_mem g hg')
    cases groups with
    | nil =>
      rw [List.map_singleton, groups?, if_neg (by rw [point_notMem_toDigits]; exact Bool.false_ne_true), first]
      rfl
    | cons g' groups =>
      rw [List.map_cons, List.map_cons] at *
      rw [groups?, first, rest]
      · rfl
      · simp

private theorem splitOn_colons {groups : List Nat} (h : groups ≠ []) :
    (colons groups).toList.splitOn ':' = groups.map (Nat.toDigits 16) := by
  rw [toList_colons]
  refine List.splitOn_intercalate ':' ?_ ?_
  · intro l hl
    obtain ⟨n, -, rfl⟩ := List.mem_map.1 hl
    exact colon_notMem_toDigits n
  · rwa [ne_eq, List.map_eq_nil_iff]

private theorem groups?_splitOn_colons {groups : List Nat} (h : ∀ g ∈ groups, g < 65536) (hne : groups ≠ []) :
    groups? ((colons groups).toList.splitOn ':') = some groups := by
  rw [splitOn_colons hne, groups?_map h]

private theorem side?_colons {groups : List Nat} (h : ∀ g ∈ groups, g < 65536) :
    side? (colons groups).toList = some groups := by
  cases groups with
  | nil => rfl
  | cons g groups =>
    have written : (colons (g :: groups)).toList.isEmpty = false := by
      rw [toList_colons, List.isEmpty_eq_false_iff]
      intro hnil
      cases groups with
      | nil =>
        rw [List.map_singleton, List.intercalate_singleton] at hnil
        exact Nat.toDigits_ne_nil hnil
      | cons g' groups => simp [List.intercalate_cons_cons] at hnil
    rw [side?, written, if_neg Bool.false_ne_true]
    exact groups?_splitOn_colons h (List.cons_ne_nil g groups)

/-! ### The double colon -/

private theorem cutDouble_append_of_notMem {cs : List Char} (h : ':' ∉ cs) (tail : List Char) :
    cutDouble (cs ++ tail) = (cutDouble tail).map fun (a, b) => (cs ++ a, b) := by
  induction cs with
  | nil => simp
  | cons c cs ih =>
    have hc : c ≠ ':' := fun hc => h (hc ▸ List.mem_cons_self)
    have rest := ih fun hcs => h (List.mem_cons_of_mem c hcs)
    rw [List.cons_append, cutDouble, rest, Option.map_map]
    · rfl
    · rintro cs' rfl -
      exact hc rfl

private theorem cutDouble_colon_cons {c : Char} (hc : c ≠ ':') (cs : List Char) :
    cutDouble (':' :: c :: cs) = (cutDouble (c :: cs)).map fun (a, b) => (':' :: a, b) := by
  rw [cutDouble]
  rintro cs' - hcs
  exact hc (List.cons.inj hcs).1

/-- Groups hold no double colon, and neither do their joints. -/
private theorem cutDouble_colons_append (groups : List Nat) (tail : List Char) :
    cutDouble ((colons groups).toList ++ tail) =
      (cutDouble tail).map fun (a, b) => ((colons groups).toList ++ a, b) := by
  simp only [toList_colons]
  induction groups with
  | nil => simp
  | cons g groups ih =>
    cases groups with
    | nil =>
      rw [List.map_singleton, List.intercalate_singleton]
      exact cutDouble_append_of_notMem (colon_notMem_toDigits g) tail
    | cons g' groups =>
      obtain ⟨c, cs, hcs⟩ := List.exists_cons_of_ne_nil (Nat.toDigits_ne_nil (n := g') (b := 16))
      have hc : c ≠ ':' := by
        rintro rfl
        exact colon_notMem_toDigits g' (hcs ▸ List.mem_cons_self)
      obtain ⟨rest, hrest⟩ : ∃ rest, [':'].intercalate ((g' :: groups).map (Nat.toDigits 16)) = c :: rest := by
        cases groups <;> simp [List.intercalate_cons_cons, hcs]
      rw [hrest, List.cons_append] at ih
      rw [List.map_cons, List.map_cons, List.intercalate_cons_cons, ← List.map_cons, hrest, List.append_assoc,
        List.append_assoc, cutDouble_append_of_notMem (colon_notMem_toDigits g), List.singleton_append,
        List.cons_append, cutDouble_colon_cons hc, ih]
      simp [Option.map_map, Function.comp_def]

private theorem cutDouble_colons (groups : List Nat) : cutDouble (colons groups).toList = none := by
  have h := cutDouble_colons_append groups []
  rwa [List.append_nil] at h

private theorem cutDouble_split (before : List Nat) (after : List Char) :
    cutDouble ((colons before).toList ++ ':' :: ':' :: after) = some ((colons before).toList, after) := by
  rw [cutDouble_colons_append, cutDouble]
  simp

/-! ### Runs of zeros -/

private theorem take_zeros (groups : List Nat) : groups.take (zeros groups) = List.replicate (zeros groups) 0 := by
  induction groups with
  | nil => rfl
  | cons g groups ih =>
    by_cases hg : g = 0
    · have hzeros : zeros (g :: groups) = zeros groups + 1 := by simp [zeros, hg]
      rw [hzeros, List.take_succ_cons, ih, hg, List.replicate_succ]
    · simp [zeros, hg]

private theorem zeros_le (groups : List Nat) : zeros groups ≤ groups.length :=
  (List.takeWhile_sublist _).length_le

/-- The groups consist of those before the longest run of zeros, the run itself, and those after it. -/
private theorem longestZeros_spec (groups : List Nat) :
    (longestZeros groups).1 + (longestZeros groups).2 ≤ groups.length ∧
    groups.take (longestZeros groups).1 ++ List.replicate (longestZeros groups).2 0 ++
      groups.drop ((longestZeros groups).1 + (longestZeros groups).2) = groups := by
  induction groups with
  | nil => exact ⟨Nat.le_refl 0, rfl⟩
  | cons g groups ih =>
    obtain ⟨bound, parts⟩ := ih
    rw [longestZeros]
    dsimp only
    split_ifs with hlonger
    · refine ⟨by rw [Nat.zero_add]; exact zeros_le _, ?_⟩
      rw [List.take_zero, List.nil_append, Nat.zero_add, ← take_zeros, List.take_append_drop]
    · constructor
      · rw [List.length_cons]
        omega
      · rw [Nat.add_right_comm, List.take_succ_cons, List.drop_succ_cons, List.cons_append, List.cons_append, parts]

/-! ### Texts of addresses -/

private theorem readV6?_colons {groups : List Nat} (h : Parts 8 65536 groups) :
    readV6? (colons groups).toList = some groups := by
  obtain ⟨length, small⟩ := h
  have hne : groups ≠ [] := List.ne_nil_of_length_eq_add_one length
  rw [readV6?, cutDouble_colons]
  dsimp only
  rw [groups?_splitOn_colons small hne]
  simp [length]

/-- At least two groups of zeros have been left out. -/
private theorem readV6?_shortened {before after : List Nat} {length : Nat} (hlong : 1 < length)
    (h : Parts 8 65536 (before ++ List.replicate length 0 ++ after)) :
    readV6? (colons before ++ "::" ++ colons after).toList = some (before ++ List.replicate length 0 ++ after) := by
  obtain ⟨total, small⟩ := h
  rw [List.length_append, List.length_append, List.length_replicate] at total
  have readBefore : side? (colons before).toList = some before := side?_colons fun g hg => small g (by simp [hg])
  have readAfter : side? (colons after).toList = some after := side?_colons fun g hg => small g (by simp [hg])
  have pointless : '.' ∉ (colons before).toList := by
    intro hpoint
    rcases isTextChar_of_mem_colons hpoint with hcolon | ⟨d, -, hd⟩
    · exact absurd hcolon (by decide)
    · exact Nat.digitChar_ne '.' rfl hd.symm
  have text : (colons before ++ "::" ++ colons after).toList =
      (colons before).toList ++ ':' :: ':' :: (colons after).toList := by
    rw [String.toList_append, String.toList_append, List.append_assoc]
    rfl
  have missing : 8 - before.length - after.length = length := by omega
  have fewer : before.length + after.length < 8 := by omega
  rw [text, readV6?, cutDouble_split]
  simp [readBefore, readAfter, pointless, missing, fewer]

private theorem readV6?_mapped {a b : Nat} (ha : a < 65536) (hb : b < 65536) :
    readV6? ("::ffff:" ++ dotted [a / 256, a % 256, b / 256, b % 256]).toList =
      some [0, 0, 0, 0, 0, 0xFFFF, a, b] := by
  have parts : Parts 4 256 [a / 256, a % 256, b / 256, b % 256] := by
    refine ⟨rfl, fun o ho => ?_⟩
    simp only [List.mem_cons, List.not_mem_nil, or_false] at ho
    omega
  have octets := readV4?_dotted parts
  generalize hd : (dotted [a / 256, a % 256, b / 256, b % 256]).toList = d at octets
  have colon : ':' ∉ d := by
    intro hcolon
    rw [readV4?_eq_none hcolon] at octets
    cases octets
  have point : d.contains '.' = true := by
    rw [List.contains_eq_mem, decide_eq_true_eq, ← hd, toList_dotted]
    simp [List.intercalate_cons_cons]
  have pieces : ("ffff".toList ++ ':' :: d).splitOn ':' = ["ffff".toList, d] := by
    have joined : "ffff".toList ++ ':' :: d = [':'].intercalate ["ffff".toList, d] := by
      simp [List.intercalate_cons_cons]
    rw [joined]
    refine List.splitOn_intercalate ':' ?_ (List.cons_ne_nil _ _)
    intro l hl
    rcases List.mem_cons.1 hl with rfl | hl
    · decide
    · rwa [List.mem_singleton.1 hl]
  have side : side? ("ffff".toList ++ ':' :: d) = some [0xFFFF, a, b] := by
    have first : group? "ffff".toList = some 0xFFFF := by decide
    have last : groups? [d] = some [a, b] := by
      rw [groups?, if_pos point, octets]
      simp only [Option.some.injEq, List.cons.injEq, and_true]
      omega
    rw [side?, pieces, groups?, first, last]
    · rfl
    · simp
  have text : ("::ffff:" ++ dotted [a / 256, a % 256, b / 256, b % 256]).toList =
      ':' :: ':' :: ("ffff".toList ++ ':' :: d) := by
    rw [String.toList_append, hd]
    rfl
  have nothing : side? [] = some [] := rfl
  rw [text, readV6?, cutDouble]
  generalize "ffff".toList ++ ':' :: d = rest at side
  simp [side, nothing]

private theorem read?_of_readV4? {s : String} {octets : List Nat} (h : readV4? s.toList = some octets) :
    read? s = some (v4 octets (parts_of_readV4? h)) := by
  unfold read?
  split
  · rename_i octets' h'
    obtain rfl := Option.some.inj (h'.symm.trans h)
    rfl
  · rename_i h'
    cases h'.symm.trans h

private theorem read?_of_readV6? {s : String} {groups : List Nat} (hcolon : ':' ∈ s.toList)
    (h : readV6? s.toList = some groups) : read? s = some (v6 groups (parts_of_readV6? h)) := by
  unfold read?
  split
  · rename_i octets h'
    cases h'.symm.trans (readV4?_eq_none hcolon)
  · split
    · rename_i groups' h'
      obtain rfl := Option.some.inj (h'.symm.trans h)
      rfl
    · rename_i h'
      cases h'.symm.trans h

private theorem readV6?_compact {groups : List Nat} (h : Parts 8 65536 groups) :
    ':' ∈ (compact groups).toList ∧ readV6? (compact groups).toList = some groups := by
  rw [compact.eq_def]
  split
  · rename_i a b
    exact ⟨by simp, readV6?_mapped (h.2 a (by simp)) (h.2 b (by simp))⟩
  · obtain ⟨-, parts⟩ := longestZeros_spec groups
    dsimp only
    split_ifs with hlong
    · have hread := readV6?_shortened hlong (parts.symm ▸ h)
      rw [parts] at hread
      exact ⟨by simp, hread⟩
    · refine ⟨?_, readV6?_colons h⟩
      obtain ⟨length, -⟩ := h
      rw [toList_colons]
      match groups, length with
      | g :: g' :: groups, _ => simp [List.intercalate_cons_cons]

/-- The text of an address is read as that address. -/
theorem read?_render (a : Address) : read? a.render = some a := by
  cases a with
  | v4 octets parts => exact read?_of_readV4? (readV4?_dotted parts)
  | v6 groups parts =>
    obtain ⟨hcolon, hread⟩ := readV6?_compact parts
    exact read?_of_readV6? hcolon hread

/-- Different addresses have different texts. -/
theorem render_inj {a b : Address} (h : a.render = b.render) : a = b := by
  have hread := read?_render a
  rw [h, read?_render] at hread
  exact (Option.some.inj hread).symm

/-- The double colon stands for the first of the longest runs of zeros. -/
example : (v6 [0x2001, 0xDB8, 0, 0, 1, 0, 0, 1]).render = "2001:db8::1:0:0:1" := by decide +kernel

end RepoSearch.Http.Address
