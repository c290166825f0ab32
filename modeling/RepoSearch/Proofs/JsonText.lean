import RepoSearch.Json.Printer
import RepoSearch.Json.Reader
import RepoSearch.Proofs.Numerals
import Mathlib.Data.List.TakeDrop
import Mathlib.Tactic.SplitIfs

/-!
# Values and their texts

A string that is written is read back (`readString_quote`), so its text shows where it ends.  The same holds of
numbers that no digit follows, and of arrays and objects, whose entries are followed by a comma or a closing mark.  Hence
two values whose numbers are all whole have the same text only if they are the same (`Whole.render_inj`).
-/

namespace RepoSearch.Json

/-! ### Strings -/

private theorem hex4?_control {n : Nat} (h : n < 0x20) :
    hex4? (some '0') (some '0') (some (Nat.digitChar (n / 16))) (some (Nat.digitChar (n % 16))) = some n := by
  have h0 : Hex.value? '0' = some 0 := by decide
  simp [hex4?, h0, Hex.value?_digitChar (show n / 16 < 16 by omega),
    Hex.value?_digitChar (show n % 16 < 16 by omega)]
  omega

/-- The forms in which a character is written. -/
private theorem escape_cases (c : Char) :
    (∃ d, escape c = ['\\', d] ∧ d ≠ 'u' ∧ shortEscape? d = some c) ∨
    (c.toNat < 0x20 ∧
      escape c = ['\\', 'u', '0', '0', Nat.digitChar (c.toNat / 16), Nat.digitChar (c.toNat % 16)]) ∨
    (escape c = [c] ∧ c ≠ '"' ∧ c ≠ '\\' ∧ ¬c.toNat < 0x20) := by
  obtain ⟨cs, h⟩ : ∃ cs, escape c = cs := ⟨_, rfl⟩
  rw [h]
  unfold escape at h
  split_ifs at h with h1 h2 h3 h4 h5 h6 h7 h8 <;> subst h
  · exact .inl ⟨'"', rfl, by decide, by rw [h1]; rfl⟩
  · exact .inl ⟨'\\', rfl, by decide, by rw [h2]; rfl⟩
  · exact .inl ⟨'b', rfl, by decide, by rw [h3]; rfl⟩
  · exact .inl ⟨'f', rfl, by decide, by rw [h4]; rfl⟩
  · exact .inl ⟨'n', rfl, by decide, by rw [h5]; rfl⟩
  · exact .inl ⟨'r', rfl, by decide, by rw [h6]; rfl⟩
  · exact .inl ⟨'t', rfl, by decide, by rw [h7]; rfl⟩
  · exact .inr (.inl ⟨h8, rfl⟩)
  · exact .inr (.inr ⟨rfl, h1, h2, h8⟩)

private theorem stringBody_escape (c : Char) (body cs : List Symbol) :
    stringBody body ((escape c).map some ++ cs) = stringBody (((escape c).map some).reverse ++ body) cs := by
  have plain : ∀ (d : Char) (body cs : List Symbol), d ≠ '"' → d ≠ '\\' → ¬d.toNat < 0x20 →
      stringBody body (some d :: cs) = stringBody (some d :: body) cs := by
    intro d body cs h1 h2 h3
    simp [stringBody, isControl, h1, h2, h3]
  rcases escape_cases c with ⟨d, h, -, -⟩ | ⟨hc, h⟩ | ⟨h, h1, h2, h3⟩
  · rw [h]
    simp [stringBody]
  · have digit : ∀ n < 16, Nat.digitChar n ≠ '"' ∧ Nat.digitChar n ≠ '\\' ∧ ¬(Nat.digitChar n).toNat < 0x20 := by
      decide
    obtain ⟨a1, a2, a3⟩ := digit (c.toNat / 16) (by omega)
    obtain ⟨b1, b2, b3⟩ := digit (c.toNat % 16) (by omega)
    rw [h]
    simp only [List.map_cons, List.map_nil, List.cons_append, List.nil_append, stringBody]
    rw [plain _ _ _ (by decide) (by decide) (by decide), plain _ _ _ (by decide) (by decide) (by decide),
      plain _ _ _ a1 a2 a3, plain _ _ _ b1 b2 b3]
    rfl
  · rw [h]
    exact plain c body cs h1 h2 h3

private theorem stringBody_quoted (s : List Char) (body cs : List Symbol) :
    stringBody body ((s.flatMap escape).map some ++ some '"' :: cs) =
      some (body.reverse ++ (s.flatMap escape).map some, cs) := by
  induction s generalizing body with
  | nil => simp [stringBody]
  | cons c s ih =>
    rw [List.flatMap_cons, List.map_append, List.append_assoc, stringBody_escape, ih]
    simp

private theorem unescape_escape (c : Char) (done : List Char) (cs : List Symbol) :
    unescape done ((escape c).map some ++ cs) = unescape (c :: done) cs := by
  rcases escape_cases c with ⟨d, h, hu, hd⟩ | ⟨hc, h⟩ | ⟨h, -, hb, -⟩
  · rw [h]
    simp [unescape, hu, hd]
  · have low : isLowSurrogate c.toNat = false := by simp [isLowSurrogate]; omega
    have high : isHighSurrogate c.toNat = false := by simp [isHighSurrogate]; omega
    rw [h]
    simp [unescape, hex4?_control hc, low, high]
  · rw [h]
    simp [unescape, hb]

private theorem unescape_flatMap_escape (s done : List Char) :
    unescape done ((s.flatMap escape).map some) = some (s.reverse ++ done) := by
  induction s generalizing done with
  | nil => rfl
  | cons c s ih =>
    rw [List.flatMap_cons, List.map_append, unescape_escape, ih]
    simp

/-- A string that is written is read back, whatever follows it. -/
theorem readString_quote (s : String) (cs : List Symbol) :
    readString .kept ((quote s).map some ++ cs) = some (s, cs) := by
  have body := stringBody_quoted s.toList [] cs
  have value : stringValue? ((s.toList.flatMap escape).map some) = some s := by
    simp [stringValue?, unescape_flatMap_escape]
  simp only [quote, List.map_cons, List.map_append, List.map_nil, List.cons_append, List.append_assoc,
    List.nil_append, readString, body]
  simp [Leaves.kept, value]

theorem quote_append_inj {s t : String} {xs ys : List Char} (h : quote s ++ xs = quote t ++ ys) :
    s = t ∧ xs = ys := by
  have hs := readString_quote s (xs.map some)
  rw [← List.map_append, h, List.map_append, readString_quote] at hs
  obtain ⟨hst, hxy⟩ : t = s ∧ ys.map some = xs.map some := by simpa using hs
  exact ⟨hst.symm, (List.map_inj_right fun _ _ => Option.some.inj).1 hxy.symm⟩

/-! ### Numbers -/

/-- A text that does not go on with a digit. -/
def NoDigit (xs : List Char) : Prop := ∀ c ∈ xs.head?, c.isDigit = false

private theorem isDigit_of_mem_digits {n : Nat} {c : Char} (hc : c ∈ Nat.toDigits 10 n) : c.isDigit = true :=
  Nat.isDigit_of_mem_toDigits (by omega) (by omega) hc

private theorem span_digits (n : Nat) {xs : List Char} (hx : NoDigit xs) :
    (Nat.toDigits 10 n ++ xs).span Char.isDigit = (Nat.toDigits 10 n, xs) := by
  have all : ∀ c ∈ Nat.toDigits 10 n, c.isDigit = true := fun c => isDigit_of_mem_digits
  rw [List.span_eq_takeWhile_dropWhile, List.takeWhile_append_of_pos all, List.dropWhile_append_of_pos all]
  cases xs with
  | nil => simp
  | cons c cs => simp [hx c rfl]

private theorem digits_append_inj {n m : Nat} {xs ys : List Char} (hx : NoDigit xs) (hy : NoDigit ys)
    (h : Nat.toDigits 10 n ++ xs = Nat.toDigits 10 m ++ ys) : n = m ∧ xs = ys := by
  have hs := span_digits n hx
  rw [h, span_digits m hy, Prod.mk.injEq] at hs
  refine ⟨?_, hs.2.symm⟩
  rw [← Nat.ofDigitChars_ten_toDigits (n := n), ← hs.1, Nat.ofDigitChars_ten_toDigits]

private theorem digits_ne_minus {n : Nat} {xs ys : List Char} : Nat.toDigits 10 n ++ xs ≠ '-' :: ys := by
  intro h
  obtain ⟨c, cs, hc⟩ := List.exists_cons_of_ne_nil (Nat.toDigits_ne_nil (n := n) (b := 10))
  rw [hc, List.cons_append, List.cons.injEq] at h
  have := isDigit_of_mem_digits (n := n) (c := c) (by simp [hc])
  rw [h.1] at this
  exact absurd this (by decide)

private theorem toList_renderInt (i : Int) : (Decimal.renderInt i).toList =
    match i with
    | .ofNat n => Nat.toDigits 10 n
    | .negSucc n => '-' :: Nat.toDigits 10 (n + 1) := by
  cases i <;> simp [Decimal.renderInt, Decimal.render]

private theorem renderInt_append_inj {i j : Int} {xs ys : List Char} (hx : NoDigit xs) (hy : NoDigit ys)
    (h : (Decimal.renderInt i).toList ++ xs = (Decimal.renderInt j).toList ++ ys) : i = j ∧ xs = ys := by
  rw [toList_renderInt, toList_renderInt] at h
  cases i with
  | ofNat n => cases j with
    | ofNat m =>
      obtain ⟨rfl, hxy⟩ := digits_append_inj hx hy h
      exact ⟨rfl, hxy⟩
    | negSucc m => exact absurd h digits_ne_minus
  | negSucc n => cases j with
    | ofNat m => exact absurd h.symm digits_ne_minus
    | negSucc m =>
      obtain ⟨hnm, hxy⟩ := digits_append_inj hx hy (List.cons.inj h).2
      exact ⟨by rw [Nat.succ.inj hnm], hxy⟩

/-! ### Values -/

/-- A value whose numbers are all whole. -/
inductive Whole : Json → Prop where
  | null : Whole .null
  | bool (b : Bool) : Whole (.bool b)
  | int (i : Int) : Whole (.int i)
  | str (s : String) : Whole (.str s)
  | arr {items : List Json} (h : ∀ v ∈ items, Whole v) : Whole (.arr items)
  | obj {members : List (String × Json)} (h : ∀ m ∈ members, Whole m.2) : Whole (.obj members)

/-- The kinds of values, numbered. -/
private def kind : Json → Nat
  | .null => 0
  | .bool _ => 1
  | .int _ | .decimal _ => 2
  | .str _ => 3
  | .arr _ => 4
  | .obj _ => 5

/-- The kind of the values whose text begins with a character. -/
private def kindAt : Char → Nat
  | 'n' => 0
  | 't' | 'f' => 1
  | '"' => 3
  | '[' => 4
  | '\x7b' => 5
  | _ => 2

private theorem kindAt_digit {c : Char} (hc : c.isDigit = true) : kindAt c = 2 := by
  unfold kindAt
  split <;> first | rfl | exact absurd hc (by decide)

private theorem Whole.exists_head {v : Json} (hv : Whole v) :
    ∃ c cs, v.chars = c :: cs ∧ kindAt c = kind v ∧ c ≠ ']' := by
  cases hv with
  | null => exact ⟨_, _, rfl, rfl, by decide⟩
  | bool b => cases b <;> exact ⟨_, _, rfl, rfl, by decide⟩
  | int i =>
    rw [chars, toList_renderInt]
    cases i with
    | ofNat n =>
      obtain ⟨c, cs, hc⟩ := List.exists_cons_of_ne_nil (Nat.toDigits_ne_nil (n := n) (b := 10))
      have hd : c.isDigit = true := isDigit_of_mem_digits (n := n) (by simp [hc])
      exact ⟨c, cs, hc, kindAt_digit hd, by rintro rfl; simp at hd⟩
    | negSucc n => exact ⟨_, _, rfl, rfl, by decide⟩
  | str s => exact ⟨_, _, rfl, rfl, by decide⟩
  | arr h => exact ⟨_, _, by rw [chars], rfl, by decide⟩
  | obj h => exact ⟨_, _, by rw [chars], rfl, by decide⟩

private theorem Whole.kind_eq {v w : Json} {xs ys : List Char} (hv : Whole v) (hw : Whole w)
    (h : v.chars ++ xs = w.chars ++ ys) : kind v = kind w := by
  obtain ⟨c, cs, hc, hk, -⟩ := hv.exists_head
  obtain ⟨d, ds, hd, hl, -⟩ := hw.exists_head
  rw [hc, hd, List.cons_append, List.cons_append, List.cons.injEq] at h
  rw [← hk, ← hl, h.1]

/-! ### Entries with commas between them -/

private theorem noDigit_cons {c : Char} (hc : c.isDigit = false) (cs : List Char) : NoDigit (c :: cs) := by
  rintro d ⟨⟩
  exact hc

/-- What follows an entry: a comma and the other entries, or the closing mark. -/
private def following (f : α → List Char) (close : Char) (xs : List Char) (as : List α) : List Char :=
  (match as with | [] => [] | _ => ',' :: [','].intercalate (as.map f)) ++ close :: xs

private theorem intercalate_append (f : α → List Char) (close : Char) (xs : List Char) (a : α) (as : List α) :
    [','].intercalate ((a :: as).map f) ++ close :: xs = f a ++ following f close xs as := by
  cases as <;> simp [following, List.intercalate_cons_cons]

private theorem noDigit_following (f : α → List Char) {close : Char} (hc : close.isDigit = false) (xs : List Char)
    (as : List α) : NoDigit (following f close xs as) := by
  cases as with
  | nil => exact noDigit_cons hc xs
  | cons a as => exact noDigit_cons (by decide) _

private theorem intercalate_eq_of_following {f : α → List Char} {close : Char} (hne : close ≠ ',') {as bs : List α}
    {xs ys : List Char} (h : following f close xs as = following f close ys bs) :
    [','].intercalate (as.map f) ++ close :: xs = [','].intercalate (bs.map f) ++ close :: ys := by
  cases as with
  | nil => cases bs with
    | nil => exact h
    | cons b bs => exact absurd (List.cons.inj h).1 hne
  | cons a as => cases bs with
    | nil => exact absurd (List.cons.inj h).1.symm hne
    | cons b bs => exact (List.cons.inj h).2

/-- If entries can be told apart by their texts, lists of entries can. -/
private theorem intercalate_append_inj {f : α → List Char} {close : Char} (hc : close.isDigit = false)
    (hne : close ≠ ',') {as bs : List α} {xs ys : List Char}
    (head : ∀ a, a ∈ as ∨ a ∈ bs → ∃ c cs, f a = c :: cs ∧ c ≠ close)
    (inj : ∀ a ∈ as, ∀ b ∈ bs, ∀ xs ys, NoDigit xs → NoDigit ys → f a ++ xs = f b ++ ys → a = b ∧ xs = ys)
    (h : [','].intercalate (as.map f) ++ close :: xs = [','].intercalate (bs.map f) ++ close :: ys) :
    as = bs ∧ xs = ys := by
  induction as generalizing bs with
  | nil => cases bs with
    | nil => simpa using h
    | cons b bs =>
      obtain ⟨c, cs, hb, hcc⟩ := head b (by simp)
      rw [intercalate_append, hb] at h
      exact absurd (List.cons.inj h).1.symm hcc
  | cons a as ih => cases bs with
    | nil =>
      obtain ⟨c, cs, ha, hcc⟩ := head a (by simp)
      rw [intercalate_append, ha] at h
      exact absurd (List.cons.inj h).1 hcc
    | cons b bs =>
      rw [intercalate_append, intercalate_append] at h
      obtain ⟨rfl, hf⟩ := inj a (by simp) b (by simp) _ _ (noDigit_following f hc xs as)
        (noDigit_following f hc ys bs) h
      obtain ⟨rfl, hxy⟩ := ih
        (fun x hx => head x (hx.imp (List.mem_cons_of_mem a) (List.mem_cons_of_mem a)))
        (fun x hx y hy => inj x (List.mem_cons_of_mem a hx) y (List.mem_cons_of_mem a hy))
        (intercalate_eq_of_following hne hf)
      exact ⟨rfl, hxy⟩

/-! ### Values by their texts -/

private theorem itemChars_eq (vs : List Json) : itemChars vs = [','].intercalate (vs.map chars) := by
  induction vs with
  | nil => rfl
  | cons v vs ih => cases vs with
    | nil => simp [itemChars]
    | cons w vs => simp [itemChars, ih, List.intercalate_cons_cons]

/-- The text of a member of an object. -/
private def memberText (m : String × Json) : List Char := quote m.1 ++ ':' :: m.2.chars

private theorem memberChars_eq (ms : List (String × Json)) :
    memberChars ms = [','].intercalate (ms.map memberText) := by
  induction ms with
  | nil => rfl
  | cons m ms ih => cases ms with
    | nil => simp [memberChars, memberText]
    | cons n ms => simp [memberChars, memberText, ih, List.intercalate_cons_cons]

/-- A value whose numbers are all whole can be told from all other such values by its text, whatever follows it, if
only no digit does. -/
theorem Whole.chars_append_inj {v w : Json} (hv : Whole v) (hw : Whole w) {xs ys : List Char} (hx : NoDigit xs)
    (hy : NoDigit ys) (h : v.chars ++ xs = w.chars ++ ys) : v = w ∧ xs = ys := by
  induction hv generalizing w xs ys with
  | null =>
    have hk := kind_eq .null hw h
    cases hw with
    | null => exact ⟨rfl, List.append_cancel_left h⟩
    | _ => simp [kind] at hk
  | bool b =>
    have hk := kind_eq (.bool b) hw h
    cases hw with
    | bool b' =>
      obtain rfl : b = b' := by
        cases b <;> cases b' <;> first | rfl | exact absurd (List.cons.inj h).1 (by decide)
      exact ⟨rfl, List.append_cancel_left h⟩
    | _ => simp [kind] at hk
  | int i =>
    have hk := kind_eq (.int i) hw h
    cases hw with
    | int j =>
      rw [chars, chars] at h
      obtain ⟨rfl, hxy⟩ := renderInt_append_inj hx hy h
      exact ⟨rfl, hxy⟩
    | _ => simp [kind] at hk
  | str s =>
    have hk := kind_eq (.str s) hw h
    cases hw with
    | str t =>
      rw [chars, chars] at h
      obtain ⟨rfl, hxy⟩ := quote_append_inj h
      exact ⟨rfl, hxy⟩
    | _ => simp [kind] at hk
  | arr hvs ih =>
    have hk := kind_eq (.arr hvs) hw h
    cases hw with
    | arr hws =>
      have head : ∀ v, Whole v → ∃ c cs, v.chars = c :: cs ∧ c ≠ ']' := fun v hv => by
        obtain ⟨c, cs, hc, -, hne⟩ := hv.exists_head
        exact ⟨c, cs, hc, hne⟩
      simp only [chars, itemChars_eq, List.cons_append, List.append_assoc, List.cons.injEq, true_and] at h
      obtain ⟨rfl, hxy⟩ := intercalate_append_inj (by decide) (by decide)
        (fun v hv => head v (hv.elim (hvs v) (hws v)))
        (fun v hv w hw xs ys hx hy h => ih v hv (hws w hw) hx hy h) h
      exact ⟨rfl, hxy⟩
    | _ => simp [kind] at hk
  | @obj ms hms ih =>
    have hk := kind_eq (.obj hms) hw h
    cases hw with
    | @obj ns hns =>
      simp only [chars, memberChars_eq, List.cons_append, List.append_assoc, List.cons.injEq, true_and] at h
      have inj : ∀ m ∈ ms, ∀ n ∈ ns, ∀ xs ys, NoDigit xs → NoDigit ys →
          memberText m ++ xs = memberText n ++ ys → m = n ∧ xs = ys := by
        intro m hm n hn xs ys hx hy h
        simp only [memberText, List.append_assoc] at h
        obtain ⟨hname, h⟩ := quote_append_inj h
        obtain ⟨hvalue, hxy⟩ := ih m hm (hns n hn) hx hy (List.cons.inj h).2
        exact ⟨Prod.ext hname hvalue, hxy⟩
      obtain ⟨rfl, hxy⟩ := intercalate_append_inj (by decide) (by decide) (fun m _ => ⟨_, _, rfl, by decide⟩) inj h
      exact ⟨rfl, hxy⟩
    | _ => simp [kind] at hk

/-- The text of a value whose numbers are all whole determines the value. -/
theorem Whole.render_inj {v w : Json} (hv : Whole v) (hw : Whole w) (h : v.render = w.render) : v = w := by
  have none : NoDigit [] := by simp [NoDigit]
  have texts : v.chars ++ [] = w.chars ++ [] := by rw [String.ofList_injective h]
  exact (hv.chars_append_inj hw none none texts).1

end RepoSearch.Json
