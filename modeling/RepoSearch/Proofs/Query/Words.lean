import RepoSearch.Text.Blank
import Mathlib.Tactic.SplitIfs

/-!
# Words of a text

The words of a text are not empty and have no blank. Two texts with blanks between them have the words of both.
-/

namespace RepoSearch.Text

/-- A text that is one word: it is not empty and has no blank. -/
structure IsWord (s : String) : Prop where
  nonempty : s ≠ ""
  unblank : ∀ c ∈ s.toList, isBlank c = false

/-- A text that separates words: it is not empty and has only blanks. -/
structure IsGap (s : String) : Prop where
  nonempty : s ≠ ""
  blank : ∀ c ∈ s.toList, isBlank c = true

instance (s : String) : Decidable (IsWord s) :=
  decidable_of_iff (s ≠ "" ∧ s.toList.all (!isBlank ·) = true)
    ⟨fun h => ⟨h.1, fun c hc => by simpa using List.all_eq_true.1 h.2 c hc⟩,
      fun h => ⟨h.nonempty, List.all_eq_true.2 fun c hc => by simp [h.unblank c hc]⟩⟩

instance (s : String) : Decidable (IsGap s) :=
  decidable_of_iff (s ≠ "" ∧ s.toList.all isBlank = true)
    ⟨fun h => ⟨h.1, List.all_eq_true.1 h.2⟩, fun h => ⟨h.nonempty, List.all_eq_true.2 h.blank⟩⟩

/-! ### Pieces between separators -/

/-- A piece between separators consists of characters that are none. -/
theorem forall_of_mem_splitOnP {p : Char → Bool} {cs piece : List Char} (h : piece ∈ cs.splitOnP p) :
    ∀ c ∈ piece, c ∈ cs ∧ p c = false := by
  induction cs generalizing piece with
  | nil =>
    rw [List.splitOnP_nil, List.mem_singleton] at h
    simp [h]
  | cons d ds ih =>
    intro c hc
    obtain ⟨first, rest, hsplit⟩ := List.exists_cons_of_ne_nil (List.splitOnP_ne_nil p ds)
    have hmem : ∀ piece ∈ first :: rest, ∀ c ∈ piece, c ∈ d :: ds ∧ p c = false := fun piece hpiece c hc =>
      (ih (hsplit ▸ hpiece) c hc).imp_left (List.mem_cons_of_mem d)
    rw [List.splitOnP_cons_eq_if_modifyHead, hsplit] at h
    split_ifs at h with hd
    · rcases List.mem_cons.1 h with rfl | h
      · cases hc
      · exact hmem piece h c hc
    · rw [List.modifyHead_cons] at h
      rcases List.mem_cons.1 h with rfl | h
      · rcases List.mem_cons.1 hc with rfl | hc
        · exact ⟨List.mem_cons_self, Bool.eq_false_iff.2 hd⟩
        · exact hmem first List.mem_cons_self c hc
      · exact hmem piece (List.mem_cons_of_mem first h) c hc

/-- A word of a text consists of characters of the text. -/
theorem isWord_of_mem_words {s word : String} (h : word ∈ words s) :
    IsWord word ∧ ∀ c ∈ word.toList, c ∈ s.toList := by
  rw [words, List.mem_map] at h
  obtain ⟨piece, hpiece, rfl⟩ := h
  obtain ⟨hpiece, hne⟩ := List.mem_filter.1 hpiece
  have hchars := forall_of_mem_splitOnP hpiece
  rw [String.toList_ofList]
  refine ⟨⟨?_, ?_⟩, fun c hc => (hchars c hc).1⟩
  · intro heq
    rw [← String.toList_inj, String.toList_ofList] at heq
    simp [heq] at hne
  · rw [String.toList_ofList]
    exact fun c hc => (hchars c hc).2

/-! ### Words of composed texts -/

theorem IsWord.words_eq {s : String} (h : IsWord s) : words s = [s] := by
  have hne : s.toList ≠ [] := fun hnil => h.nonempty (String.toList_inj.1 hnil)
  rw [words, List.splitOnP_eq_singleton fun c hc => by simp [h.unblank c hc]]
  simp [hne]

private theorem words_append_cons {c : Char} (hc : isBlank c = true) (cs ds : List Char) :
    words (String.ofList (cs ++ c :: ds)) = words (String.ofList cs) ++ words (String.ofList ds) := by
  simp only [words, String.toList_ofList]
  rw [List.splitOnP_append_cons cs ds hc, List.filter_append, List.map_append]

private theorem words_blanks_append {cs : List Char} (hcs : ∀ c ∈ cs, isBlank c = true) (ds : List Char) :
    words (String.ofList (cs ++ ds)) = words (String.ofList ds) := by
  induction cs with
  | nil => rfl
  | cons c cs ih =>
    have := words_append_cons (hcs c List.mem_cons_self) [] (cs ++ ds)
    rw [List.nil_append] at this
    rw [List.cons_append, this, ih fun d hd => hcs d (List.mem_cons_of_mem c hd)]
    rfl

/-- Two texts with a gap between them have the words of both. -/
theorem words_append_gap {gap : String} (h : IsGap gap) (s t : String) : words (s ++ gap ++ t) = words s ++ words t := by
  obtain ⟨c, cs, hgap⟩ := List.exists_cons_of_ne_nil (l := gap.toList) fun hnil => h.nonempty (String.toList_inj.1 hnil)
  have hblank := h.blank
  rw [hgap] at hblank
  have hchars : s ++ gap ++ t = String.ofList (s.toList ++ c :: (cs ++ t.toList)) := by
    rw [← String.toList_inj, String.toList_ofList, String.toList_append, String.toList_append, hgap]
    simp
  rw [hchars, words_append_cons (hblank c List.mem_cons_self),
    words_blanks_append fun d hd => hblank d (List.mem_cons_of_mem c hd), String.ofList_toList, String.ofList_toList]

/-- Texts with gaps between them have the words of all. -/
theorem words_intercalate {gap : String} (h : IsGap gap) (texts : List String) :
    words (gap.intercalate texts) = texts.flatMap words := by
  induction texts with
  | nil => rfl
  | cons s texts ih =>
    cases texts with
    | nil => simp
    | cons t texts =>
      rw [String.intercalate_cons_cons, words_append_gap h, ih]
      rfl

theorem flatMap_words {texts : List String} (h : ∀ s ∈ texts, IsWord s) : texts.flatMap words = texts := by
  induction texts with
  | nil => rfl
  | cons s texts ih =>
    rw [List.flatMap_cons, (h s List.mem_cons_self).words_eq, ih fun t ht => h t (List.mem_cons_of_mem s ht)]
    rfl

/-- There is nothing to trim off a text without blanks. -/
theorem trim_of_unblank {s : String} (h : ∀ c ∈ s.toList, isBlank c = false) : trim s = s := by
  have hleft : ∀ cs : List Char, (∀ c ∈ cs, isBlank c = false) → trimLeft cs = cs := by
    intro cs hcs
    cases cs with
    | nil => rfl
    | cons c cs => exact List.dropWhile_cons_of_neg (by simp [hcs c List.mem_cons_self])
  have hreverse : ∀ c ∈ s.toList.reverse, isBlank c = false := fun c hc => h c (List.mem_reverse.1 hc)
  rw [trim, hleft s.toList h, trimRight, hleft _ hreverse, List.reverse_reverse, String.ofList_toList]

end RepoSearch.Text
