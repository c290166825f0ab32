import RepoSearch.Proofs.Engine.OwnSlots
import RepoSearch.Proofs.Http.Address
import RepoSearch.Service.Slot

/-!
# Slots of clients

The slot that a client names is told from those of all other clients, whatever the name may be: the first slash in it
ends the text of the client's address, which has none. The slot of a search that names none has no slash at all.
-/

namespace RepoSearch.Service

open Http Engine

/-- The name that a request gives to its slot, as far as it counts. -/
def slotName? (headers : List Header) : Option String :=
  (((Header.find? headers slotHeader).map Text.trim).filter (!·.isEmpty)).map fun name =>
    String.ofList (name.toList.take maxSlotLength)

theorem slot?_eq (headers : List Header) (client : String) :
    slot? headers client = (slotName? headers).map fun name => client ++ "/" ++ name := by
  rw [slot?, slotName?, Option.map_map]
  rfl

private theorem takeWhile_slot {client : String} (h : '/' ∉ client.toList) (name : String) :
    (client ++ "/" ++ name).toList.takeWhile (· ≠ '/') = client.toList ∧
    (client ++ "/" ++ name).toList.dropWhile (· ≠ '/') = '/' :: name.toList := by
  have before : ∀ c ∈ client.toList, decide (c ≠ '/') = true := by
    intro c hc
    rw [decide_eq_true_eq]
    rintro rfl
    exact h hc
  have text : (client ++ "/" ++ name).toList = client.toList ++ '/' :: name.toList := by
    rw [String.toList_append, String.toList_append, List.append_assoc]
    rfl
  rw [text, List.takeWhile_append_of_pos before, List.dropWhile_append_of_pos before]
  simp

private theorem slot_inj {client client' name name' : String} (h : '/' ∉ client.toList) (h' : '/' ∉ client'.toList)
    (heq : client ++ "/" ++ name = client' ++ "/" ++ name') : client = client' ∧ name = name' := by
  obtain ⟨before, after⟩ := takeWhile_slot h name
  obtain ⟨before', after'⟩ := takeWhile_slot h' name'
  rw [heq, before'] at before
  rw [heq, after'] at after
  exact ⟨String.toList_inj.1 before.symm, String.toList_inj.1 (List.cons.inj after).2.symm⟩

private theorem ownSlot_ne (g : Nat) (client name : String) : ownSlot g ≠ client ++ "/" ++ name := by
  intro heq
  have slash : '/' ∈ (ownSlot g).toList := by
    rw [heq]
    simp
  rw [ownSlot, String.toList_append, List.mem_append] at slash
  rcases slash with slash | slash
  · exact absurd slash (by decide)
  · exact absurd (Decimal.isDigit_of_mem_render slash) (by decide)

/-- Two searches meet in a slot only if they come from one address with one name for the slot, unless they are the same. -/
theorem slot_eq_cases {headers headers' : List Header} {a a' : Address} {g g' : Nat}
    (h : (slot? headers a.render).getD (ownSlot g) = (slot? headers' a'.render).getD (ownSlot g')) :
    g = g' ∨ a = a' ∧ ∃ name, slotName? headers = some name ∧ slotName? headers' = some name := by
  rw [slot?_eq, slot?_eq] at h
  cases hname : slotName? headers with
  | none =>
    cases hname' : slotName? headers' with
    | none =>
      rw [hname, hname'] at h
      exact .inl (ownSlot_inj h)
    | some name' =>
      rw [hname, hname'] at h
      exact absurd h (ownSlot_ne g _ _)
  | some name =>
    cases hname' : slotName? headers' with
    | none =>
      rw [hname, hname'] at h
      exact absurd h.symm (ownSlot_ne g' _ _)
    | some name' =>
      rw [hname, hname'] at h
      obtain ⟨hclient, rfl⟩ := slot_inj a.slash_notMem_render a'.slash_notMem_render h
      exact .inr ⟨Address.render_inj hclient, name, rfl, rfl⟩

end RepoSearch.Service
