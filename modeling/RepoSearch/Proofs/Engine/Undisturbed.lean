import RepoSearch.Proofs.Engine.SingleFlight
import RepoSearch.Proofs.Engine.Unfinished

/-!
# The engine's runs among the interleavings

The engine lets a search go from its beginning until it waits, and from the end of its wait to its own end, without any
other search coming between. An interleaving may do the same, so whatever happens in a run of the engine happens in an
interleaving. Between two steps of the engine the searches under way are those that wait, and each part of a step is a
sequence of moves of one search, of which the others take no notice.
-/

namespace RepoSearch

namespace Engine

/-! ### The engine without its waiting searches -/

def bare (e : Engine) : Engine := { e with waiting := [] }

@[simp] theorem bare_setup (e : Engine) : e.bare.setup = e.setup := rfl
@[simp] theorem bare_nextId (e : Engine) : e.bare.nextId = e.nextId := rfl
@[simp] theorem bare_slots (e : Engine) : e.bare.slots = e.slots := rfl
@[simp] theorem bare_flights (e : Engine) : e.bare.flights = e.flights := rfl
@[simp] theorem bare_cache (e : Engine) : e.bare.cache = e.cache := rfl

private theorem claim_bare (e : Engine) (caller : String) (slot : Option String) (criteria : Criteria) :
    e.bare.claim caller slot criteria = ((e.claim caller slot criteria).1, (e.claim caller slot criteria).2.bare) := by
  simp only [claim, draw, bare_nextId, bare_slots]
  cases e.slots[slot.getD (ownSlot e.nextId)]? <;> rfl

private theorem join_bare (e : Engine) (criteria : Criteria) :
    e.bare.join criteria = ((e.join criteria).1, (e.join criteria).2.bare) := by
  simp only [join, bare_flights]
  cases e.flights[criteria.cacheKey]? <;> rfl

private theorem leave_bare (e : Engine) (key : String) (fetch : Nat) :
    e.bare.leave key fetch = (e.leave key fetch).bare := by
  simp only [leave, bare_flights]
  cases e.flights[key]? with
  | none => rfl
  | some f =>
    dsimp only
    split_ifs <;> rfl

private theorem release_bare (e : Engine) (s : Search) : e.bare.release s = (e.release s).bare := by
  unfold release
  rw [bare_slots]
  split_ifs <;> rfl

/-- The actions of a search do not depend on who waits. -/
theorem act_bare (e : Engine) (p : Progress) : e.bare.act p = ((e.act p).1, (e.act p).2.bare) := by
  unfold act
  cases p.stage with
  | claimed =>
    simp only [lookUp_eq, bare_cache, bare_setup]
    cases (e.cache.get p.key e.setup.clock).1 <;> rfl
  | missed =>
    dsimp only
    rw [join_bare]
  | leaving fetch result =>
    dsimp only
    rw [leave_bare]
  | parting fetch result =>
    dsimp only
    rw [release_bare]
  | _ => rfl

/-! ### The searches that wait as searches under way -/

def Waiting.progress (w : Waiting) : Progress := ⟨w.search, w.superseded, .waiting w.fetch⟩

/-- Waiting searches by their generations. -/
def filed (ws : List Waiting) : Std.ExtTreeMap Nat Progress compare :=
  ws.foldr (fun w under => under.insert w.search.generation w.progress) ∅

theorem getElem?_filed (ws : List Waiting) (g : Nat) :
    (filed ws)[g]? = (ws.find? fun w => w.search.generation = g).map Waiting.progress := by
  induction ws with
  | nil => simp [filed]
  | cons w ws ih =>
    have : filed (w :: ws) = (filed ws).insert w.search.generation w.progress := rfl
    rw [this, Std.ExtTreeMap.getElem?_insert, ih, List.find?_cons]
    simp only [Std.LawfulEqCmp.compare_eq_iff_eq]
    split_ifs with hg <;> simp [hg]

/-- The engine as an interleaving: the searches under way are those that wait. -/
def mirror (e : Engine) : Interleaving := ⟨e.bare, filed e.waiting⟩

/-- The engine as an interleaving, with a search that has come further than those that wait. -/
def amid (e : Engine) (p : Progress) : Interleaving := ⟨e.bare, (filed e.waiting).insert p.search.generation p⟩

/-- The engine as an interleaving, without the search of a generation. -/
def without (e : Engine) (g : Nat) : Interleaving := ⟨e.bare, (filed e.waiting).erase g⟩

theorem mirror_eq_amid {e : Engine} (h : HoldsSlots e) {w : Waiting} (hw : w ∈ e.waiting) :
    e.mirror = e.amid w.progress := by
  refine congrArg (Interleaving.mk e.bare) (Std.ExtTreeMap.ext_getElem? fun {g} => ?_)
  rw [Std.ExtTreeMap.getElem?_insert, getElem?_filed]
  simp only [Std.LawfulEqCmp.compare_eq_iff_eq]
  split_ifs with hg
  · cases hfind : e.waiting.find? fun v => v.search.generation = g with
    | none => simpa using List.find?_eq_none.1 hfind w hw (decide_eq_true hg)
    | some v =>
      have hv : v.search.generation = g := by simpa using List.find?_some hfind
      rw [h.eq_of_generation (List.mem_of_find?_eq_some hfind) hw (hv.trans hg.symm), Option.map_some]
  · rfl

theorem without_eq_mirror (e : Engine) (g : Nat) :
    e.without g = mirror { e with waiting := e.waiting.filter fun w => w.search.generation ≠ g } := by
  refine congrArg (Interleaving.mk e.bare) (Std.ExtTreeMap.ext_getElem? fun {k} => ?_)
  rw [Std.ExtTreeMap.getElem?_erase, getElem?_filed, getElem?_filed, List.find?_filter]
  simp only [Std.LawfulEqCmp.compare_eq_iff_eq]
  split_ifs with hk
  · subst hk
    rw [List.find?_eq_none.2 fun w _ => by simp, Option.map_none]
  · congr 2
    funext w
    simp only [ne_eq, decide_not, Bool.not_eq_true', decide_eq_false_iff_not, decide_eq_true_eq, decide_eq_decide]
    exact ⟨fun hw => ⟨fun hg => hk (hg.symm.trans hw), hw⟩, fun hw => hw.2⟩

theorem without_eq_self {e : Engine} {g : Nat} (h : ∀ w ∈ e.waiting, w.search.generation ≠ g) :
    e.without g = e.mirror := by
  rw [without_eq_mirror, List.filter_eq_self.2 fun w hw => decide_eq_true (h w hw)]

theorem amid_eq_mirror {e : Engine} {w : Waiting} (h : ∀ v ∈ e.waiting, v.search.generation ≠ w.search.generation) :
    e.amid w.progress = mirror { e with waiting := e.waiting ++ [w] } := by
  refine congrArg (Interleaving.mk e.bare) (Std.ExtTreeMap.ext_getElem? fun {g} => ?_)
  rw [Std.ExtTreeMap.getElem?_insert, getElem?_filed, getElem?_filed, List.find?_append]
  simp only [Std.LawfulEqCmp.compare_eq_iff_eq]
  split_ifs with hg
  · have hg' : w.search.generation = g := hg
    have old : e.waiting.find? (fun v => v.search.generation = g) = none :=
      List.find?_eq_none.2 fun v hv => by simpa [← hg'] using h v hv
    rw [old, Option.none_or, List.find?_singleton, if_pos (decide_eq_true hg'), Option.map_some]
  · have hg' : ¬w.search.generation = g := hg
    rw [List.find?_singleton, if_neg (by simpa using hg'), Option.or_none]

end Engine

namespace Interleaving

open Engine

variable {i j k : Interleaving} {events later : List Event}

/-! ### Moves of a search that is left alone -/

/-- Some moves lead from one interleaving to another, and the events come about in them. -/
def Reaches (i : Interleaving) (events : List Event) (j : Interleaving) : Prop := ∃ moves, i.run moves = (events, j)

theorem Reaches.refl (i : Interleaving) : i.Reaches [] i := ⟨[], rfl⟩

theorem Reaches.move {m : Move} (h : i.perform m = (events, j)) : i.Reaches events j := by
  refine ⟨[m], ?_⟩
  simp only [run, h, List.append_nil]

theorem Reaches.trans (h : i.Reaches events j) (h' : j.Reaches later k) : i.Reaches (events ++ later) k := by
  obtain ⟨moves, hmoves⟩ := h
  obtain ⟨moves', hmoves'⟩ := h'
  exact ⟨moves ++ moves', by rw [run_append, hmoves, hmoves']⟩

theorem record_amid_some (e : Engine) (p : Progress) (stage : Stage) :
    (e.amid p).record p.search.generation p (some stage) = (e.amid { p with stage }).underway := by
  refine Std.ExtTreeMap.ext_getElem? fun {g} => ?_
  rw [getElem?_record, amid, amid, Std.ExtTreeMap.getElem?_insert, Std.ExtTreeMap.getElem?_insert]
  simp only [Std.LawfulEqCmp.compare_eq_iff_eq, Option.map_some]
  split_ifs <;> rfl

theorem record_amid_none (e : Engine) (p : Progress) :
    (e.amid p).record p.search.generation p none = (e.without p.search.generation).underway := by
  refine Std.ExtTreeMap.ext_getElem? fun {g} => ?_
  rw [getElem?_record, amid, without, Std.ExtTreeMap.getElem?_erase, Std.ExtTreeMap.getElem?_insert]
  simp only [Std.LawfulEqCmp.compare_eq_iff_eq, Option.map_none]
  split_ifs <;> rfl

theorem getElem?_underway_amid (e : Engine) (p : Progress) : (e.amid p).underway[p.search.generation]? = some p :=
  Std.ExtTreeMap.getElem?_insert_self

/-- The searches that wait take no notice of what another search does. -/
theorem perform_amid (e : Engine) (p : Progress) : (e.amid p).perform (.act p.search.generation) =
    ((p.event? e.now).toList, match (e.act p).1 with
      | some stage => (e.act p).2.amid { p with stage }
      | none => (e.act p).2.without p.search.generation) := by
  have same : (e.act p).2.waiting = e.waiting := by rw [act_snd]
  have engine : (e.amid p).engine = e.bare := rfl
  rw [perform_act (getElem?_underway_amid e p), engine, act_bare]
  cases (e.act p).1 with
  | none =>
    dsimp only
    rw [record_amid_none, without, without, same]
    rfl
  | some stage =>
    dsimp only
    rw [record_amid_some, amid, amid, same]
    rfl

theorem reaches_stage {e : Engine} {p : Progress} {stage : Stage} (h : (e.act p).1 = some stage) :
    (e.amid p).Reaches [] ((e.act p).2.amid { p with stage }) := by
  have silent : p.event? e.now = none := by
    unfold Progress.event?
    split
    · rename_i fetch result hstage
      rw [act, hstage] at h
      cases h
    · rfl
  refine .move (m := .act p.search.generation) ?_
  rw [perform_amid, h, silent, Option.toList_none]

theorem reaches_end {e : Engine} {p : Progress} {fetch : Option Nat} {result : Option (Except SearchError Answer)}
    (h : p.stage = .parting fetch result) : (e.amid p).Reaches (result.map (.finished p.search fetch e.now)).toList
      ((e.release p.search).without p.search.generation) := by
  have hact : e.act p = (none, e.release p.search) := by rw [act, h]
  have hevent : p.event? e.now = result.map (.finished p.search fetch e.now) := by rw [Progress.event?, h]
  refine .move (m := .act p.search.generation) ?_
  rw [perform_amid, hact, hevent]

/-- A search that leaves its flight goes on to its end. -/
theorem reaches_end_of_leaving {e : Engine} {p : Progress} {fetch : Fetch}
    {result : Option (Except SearchError Answer)} (h : p.stage = .leaving fetch result) :
    (e.amid p).Reaches (result.map (.finished p.search (some fetch.id) e.now)).toList
      (((e.leave p.key fetch.id).release p.search).without p.search.generation) := by
  have hact : e.act p = (some (.parting (some fetch.id) result), e.leave p.key fetch.id) := by rw [act, h]
  have left := reaches_stage (congrArg Prod.fst hact)
  have now : (e.leave p.key fetch.id).now = e.now := by rw [leave_eq]
  rw [hact] at left
  rw [← now]
  exact left.trans (reaches_end rfl)

/-! ### Searches that stop waiting -/

private theorem dismiss_mirror (e : Engine) (w : Waiting) :
    (e.dismiss w).mirror = ((e.leave w.key w.fetch.id).release w.search).without w.search.generation :=
  (without_eq_mirror _ _).symm

/-- A search whose caller goes away leaves its flight. -/
theorem reaches_dismiss {e : Engine} (h : HoldsSlots e) {w : Waiting} (hw : w ∈ e.waiting) :
    e.mirror.Reaches [] (e.dismiss w).mirror := by
  have abandoned : (e.amid w.progress).perform (.abandon w.search.generation) =
      ([], e.amid ⟨w.search, w.superseded, .leaving w.fetch none⟩) := by
    have hp := getElem?_underway_amid e w.progress
    have record := record_amid_some e w.progress w.progress.abandoned
    change (e.amid w.progress).perform (.abandon w.progress.search.generation) = _
    rw [perform, hp]
    dsimp only
    rw [record]
    rfl
  have left := reaches_end_of_leaving (e := e) (p := ⟨w.search, w.superseded, .leaving w.fetch none⟩) rfl
  rw [mirror_eq_amid h hw, dismiss_mirror]
  exact (Reaches.move abandoned).trans left

/-- A search that goes on keeps its page, if it is handed one, before it leaves its flight. -/
private theorem reaches_keep {e : Engine} {w : Waiting} (ready : w.ready e.now = true) :
    (e.amid w.progress).Reaches []
      ((e.keep w).amid ⟨w.search, w.superseded, .leaving w.fetch (some (w.outcome.map w.search.answer))⟩) := by
  obtain ⟨s, fetch, superseded⟩ := w
  cases superseded with
  | true => exact reaches_stage (p := ⟨s, true, .waiting fetch⟩) rfl
  | false =>
    have ends : fetch.endsAt ≤ e.now := by simpa [Waiting.ready] using ready
    have handed : (e.amid ⟨s, false, .waiting fetch⟩).Reaches [] (e.amid ⟨s, false, .handed fetch fetch.outcome⟩) :=
      reaches_stage (p := ⟨s, false, .waiting fetch⟩) (by simp [act, Progress.woken, ends])
    obtain ⟨id, endsAt, outcome⟩ := fetch
    cases outcome with
    | error err =>
      have judged := reaches_stage (e := e) (p := ⟨s, false, .handed ⟨id, endsAt, .error err⟩ (.error err)⟩) rfl
      exact handed.trans judged
    | ok f =>
      have judged := reaches_stage (e := e) (p := ⟨s, false, .handed ⟨id, endsAt, .ok f⟩ (.ok f)⟩) rfl
      have stored := reaches_stage (e := e) (p := ⟨s, false, .cleared ⟨id, endsAt, .ok f⟩ f⟩) rfl
      exact handed.trans (judged.trans stored)

theorem reaches_resume {e : Engine} (h : HoldsSlots e) {w : Waiting} (hw : w ∈ e.waiting)
    (ready : w.ready e.now = true) : e.mirror.Reaches [(e.resume w).1] (e.resume w).2.mirror := by
  have now : (e.keep w).now = e.now := by rw [keep_eq, moved]
  have left := reaches_end_of_leaving (e := e.keep w)
    (p := ⟨w.search, w.superseded, .leaving w.fetch (some (w.outcome.map w.search.answer))⟩) rfl
  rw [now] at left
  rw [mirror_eq_amid h hw, resume, dismiss_mirror]
  exact (reaches_keep ready).trans left

theorem reaches_foldl_dismiss {e : Engine} (h : Consistent e) {ws : List Waiting}
    (distinct : (ws.map (·.search.generation)).Nodup) (hws : ∀ w ∈ ws, w ∈ e.waiting) :
    e.mirror.Reaches [] (ws.foldl dismiss e).mirror := by
  induction ws generalizing e with
  | nil => exact .refl e.mirror
  | cons w ws ih =>
    have hw := hws w List.mem_cons_self
    have others := ih (h.dismiss hw) (List.nodup_cons.1 distinct).2 (waiting_of_distinct hws distinct)
    exact (reaches_dismiss h.toHoldsSlots hw).trans others

/-- Searches that are ready go on one after the other. -/
theorem reaches_resumeAll {e : Engine} (h : Consistent e) {ws : List Waiting}
    (distinct : (ws.map (·.search.generation)).Nodup) (hws : ∀ w ∈ ws, w ∈ e.waiting)
    (ready : ∀ w ∈ ws, w.ready e.now = true) :
    e.mirror.Reaches (e.resumeAll ws).1 (e.resumeAll ws).2.mirror := by
  induction ws generalizing e with
  | nil => exact .refl e.mirror
  | cons w ws ih =>
    have hw := hws w List.mem_cons_self
    have first := reaches_resume h.toHoldsSlots hw (ready w List.mem_cons_self)
    have next : (e.resume w).2 = (e.dismiss w).moved e.now (w.keptIn e.setup.clock e.cache) := by rw [resume_eq]
    have others := ih (next ▸ (h.dismiss hw).moved _ _) (List.nodup_cons.1 distinct).2
      (next ▸ waiting_of_distinct hws distinct) (next ▸ fun v hv => ready v (List.mem_cons_of_mem w hv))
    exact first.trans others

theorem reaches_later (e : Engine) {time : Nat} (h : e.now ≤ time) :
    e.mirror.Reaches [] (mirror { e with now := time }) := by
  refine .move (m := .pass (time - e.now)) ?_
  have : e.mirror.engine.now + (time - e.now) = time := Nat.add_sub_of_le h
  rw [perform, this]
  rfl

/-- Searches whose fetches end one after the other go on when they do. -/
theorem reaches_resumeDue {e : Engine} (h : Consistent e) {ws : List Waiting}
    (distinct : (ws.map (·.search.generation)).Nodup) (hws : ∀ w ∈ ws, w ∈ e.waiting)
    (due : ∀ w ∈ ws, e.now ≤ w.fetch.endsAt) (ordered : ws.Pairwise fun v w => v.fetch.endsAt ≤ w.fetch.endsAt) :
    e.mirror.Reaches (e.resumeDue ws).1 (e.resumeDue ws).2.mirror := by
  induction ws generalizing e with
  | nil => exact .refl e.mirror
  | cons w ws ih =>
    have hw := hws w List.mem_cons_self
    have arrived := reaches_later e (due w List.mem_cons_self)
    have first := reaches_resume (h.moved w.fetch.endsAt e.cache).toHoldsSlots hw (by simp [Waiting.ready, moved])
    have next : ((e.moved w.fetch.endsAt e.cache).resume w).2 =
        (e.dismiss w).moved w.fetch.endsAt (w.keptIn e.setup.clock e.cache) := by
      rw [resume_eq, dismiss_moved]
      rfl
    obtain ⟨later, ordered⟩ := List.pairwise_cons.1 ordered
    have others := ih (next ▸ (h.dismiss hw).moved _ _) (List.nodup_cons.1 distinct).2
      (next ▸ waiting_of_distinct hws distinct) (next ▸ later) ordered
    exact arrived.trans (first.trans others)

private theorem now_resumeDue {e : Engine} {time : Nat} (h : e.now ≤ time) {ws : List Waiting}
    (hws : ∀ w ∈ ws, w.fetch.endsAt ≤ time) : (e.resumeDue ws).2.now ≤ time := by
  induction ws generalizing e with
  | nil => exact h
  | cons w ws ih =>
    refine ih ?_ fun v hv => hws v (List.mem_cons_of_mem w hv)
    rw [dismiss_eq, keep_eq]
    exact hws w List.mem_cons_self

private theorem ends_in_order (ws : List Waiting) :
    (ws.mergeSort Waiting.endsBefore).Pairwise fun v w => v.fetch.endsAt ≤ w.fetch.endsAt := by
  have sorted : (ws.mergeSort Waiting.endsBefore).Pairwise fun v w => v.endsBefore w := by
    refine List.pairwise_mergeSort (fun u v w huv hvw => ?_) (fun v w => ?_) ws
    · simp only [Waiting.endsBefore, Bool.or_eq_true, Bool.and_eq_true, decide_eq_true_eq, beq_iff_eq] at huv hvw ⊢
      omega
    · simp only [Waiting.endsBefore, Bool.or_eq_true, Bool.and_eq_true, decide_eq_true_eq, beq_iff_eq]
      omega
  refine sorted.imp fun {v w} hvw => ?_
  simp only [Waiting.endsBefore, Bool.or_eq_true, Bool.and_eq_true, decide_eq_true_eq, beq_iff_eq] at hvw
  omega

/-! ### Searches that begin -/

private theorem filed_supersede (e : Engine) (holder : Nat) :
    filed (e.supersede holder).waiting = e.mirror.displace (some holder) := by
  refine Std.ExtTreeMap.ext_getElem? fun {g} => ?_
  rw [getElem?_displace, mirror, getElem?_filed, getElem?_filed, supersede, List.find?_map, Option.map_map]
  have generation : ((fun w : Waiting => decide (w.search.generation = g)) ∘ fun w =>
      if w.search.generation = holder then { w with superseded := true } else w) =
      fun w => decide (w.search.generation = g) := by
    funext w
    dsimp only [Function.comp]
    split_ifs <;> rfl
  rw [generation]
  cases hfind : e.waiting.find? fun w => w.search.generation = g with
  | none => simp
  | some w =>
    have hw : w.search.generation = g := by simpa using List.find?_some hfind
    subst hw
    simp only [Option.map_some, Function.comp, Option.some.injEq, eq_comm (a := holder)]
    split_ifs <;> rfl

theorem reaches_claim (e : Engine) (caller : String) (slot : Option String) (criteria : Criteria) :
    e.mirror.Reaches []
      ((e.claim caller slot criteria).2.amid ⟨(e.claim caller slot criteria).1, false, .claimed⟩) := by
  have others : e.mirror.displace e.slots[(e.claim caller slot criteria).1.slot]? =
      filed (e.claim caller slot criteria).2.waiting := by
    simp only [claim, draw]
    cases e.slots[slot.getD (ownSlot e.nextId)]? with
    | none => rfl
    | some holder => exact (filed_supersede _ _).symm
  refine .move (m := .enter caller slot criteria) ?_
  have engine : e.mirror.engine = e.bare := rfl
  rw [perform, enter, engine, claim_bare, bare_slots]
  dsimp only
  rw [others]
  rfl

/-- A search that takes its slot is a new one. -/
private theorem generation_of_claim {e : Engine} (h : HoldsSlots e) (caller : String) (slot : Option String)
    (criteria : Criteria) : ∀ w ∈ (e.claim caller slot criteria).2.waiting,
      w.search.generation ≠ (e.claim caller slot criteria).1.generation := by
  intro w hw
  have old : ∃ v ∈ e.waiting, v.search = w.search := by
    simp only [claim, draw] at hw
    split at hw
    · obtain ⟨v, hv, hvw⟩ := List.mem_map.1 hw
      refine ⟨v, hv, ?_⟩
      rw [← hvw]
      split <;> rfl
    · exact ⟨w, hw, rfl⟩
  obtain ⟨v, hv, hvw⟩ := old
  have := h.drawn v hv
  rw [claim_fst, ← hvw]
  exact Nat.ne_of_lt this

private theorem reaches_answer {e e' : Engine} {s : Search} {page : ResultPage}
    (new : ∀ w ∈ e.waiting, w.search.generation ≠ s.generation)
    (hlook : e.lookUp s.criteria.cacheKey = (some page, e')) : (e.amid ⟨s, false, .claimed⟩).Reaches
      [.finished s none e'.now (.ok (s.cachedAnswer page))] (e'.release s).mirror := by
  have hact : e.act ⟨s, false, .claimed⟩ = (some (.parting none (some (.ok (s.cachedAnswer page)))), e') := by
    simp only [act, Progress.key, hlook]
  have looked := reaches_stage (congrArg Prod.fst hact)
  have parted := reaches_end (e := e') (p := ⟨s, false, .parting none (some (.ok (s.cachedAnswer page)))⟩) rfl
  have waiting : (e'.release s).waiting = e.waiting := by
    rw [release_eq]
    exact congrArg (·.2.waiting) (hlook.symm.trans (lookUp_eq e _))
  rw [hact] at looked
  rw [without_eq_self (waiting ▸ new)] at parted
  exact looked.trans parted

private theorem reaches_wait {e e' : Engine} {s : Search}
    (new : ∀ w ∈ e.waiting, w.search.generation ≠ s.generation)
    (hlook : e.lookUp s.criteria.cacheKey = (none, e')) : (e.amid ⟨s, false, .claimed⟩).Reaches []
      (mirror { (e'.join s.criteria).2 with
        waiting := (e'.join s.criteria).2.waiting ++ [⟨s, (e'.join s.criteria).1, false⟩] }) := by
  have hact : e.act ⟨s, false, .claimed⟩ = (some .missed, e') := by simp only [act, Progress.key, hlook]
  have hjoin : e'.act ⟨s, false, .missed⟩ = (some (.waiting (e'.join s.criteria).1), (e'.join s.criteria).2) := rfl
  have looked := reaches_stage (congrArg Prod.fst hact)
  have joined := reaches_stage (congrArg Prod.fst hjoin)
  have waiting : (e'.join s.criteria).2.waiting = e.waiting := by
    rw [join_eq]
    exact congrArg (·.2.waiting) (hlook.symm.trans (lookUp_eq e _))
  rw [hact] at looked
  rw [← amid_eq_mirror (waiting ▸ new)]
  exact looked.trans joined

/-- A search that begins is left alone until the cache answers it or it waits. -/
theorem reaches_begin {e : Engine} (h : HoldsSlots e) (caller : String) (slot : Option String) (criteria : Criteria) :
    e.mirror.Reaches (e.begin caller slot criteria).1 (e.begin caller slot criteria).2.mirror := by
  have claimed := reaches_claim e caller slot criteria
  have new := generation_of_claim h caller slot criteria
  unfold begin
  dsimp only
  cases hlook : (e.claim caller slot criteria).2.lookUp criteria.cacheKey with
  | mk found e' =>
    cases found with
    | some page => exact claimed.trans (reaches_answer new hlook)
    | none => exact claimed.trans (reaches_wait new hlook)

end Interleaving

namespace Engine

open Interleaving

/-! ### Steps and runs -/

/-- A step in which the cache is left to the searches. -/
def Step.Ordinary : Step → Prop
  | .clear => False
  | .seed .. => False
  | _ => True

/-- The events by which searches end, without those of the requests that are refused. -/
def endsOnly (events : List Event) : List Event := events.filter (·.search?.isSome)

theorem endsOnly_map_ending (ws : List Waiting) (time : Waiting → Nat) :
    endsOnly (ws.map fun w => w.ending (time w)) = ws.map fun w => w.ending (time w) := by
  refine List.filter_eq_self.2 fun event hevent => ?_
  obtain ⟨w, -, rfl⟩ := List.mem_map.1 hevent
  rfl

theorem endsOnly_begin (e : Engine) (caller : String) (slot : Option String) (criteria : Criteria) :
    endsOnly (e.begin caller slot criteria).1 = (e.begin caller slot criteria).1 := by
  unfold begin
  split
  rename_i s e₁ hclaim
  split <;> rfl

private theorem reaches_search {e : Engine} (h : Consistent e) (rest : AtRest e) (caller : String)
    (slot : Option String) (request : SearchRequest) :
    e.mirror.Reaches (endsOnly (e.search caller slot request).1) (e.search caller slot request).2.mirror := by
  have entered := h.enter rest (.search caller slot request)
  rw [Engine.enter] at entered
  unfold search
  cases hcheck : request.check e.setup.limits with
  | error fault => exact .refl e.mirror
  | ok criteria =>
    rw [hcheck] at entered
    have begun := reaches_begin h.toHoldsSlots caller slot criteria
    have settled := reaches_resumeAll entered (entered.distinct.sublist (List.filter_sublist.map _))
      (fun w hw => List.mem_of_mem_filter hw) (fun w hw => List.of_mem_filter hw)
    have ends : endsOnly (e.begin caller slot criteria).2.settle.1 = (e.begin caller slot criteria).2.settle.1 := by
      rw [settle, resumeAll_eq]
      exact endsOnly_map_ending _ _
    dsimp only
    rw [endsOnly, List.filter_append]
    rw [← endsOnly, ← endsOnly, endsOnly_begin, ends]
    exact begun.trans settled

private theorem reaches_advance {e : Engine} (h : Consistent e) (rest : AtRest e) (millis : Nat) :
    e.mirror.Reaches (endsOnly (e.advance millis).1) (e.advance millis).2.mirror := by
  -- The step sets the clock to its end once the searches whose fetches end within it have gone on.
  let due := e.leavers (.advance millis)
  have within : ∀ w ∈ due, w ∈ e.waiting ∧ w.fetch.endsAt ≤ e.now + millis := fun w hw => by
    simpa [Step.stops] using mem_leavers.1 hw
  have resumed := reaches_resumeDue h (nodup_leavers h.toHoldsSlots (.advance millis)) (fun w hw => (within w hw).1)
    (fun w hw => Nat.le_of_lt (rest w (within w hw).1).2) (ends_in_order _)
  have passed := reaches_later (e.resumeDue due).2
    (now_resumeDue (Nat.le_add_right e.now millis) fun w hw => (within w hw).2)
  have ends : endsOnly (e.advance millis).1 = (e.resumeDue due).1 ++ [] := by
    have hadvance : (e.advance millis).1 = (e.resumeDue due).1 := rfl
    obtain ⟨now, hdue⟩ := resumeDue_eq e due
    rw [hadvance, List.append_nil, hdue]
    exact endsOnly_map_ending _ _
  rw [ends]
  exact resumed.trans passed

/-- The moves of a step in which the searches have the cache to themselves. -/
theorem reaches_step {e : Engine} (h : Consistent e) (rest : AtRest e) {st : Step} (hst : st.Ordinary) :
    e.mirror.Reaches (endsOnly (e.step st).1) (e.step st).2.mirror := by
  cases st with
  | search caller slot request => exact reaches_search h rest caller slot request
  | advance millis => exact reaches_advance h rest millis
  | abort caller =>
    exact reaches_foldl_dismiss h (h.distinct.sublist (List.filter_sublist.map _)) fun w hw => List.mem_of_mem_filter hw
  | clear => cases hst
  | seed criteria age totalCount => cases hst

theorem reaches_run {e : Engine} (h : Consistent e) (rest : AtRest e) {steps : List Step}
    (hsteps : ∀ st ∈ steps, st.Ordinary) : e.mirror.Reaches (endsOnly (e.run steps).1) (e.run steps).2.mirror := by
  induction steps generalizing e with
  | nil => exact .refl e.mirror
  | cons st steps ih =>
    have first := reaches_step h rest (hsteps st List.mem_cons_self)
    have others := ih (h.step rest st) (rest.step h st) fun st' hst' => hsteps st' (List.mem_cons_of_mem st hst')
    rw [Engine.run, endsOnly, List.filter_append]
    exact first.trans others

/-- A run of the engine in which the searches have the cache to themselves is an interleaving: some moves bring about
the same ends of searches, and leave the same slots, flights, cache and calls. -/
theorem run_interleaved (setup : Setup) (cache : Cache ResultPage) {steps : List Step}
    (hsteps : ∀ st ∈ steps, st.Ordinary) : ∃ moves,
      ((Interleaving.start setup cache).run moves).1 = endsOnly ((start setup cache).run steps).1 ∧
      ((Interleaving.start setup cache).run moves).2 = ((start setup cache).run steps).2.mirror := by
  obtain ⟨moves, hmoves⟩ := reaches_run (.start setup cache) (.start setup cache) hsteps
  have atStart : (start setup cache).mirror = Interleaving.start setup cache := rfl
  rw [atStart] at hmoves
  exact ⟨moves, by rw [hmoves], by rw [hmoves]⟩

end Engine

end RepoSearch
