import RepoSearch.Proofs.Engine.GoingOn
import Mathlib.Algebra.Order.Group.Multiset

/-!
# The order in which searches go on

Several searches whose wait is over go on side by side, in any order and with their actions interleaved in any way. What
each has left to do is settled before, and what they do together does not depend on who is first: each has the same
result, and slots, flights, calls and counters come out the same. So do the pages in the cache, unless some have to make
room for others.
-/

namespace RepoSearch.Interleaving

open Engine

variable {i : Interleaving} {gs : List Nat}

/-! ### Schedules -/

/-- The search of a generation, if it waits for a fetch. -/
def waiting? (i : Interleaving) (g : Nat) : Option Waiting := i.underway[g]?.bind Progress.waiting?

/-- The search of a generation waits, and its fetch has ended or it is superseded. -/
def Ready (i : Interleaving) (g : Nat) : Prop := (i.waiting? g).any (·.ready i.engine.now) = true

/-- In these moves searches of the given generations take actions, and after them all have ended. -/
structure Finishes (i : Interleaving) (gs : List Nat) (moves : List Move) : Prop where
  acts : ∀ m ∈ moves, ∃ g ∈ gs, m = .act g
  ended : ∀ g ∈ gs, (i.run moves).2.underway[g]? = none

/-- Searches take five actions each, one search after the other. -/
def inTurn (order : List Nat) : List Move := order.flatMap fun g => List.replicate 5 (.act g)

/-- Two states agree in the slots, the flights, the calls, the counters of the cache, and the searches under way. -/
structure SameBooks (i j : Interleaving) : Prop where
  slots : i.engine.slots = j.engine.slots
  flights : i.engine.flights = j.engine.flights
  calls : i.engine.calls = j.engine.calls
  hits : i.engine.cache.hits = j.engine.cache.hits
  misses : i.engine.cache.misses = j.engine.cache.misses
  underway : i.underway = j.underway

/-- The keys of the cache, and those under which searches whose wait is over keep their pages. -/
def keysHeld (i : Interleaving) (gs : List Nat) : List String :=
  i.engine.cache.entries.keys ++ (gs.filterMap i.waiting?).filterMap Waiting.keyToKeep?

/-- The cache has room for the pages that searches keep when they go on, beside those that it holds; or it never keeps
any. -/
def RoomFor (i : Interleaving) (gs : List Nat) : Prop :=
  i.engine.cache.ttl.nanos = 0 ∨ (i.keysHeld gs).dedup.length ≤ i.engine.cache.capacity

/-- The page that the cache holds under a key. -/
def held? (i : Interleaving) (key : String) : Option ResultPage := i.engine.cache.entries[key]?.map (·.value)

/-! ### Searches that go on -/

/-- Those of the searches that are still under way go on. -/
def GoOn (i : Interleaving) (gs : List Nat) : Prop :=
  ∀ g ∈ gs, ∀ p, i.underway[g]? = some p → p.goesOn i.engine.now = true

theorem now_act (i : Interleaving) (g : Nat) : (i.perform (.act g)).2.engine.now = i.engine.now := by
  cases hp : i.underway[g]? with
  | none => simp only [perform, hp]
  | some p =>
    rw [perform_act hp, act_snd]

theorem getElem?_perform_act {g : Nat} {p : Progress} (hp : i.underway[g]? = some p) (k : Nat) :
    (i.perform (.act g)).2.underway[k]? =
      if g = k then (i.engine.act p).1.map (fun stage => { p with stage }) else i.underway[k]? := by
  rw [perform_act hp, getElem?_record]

theorem getElem?_perform_act_of_ne {g k : Nat} (h : g ≠ k) : (i.perform (.act g)).2.underway[k]? = i.underway[k]? := by
  cases hp : i.underway[g]? with
  | none => rw [perform_act_of_none hp]
  | some p => rw [getElem?_perform_act hp, if_neg h]

/-- A search that is still under way after its action has come nearer to its end. -/
theorem exists_nearer {g : Nat} (hgo : ∀ p, i.underway[g]? = some p → p.goesOn i.engine.now = true) {q : Progress}
    (hq : (i.perform (.act g)).2.underway[g]? = some q) :
    ∃ p, i.underway[g]? = some p ∧ Nearer i.engine.now p q := by
  cases hp : i.underway[g]? with
  | none =>
    rw [perform_act_of_none hp, hp] at hq
    cases hq
  | some p =>
    rw [getElem?_perform_act hp, if_pos rfl, Option.map_eq_some_iff] at hq
    obtain ⟨stage, hstage, rfl⟩ := hq
    exact ⟨p, rfl, nearer_act (hgo p hp) hstage⟩

theorem GoOn.perform (h : i.GoOn gs) {g : Nat} (hg : g ∈ gs) : (i.perform (.act g)).2.GoOn gs := by
  intro k hk q hq
  rw [now_act]
  by_cases hgk : g = k
  · subst hgk
    obtain ⟨p, -, nearer⟩ := exists_nearer (h g hg) hq
    exact nearer.goesOn
  · rw [getElem?_perform_act_of_ne hgk] at hq
    exact h k hk q hq

/-- A search that goes on ends within as many actions as it has left. -/
theorem underway_replicate {g : Nat} (n : Nat) (hgo : ∀ p, i.underway[g]? = some p → p.goesOn i.engine.now = true)
    (hleft : ∀ p, i.underway[g]? = some p → p.actionsLeft ≤ n) :
    (i.run (List.replicate n (.act g))).2.engine.now = i.engine.now ∧
    ∀ k, (i.run (List.replicate n (.act g))).2.underway[k]? = if g = k then none else i.underway[k]? := by
  induction n generalizing i with
  | zero =>
    refine ⟨rfl, fun k => ?_⟩
    split_ifs with hk
    · subst hk
      cases hp : i.underway[g]? with
      | none => exact hp
      | some p => exact absurd (hleft p hp) (Nat.not_le_of_lt p.actionsLeft_pos)
    · rfl
  | succ n ih =>
    have hgo' : ∀ q, (i.perform (.act g)).2.underway[g]? = some q →
        q.goesOn (i.perform (.act g)).2.engine.now = true := by
      intro q hq
      obtain ⟨p, -, nearer⟩ := exists_nearer hgo hq
      rw [now_act]
      exact nearer.goesOn
    have hleft' : ∀ q, (i.perform (.act g)).2.underway[g]? = some q → q.actionsLeft ≤ n := by
      intro q hq
      obtain ⟨p, hp, nearer⟩ := exists_nearer hgo hq
      have hless := nearer.actionsLeft
      have hmost := hleft p hp
      omega
    obtain ⟨hnow, hunderway⟩ := ih hgo' hleft'
    rw [List.replicate_succ]
    refine ⟨hnow.trans (now_act i g), fun k => (hunderway k).trans ?_⟩
    split_ifs with hk
    · rfl
    · exact getElem?_perform_act_of_ne hk

/-- Whatever the order of searches whose wait is over, five actions of each take them all to their ends. -/
theorem underway_inTurn {order : List Nat} (hgo : i.GoOn order)
    (hleft : ∀ g ∈ order, ∀ p, i.underway[g]? = some p → p.actionsLeft ≤ 5) (k : Nat) :
    (i.run (inTurn order)).2.underway[k]? = if k ∈ order then none else i.underway[k]? := by
  induction order generalizing i with
  | nil => rfl
  | cons g order ih =>
    obtain ⟨hnow, hunderway⟩ := underway_replicate 5 (hgo g List.mem_cons_self) (hleft g List.mem_cons_self)
    have hsame : ∀ (k : Nat) (p : Progress), (i.run (List.replicate 5 (.act g))).2.underway[k]? = some p →
        i.underway[k]? = some p := by
      intro k p hp
      rw [hunderway] at hp
      split_ifs at hp
      exact hp
    have hrun : (i.run (inTurn (g :: order))).2 = ((i.run (List.replicate 5 (.act g))).2.run (inTurn order)).2 := by
      rw [inTurn, List.flatMap_cons, run_append]
      rfl
    rw [hrun, ih, hunderway]
    · by_cases hk : g = k
      · subst hk
        simp
      · rw [if_neg hk]
        simp only [List.mem_cons, Ne.symm hk, false_or]
    · intro k hk p hp
      rw [hnow]
      exact hgo k (List.mem_cons_of_mem g hk) p (hsame k p hp)
    · intro k hk p hp
      exact hleft k (List.mem_cons_of_mem g hk) p (hsame k p hp)

theorem Finishes.of_cons {g : Nat} {moves : List Move} (h : i.Finishes gs (.act g :: moves)) :
    (i.perform (.act g)).2.Finishes gs moves :=
  ⟨fun m hm => h.acts m (List.mem_cons_of_mem _ hm), h.ended⟩

/-! ### Views -/

section Views

variable {T : Type} {Inv : Interleaving → Prop} {view : List Event → Interleaving → T} {finish : Progress → T → T}

/-- What searches make of a view when all of them have finished. -/
def finishAll (i : Interleaving) (finish : Progress → T → T) (gs : List Nat) (t : T) : T :=
  gs.foldl (fun t g => i.underway[g]?.elim t (finish · t)) t

/-- A view of the events and the state is foretold if it is settled by what each search makes of it to its end: searches
do this in any order with the same effect, and each action does a part of it. -/
structure Foretold (gs : List Nat) (Inv : Interleaving → Prop) (view : List Event → Interleaving → T)
    (finish : Progress → T → T) : Prop where
  kept : ∀ {i : Interleaving} {g : Nat}, Inv i → g ∈ gs → Inv (i.perform (.act g)).2
  commute : ∀ {i : Interleaving} {g g' : Nat} {p q : Progress}, Inv i → g ∈ gs → g' ∈ gs → i.underway[g]? = some p →
    i.underway[g']? = some q → ∀ t, finish p (finish q t) = finish q (finish p t)
  advance : ∀ {i : Interleaving} {g : Nat} {p : Progress}, Inv i → g ∈ gs → i.underway[g]? = some p → ∀ events,
    (i.engine.act p).1.elim (view (events ++ (i.perform (.act g)).1) (i.perform (.act g)).2)
      (fun stage => finish { p with stage } (view (events ++ (i.perform (.act g)).1) (i.perform (.act g)).2)) =
      finish p (view events i)

theorem finishAll_of_ended (h : ∀ g ∈ gs, i.underway[g]? = none) (t : T) : i.finishAll finish gs t = t := by
  rw [finishAll]
  induction gs with
  | nil => rfl
  | cons g gs ih =>
    rw [List.foldl_cons, h g List.mem_cons_self]
    exact ih fun k hk => h k (List.mem_cons_of_mem g hk)

theorem Foretold.finishAll_of_perm (h : Foretold gs Inv view finish) (hi : Inv i) {order : List Nat}
    (perm : gs.Perm order) (t : T) : i.finishAll finish gs t = i.finishAll finish order t := by
  refine perm.foldl_eq' (fun g hg g' hg' t => ?_) t
  cases hp : i.underway[g]? with
  | none => rfl
  | some p =>
    cases hq : i.underway[g']? with
    | none => rfl
    | some q => exact h.commute hi hg' hg hq hp t

/-- An action of one of the searches leaves the outcome of all as it was. -/
theorem Foretold.finishAll_act (h : Foretold gs Inv view finish) (nodup : gs.Nodup) (hi : Inv i) {g : Nat} (hg : g ∈ gs)
    (events : List Event) : (i.perform (.act g)).2.finishAll finish gs
      (view (events ++ (i.perform (.act g)).1) (i.perform (.act g)).2) = i.finishAll finish gs (view events i) := by
  cases hp : i.underway[g]? with
  | none => rw [perform_act_of_none hp, List.append_nil]
  | some p =>
    have perm : gs.Perm (g :: gs.erase g) := List.perm_cons_erase hg
    rw [h.finishAll_of_perm (h.kept hi hg) perm, h.finishAll_of_perm hi perm, finishAll, finishAll, List.foldl_cons,
      List.foldl_cons]
    have first : (i.perform (.act g)).2.underway[g]?.elim
        (view (events ++ (i.perform (.act g)).1) (i.perform (.act g)).2)
        (finish · (view (events ++ (i.perform (.act g)).1) (i.perform (.act g)).2)) = finish p (view events i) := by
      rw [getElem?_perform_act hp, if_pos rfl, Option.elim_map]
      exact h.advance hi hg hp events
    rw [first, hp]
    refine List.foldl_ext _ _ _ fun t k hk => ?_
    have hne : g ≠ k := fun heq => nodup.not_mem_erase (heq ▸ hk)
    rw [getElem?_perform_act_of_ne hne]

/-- Once all of the searches have ended the view is as foretold. -/
theorem Foretold.run (h : Foretold gs Inv view finish) (nodup : gs.Nodup) (hi : Inv i) {moves : List Move}
    (hmoves : i.Finishes gs moves) (events : List Event) :
    view (events ++ (i.run moves).1) (i.run moves).2 = i.finishAll finish gs (view events i) := by
  induction moves generalizing i events with
  | nil =>
    have hended : ∀ g ∈ gs, i.underway[g]? = none := hmoves.ended
    rw [finishAll_of_ended hended]
    show view (events ++ []) i = view events i
    rw [List.append_nil]
  | cons m moves ih =>
    obtain ⟨g, hg, rfl⟩ := hmoves.acts m List.mem_cons_self
    rw [← h.finishAll_act nodup hi hg events, ← ih (h.kept hi hg) hmoves.of_cons, List.append_assoc]
    rfl

end Views

/-! ### Events and books -/

/-- The engine, of whose cache only the counters are left. -/
def uncached (e : Engine) : Engine :=
  { e with cache := { e.cache with entries := ∅, order := ∅, nextSeq := 0 } }

theorem uncached_store (e : Engine) (key : String) (page : ResultPage) : uncached (e.store key page) = uncached e := by
  rw [store, Cache.set_eq]
  rfl

theorem uncached_leave (e : Engine) (key : String) (fetch : Nat) :
    uncached (e.leave key fetch) = (uncached e).leave key fetch := by
  have flights : ((uncached e).leave key fetch).flights = (e.leave key fetch).flights := by
    rw [leave_flights, leave_flights]
    rfl
  rw [leave_eq (uncached e), flights, leave_eq e]
  rfl

theorem uncached_release (e : Engine) (s : Search) : uncached (e.release s) = (uncached e).release s := by
  have slots : ((uncached e).release s).slots = (e.release s).slots := by
    rw [release_slots, release_slots]
    rfl
  rw [release_eq (uncached e), slots, release_eq e]
  rfl

/-- The events so far in any order, and the engine but for the pages it keeps. -/
def ledger (events : List Event) (i : Interleaving) : Multiset Event × Engine := (↑events, uncached i.engine)

/-- What a search makes of the ledger to its end. -/
def finishLedger (now : Nat) (p : Progress) (t : Multiset Event × Engine) : Multiset Event × Engine :=
  (t.1 + Multiset.ofList (p.ending? now).toList, p.quit t.2)

theorem foretold_ledger (gs : List Nat) (now : Nat) :
    Foretold gs (fun i => i.engine.now = now ∧ i.GoOn gs) ledger (finishLedger now) where
  kept := fun ⟨hnow, hgo⟩ hg => ⟨(now_act _ _).trans hnow, hgo.perform hg⟩
  commute := fun _ _ _ _ _ t => Prod.ext (add_right_comm t.1 _ _) (quit_comm t.2 _ _)
  advance := by
    rintro i g p ⟨rfl, hgo⟩ hg hp events
    rw [perform_act hp]
    have hadvances := advances_act (hgo g hg p hp)
    generalize i.engine.act p = next at hadvances
    cases hadvances with
    | looks nearer page seat => simp [ledger, finishLedger, Progress.quit, nearer.quiet, nearer.ending, seat]
    | keeps nearer due done seat =>
      simp [ledger, finishLedger, Progress.quit, nearer.quiet, nearer.ending, seat, uncached_store]
    | leaves s nearer page due done =>
      simp [ledger, finishLedger, Progress.quit, nearer.quiet, nearer.ending, due, done, uncached_leave, vacate]
    | ends page seat ending =>
      simp [ledger, finishLedger, Progress.quit, seat, ending, uncached_release, vacate]

/-- The searches take actions of their own only. -/
theorem foretold_others {k : Nat} (hk : k ∉ gs) :
    Foretold gs (fun _ => True) (fun _ i => i.underway[k]?) (fun _ t => t) where
  kept := fun _ _ => trivial
  commute := fun _ _ _ _ _ _ => rfl
  advance := by
    intro i g p _ hg hp events
    have hne : g ≠ k := fun heq => hk (heq ▸ hg)
    rw [getElem?_perform_act_of_ne hne]
    cases (i.engine.act p).1 <;> rfl

/-! ### Pages -/

/-- The search of a generation has still to keep a page under a key. -/
def Due (i : Interleaving) (g : Nat) (key : String) (page : ResultPage) : Prop :=
  ∃ p, i.underway[g]? = some p ∧ p.key = key ∧ p.page? = some page

/-- Pages that searches have still to keep under one key are the same, and the cache has room for them all among the
given keys. -/
structure Uncrowded (keys : List String) (gs : List Nat) (i : Interleaving) : Prop where
  goOn : i.GoOn gs
  keeps : i.engine.cache.ttl.nanos ≠ 0
  room : keys.dedup.length ≤ i.engine.cache.capacity
  present : ∀ key ∈ i.engine.cache.entries, key ∈ keys
  known : ∀ {g : Nat} {key : String} {page : ResultPage}, g ∈ gs → i.Due g key page → key ∈ keys
  agree : ∀ {g g' : Nat} {key : String} {page page' : ResultPage}, g ∈ gs → g' ∈ gs → i.Due g key page →
    i.Due g' key page' → page = page'

/-- What a search makes of the page under a key to its end. -/
def finishPage (key : String) (p : Progress) (held : Option ResultPage) : Option ResultPage :=
  if p.key = key then p.page?.or held else held

theorem Uncrowded.getElem?_store {keys : List String} (h : i.Uncrowded keys gs) {key : String} (hkey : key ∈ keys)
    (page : ResultPage) (k : String) : (i.engine.store key page).cache.entries[k]? =
      if key = k then some ⟨page, i.engine.setup.clock, i.engine.cache.nextSeq⟩ else i.engine.cache.entries[k]? :=
  Cache.getElem?_set_of_room h.keeps (Cache.size_lt_of_room h.room h.present hkey) page i.engine.setup.clock k

theorem Due.of_act (hgo : i.GoOn gs) {g : Nat} (hg : g ∈ gs) {k : Nat} {key : String} {page : ResultPage}
    (h : (i.perform (.act g)).2.Due k key page) : i.Due k key page := by
  obtain ⟨q, hq, hkey, hpage⟩ := h
  cases hp : i.underway[g]? with
  | none =>
    rw [perform_act_of_none hp] at hq
    exact ⟨q, hq, hkey, hpage⟩
  | some p =>
    rw [getElem?_perform_act hp] at hq
    split_ifs at hq with hk
    · subst hk
      obtain ⟨stage, hstage, rfl⟩ := Option.map_eq_some_iff.1 hq
      exact ⟨p, hp, hkey, page?_of_act (hgo g hg p hp) hstage hpage⟩
    · exact ⟨q, hq, hkey, hpage⟩

/-- An action leaves the bounds of the cache alone, and any key that it brings in is one of the given ones. -/
theorem Uncrowded.cache_act {keys : List String} (h : i.Uncrowded keys gs) {g : Nat} (hg : g ∈ gs) :
    (i.perform (.act g)).2.engine.cache.ttl = i.engine.cache.ttl ∧
    (i.perform (.act g)).2.engine.cache.capacity = i.engine.cache.capacity ∧
    ∀ key ∈ (i.perform (.act g)).2.engine.cache.entries, key ∈ keys := by
  cases hp : i.underway[g]? with
  | none =>
    rw [perform_act_of_none hp]
    exact ⟨rfl, rfl, h.present⟩
  | some p =>
    rw [perform_act hp]
    have hadvances := advances_act (h.goOn g hg p hp)
    generalize i.engine.act p = next at hadvances
    cases hadvances with
    | looks => exact ⟨rfl, rfl, h.present⟩
    | keeps _ due =>
      have hknown := h.known hg ⟨p, hp, rfl, due⟩
      refine ⟨Cache.set_ttl _ _ _ _, ?_, fun key hkey => ?_⟩
      · rw [store, Cache.set_eq]
      · rw [Std.ExtTreeMap.mem_iff_isSome_getElem?, h.getElem?_store hknown] at hkey
        split_ifs at hkey with heq
        · exact heq ▸ hknown
        · exact h.present key (Std.ExtTreeMap.mem_iff_isSome_getElem?.2 hkey)
    | leaves s =>
      rw [leave_eq]
      exact ⟨rfl, rfl, h.present⟩
    | ends =>
      rw [release_eq]
      exact ⟨rfl, rfl, h.present⟩

theorem Uncrowded.perform {keys : List String} (h : i.Uncrowded keys gs) {g : Nat} (hg : g ∈ gs) :
    (i.perform (.act g)).2.Uncrowded keys gs := by
  obtain ⟨httl, hcapacity, hpresent⟩ := h.cache_act hg
  refine ⟨h.goOn.perform hg, httl ▸ h.keeps, hcapacity ▸ h.room, hpresent, ?_, ?_⟩
  · intro k key page hk hdue
    exact h.known hk (hdue.of_act h.goOn hg)
  · intro k k' key page page' hk hk' hdue hdue'
    exact h.agree hk hk' (hdue.of_act h.goOn hg) (hdue'.of_act h.goOn hg)

theorem foretold_page (keys : List String) (gs : List Nat) (key : String) :
    Foretold gs (Uncrowded keys gs) (fun _ i => i.held? key) (finishPage key) where
  kept := fun h hg => h.perform hg
  commute := by
    intro i g g' p q h hg hg' hp hq t
    unfold finishPage
    split_ifs with hpkey hqkey
    · cases hpage : p.page? with
      | none => rfl
      | some page =>
        cases hpage' : q.page? with
        | none => rfl
        | some page' =>
          rw [h.agree hg hg' ⟨p, hp, hpkey, hpage⟩ ⟨q, hq, hqkey, hpage'⟩]
    · rfl
    · rfl
    · rfl
  advance := by
    intro i g p h hg hp events
    have hkey : ∀ stage, ({ p with stage } : Progress).key = p.key := fun _ => rfl
    rw [perform_act hp]
    have hadvances := advances_act (h.goOn g hg p hp)
    generalize i.engine.act p = next at hadvances
    cases hadvances with
    | looks _ page => simp [finishPage, held?, hkey, page]
    | keeps _ due done =>
      have hknown := h.known hg ⟨p, hp, rfl, due⟩
      simp only [Option.elim_some, finishPage, held?, hkey, done, due, h.getElem?_store hknown]
      split_ifs <;> rfl
    | leaves s _ page =>
      have hcache : (i.engine.leave s.key s.fetch.id).cache = i.engine.cache := by rw [leave_eq]
      simp [finishPage, held?, hkey, page, hcache]
    | ends page =>
      have hcache : (i.engine.release p.search).cache = i.engine.cache := by rw [release_eq]
      simp [finishPage, held?, page, hcache]

/-- A cache that keeps nothing is left alone. -/
theorem GoOn.cache_act (h : i.GoOn gs) (hzero : i.engine.cache.ttl.nanos = 0) {g : Nat} (hg : g ∈ gs) :
    (i.perform (.act g)).2.engine.cache = i.engine.cache := by
  cases hp : i.underway[g]? with
  | none => rw [perform_act_of_none hp]
  | some p =>
    rw [perform_act hp]
    have hadvances := advances_act (h g hg p hp)
    generalize i.engine.act p = next at hadvances
    cases hadvances with
    | looks => rfl
    | keeps => exact Cache.set_of_ttl_zero hzero _ _ _
    | leaves => rw [leave_eq]
    | ends => rw [release_eq]

theorem foretold_unkept (gs : List Nat) (key : String) : Foretold gs
    (fun i => i.GoOn gs ∧ i.engine.cache.ttl.nanos = 0) (fun _ i => i.held? key) (fun _ t => t) where
  kept := fun ⟨hgo, hzero⟩ hg => ⟨hgo.perform hg, (hgo.cache_act hzero hg).symm ▸ hzero⟩
  commute := fun _ _ _ _ _ _ => rfl
  advance := by
    rintro i g p ⟨hgo, hzero⟩ hg hp events
    rw [held?, hgo.cache_act hzero hg]
    cases (i.engine.act p).1 <;> rfl

/-! ### Searches whose wait is over -/

theorem exists_of_ready {g : Nat} (h : i.Ready g) :
    ∃ w, i.waiting? g = some w ∧ i.underway[g]? = some w.progress ∧ w.ready i.engine.now = true := by
  obtain ⟨w, hw, hready⟩ := (Option.any_eq_true _ _).1 h
  obtain ⟨p, hp, hwaiting⟩ := Option.bind_eq_some_iff.1 hw
  exact ⟨w, hw, eq_of_waiting? hwaiting ▸ hp, hready⟩

theorem goOn_of_ready (ready : ∀ g ∈ gs, i.Ready g) : i.GoOn gs := by
  intro g hg p hp
  obtain ⟨w, -, hw, hready⟩ := exists_of_ready (ready g hg)
  rw [hw] at hp
  rwa [← Option.some.inj hp, w.goesOn_progress]

theorem finishes_inTurn (ready : ∀ g ∈ gs, i.Ready g) {order : List Nat} (perm : order.Perm gs) :
    i.Finishes gs (inTurn order) := by
  have ready' : ∀ g ∈ order, i.Ready g := fun g hg => ready g (perm.mem_iff.1 hg)
  constructor
  · intro m hm
    obtain ⟨g, hg, hm⟩ := List.mem_flatMap.1 hm
    exact ⟨g, perm.mem_iff.1 hg, List.eq_of_mem_replicate hm⟩
  · intro g hg
    rw [underway_inTurn (goOn_of_ready ready'), if_pos (perm.mem_iff.2 hg)]
    intro k hk p hp
    obtain ⟨w, -, hw, -⟩ := exists_of_ready (ready' k hk)
    rw [hw] at hp
    exact Option.some.inj hp ▸ Nat.le_refl 5

/-- The events by which searches end whose wait is over. -/
theorem finishAll_ledger (ready : ∀ g ∈ gs, i.Ready g) (t : Multiset Event × Engine) :
    (i.finishAll (finishLedger i.engine.now) gs t).1 =
      t.1 + Multiset.ofList ((gs.filterMap i.waiting?).map (·.ending i.engine.now)) := by
  induction gs generalizing t with
  | nil => exact (add_zero t.1).symm
  | cons g gs ih =>
    obtain ⟨w, hwaiting, hw, -⟩ := exists_of_ready (ready g List.mem_cons_self)
    have htail := ih (fun k hk => ready k (List.mem_cons_of_mem g hk)) (finishLedger i.engine.now w.progress t)
    rw [finishAll, List.foldl_cons, hw]
    refine htail.trans ?_
    rw [finishLedger, w.ending?_progress, List.filterMap_cons_some hwaiting, List.map_cons, add_assoc]
    rfl

theorem events_perm (nodup : gs.Nodup) (ready : ∀ g ∈ gs, i.Ready g) {moves : List Move} (h : i.Finishes gs moves) :
    (i.run moves).1.Perm ((gs.filterMap i.waiting?).map (·.ending i.engine.now)) := by
  have hrun := (foretold_ledger gs i.engine.now).run nodup ⟨rfl, goOn_of_ready ready⟩ h []
  have hevents := congrArg Prod.fst hrun
  rw [finishAll_ledger ready, ledger, ledger] at hevents
  rw [← Multiset.coe_eq_coe]
  simpa using hevents

theorem sameBooks_of_finishes (nodup : gs.Nodup) (hgo : i.GoOn gs) {moves moves' : List Move}
    (h : i.Finishes gs moves) (h' : i.Finishes gs moves') : SameBooks (i.run moves).2 (i.run moves').2 := by
  have foretold := foretold_ledger gs i.engine.now
  have hledger := (foretold.run nodup ⟨rfl, hgo⟩ h []).trans (foretold.run nodup ⟨rfl, hgo⟩ h' []).symm
  have hengine : uncached (i.run moves).2.engine = uncached (i.run moves').2.engine := congrArg Prod.snd hledger
  refine ⟨(congrArg (·.slots) hengine :), (congrArg (·.flights) hengine :), (congrArg (·.calls) hengine :),
    (congrArg (·.cache.hits) hengine :), (congrArg (·.cache.misses) hengine :), ?_⟩
  apply Std.ExtTreeMap.ext_getElem?
  intro k
  by_cases hk : k ∈ gs
  · rw [h.ended k hk, h'.ended k hk]
  · have others := foretold_others hk
    exact (others.run nodup trivial h []).trans (others.run nodup trivial h' []).symm

/-- Searches that wait for the page of one key wait for one fetch. -/
theorem Booked.fetch_eq (h : i.Booked) {g g' : Nat} {w w' : Waiting} (hw : i.underway[g]? = some w.progress)
    (hw' : i.underway[g']? = some w'.progress) (hkey : w.key = w'.key) : w.fetch = w'.fetch := by
  have hseat : i.seats[g]? = some ⟨w.key, w.fetch⟩ := by
    rw [getElem?_seats, hw, Option.bind_some, w.seat?_progress]
  have hseat' : i.seats[g']? = some ⟨w'.key, w'.fetch⟩ := by
    rw [getElem?_seats, hw', Option.bind_some, w'.seat?_progress]
  exact h.seated.fetch_eq hseat hseat' hkey

/-- Searches that keep pages under one key keep that of one fetch. -/
theorem uncrowded_of_ready (booked : i.Booked) (ready : ∀ g ∈ gs, i.Ready g) (keeps : i.engine.cache.ttl.nanos ≠ 0)
    (room : (i.keysHeld gs).dedup.length ≤ i.engine.cache.capacity) : i.Uncrowded (i.keysHeld gs) gs := by
  refine ⟨goOn_of_ready ready, keeps, room, ?_, ?_, ?_⟩
  · intro key hkey
    exact List.mem_append_left _ (Std.ExtTreeMap.mem_keys.2 hkey)
  · rintro g key page hg ⟨p, hp, rfl, hpage⟩
    obtain ⟨w, hwaiting, hw, -⟩ := exists_of_ready (ready g hg)
    rw [hw] at hp
    obtain rfl := Option.some.inj hp
    obtain ⟨f, houtcome, -⟩ := Waiting.outcome_of_page? hpage
    have hkept : w.keyToKeep? = some w.key := by rw [Waiting.keyToKeep?, houtcome]
    exact List.mem_append_right _ (List.mem_filterMap.2 ⟨w, List.mem_filterMap.2 ⟨g, hg, hwaiting⟩, hkept⟩)
  · rintro g g' key page page' hg hg' ⟨p, hp, hkey, hpage⟩ ⟨p', hp', hkey', hpage'⟩
    obtain ⟨w, -, hw, -⟩ := exists_of_ready (ready g hg)
    obtain ⟨w', -, hw', -⟩ := exists_of_ready (ready g' hg')
    obtain rfl := Option.some.inj (hw.symm.trans hp)
    obtain rfl := Option.some.inj (hw'.symm.trans hp')
    obtain ⟨f, houtcome, rfl⟩ := Waiting.outcome_of_page? hpage
    obtain ⟨f', houtcome', rfl⟩ := Waiting.outcome_of_page? hpage'
    have hfetch : w.fetch = w'.fetch := booked.fetch_eq hw hw' (hkey.trans hkey'.symm)
    have houtcomes : (.ok f : Except SearchError Fetched) = .ok f' := by
      rw [← Waiting.fetch_outcome houtcome, ← Waiting.fetch_outcome houtcome', hfetch]
    rw [Except.ok.inj houtcomes]

theorem held_of_finishes (booked : i.Booked) (nodup : gs.Nodup) (ready : ∀ g ∈ gs, i.Ready g) (room : i.RoomFor gs)
    {moves moves' : List Move} (h : i.Finishes gs moves) (h' : i.Finishes gs moves') (key : String) :
    (i.run moves).2.held? key = (i.run moves').2.held? key := by
  by_cases hzero : i.engine.cache.ttl.nanos = 0
  · have foretold := foretold_unkept gs key
    have hi := And.intro (goOn_of_ready ready) hzero
    exact (foretold.run nodup hi h []).trans (foretold.run nodup hi h' []).symm
  · have foretold := foretold_page (i.keysHeld gs) gs key
    have hi := uncrowded_of_ready booked ready hzero (room.resolve_left hzero)
    exact (foretold.run nodup hi h []).trans (foretold.run nodup hi h' []).symm

/-- In every reachable state searches whose wait is over go on to their ends in any order, one after the other or with
their actions interleaved. Each ends once and with the result that is told by the state before; the slots, the flights,
the calls and the counters come out the same; and where the cache has room so do the pages under their keys. -/
theorem waking_order_irrelevant {setup : Setup} {ttl : Duration} {capacity : Nat} (h : Reachable setup ttl capacity i)
    (nodup : gs.Nodup) (ready : ∀ g ∈ gs, i.Ready g) :
    (∀ order, order.Perm gs → i.Finishes gs (inTurn order)) ∧
    (∀ moves, i.Finishes gs moves →
      (i.run moves).1.Perm ((gs.filterMap i.waiting?).map (·.ending i.engine.now))) ∧
    ∀ moves moves', i.Finishes gs moves → i.Finishes gs moves' →
      SameBooks (i.run moves).2 (i.run moves').2 ∧
      (i.RoomFor gs → ∀ key, (i.run moves).2.held? key = (i.run moves').2.held? key) := by
  refine ⟨fun order perm => finishes_inTurn ready perm, fun moves hmoves => events_perm nodup ready hmoves, ?_⟩
  intro moves moves' hmoves hmoves'
  exact ⟨sameBooks_of_finishes nodup (goOn_of_ready ready) hmoves hmoves',
    fun room => held_of_finishes h.booked nodup ready room hmoves hmoves'⟩

/-- Two searches share a fetch, the second of which has lost its slot to a third whose fetch ends at the same time. They
go on in either order with the same effect. -/
theorem first_or_last_wakes_first :
    let page (totalCount : Nat) : Reply := ⟨.ofMillis 5, .ok ⟨totalCount, [], ⟨none, none⟩⟩⟩
    let setup : Setup := ⟨{}, .ofSecs 1, [page 7, page 9], ⟨0⟩⟩
    let rust : Criteria := ⟨"rust", 1, 10, .stars, [], none⟩
    let lean : Criteria := ⟨"lean", 1, 10, .stars, [], none⟩
    let i := ((start setup (.empty (.ofSecs 60) 4)).run [.enter "first" none rust, .act 0, .act 0,
      .enter "second" (some "tab") rust, .act 2, .act 2, .enter "third" (some "tab") lean, .act 3, .act 3, .pass 5]).2
    Reachable setup (.ofSecs 60) 4 i ∧ [0, 2, 3].Nodup ∧ (∀ g ∈ [0, 2, 3], i.Ready g) ∧ i.RoomFor [0, 2, 3] ∧
    i.Finishes [0, 2, 3] (inTurn [0, 2, 3]) ∧ i.Finishes [0, 2, 3] (inTurn [3, 2, 0]) ∧
    (i.run (inTurn [3, 2, 0])).1.Perm (([0, 2, 3].filterMap i.waiting?).map (·.ending 5)) ∧
    SameBooks (i.run (inTurn [0, 2, 3])).2 (i.run (inTurn [3, 2, 0])).2 ∧
    (∀ key, (i.run (inTurn [0, 2, 3])).2.held? key = (i.run (inTurn [3, 2, 0])).2.held? key) ∧
    (i.run (inTurn [3, 2, 0])).2.held? rust.cacheKey = some ⟨7, []⟩ := by
  intro page setup rust lean i
  have reachable : Reachable setup (.ofSecs 60) 4 i := Reachable.start.run _
  have ready : ∀ g ∈ [0, 2, 3], i.Ready g := by
    unfold Ready
    decide +kernel
  have room : i.RoomFor [0, 2, 3] := .inr (by decide +kernel)
  have now : i.engine.now = 5 := by decide +kernel
  obtain ⟨finishes, ends, same⟩ := waking_order_irrelevant reachable (by decide) ready
  have first := finishes [0, 2, 3] (.refl _)
  have last := finishes [3, 2, 0] (by decide)
  obtain ⟨books, held⟩ := same _ _ first last
  exact ⟨reachable, by decide, ready, room, first, last, now ▸ ends _ last, books, held room, by decide +kernel⟩

end RepoSearch.Interleaving
