import RepoSearch.Proofs.Engine.Books
import RepoSearch.Proofs.Engine.Seats
import RepoSearch.Proofs.Engine.Undisturbed
import Mathlib.Data.Multiset.Basic

/-!
# What searches have left to do

A search whose wait is over takes its actions up to its end without waiting again. It is settled then which result it
has, which page it keeps, and which flight and slot it gives up: each action does a part of this and leaves the rest to
be done. Searches give up their flights and slots in any order with the same effect.
-/

namespace RepoSearch.Engine

/-! ### Going on -/

/-- The search, if it waits for a fetch. -/
def Progress.waiting? (p : Progress) : Option Waiting :=
  match p.stage with
  | .waiting fetch => some ⟨p.search, fetch, p.superseded⟩
  | _ => none

/-- The search has joined a flight, or been answered, and no longer waits. -/
def Progress.goesOn (now : Nat) (p : Progress) : Bool :=
  match p.stage with
  | .claimed | .missed => false
  | .waiting fetch => p.superseded || fetch.endsAt ≤ now
  | .handed _ _ | .cleared _ _ | .leaving _ _ | .parting _ _ => true

/-- What a search is going to make its answer of, if that is still to come: an outcome is dropped once it is
superseded. -/
def Progress.prospect? (p : Progress) : Option (Except SearchError Fetched) :=
  match p.stage with
  | .waiting fetch => some (if p.superseded then .error .superseded else fetch.outcome)
  | .handed _ (.ok f) => some (if p.superseded then .error .superseded else .ok f)
  | .handed _ (.error e) => some (.error e)
  | .cleared _ f => some (.ok f)
  | .claimed | .missed | .leaving _ _ | .parting _ _ => none

/-- The page that a search is going to keep. -/
def Progress.page? (p : Progress) : Option ResultPage :=
  match p.prospect? with
  | some (.ok f) => some f.page
  | _ => none

/-- The result that a search is going to have. -/
def Progress.result? (p : Progress) : Option (Except SearchError Answer) :=
  match p.stage with
  | .leaving _ result | .parting _ result => result
  | _ => p.prospect?.map (·.map p.search.answer)

/-- The fetch of which a search is going to tell. -/
def Progress.told? (p : Progress) : Option Nat :=
  match p.stage with
  | .parting fetch _ => fetch
  | _ => p.seat?.map (·.fetch.id)

/-- The event by which a search is going to end. -/
def Progress.ending? (now : Nat) (p : Progress) : Option Event :=
  p.result?.map (.finished p.search p.told? now)

/-- The number of actions up to the end of a search, at most. -/
def Progress.actionsLeft (p : Progress) : Nat :=
  match p.stage with
  | .claimed => 7
  | .missed => 6
  | .waiting _ => 5
  | .handed _ _ => 4
  | .cleared _ _ => 3
  | .leaving _ _ => 2
  | .parting _ _ => 1

theorem Progress.actionsLeft_pos (p : Progress) : 0 < p.actionsLeft := by
  obtain ⟨s, superseded, stage⟩ := p
  cases stage <;> exact Nat.succ_pos _

/-- The key under which a waiting search keeps a page when it goes on, if it is handed one. -/
def Waiting.keyToKeep? (w : Waiting) : Option String :=
  match w.outcome with
  | .ok _ => some w.key
  | .error _ => none

/-- A search has come nearer to its end, without telling of it yet, and is going to have the same result. -/
structure Nearer (now : Nat) (p q : Progress) : Prop where
  goesOn : q.goesOn now = true
  actionsLeft : q.actionsLeft < p.actionsLeft
  ending : ∀ time, q.ending? time = p.ending? time
  quiet : ∀ time, p.event? time = none

/-- What an action of a search that goes on does, and what is left to do after it. -/
inductive Advances (e : Engine) (p : Progress) : Option Stage × Engine → Prop where
  /-- It looks about and has the same left to do. -/
  | looks {stage : Stage} (nearer : Nearer e.now p { p with stage }) (page : { p with stage }.page? = p.page?)
      (seat : { p with stage }.seat? = p.seat?) : Advances e p (some stage, e)
  /-- It keeps its page. -/
  | keeps {stage : Stage} {page : ResultPage} (nearer : Nearer e.now p { p with stage }) (due : p.page? = some page)
      (done : { p with stage }.page? = none) (seat : { p with stage }.seat? = p.seat?) :
      Advances e p (some stage, e.store p.key page)
  /-- It leaves its flight. -/
  | leaves {stage : Stage} (seat : Seat) (nearer : Nearer e.now p { p with stage })
      (page : { p with stage }.page? = p.page?) (due : p.seat? = some seat) (done : { p with stage }.seat? = none) :
      Advances e p (some stage, e.leave seat.key seat.fetch.id)
  /-- It releases its slot, tells of its end, and ends. -/
  | ends (page : p.page? = none) (seat : p.seat? = none) (ending : ∀ time, p.event? time = p.ending? time) :
      Advances e p (none, e.release p.search)

theorem advances_act {e : Engine} {p : Progress} (h : p.goesOn e.now = true) : Advances e p (e.act p) := by
  obtain ⟨s, superseded, stage⟩ := p
  cases stage with
  | claimed => cases h
  | missed => cases h
  | waiting fetch =>
    cases superseded with
    | true => exact .looks ⟨rfl, Nat.lt_of_sub_eq_succ rfl, fun _ => rfl, fun _ => rfl⟩ rfl rfl
    | false =>
      have hended : fetch.endsAt ≤ e.now := by simpa [Progress.goesOn] using h
      have hact : e.act ⟨s, false, .waiting fetch⟩ = (some (.handed fetch fetch.outcome), e) := by
        simp [act, Progress.woken, hended]
      rw [hact]
      refine .looks ⟨rfl, Nat.lt_of_sub_eq_succ rfl, fun time => ?_, fun _ => rfl⟩ ?_ rfl
      · simp only [Progress.ending?, Progress.result?, Progress.prospect?]
        cases fetch.outcome <;> rfl
      · simp only [Progress.page?, Progress.prospect?]
        cases fetch.outcome <;> rfl
  | handed fetch outcome =>
    cases outcome with
    | error fault => exact .looks ⟨rfl, Nat.lt_of_sub_eq_succ rfl, fun _ => rfl, fun _ => rfl⟩ rfl rfl
    | ok f => cases superseded <;> exact .looks ⟨rfl, Nat.lt_of_sub_eq_succ rfl, fun _ => rfl, fun _ => rfl⟩ rfl rfl
  | cleared fetch f => exact .keeps ⟨rfl, Nat.lt_of_sub_eq_succ rfl, fun _ => rfl, fun _ => rfl⟩ rfl rfl rfl
  | leaving fetch result =>
    exact .leaves ⟨s.criteria.cacheKey, fetch⟩ ⟨rfl, Nat.lt_of_sub_eq_succ rfl, fun _ => rfl, fun _ => rfl⟩ rfl rfl rfl
  | parting fetch result => exact .ends rfl rfl fun _ => rfl

/-- An action of a search that goes on brings it nearer to its end. -/
theorem nearer_act {e : Engine} {p : Progress} (h : p.goesOn e.now = true) {stage : Stage}
    (hstage : (e.act p).1 = some stage) : Nearer e.now p { p with stage } := by
  have hadvances := advances_act h
  generalize e.act p = next at hadvances hstage
  cases hadvances with
  | looks nearer => exact Option.some.inj hstage ▸ nearer
  | keeps nearer => exact Option.some.inj hstage ▸ nearer
  | leaves _ nearer => exact Option.some.inj hstage ▸ nearer
  | ends => cases hstage

/-- What page a search has still to keep after an action it had to keep before. -/
theorem page?_of_act {e : Engine} {p : Progress} (h : p.goesOn e.now = true) {stage : Stage}
    (hstage : (e.act p).1 = some stage) {page : ResultPage} (hpage : { p with stage }.page? = some page) :
    p.page? = some page := by
  have hadvances := advances_act h
  generalize e.act p = next at hadvances hstage
  cases hadvances with
  | looks _ same => exact same ▸ Option.some.inj hstage ▸ hpage
  | keeps _ _ done =>
    rw [← Option.some.inj hstage, done] at hpage
    cases hpage
  | leaves _ _ same => exact same ▸ Option.some.inj hstage ▸ hpage
  | ends => cases hstage

/-! ### Searches that wait -/

theorem eq_of_waiting? {p : Progress} {w : Waiting} (h : p.waiting? = some w) : p = w.progress := by
  obtain ⟨s, superseded, stage⟩ := p
  cases stage with
  | waiting fetch =>
    obtain rfl := Option.some.inj h
    rfl
  | _ => cases h

theorem Waiting.goesOn_progress (w : Waiting) (now : Nat) : w.progress.goesOn now = w.ready now := rfl

theorem Waiting.ending?_progress (w : Waiting) (now : Nat) : w.progress.ending? now = some (w.ending now) := rfl

theorem Waiting.seat?_progress (w : Waiting) : w.progress.seat? = some ⟨w.key, w.fetch⟩ := rfl

/-- A search that is handed a page is handed that of its fetch. -/
theorem Waiting.fetch_outcome {w : Waiting} {f : Fetched} (h : w.outcome = .ok f) : w.fetch.outcome = .ok f := by
  rw [Waiting.outcome] at h
  split_ifs at h
  exact h

theorem Waiting.outcome_of_page? {w : Waiting} {page : ResultPage} (h : w.progress.page? = some page) :
    ∃ f, w.outcome = .ok f ∧ f.page = page := by
  have hprospect : w.progress.prospect? = some w.outcome := rfl
  rw [Progress.page?, hprospect] at h
  cases houtcome : w.outcome with
  | error fault =>
    rw [houtcome] at h
    cases h
  | ok f =>
    rw [houtcome] at h
    exact ⟨f, rfl, Option.some.inj h⟩

/-! ### Giving up flights and slots -/

theorem without?_of_ne {f : Flight} {fetch : Nat} (h : f.fetch.id ≠ fetch) : f.without? fetch = some f := by
  rw [Flight.without?, if_pos h]

/-- Who would leave the flight of another fetch changes nothing, whether anybody has left this one or not. -/
theorem without?_bind_of_ne {f : Flight} {fetch' : Nat} (h : f.fetch.id ≠ fetch') (fetch : Nat) :
    (f.without? fetch).bind (·.without? fetch') = f.without? fetch := by
  unfold Flight.without?
  split_ifs <;> simp [h]

theorem without?_comm (f : Flight) (fetch fetch' : Nat) :
    (f.without? fetch).bind (·.without? fetch') = (f.without? fetch').bind (·.without? fetch) := by
  by_cases hfetch : f.fetch.id = fetch
  · by_cases hfetch' : f.fetch.id = fetch'
    · rw [← hfetch, ← hfetch']
    · rw [without?_bind_of_ne hfetch', without?_of_ne hfetch', Option.bind_some]
  · rw [without?_bind_of_ne hfetch, without?_of_ne hfetch, Option.bind_some]

theorem leave_leave_comm (e : Engine) (key : String) (fetch : Nat) (key' : String) (fetch' : Nat) :
    (e.leave key fetch).leave key' fetch' = (e.leave key' fetch').leave key fetch := by
  have flights : ((e.leave key fetch).leave key' fetch').flights = ((e.leave key' fetch').leave key fetch).flights := by
    apply Std.ExtTreeMap.ext_getElem?
    intro k
    simp only [getElem?_leave]
    split_ifs
    · cases e.flights[k]? with
      | none => rfl
      | some f => exact without?_comm f fetch fetch'
    · rfl
    · rfl
    · rfl
  rw [leave_eq (e.leave key fetch), leave_eq (e.leave key' fetch'), flights, leave_eq e key fetch,
    leave_eq e key' fetch']

theorem release_release_comm (e : Engine) (s t : Search) : (e.release s).release t = (e.release t).release s := by
  have slots : ((e.release s).release t).slots = ((e.release t).release s).slots := by
    apply Std.ExtTreeMap.ext_getElem?
    intro slot
    apply Option.ext
    intro g
    simp only [getElem?_release_slots]
    exact and_right_comm
  rw [release_eq (e.release s), release_eq (e.release t), slots, release_eq e s, release_eq e t]

theorem leave_release_comm (e : Engine) (key : String) (fetch : Nat) (s : Search) :
    (e.leave key fetch).release s = (e.release s).leave key fetch := by
  have hreleased : (e.leave key fetch).release s =
      { e with flights := (e.leave key fetch).flights, slots := (e.release s).slots } := by
    rw [release_eq, leave_eq, release_slots, release_slots]
  have hleft : (e.release s).leave key fetch =
      { e with flights := (e.leave key fetch).flights, slots := (e.release s).slots } := by
    rw [leave_eq, release_eq, leave_flights, leave_flights]
  rw [hreleased, hleft]

/-- A seat is given up. -/
def vacate (e : Engine) : Option Seat → Engine
  | some s => e.leave s.key s.fetch.id
  | none => e

/-- A search gives up what it holds. -/
def Progress.quit (p : Progress) (e : Engine) : Engine := (e.vacate p.seat?).release p.search

theorem vacate_release_comm (e : Engine) (seat : Option Seat) (s : Search) :
    (e.vacate seat).release s = (e.release s).vacate seat := by
  cases seat with
  | none => rfl
  | some seat => exact leave_release_comm e seat.key seat.fetch.id s

theorem vacate_vacate_comm (e : Engine) (seat seat' : Option Seat) :
    (e.vacate seat).vacate seat' = (e.vacate seat').vacate seat := by
  cases seat with
  | none => rfl
  | some s =>
    cases seat' with
    | none => rfl
    | some s' => exact leave_leave_comm e s.key s.fetch.id s'.key s'.fetch.id

theorem quit_comm (e : Engine) (p q : Progress) : p.quit (q.quit e) = q.quit (p.quit e) := by
  simp only [Progress.quit]
  rw [← vacate_release_comm, ← vacate_release_comm, vacate_vacate_comm, release_release_comm]

end RepoSearch.Engine
