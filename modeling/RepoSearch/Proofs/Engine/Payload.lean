import RepoSearch.Engine.Run
import RepoSearch.Proofs.Records
import Mathlib.Tactic.SplitIfs

/-!
# Payload that nobody sees

Records are reduced as soon as a fetch ends, so whatever else they hold reaches neither the searches nor the cache. An
engine whose records are stripped of it takes the same steps as the one that has them, and tells the same.
-/

namespace RepoSearch.Engine

/-! ### Stripped records -/

def Call.stripped (c : Call) : Call := { c with reply := c.reply.stripped }

/-- The engine with records that hold nothing but what is kept of them. -/
def stripped (e : Engine) : Engine :=
  { e with
    setup := { e.setup with replies := e.setup.replies.map Reply.stripped }
    calls := e.calls.map Call.stripped }

@[simp] theorem stripped_now (e : Engine) : e.stripped.now = e.now := rfl
@[simp] theorem stripped_nextId (e : Engine) : e.stripped.nextId = e.nextId := rfl
@[simp] theorem stripped_slots (e : Engine) : e.stripped.slots = e.slots := rfl
@[simp] theorem stripped_flights (e : Engine) : e.stripped.flights = e.flights := rfl
@[simp] theorem stripped_cache (e : Engine) : e.stripped.cache = e.cache := rfl
@[simp] theorem stripped_waiting (e : Engine) : e.stripped.waiting = e.waiting := rfl
@[simp] theorem stripped_limits (e : Engine) : e.stripped.setup.limits = e.setup.limits := rfl
@[simp] theorem stripped_timeout (e : Engine) : e.stripped.setup.timeout = e.setup.timeout := rfl
@[simp] theorem stripped_clock (e : Engine) : e.stripped.setup.clock = e.setup.clock := rfl

/-! ### Actions -/

private theorem claim_stripped (e : Engine) (caller : String) (slot : Option String) (criteria : Criteria) :
    e.stripped.claim caller slot criteria =
      ((e.claim caller slot criteria).1, (e.claim caller slot criteria).2.stripped) := by
  simp only [claim, draw, stripped_nextId, stripped_slots]
  cases e.slots[slot.getD (ownSlot e.nextId)]? <;> rfl

private theorem lookUp_stripped (e : Engine) (key : String) :
    e.stripped.lookUp key = ((e.lookUp key).1, (e.lookUp key).2.stripped) := rfl

private theorem nextReply_stripped (e : Engine) : e.stripped.nextReply = e.nextReply.stripped := by
  have replies : e.stripped.setup.replies = e.setup.replies.map Reply.stripped := rfl
  have length : e.stripped.calls.length = e.calls.length := List.length_map _
  rw [nextReply, nextReply, replies, length, List.getElem?_map]
  cases e.setup.replies[e.calls.length]? <;> rfl

private theorem nextFetch_stripped (e : Engine) (id : Nat) : e.stripped.nextFetch id = e.nextFetch id := by
  rw [nextFetch, nextFetch, nextReply_stripped, stripped_timeout, Reply.within_stripped]
  rfl

private theorem send_stripped (e : Engine) (id : Nat) (request : PageRequest) :
    e.stripped.send id request = ((e.send id request).1, (e.send id request).2.stripped) := by
  have calls : (e.calls ++ [(⟨id, request, e.now, e.nextReply⟩ : Call)]).map Call.stripped =
      e.stripped.calls ++ [⟨id, request, e.now, e.nextReply.stripped⟩] := List.map_append
  rw [send, nextFetch_stripped, nextReply_stripped, stripped_now, ← calls]
  rfl

private theorem join_stripped (e : Engine) (criteria : Criteria) :
    e.stripped.join criteria = ((e.join criteria).1, (e.join criteria).2.stripped) := by
  simp only [join, stripped_flights]
  cases e.flights[criteria.cacheKey]? with
  | some f => rfl
  | none =>
    have drawn : e.stripped.draw = (e.draw.1, e.draw.2.stripped) := rfl
    simp only [drawn, send_stripped]
    rfl

private theorem leave_stripped (e : Engine) (key : String) (fetch : Nat) :
    e.stripped.leave key fetch = (e.leave key fetch).stripped := by
  simp only [leave, stripped_flights]
  cases e.flights[key]? with
  | none => rfl
  | some f =>
    dsimp only
    split_ifs <;> rfl

private theorem release_stripped (e : Engine) (s : Search) : e.stripped.release s = (e.release s).stripped := by
  unfold release
  rw [stripped_slots]
  split_ifs <;> rfl

private theorem dismiss_stripped (e : Engine) (w : Waiting) : e.stripped.dismiss w = (e.dismiss w).stripped := by
  simp only [dismiss, leave_stripped, release_stripped]
  rfl

private theorem foldl_dismiss_stripped (e : Engine) (ws : List Waiting) :
    ws.foldl dismiss e.stripped = (ws.foldl dismiss e).stripped := by
  induction ws generalizing e with
  | nil => rfl
  | cons w ws ih => rw [List.foldl_cons, List.foldl_cons, dismiss_stripped, ih]

private theorem keep_stripped (e : Engine) (w : Waiting) : e.stripped.keep w = (e.keep w).stripped := by
  unfold keep
  cases w.outcome <;> rfl

private theorem resume_stripped (e : Engine) (w : Waiting) :
    e.stripped.resume w = ((e.resume w).1, (e.resume w).2.stripped) := by
  simp only [resume, keep_stripped, dismiss_stripped, stripped_now]

private theorem resumeAll_stripped (e : Engine) (ws : List Waiting) :
    e.stripped.resumeAll ws = ((e.resumeAll ws).1, (e.resumeAll ws).2.stripped) := by
  induction ws generalizing e with
  | nil => rfl
  | cons w ws ih => simp only [resumeAll, resume_stripped, ih]

private theorem resumeDue_stripped (e : Engine) (ws : List Waiting) :
    e.stripped.resumeDue ws = ((e.resumeDue ws).1, (e.resumeDue ws).2.stripped) := by
  induction ws generalizing e with
  | nil => rfl
  | cons w ws ih =>
    have moved : { e.stripped with now := w.fetch.endsAt } = { e with now := w.fetch.endsAt }.stripped := rfl
    simp only [resumeDue, moved, resume_stripped, ih]

/-! ### Steps and runs -/

private theorem begin_stripped (e : Engine) (caller : String) (slot : Option String) (criteria : Criteria) :
    e.stripped.begin caller slot criteria =
      ((e.begin caller slot criteria).1, (e.begin caller slot criteria).2.stripped) := by
  simp only [begin, claim_stripped, lookUp_stripped]
  rcases ((e.claim caller slot criteria).2.lookUp criteria.cacheKey) with ⟨page, looked⟩
  cases page with
  | some page =>
    dsimp only
    rw [release_stripped, stripped_now]
  | none =>
    simp only [join_stripped]
    rfl

private theorem search_stripped (e : Engine) (caller : String) (slot : Option String) (request : SearchRequest) :
    e.stripped.search caller slot request =
      ((e.search caller slot request).1, (e.search caller slot request).2.stripped) := by
  simp only [search, stripped_limits]
  cases request.check e.setup.limits with
  | error fault => rfl
  | ok criteria => simp only [begin_stripped, settle, stripped_waiting, stripped_now, resumeAll_stripped]

/-- A step does not depend on what is stripped. -/
theorem step_stripped (e : Engine) (st : Step) :
    e.stripped.step st = ((e.step st).1, (e.step st).2.stripped) := by
  cases st with
  | search caller slot request => exact e.search_stripped caller slot request
  | advance millis =>
    simp only [step, advance, stripped_now, stripped_waiting, resumeDue_stripped]
    rfl
  | abort caller =>
    simp only [step, abort, stripped_waiting, foldl_dismiss_stripped]
  | clear => rfl
  | seed criteria age totalCount => rfl

theorem run_stripped (e : Engine) (steps : List Step) :
    e.stripped.run steps = ((e.run steps).1, (e.run steps).2.stripped) := by
  induction steps generalizing e with
  | nil => rfl
  | cons st steps ih => simp only [run, step_stripped, ih]

/-! ### Two scripts -/

/-- What is known of a call when it is made. -/
def Call.sent (c : Call) : Nat × PageRequest × Nat := (c.fetch, c.request, c.sentAt)

/-- The two engines differ at most in the replies that GitHub gives. -/
structure Indistinguishable (e e' : Engine) : Prop where
  now : e.now = e'.now
  nextId : e.nextId = e'.nextId
  slots : e.slots = e'.slots
  flights : e.flights = e'.flights
  cache : e.cache = e'.cache
  waiting : e.waiting = e'.waiting
  calls : e.calls.map Call.sent = e'.calls.map Call.sent
  stats : e.stats.1 = e'.stats.1

theorem indistinguishable_of_stripped_eq {e e' : Engine} (h : e.stripped = e'.stripped) : Indistinguishable e e' := by
  have same : ∀ {α : Type} (read : Engine → α), (∀ e, read e.stripped = read e) → read e = read e' := by
    intro α read hread
    rw [← hread e, ← hread e', h]
  have cache : e.cache = e'.cache := same _ stripped_cache
  have clock : e.setup.clock = e'.setup.clock := same (·.setup.clock) stripped_clock
  have sent : ∀ e : Engine, e.stripped.calls.map Call.sent = e.calls.map Call.sent := by
    intro e
    rw [stripped, List.map_map]
    rfl
  constructor
  · exact same _ stripped_now
  · exact same _ stripped_nextId
  · exact same _ stripped_slots
  · exact same _ stripped_flights
  · exact cache
  · exact same _ stripped_waiting
  · exact same (·.calls.map Call.sent) sent
  · rw [stats, stats, cache, clock]

/-- Two scripts of replies that agree on what is kept of the records lead to the same events in every step of every run,
and to states that nothing but the replies tells apart. -/
theorem payload_invisible (setup : Setup) {replies : List Reply} (h : List.Forall₂ Reply.Agree setup.replies replies)
    (cache : Cache ResultPage) :
    (∀ before st, (((start setup cache).run before).2.step st).1 =
      (((start { setup with replies } cache).run before).2.step st).1) ∧
    ∀ steps, Indistinguishable ((start setup cache).run steps).2 ((start { setup with replies } cache).run steps).2 := by
  have first : (start setup cache).stripped = (start { setup with replies } cache).stripped := by
    unfold stripped start
    dsimp only
    rw [map_stripped_of_agree h]
  have later : ∀ steps, ((start setup cache).run steps).2.stripped =
      ((start { setup with replies } cache).run steps).2.stripped := by
    intro steps
    have ran := (start setup cache).run_stripped steps
    rw [first, run_stripped] at ran
    exact (congrArg Prod.snd ran).symm
  refine ⟨fun before st => ?_, fun steps => indistinguishable_of_stripped_eq (later steps)⟩
  have stepped := ((start setup cache).run before).2.step_stripped st
  rw [later, step_stripped] at stepped
  exact (congrArg Prod.fst stepped).symm

/-- Two records with the same identifier and owner, and nothing else in common, give the same answer. -/
theorem foreign_members_unseen :
    let record : Json := .obj [("id", .int 7), ("node_id", .str "MDEw"),
      ("owner", .obj [("id", .int 5), ("login", .str "ferris")])]
    let record' : Json := .obj [("owner", .obj [("login", .str "ferris")]), ("id", .int 7), ("score", .decimal "1.0")]
    let setup : Setup := ⟨{}, .ofSecs 1, [⟨⟨0⟩, .ok ⟨1, [record], ⟨none, none⟩⟩⟩], ⟨0⟩⟩
    let replies := [Reply.mk ⟨0⟩ (.ok ⟨1, [record'], ⟨none, none⟩⟩)]
    let st := Step.search "first" (some "box") { q := some "rust" }
    List.Forall₂ Reply.Agree setup.replies replies ∧
    ((start setup (.empty (.ofSecs 60) 4)).step st).1 =
      ((start { setup with replies } (.empty (.ofSecs 60) 4)).step st).1 := by
  intro record record' setup replies st
  have agree : Repository.Agree record record' := by
    refine Repository.agree_of_eq ?_
    simp [record, record', Repository.keptPaths, Json.at?, Json.get?]
  have h : List.Forall₂ Reply.Agree setup.replies replies :=
    .cons (.page ⟨0⟩ ⟨rfl, .cons agree .nil, rfl⟩) .nil
  exact ⟨h, (payload_invisible setup h (.empty (.ofSecs 60) 4)).1 [] st⟩

end RepoSearch.Engine
