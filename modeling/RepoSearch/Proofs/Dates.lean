import RepoSearch.Time.Timestamp
import Mathlib.Tactic.SplitIfs

/-!
# Dates and the clock

The clock shows dates of the calendar and no leap seconds. The moment a span after a date is the one date on the clock
that is so much later. The whole seconds from the clock's date to another one are rounded down: unless both fall on the
same fraction of a second, a date that lies ahead is reached only one second after them, and a leap second may take two.
-/

namespace RepoSearch

namespace Duration

/-- Seconds rounded up last at least as long as the span. -/
theorem nanos_le_secsUp (d : Duration) : d.nanos ≤ d.secsUp * nanosPerSec := by
  unfold secsUp secs subsecNanos nanosPerSec
  split_ifs <;> omega

/-- They are no more than the whole seconds of any longer span. -/
theorem secsUp_le_of_le_ofSecs {d : Duration} {s : Nat} (h : d ≤ ofSecs s) : d.secsUp ≤ s := by
  have hnanos : d.nanos ≤ s * nanosPerSec := h
  unfold secsUp secs subsecNanos
  unfold nanosPerSec at hnanos ⊢
  split_ifs <;> omega

end Duration

namespace Timestamp

variable {t now : Timestamp}

/-- The calendar holds a date. -/
def InCalendar (t : Timestamp) : Prop := ofUnix? t.secs t.nanos = some t

/-- The clock may show a date: the calendar holds it, and it is no leap second. -/
def OnClock (t : Timestamp) : Prop := t.InCalendar ∧ t.nanos < 1000000000

instance (t : Timestamp) : Decidable t.InCalendar := inferInstanceAs (Decidable (_ = _))

instance (t : Timestamp) : Decidable t.OnClock := inferInstanceAs (Decidable (_ ∧ _))

/-- The moment some seconds after a date, whether the calendar holds it or not. -/
def later (t : Timestamp) (n : Nat) : Timestamp := ⟨t.secs + n, t.nanos⟩

theorem inCalendar_iff : t.InCalendar ↔ minSecs ≤ t.secs ∧ t.secs ≤ maxSecs ∧
    (t.nanos < 1000000000 ∨ (t.nanos < 2000000000 ∧ t.secs % 60 = 59)) := by
  unfold InCalendar ofUnix?
  split_ifs with h
  · exact iff_of_true rfl h
  · exact iff_of_false (by simp) h

theorem le_iff : t ≤ now ↔ t.secs < now.secs ∨ t.secs = now.secs ∧ t.nanos ≤ now.nanos := Iff.rfl

/-! ### Moments after a date -/

/-- The moment a span after a date is the date on the clock that is so much later. -/
theorem add?_eq_some_iff {d : Duration} {date : Timestamp} :
    t.add? d = some date ↔ date.OnClock ∧ date.totalNanos = t.totalNanos + d.nanos := by
  unfold add?
  constructor
  · intro h
    have hdate : ofUnix? ((t.totalNanos + d.nanos) / 1000000000) ((t.totalNanos + d.nanos) % 1000000000).toNat =
        some date := h
    unfold ofUnix? at hdate
    split_ifs at hdate with hin
    obtain rfl := Option.some.inj hdate
    refine ⟨⟨inCalendar_iff.2 hin, ?_⟩, ?_⟩
    · dsimp only
      omega
    · rw [totalNanos]
      dsimp only
      omega
  · rintro ⟨⟨hin, hnanos⟩, htotal⟩
    have hparts : (t.totalNanos + d.nanos) / 1000000000 = date.secs ∧
        ((t.totalNanos + d.nanos) % 1000000000).toNat = date.nanos := by
      rw [← htotal, totalNanos]
      omega
    dsimp only
    rw [hparts.1, hparts.2]
    exact hin

theorem OnClock.add?_zero (h : t.OnClock) : t.add? ⟨0⟩ = some t :=
  add?_eq_some_iff.2 ⟨h, (Int.add_zero _).symm⟩

/-- A moment after a date is reached when as many seconds have passed since a moment no earlier than the date. -/
theorem le_later_of_add? {d : Duration} {date : Timestamp} {n : Nat} (h : t.add? d = some date) (ht : t.OnClock)
    (hnow : t ≤ now) (hn : d.nanos ≤ n * Duration.nanosPerSec) : date ≤ now.later n := by
  obtain ⟨⟨-, hdate⟩, htotal⟩ := add?_eq_some_iff.1 h
  have hnanos := ht.2
  rw [totalNanos, totalNanos] at htotal
  rw [le_iff] at hnow ⊢
  rw [Duration.nanosPerSec] at hn
  rw [later]
  dsimp only
  omega

/-! ### Seconds until a date -/

/-- The time from the clock's date to another one is their difference, less a second for a leap second at an earlier time
of day. -/
theorem nanosFrom_eq (t : Timestamp) (hnow : now.nanos < 1000000000) :
    t.nanosFrom now = t.totalNanos - now.totalNanos -
      if t.secOfDay < now.secOfDay ∧ 1000000000 ≤ t.nanos then 1000000000 else 0 := by
  have hclock : ¬now.isLeap = true := by simpa [isLeap] using hnow
  have hleap : t.isLeap = true ↔ 1000000000 ≤ t.nanos := by simp [isLeap]
  unfold nanosFrom
  dsimp only
  rw [if_neg fun h => hclock h.2]
  simp only [hleap]
  split_ifs <;> omega

/-- The time between two dates of the calendar is bounded. -/
theorem natAbs_nanosFrom_lt (ht : t.InCalendar) (hnow : now.OnClock) :
    (t.nanosFrom now).natAbs < 20000000000000 * 1000000000 := by
  obtain ⟨hfirst, hlast, hnanos⟩ := inCalendar_iff.1 ht
  obtain ⟨hnowFirst, hnowLast, -⟩ := inCalendar_iff.1 hnow.1
  have hclock := hnow.2
  have htime := nanosFrom_eq t hclock
  rw [totalNanos, totalNanos] at htime
  rw [minSecs] at hfirst hnowFirst
  rw [maxSecs] at hlast hnowLast
  split_ifs at htime <;> omega

theorem secsFrom_lt (ht : t.InCalendar) (hnow : now.OnClock) : t.secsFrom now < 20000000000000 := by
  have := natAbs_nanosFrom_lt ht hnow
  unfold secsFrom
  omega

/-- A date is reached two seconds after the seconds counted, leap second or not. -/
theorem le_later_secsFrom_add_two (ht : t.nanos < 2000000000) (hnow : now.nanos < 1000000000) :
    t ≤ now.later (t.secsFrom now + 2) := by
  have htime := nanosFrom_eq t hnow
  rw [totalNanos, totalNanos] at htime
  rw [le_iff, later, secsFrom]
  dsimp only
  split_ifs at htime <;> omega

/-- A date that is no leap second is reached one second after them. -/
theorem le_later_secsFrom_add_one (ht : t.nanos < 1000000000) (hnow : now.nanos < 1000000000) :
    t ≤ now.later (t.secsFrom now + 1) := by
  have htime := nanosFrom_eq t hnow
  rw [totalNanos, totalNanos] at htime
  rw [le_iff, later, secsFrom]
  dsimp only
  split_ifs at htime <;> omega

/-- A date is reached after them exactly if it does not lie ahead or they are all of the time until it. For a leap second
this takes a fraction no less than the clock's and a time of day no earlier. -/
theorem le_later_secsFrom_iff (ht : t.nanos < 2000000000) (hnow : now.nanos < 1000000000) :
    t ≤ now.later (t.secsFrom now) ↔ t ≤ now ∨ t.nanos = now.nanos ∨
      (now.secOfDay ≤ t.secOfDay ∧ now.nanos + 1000000000 ≤ t.nanos) := by
  have htime := nanosFrom_eq t hnow
  rw [totalNanos, totalNanos] at htime
  unfold secOfDay at htime ⊢
  rw [le_iff, le_iff, later, secsFrom]
  dsimp only
  split_ifs at htime <;> omega

end Timestamp

end RepoSearch
