/-!
# Durations and instants

A duration is a number of nanoseconds. An instant is a reading of a clock that only its differences give a meaning to.
The time since an instant that lies ahead counts as none.
-/

namespace RepoSearch

/-- A span of time. -/
structure Duration where
  nanos : Nat
  deriving DecidableEq, Repr

namespace Duration

def nanosPerSec : Nat := 1000000000

def nanosPerMilli : Nat := 1000000

def ofSecs (s : Nat) : Duration := ⟨s * nanosPerSec⟩

def ofMillis (ms : Nat) : Duration := ⟨ms * nanosPerMilli⟩

/-- The whole seconds. -/
def secs (d : Duration) : Nat := d.nanos / nanosPerSec

/-- The nanoseconds beyond the whole seconds. -/
def subsecNanos (d : Duration) : Nat := d.nanos % nanosPerSec

/-- The seconds, with a fraction counted as a whole one. -/
def secsUp (d : Duration) : Nat := d.secs + (if 0 < d.subsecNanos then 1 else 0)

/-- The milliseconds, with a fraction counted as a whole one. -/
def millisUp (d : Duration) : Nat := d.nanos / nanosPerMilli + (if 0 < d.nanos % nanosPerMilli then 1 else 0)

instance : LE Duration := ⟨fun a b => a.nanos ≤ b.nanos⟩

instance : LT Duration := ⟨fun a b => a.nanos < b.nanos⟩

instance (a b : Duration) : Decidable (a ≤ b) := inferInstanceAs (Decidable (a.nanos ≤ b.nanos))

instance (a b : Duration) : Decidable (a < b) := inferInstanceAs (Decidable (a.nanos < b.nanos))

/-- The difference, which is nothing when the second span is the longer one. -/
instance : Sub Duration := ⟨fun a b => ⟨a.nanos - b.nanos⟩⟩

end Duration

/-- A reading of a steady clock, in nanoseconds from an arbitrary zero. -/
structure Instant where
  nanos : Int
  deriving DecidableEq, Repr

namespace Instant

/-- The time from `earlier` to `now`. -/
def since (now earlier : Instant) : Duration := ⟨(now.nanos - earlier.nanos).toNat⟩

/-- The instant a span before `now`. -/
def before (now : Instant) (d : Duration) : Instant := ⟨now.nanos - d.nanos⟩

end Instant

end RepoSearch
