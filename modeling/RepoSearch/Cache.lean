import RepoSearch.Table
import RepoSearch.Time.Duration

/-!
# The cache

A cache keeps a bounded number of values by key. An entry older than the time to live is as good as absent and is
removed when it is read. A new key that finds the cache full takes the place of the entry inserted longest ago; reading
does not protect an entry, and writing a key again counts as a new insertion. Insertions are numbered, and beside the
entries the cache keeps the keys by these numbers.
-/

namespace RepoSearch

/-- A value with the time and the number of its insertion. -/
structure Cache.Entry (V : Type) where
  value : V
  storedAt : Instant
  seq : Nat

/-- A bounded store of values that expire. -/
structure Cache (V : Type) where
  ttl : Duration
  capacity : Nat
  entries : Table (Cache.Entry V)
  /-- The keys by the number of their insertion; the least is the oldest. -/
  order : Std.ExtTreeMap Nat String compare
  nextSeq : Nat
  hits : Nat
  misses : Nat

namespace Cache

variable {V : Type}

/-- A cache without entries, with room for at least one. -/
def empty (ttl : Duration) (capacity : Nat) : Cache V where
  ttl := ttl
  capacity := max capacity 1
  entries := ∅
  order := ∅
  nextSeq := 0
  hits := 0
  misses := 0

/-- The number of entries, expired ones included. -/
def size (c : Cache V) : Nat := c.entries.size

/-- An entry is expired when it is older than the time to live. -/
def isExpired (c : Cache V) (now : Instant) (e : Entry V) : Bool :=
  c.ttl < now.since e.storedAt

/-- The cache without the entry of a key. -/
def remove (c : Cache V) (key : String) : Cache V :=
  match c.entries[key]? with
  | none => c
  | some e => { c with entries := c.entries.erase key, order := c.order.erase e.seq }

/-! ### Reading -/

/-- Reads a key. An expired entry is removed and counts as a miss. -/
def get (c : Cache V) (key : String) (now : Instant) : Option V × Cache V :=
  match c.entries[key]? with
  | none => (none, { c with misses := c.misses + 1 })
  | some e =>
    if c.isExpired now e then
      let c := c.remove key
      (none, { c with misses := c.misses + 1 })
    else (some e.value, { c with hits := c.hits + 1 })

/-! ### Writing -/

/-- Removes the oldest entries until there is room for one more, `fuel` of them at most. -/
def makeRoom (c : Cache V) : Nat → Cache V
  | 0 => c
  | fuel + 1 =>
    if c.size < c.capacity then c
    else match c.order.minEntry? with
      | none => c
      | some (seq, key) =>
        { c with entries := c.entries.erase key, order := c.order.erase seq }.makeRoom fuel

/-- Appends an entry, without regard to room. -/
def push (c : Cache V) (key : String) (value : V) (now : Instant) : Cache V :=
  { c with
    entries := c.entries.insert key ⟨value, now, c.nextSeq⟩
    order := c.order.insert c.nextSeq key
    nextSeq := c.nextSeq + 1 }

/-- Writes a key. A cache with no time to live stores nothing. -/
def set (c : Cache V) (key : String) (value : V) (now : Instant) : Cache V :=
  if c.ttl.nanos = 0 then c
  else if c.entries.contains key then (c.remove key).push key value now
  else (c.makeRoom c.order.size).push key value now

/-- Removes all entries and keeps the counters. -/
def clear (c : Cache V) : Cache V :=
  { c with entries := ∅, order := ∅ }

/-- The keys of the expired entries. -/
def expiredKeys (c : Cache V) (now : Instant) : List String :=
  (c.entries.filter fun _ e => c.isExpired now e).keys

/-- Removes the expired entries and counts them. -/
def purge (c : Cache V) (now : Instant) : Nat × Cache V :=
  let keys := c.expiredKeys now
  (keys.length, keys.foldl remove c)

/-! ### Statistics -/

/-- What a cache tells about itself. -/
structure Stats where
  keys : Nat
  hits : Nat
  misses : Nat
  deriving DecidableEq, Repr

/-- The statistics, once the expired entries are removed. -/
def stats (c : Cache V) (now : Instant) : Stats × Cache V :=
  let c := (c.purge now).2
  (⟨c.size, c.hits, c.misses⟩, c)

end Cache

end RepoSearch
