import RepoSearch.Table
import RepoSearch.Time.Timestamp

/-!
# Rate limiting

Each client has a window of fixed length that opens with a request and in which only so many requests are accepted.
A rejected request neither counts nor moves the window. When many clients are known and a new one comes, the windows
that have passed are forgotten.
-/

namespace RepoSearch

/-- A client's window: when it opened, and the requests accepted in it. -/
structure Window where
  started : Instant
  count : Nat
  deriving DecidableEq, Repr

/-- The windows of all clients. -/
structure RateLimiter where
  maxRequests : Nat
  window : Duration
  clients : Table Window

namespace RateLimiter

/-- The answer to one request. -/
inductive Verdict where
  | accepted
  /-- How long to wait, and the date when the wait is over. -/
  | rejected (retryAfter : Duration) (resetTime : Timestamp)
  /-- The request is rejected, but the date when the wait is over lies beyond the calendar. -/
  | beyondCalendar
  deriving DecidableEq, Repr

/-- A limiter that knows no client. -/
def empty (maxRequests : Nat) (window : Duration) : RateLimiter :=
  ⟨maxRequests, window, ∅⟩

/-- From this number of clients on, a new client causes passed windows to be forgotten. -/
def sweepThreshold : Nat := 1024

/-- The longest wait for which a date is computed; after a longer one the current date is given. -/
def longestWait : Duration := .ofMillis Decimal.maxSigned64

/-- The window is still open. -/
def isOpen (l : RateLimiter) (now : Instant) (w : Window) : Bool :=
  now.since w.started < l.window

/-- The number of clients known. -/
def size (l : RateLimiter) : Nat := l.clients.size

/-- Forgets the passed windows. -/
def sweep (l : RateLimiter) (now : Instant) : RateLimiter :=
  { l with clients := l.clients.filter fun _ w => l.isOpen now w }

/-- Forgets the passed windows if many clients are known and this one is not. -/
def tidy (l : RateLimiter) (client : String) (now : Instant) : RateLimiter :=
  if sweepThreshold ≤ l.size ∧ ¬ l.clients.contains client then l.sweep now else l

/-- The window in which a client's request falls: a known one that is still open, or else a new one. -/
def currentWindow (l : RateLimiter) (client : String) (now : Instant) : Window :=
  match l.clients[client]? with
  | some w => if l.isOpen now w then w else ⟨now, 0⟩
  | none => ⟨now, 0⟩

/-- The verdict on a request that comes after all of its window's requests are used up. -/
def rejection (l : RateLimiter) (date : Timestamp) (w : Window) (now : Instant) : Verdict :=
  let wait := l.window - now.since w.started
  match date.add? (if longestWait < wait then ⟨0⟩ else wait) with
  | some t => .rejected wait t
  | none => .beyondCalendar

/-- Checks a request of a client. The current date serves for the date given with a rejection. -/
def check (l : RateLimiter) (date : Timestamp) (client : String) (now : Instant) : Verdict × RateLimiter :=
  let l := l.tidy client now
  let w := l.currentWindow client now
  if w.count < l.maxRequests then
    (.accepted, { l with clients := l.clients.insert client { w with count := w.count + 1 } })
  else (l.rejection date w now, { l with clients := l.clients.insert client w })

end RateLimiter

end RepoSearch
