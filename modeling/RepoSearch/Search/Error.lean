import RepoSearch.Json.Basic
import RepoSearch.Text.Decimal
import RepoSearch.Time.Timestamp

/-!
# Search errors

Why a search is refused or fails: the request may be at fault, a rate limit may be reached, GitHub may be late or answer
with an error, or a newer search may have taken the slot. Each cause has a code, an HTTP status and a message.
-/

namespace RepoSearch

/-- A fault of a search request. -/
inductive RequestError where
  | queryTooShort (min : Nat)
  | pageOutOfRange (max : Nat)
  | perPageOutOfRange (max : Nat)
  | unsupportedSort (text : String)
  | tooManyLabels (max got : Nat)
  | unsupportedLanguage (text : String)
  | malformedQuery (reason : String)
  deriving DecidableEq, Repr

namespace RequestError

def code : RequestError → String
  | queryTooShort _ => "query_too_short"
  | pageOutOfRange _ => "invalid_page"
  | perPageOutOfRange _ => "invalid_per_page"
  | unsupportedSort _ => "invalid_sort"
  | tooManyLabels _ _ => "too_many_labels"
  | unsupportedLanguage _ => "unsupported_language"
  | malformedQuery _ => "invalid_query"

def message : RequestError → String
  | queryTooShort min => "query must be at least " ++ Decimal.render min ++ " characters long"
  | pageOutOfRange max => "page must be a number between 1 and " ++ Decimal.render max
  | perPageOutOfRange max => "per_page must be a number between 1 and " ++ Decimal.render max
  | unsupportedSort text => "unsupported sort option '" ++ text ++ "'"
  | tooManyLabels max got =>
    "at most " ++ Decimal.render max ++ " labels are allowed, got " ++ Decimal.render got
  | unsupportedLanguage text => "unsupported language '" ++ text ++ "'"
  | malformedQuery reason => "malformed query string: " ++ reason

end RequestError

/-- Why a search has no result. -/
inductive SearchError where
  | request (fault : RequestError)
  /-- The client has used up its requests. -/
  | rateLimited (retryAfter : Duration) (resetTime : Timestamp)
  /-- GitHub's own limit is reached. -/
  | quotaExhausted (resetTime : Option Timestamp)
  /-- GitHub did not answer in time. -/
  | timedOut (after : Duration)
  /-- GitHub could not be reached, or its answer was of no use. -/
  | failed (status : Option Nat) (reason : String)
  /-- A newer search took the slot. -/
  | superseded
  deriving DecidableEq, Repr

namespace SearchError

def code : SearchError → String
  | request fault => fault.code
  | rateLimited _ _ => "rate_limit_exceeded"
  | quotaExhausted _ => "upstream_rate_limit_exceeded"
  | timedOut _ => "upstream_timeout"
  | failed _ _ => "upstream_error"
  | superseded => "search_superseded"

/-- The HTTP status of the answer. -/
def status : SearchError → Nat
  | request _ => 400
  | rateLimited _ _ => 429
  | quotaExhausted _ => 403
  | timedOut _ => 504
  | failed _ _ => 500
  | superseded => 409

theorem status_eq_conflict_iff {e : SearchError} : e.status = 409 ↔ e = .superseded := by
  cases e <;> simp [status]

def message : SearchError → String
  | request fault => fault.message
  | rateLimited retryAfter _ =>
    "too many requests, retry in " ++ Decimal.render retryAfter.secsUp ++ " seconds"
  | quotaExhausted (some t) => "API rate limit exceeded. Try again after " ++ t.clockText ++ " UTC"
  | quotaExhausted none => "API rate limit exceeded. Try again later"
  | timedOut after =>
    "upstream search did not answer within " ++ Decimal.render after.secs ++ " seconds"
  | failed _ reason => reason
  | superseded => "search was superseded by a newer request"

/-- When the limit that was reached will be lifted. -/
def resetTime? : SearchError → Option Timestamp
  | rateLimited _ t => some t
  | quotaExhausted t => t
  | _ => none

/-- The seconds that a client is told to wait, as of `now`. -/
def retryAfter? (now : Timestamp) : SearchError → Option Nat
  | rateLimited retryAfter _ => some retryAfter.secsUp
  | quotaExhausted (some t) => some (t.secsFrom now)
  | _ => none

/-- The body of the answer. -/
def toJson (e : SearchError) : Json :=
  .obj <| [("error", .str e.code), ("message", .str e.message)] ++
    e.resetTime?.toList.map fun t => ("reset_time", .str t.render)

end SearchError

end RepoSearch
