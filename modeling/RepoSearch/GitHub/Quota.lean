import RepoSearch.Http.Header
import RepoSearch.Search.Answer

/-!
# Quota and status of GitHub's answers

GitHub tells in header fields how many requests are left and when the count starts anew. An answer with a status that is
no success is an error, whatever its body says.
-/

namespace RepoSearch

/-- The quota that the header fields tell. A field that cannot be read counts as absent. -/
def Quota.ofHeaders (headers : List Http.Header) : Quota where
  remaining := (Http.Header.find? headers "x-ratelimit-remaining").bind fun s =>
    Decimal.read? Decimal.max32 (Text.trim s)
  reset := (Http.Header.find? headers "x-ratelimit-reset").bind fun s =>
    (Decimal.readInt? Decimal.maxSigned64 (Text.trim s)).bind fun secs => Timestamp.ofUnix? secs 0

/-- The error that a status stands for. -/
def SearchError.ofStatus (status : Nat) (quota : Quota) : SearchError :=
  if status = 403 ∨ status = 429 then .quotaExhausted quota.reset
  else .failed (some status) ("upstream search failed with HTTP " ++ Decimal.render status)

end RepoSearch
