import RepoSearch.Engine.Run
import RepoSearch.Http.Message
import RepoSearch.Query.Reference
import RepoSearch.RateLimiter
import RepoSearch.Settings

/-!
# The state of the service

The service joins the search engine with the rate limiter. It remembers which callers asked for headers alone, because
their searches may end later.
-/

namespace RepoSearch

/-- The service with all that it remembers. -/
structure Service where
  settings : Settings
  engine : Engine
  limiter : RateLimiter
  /-- The callers whose responses carry no body. -/
  headOnly : List String
  /-- The date, which stands still while the service runs. -/
  date : Timestamp
  /-- When the service began, by the engine's clock. -/
  startedAt : Instant

namespace Service

/-- A service that has not been asked for anything. -/
def start (settings : Settings) (replies : List Reply) (date : Timestamp) : Service :=
  let setup : Engine.Setup := ⟨settings.limits, settings.fetchTimeout, replies, ⟨0⟩⟩
  { settings
    engine := .start setup (.empty settings.cacheTtl settings.cacheCapacity)
    limiter := .empty settings.rateLimit.maxRequests settings.rateWindow
    headOnly := []
    date
    startedAt := setup.clock }

/-- The reading of the clock by which windows and cache entries age. -/
def clock (s : Service) : Instant := s.engine.setup.clock

/-- A response to a caller; `none` when handling the request broke off. -/
abbrev Delivery := String × Option Http.Response

end Service

end RepoSearch
