import RepoSearch.Json.Basic
import RepoSearch.Search.Request
import RepoSearch.Text.Blank
import RepoSearch.Text.Decimal
import RepoSearch.Time.Duration

/-!
# Settings of the service

Settings are read from environment variables. A variable that is not set, or whose number cannot be read, leaves the
default in place.
-/

namespace RepoSearch

/-- How GitHub is reached. -/
structure GitHubSettings where
  /-- The base address of the API, without a slash at its end. -/
  apiUrl : String := "https://api.github.com"
  token : Option String := none
  userAgent : String := "Open-Source-Hub"
  deriving DecidableEq, Repr

/-- How many requests a client may make. -/
structure RateLimitSettings where
  maxRequests : Nat := 30
  windowSecs : Nat := 60
  deriving DecidableEq, Repr

/-- The settings of the service. -/
structure Settings where
  bindAddress : String := "127.0.0.1:3000"
  github : GitHubSettings := {}
  cacheTtlSecs : Nat := 300
  cacheCapacity : Nat := 500
  fetchTimeoutSecs : Nat := 10
  rateLimit : RateLimitSettings := {}
  limits : Limits := {}
  allowAnyOrigin : Bool := true
  deriving DecidableEq, Repr

namespace Settings

def cacheTtl (s : Settings) : Duration := .ofSecs s.cacheTtlSecs

def fetchTimeout (s : Settings) : Duration := .ofSecs s.fetchTimeoutSecs

def rateWindow (s : Settings) : Duration := .ofSecs s.rateLimit.windowSecs

/-- A text without the slashes at its end. -/
def dropSlashes (s : String) : String :=
  String.ofList (s.toList.reverse.dropWhile (· = '/')).reverse

/-- The address to listen at. A number alone is served on all interfaces; an address given in full outweighs it. -/
def addressFrom (env : String → Option String) (fallback : String) : String :=
  match env "HUB_BIND_ADDR", env "PORT" with
  | some address, _ => address
  | none, some number =>
    if (Decimal.read? Decimal.max16 number).isSome then "0.0.0.0:" ++ number else fallback
  | none, none => fallback

/-- The settings that an environment gives. -/
def ofEnvironment (env : String → Option String) : Settings :=
  let defaults : Settings := {}
  let number (name : String) (bound fallback : Nat) : Nat :=
    ((env name).bind (Decimal.read? bound)).getD fallback
  { defaults with
    bindAddress := addressFrom env defaults.bindAddress
    github :=
      { apiUrl := ((env "GITHUB_API_URL").map dropSlashes).getD defaults.github.apiUrl
        token := ((env "GITHUB_TOKEN").map Text.trim).filter (!·.isEmpty)
        userAgent := (env "HUB_USER_AGENT").getD defaults.github.userAgent }
    cacheTtlSecs := number "HUB_CACHE_TTL_SECS" Decimal.max64 defaults.cacheTtlSecs
    cacheCapacity := max 1 (number "HUB_CACHE_CAPACITY" Decimal.max64 defaults.cacheCapacity)
    fetchTimeoutSecs := number "HUB_FETCH_TIMEOUT_SECS" Decimal.max64 defaults.fetchTimeoutSecs
    rateLimit :=
      { maxRequests := number "HUB_RATE_LIMIT_MAX" Decimal.max32 defaults.rateLimit.maxRequests
        windowSecs := number "HUB_RATE_LIMIT_WINDOW_SECS" Decimal.max64 defaults.rateLimit.windowSecs }
    allowAnyOrigin :=
      match env "HUB_ALLOW_ANY_ORIGIN" with
      | some s => s ∈ ["1", "true", "yes"]
      | none => defaults.allowAnyOrigin }

/-- The settings as they may be shown; the token is left out. -/
def toJson (s : Settings) : Json :=
  .obj [
    ("bind_addr", .str s.bindAddress),
    ("github", .obj [("api_url", .str s.github.apiUrl), ("user_agent", .str s.github.userAgent)]),
    ("cache_ttl_secs", .ofNat s.cacheTtlSecs),
    ("cache_capacity", .ofNat s.cacheCapacity),
    ("fetch_timeout_secs", .ofNat s.fetchTimeoutSecs),
    ("rate_limit", .obj [
      ("max_requests", .ofNat s.rateLimit.maxRequests),
      ("window_secs", .ofNat s.rateLimit.windowSecs)]),
    ("limits", .obj [
      ("min_query_len", .ofNat s.limits.minQueryLength),
      ("max_page", .ofNat s.limits.maxPage),
      ("max_per_page", .ofNat s.limits.maxPerPage),
      ("max_labels", .ofNat s.limits.maxLabels),
      ("default_page", .ofNat s.limits.defaultPage),
      ("default_per_page", .ofNat s.limits.defaultPerPage)]),
    ("allow_any_origin", .bool s.allowAnyOrigin)]

end Settings

end RepoSearch
