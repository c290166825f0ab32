import RepoSearch.GitHub.Client
import RepoSearch.Service.Run
import RepoSearch.Proofs.CacheKey
import RepoSearch.Proofs.Engine.Books
import RepoSearch.Proofs.Engine.Beginning
import RepoSearch.Proofs.Engine.Steps
import RepoSearch.Proofs.Engine.Unfinished
import RepoSearch.Proofs.Engine.Occupancy
import RepoSearch.Proofs.CacheEntries
import RepoSearch.Proofs.Tables
import RepoSearch.Proofs.CacheQueue
import RepoSearch.Proofs.CacheRuns
import RepoSearch.Proofs.RateHistory
import RepoSearch.Proofs.Engine.Sources
import RepoSearch.Proofs.Engine.CacheHistory
import RepoSearch.Proofs.Engine.Supersession
import RepoSearch.Proofs.Engine.Provenance
import RepoSearch.Proofs.Engine.Calls
import RepoSearch.Proofs.Engine.Deliveries
import RepoSearch.Proofs.Engine.SharedFetch
import RepoSearch.Proofs.Engine.OwnSlots
import RepoSearch.Engine.Interleaving
import RepoSearch.Proofs.Engine.SingleFlight
import RepoSearch.Proofs.Http.Address
import RepoSearch.Proofs.Service.Slots
import RepoSearch.Proofs.Service.Requests
import RepoSearch.Proofs.Service.Clients
import RepoSearch.Proofs.Engine.Undisturbed
import RepoSearch.Proofs.Engine.Successes
import RepoSearch.Proofs.Engine.Counters
import RepoSearch.Proofs.Records
import RepoSearch.Proofs.Engine.Payload
import RepoSearch.Proofs.Criteria
import RepoSearch.Proofs.Query.Words
import RepoSearch.Proofs.Engine.Limits
import RepoSearch.Proofs.CacheExpiry
import RepoSearch.Proofs.CacheSurvival
import RepoSearch.Proofs.Query.Parsing
import RepoSearch.Proofs.Query.Filters
import RepoSearch.Proofs.Query.Clauses
import RepoSearch.Proofs.Query.Fields
import RepoSearch.Proofs.Query.Written
import RepoSearch.Proofs.CanonicalRequests
import RepoSearch.Proofs.RateWaits
import RepoSearch.Proofs.Dates
import RepoSearch.Proofs.RateBursts
import RepoSearch.Proofs.RateRejections
import RepoSearch.Proofs.RetryAfter
import RepoSearch.Proofs.CacheRoom
import RepoSearch.Proofs.LabelCount
import RepoSearch.Proofs.RateTracking
import RepoSearch.Proofs.Engine.Seats
import RepoSearch.Proofs.Engine.LastSeats
import RepoSearch.Proofs.Engine.GoingOn
import RepoSearch.Proofs.Engine.WakingOrder
