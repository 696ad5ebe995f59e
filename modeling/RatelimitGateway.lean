import RatelimitGateway.Lib.Machine
import RatelimitGateway.Limiter.Definitions
import RatelimitGateway.Lib.ArrivalCurve
import RatelimitGateway.Limiter.Execution
import RatelimitGateway.Limiter.TokenBucket
import RatelimitGateway.Limiter.SlidingWindow
import RatelimitGateway.Limiter.FixedWindow
import RatelimitGateway.Breaker.Contract
import RatelimitGateway.Middleware.Definitions
import RatelimitGateway.Middleware.Pipeline
import RatelimitGateway.Middleware.Load
import RatelimitGateway.Middleware.Disconnects
import RatelimitGateway.Limiter.RetryAfter
import RatelimitGateway.Limiter.ResetAfter
import RatelimitGateway.Limiter.Expiry
import RatelimitGateway.Limiter.Throttled
import RatelimitGateway.Limiter.Remaining
import RatelimitGateway.Redis.Footprint
import RatelimitGateway.Lib.Separator
import RatelimitGateway.Limiter.Isolation
import RatelimitGateway.Limiter.Conversion
import RatelimitGateway.Limiter.Waiting
import RatelimitGateway.Middleware.Headers
import RatelimitGateway.Breaker.History
import RatelimitGateway.Breaker.Probes
import RatelimitGateway.Middleware.Requests
import RatelimitGateway.Tenant.Resolver
import RatelimitGateway.Tenant.Keys
import RatelimitGateway.Middleware.Refinement
import RatelimitGateway.Limiter.WorstCase
import RatelimitGateway.Limiter.Coherent
import RatelimitGateway.Limiter.Overflow
import RatelimitGateway.Tenant.Anonymous
import RatelimitGateway.Dashboard.Histogram
import RatelimitGateway.Proxy.Observe
import RatelimitGateway.Dashboard.Chart
import RatelimitGateway.Dashboard.Simulate
import RatelimitGateway.Dashboard.Stats
import RatelimitGateway.Console.Record
import RatelimitGateway.Lib.Snapshot
import RatelimitGateway.Middleware.Gauges
import RatelimitGateway.Lib.CatchUp
import RatelimitGateway.Limiter.Comparison
import RatelimitGateway.Limiter.Saturation
import RatelimitGateway.Middleware.Fleet
import RatelimitGateway.Limiter.Skew
import RatelimitGateway.Middleware.FleetWindows
import RatelimitGateway.Limiter.Retention
import RatelimitGateway.Limiter.Justified
import RatelimitGateway.Middleware.FleetRefusals
import RatelimitGateway.Middleware.Recovery
import RatelimitGateway.Limiter.Failover
import RatelimitGateway.Dashboard.Polls
import RatelimitGateway.Limiter.Rollout
import RatelimitGateway.Middleware.Cardinality
import RatelimitGateway.Tenant.MapOrder
import RatelimitGateway.Dashboard.Burst
import RatelimitGateway.Lib.Rounding
import RatelimitGateway.Limiter.Doubles
