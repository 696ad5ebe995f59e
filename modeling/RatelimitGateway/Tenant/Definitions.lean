import RatelimitGateway.Limiter.Definitions

/-!
# Tenants and tiers

Translated from `internal/tenant`: what a resolved request carries.
-/

namespace RatelimitGateway

/-- `Tier` is a named quota shared by many tenants. -/
structure Tier where
  name : String
  limit : ℤ
  /-- Nanoseconds. -/
  window : ℤ
  burst : ℤ
  deriving DecidableEq, Repr

/-- `Quota` converts the tier into the limiter's representation. -/
def Tier.quota (t : Tier) : Limiter.Quota where
  limit := t.limit
  window := t.window
  burst := t.burst

/-- `Tenant` is a resolved caller. -/
structure Tenant where
  /-- The rate limit key. -/
  id : String
  tier : Tier
  deriving DecidableEq, Repr

end RatelimitGateway
