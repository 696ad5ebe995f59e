import Mathlib.Data.Rat.Defs
import Mathlib.Data.String.Basic
import RatelimitGateway.Lib.KeyStore
import RatelimitGateway.Lib.SortedSet

/-!
# The Redis commands the scripts use

A script runs atomically under one reading of the server's clock. It is a
computation in `Script`: it reads the clock, reads and writes the keyspace,
and may stop with a Redis error; effects made before an error stay, as on the
server.

Numbers are exact. A hash field holds a rational, because Redis passes script
numbers to commands with enough digits to read the same number back; a score
and a counter are whole, because the scripts only ever store milliseconds and
counts there.
-/

namespace RatelimitGateway.Redis

open KeyStore

/-- The fields `tokens` and `updated_at` of a hash. -/
structure Bucket where
  tokens : Option ℚ
  updatedAt : Option ℚ
  deriving DecidableEq

/-- What a key can hold. -/
inductive Value where
  /-- A string holding an integer. -/
  | counter (n : ℤ)
  | hash (b : Bucket)
  | zset (z : SortedSet ℤ String)
  deriving DecidableEq

abbrev Store := KeyStore.Store String Value

/-- The error replies the commands below can give. -/
inductive RedisError where
  | wrongType
  /-- `PEXPIRE` with a number that it does not take. -/
  | invalidExpire
  deriving DecidableEq, Repr

/-- A script, or a part of one. -/
abbrev Script := ReaderT Clock (ExceptT RedisError (StateM Store))

/-- Run a script: its reply or the error it stopped with, and the keyspace. -/
def exec {α : Type} (script : Script α) (c : Clock) (s : Store) : Except RedisError α × Store :=
  script c s

/-- A command as a script of its own. -/
def command {α : Type} (run : Clock → Store → Except RedisError α × Store) : Script α :=
  fun c s => run c s

/-! ## Hashes -/

/-- `HMGET key tokens updated_at`: a missing key or field reads as nil. -/
def hmget (key : String) : Script (Option ℚ × Option ℚ) :=
  command fun c s =>
    match valueAt c s key with
    | none => (.ok (none, none), s)
    | some (.hash b) => (.ok (b.tokens, b.updatedAt), s)
    | some _ => (.error .wrongType, s)

/-- `HSET key tokens _ updated_at _`. -/
def hset (key : String) (tokens updatedAt : ℚ) : Script Unit :=
  command fun c s =>
    match valueAt c s key with
    | none | some (.hash _) =>
      (.ok (), write c s key (.hash ⟨some tokens, some updatedAt⟩))
    | some _ => (.error .wrongType, s)

/-! ## Counters -/

/-- `INCR key`: a missing key counts as zero. -/
def incr (key : String) : Script ℤ :=
  command fun c s =>
    match valueAt c s key with
    | none => (.ok 1, write c s key (.counter 1))
    | some (.counter n) => (.ok (n + 1), write c s key (.counter (n + 1)))
    | some _ => (.error .wrongType, s)

/-! ## Sorted sets -/

/-- The sorted set a command sees; a missing key is the empty set. -/
def zget (c : Clock) (s : Store) (key : String) : Except RedisError (SortedSet ℤ String) :=
  match valueAt c s key with
  | none => .ok SortedSet.empty
  | some (.zset z) => .ok z
  | some _ => .error .wrongType

/-- `ZREMRANGEBYSCORE key -inf max`. A set left without members is removed
together with its key. -/
def zremrangebyscore (key : String) (max : ℤ) : Script Unit :=
  command fun c s =>
    match zget c s key with
    | .ok z =>
      if (z.removeUpTo max).card = 0 then (.ok (), erase s key)
      else (.ok (), write c s key (.zset (z.removeUpTo max)))
    | .error e => (.error e, s)

/-- `ZCARD key`. -/
def zcard (key : String) : Script ℤ :=
  command fun c s => ((zget c s key).map fun z => (z.card : ℤ), s)

/-- `ZADD key score member`. -/
def zadd (key : String) (score : ℤ) (member : String) : Script Unit :=
  command fun c s =>
    match zget c s key with
    | .ok z => (.ok (), write c s key (.zset (z.add score member)))
    | .error e => (.error e, s)

/-- `ZRANGE key 0 0 WITHSCORES`: the lowest entry, if there is one. -/
def zrangeFirst (key : String) : Script (Option (ℤ × String)) :=
  command fun c s => ((zget c s key).map SortedSet.lowest?, s)

/-! ## Deadlines -/

/-- `PEXPIRE key ms`. -/
def pexpire (key : String) (ms : ℤ) : Script Unit :=
  command fun c s => (.ok (), expireAt c s key (c.time + ms))

/-- `PEXPIRE key ms`, on a server that takes no more than `maxTtl`: less than 2^63, and
less than 10^17 where a script number from there on is passed in scientific notation. -/
def pexpireUpTo (maxTtl : ℤ) (key : String) (ms : ℤ) : Script Unit :=
  command fun c s =>
    if ms ≤ maxTtl then (.ok (), expireAt c s key (c.time + ms)) else (.error .invalidExpire, s)

/-! ## Running a script command by command -/

section Exec

variable {α β : Type} (c : Clock) (s : Store)

@[simp] theorem exec_pure (a : α) : exec (pure a) c s = (.ok a, s) := rfl

/-- Two scripts, one after the other. -/
theorem exec_bind (x : Script α) (f : α → Script β) :
    exec (x >>= f) c s =
      match exec x c s with
      | (.ok a, s') => exec (f a) c s'
      | (.error e, s') => (.error e, s') := by
  show (match x c s with
      | (a, s') => ExceptT.bindCont (fun a => f a c) a s') = _
  unfold exec
  rcases x c s with ⟨r, s'⟩
  cases r <;> rfl

/-- A script goes on after a step that answered. -/
theorem exec_bind_ok {x : Script α} {a : α} {s' : Store} (h : exec x c s = (.ok a, s'))
    (f : α → Script β) : exec (x >>= f) c s = exec (f a) c s' := by
  rw [exec_bind, h]

end Exec

end RatelimitGateway.Redis
