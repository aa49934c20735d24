-- The rate limiter (`src/rate_limiter.cpp`): a token bucket for each tenant,
-- in Redis while there is a connection, and in this process after that. Clock
-- readings are in seconds. Rates and numbers of tokens are rational here: what
-- doubles round, and what Lua's `tostring` cuts off behind 14 digits, is left
-- out.
import InferenceServer.Request
import InferenceServer.Lib.Machine
import InferenceServer.Lib.TokenBucket
import Mathlib.Algebra.Order.Floor.Ring
import Mathlib.Data.Rat.Floor

namespace inference_server

open machine

/-- `rate_rps_` and `burst_`, as exact numbers. -/
structure Limits where
  rate_rps : ℚ
  burst : Int

/-! ## The bucket in this process -/

structure Bucket where
  tokens : ℚ
  last_refill : ℚ

/-- `buckets_`. -/
abbrev Buckets := Bytes → Option Bucket

namespace Limits

def refill (cfg : Limits) (b : Bucket) (now : ℚ) : Bucket :=
  let elapsed := now - b.last_refill
  { tokens := min (cfg.burst : ℚ) (b.tokens + elapsed * cfg.rate_rps), last_refill := now }

/-- `try_emplace`, and then `refill` when the bucket was there. -/
def bucketAt (cfg : Limits) (buckets : Buckets) (tenant_id : Bytes) (now : ℚ) : Bucket :=
  match buckets tenant_id with
  | none => { tokens := cfg.burst, last_refill := now }
  | some b => cfg.refill b now

def allowLocal (cfg : Limits) (buckets : Buckets) (tenant_id : Bytes) (now : ℚ) :
    Bool × Buckets :=
  let b := cfg.bucketAt buckets tenant_id now
  if b.tokens < 1 then (false, Function.update buckets tenant_id (some b))
  else (true, Function.update buckets tenant_id (some { b with tokens := b.tokens - 1 }))

end Limits

/-! ## The bucket in Redis -/

/-- The two fields of the hash. -/
structure Hash where
  tokens : ℚ
  last_ms : Int

/-- A hash in Redis, with the moment at which it goes, in milliseconds of
the clock of the server. -/
structure Stored where
  hash : Hash
  expire_at : Int

abbrev Db := Bytes → Option Stored

/-- `HMGET`. A hash whose time is over is gone. -/
def hmget (db : Db) (key : Bytes) (redis_ms : Int) : Option Hash :=
  match db key with
  | none => none
  | some s => if redis_ms < s.expire_at then some s.hash else none

/-- `tokens` of the script after its refill. -/
def scriptTokens (rate burst : ℚ) (now_ms : Int) (data : Option Hash) : ℚ :=
  let h := data.getD { tokens := burst, last_ms := now_ms }
  let elapsed := max 0 (((now_ms - h.last_ms : Int) : ℚ) / 1000)
  min burst (h.tokens + elapsed * rate)

/-- `HMSET` and `EXPIRE`. -/
def hmset (db : Db) (key : Bytes) (h : Hash) (redis_ms : Int) : Db :=
  Function.update db key (some { hash := h, expire_at := redis_ms + 86400 * 1000 })

/-- `kTokenBucketScript`, with its reply. `tostring` and `tonumber` are exact
here. -/
def tokenBucketScript (db : Db) (key : Bytes) (rate burst : ℚ) (now_ms redis_ms : Int) : Int × Db :=
  let tokens := scriptTokens rate burst now_ms (hmget db key redis_ms)
  if tokens < 1 then (0, hmset db key { tokens := tokens, last_ms := now_ms } redis_ms)
  else (1, hmset db key { tokens := tokens - 1, last_ms := now_ms } redis_ms)

/-! ## The command -/

/-- What `%s` sends of a `c_str()`: the bytes before the first NUL. -/
def cString (s : Bytes) : Bytes := s.takeWhile (fun b => b ≠ 0)

def redisKey (tenant_id : Bytes) : Bytes := cString (bytes "ratelimit:" ++ tenant_id)

/-- To the nearest integer, and to the even one of two. -/
def roundHalfEven (x : ℚ) : Int :=
  let r := x - ⌊x⌋
  if r < 1 / 2 then ⌊x⌋ else if 1 / 2 < r then ⌊x⌋ + 1 else if ⌊x⌋ % 2 = 0 then ⌊x⌋ else ⌊x⌋ + 1

/-- What `%f` sends of a number: six decimals. -/
def formatF (x : ℚ) : ℚ := (roundHalfEven (x * 1000000) : ℚ) / 1000000

/-- `duration_cast<milliseconds>`, which truncates. -/
def nowMs (system_clock : ℚ) : Int :=
  let ms := system_clock * 1000
  if 0 ≤ ms then ⌊ms⌋ else ⌈ms⌉

/-- How one command ends, from the server's side. A command whose reply is
lost may have run or not. -/
inductive Outcome where
  | replied (redis_ms : Int)
  | errorReply
  | nilReply
  | noReply (ran : Option Int)
  deriving DecidableEq, Repr

/-- A `redisReply`. -/
inductive Reply where
  | integer (i : Int)
  | error
  | nil
  deriving DecidableEq, Repr

/-- `redisCommand(redis_, "EVAL ...")`. Only an integer reply says that the
script ran to its end. -/
def redisCommand (db : Db) (key : Bytes) (rate burst : ℚ) (now_ms : Int) :
    Outcome → Option Reply × Db
  | .replied redis_ms =>
    let r := tokenBucketScript db key rate burst now_ms redis_ms
    (some (.integer r.1), r.2)
  | .errorReply => (some .error, db)
  | .nilReply => (some .nil, db)
  | .noReply none => (none, db)
  | .noReply (some redis_ms) => (none, (tokenBucketScript db key rate burst now_ms redis_ms).2)

/-! ## The limiter -/

/-- The limiter of one node, with the database of its Redis. `redis` tells
whether `redis_` is set. -/
structure RateLimiter where
  redis : Bool
  buckets : Buckets
  db : Db

/-- One call of `allow`, with the two clocks as it reads them, and how Redis
answers if it is asked. -/
structure Call where
  tenant_id : Bytes
  system_clock : ℚ
  steady_clock : ℚ
  outcome : Outcome

namespace Limits

def allowRedis (cfg : Limits) (r : RateLimiter) (c : Call) : Bool × RateLimiter :=
  match redisCommand r.db (redisKey c.tenant_id) (formatF cfg.rate_rps) cfg.burst
    (nowMs c.system_clock) c.outcome with
  | (none, db) => (true, { r with redis := false, db := db })
  | (some (.integer i), db) => (decide (i = 1), { r with db := db })
  | (some _, db) => (false, { r with db := db })

def allow (cfg : Limits) (r : RateLimiter) (c : Call) : Bool × RateLimiter :=
  if r.redis then cfg.allowRedis r c
  else
    let a := cfg.allowLocal r.buckets c.tenant_id c.steady_clock
    (a.1, { r with buckets := a.2 })

end Limits

end inference_server
