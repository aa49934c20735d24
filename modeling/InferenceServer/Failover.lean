-- One node, its Redis, and the way from one to the other. While Redis
-- answers, the script decides. The first command without a reply is let
-- through, and from then on the buckets of this process decide.
import InferenceServer.NodeClocks

namespace inference_server

open machine token_bucket

/-! ## The node and its record -/

/-- The bucket that a decision looked at, and the tokens that it held. -/
inductive Consulted where
  | redis (tokens : ℚ)
  | process (tokens : ℚ)
  | nothing
  deriving DecidableEq, Repr

/-- Which bucket `allow` looks at. Only an integer reply shows the bucket in
Redis. -/
def Limits.consulted (cfg : Limits) (r : RateLimiter) (c : Call) : Consulted :=
  if r.redis then
    match c.outcome with
    | .replied redis_ms =>
      .redis (scriptTokens (formatF cfg.rate_rps) cfg.burst (nowMs c.system_clock)
        (hmget r.db (redisKey c.tenant_id) redis_ms))
    | _ => .nothing
  else .process (cfg.bucketAt r.buckets c.tenant_id c.steady_clock).tokens

structure Decision where
  call : Call
  allowed : Bool
  consulted : Consulted

def Limits.decision (cfg : Limits) (r : RateLimiter) (c : Call) : Decision :=
  { call := c, allowed := (cfg.allow r c).1, consulted := cfg.consulted r c }

/-- The decisions of a node, one call of `allow` after another. -/
def Limits.decisions (cfg : Limits) : RateLimiter → List Call → List Decision
  | _, [] => []
  | r, c :: calls => cfg.decision r c :: cfg.decisions (cfg.allow r c).2 calls

/-- The limiter after these calls. -/
def Limits.after (cfg : Limits) (r : RateLimiter) (calls : List Call) : RateLimiter :=
  calls.foldl (fun r c => (cfg.allow r c).2) r

/-- The limiter that the constructor leaves. It found Redis or not, and Redis
may hold anything. -/
def RateLimiter.start (connected : Bool) (db : Db) : RateLimiter :=
  { redis := connected, buckets := fun _ => none, db := db }

theorem decisions_append (cfg : Limits) (r : RateLimiter) (a b : List Call) :
    cfg.decisions r (a ++ b) = cfg.decisions r a ++ cfg.decisions (cfg.after r a) b := by
  induction a generalizing r with
  | nil => rfl
  | cons c a ih =>
    simp only [List.cons_append, Limits.decisions, ih]
    rfl

theorem decisions_call (cfg : Limits) (r : RateLimiter) (calls : List Call) :
    (cfg.decisions r calls).map Decision.call = calls := by
  induction calls generalizing r with
  | nil => rfl
  | cons c calls ih =>
    simp only [Limits.decisions, List.map_cons, ih]
    rfl

/-! ## One call, by mode and outcome -/

def Outcome.lost : Outcome → Bool
  | .noReply _ => true
  | _ => false

section step

variable (cfg : Limits) {r : RateLimiter} {c : Call}

/-- The script decides. -/
theorem allow_replied (h : r.redis = true) {redis_ms : Int} (ho : c.outcome = .replied redis_ms) :
    let level := scriptTokens (formatF cfg.rate_rps) cfg.burst (nowMs c.system_clock)
      (hmget r.db (redisKey c.tenant_id) redis_ms)
    cfg.decision r c = { call := c, allowed := decide (1 ≤ level), consulted := .redis level } ∧
    (cfg.allow r c).2 =
      { redis := true
        buckets := r.buckets
        db := hmset r.db (redisKey c.tenant_id) ⟨rest level, nowMs c.system_clock⟩ redis_ms } := by
  simp only [Limits.decision, Limits.allow, Limits.allowRedis, Limits.consulted, h, ho,
    redisCommand, tokenBucketScript_eq, if_true, and_true]
  generalize scriptTokens (formatF cfg.rate_rps) cfg.burst (nowMs c.system_clock)
    (hmget r.db (redisKey c.tenant_id) redis_ms) = level
  have hallowed : decide ((taken level : Int) = 1) = decide (1 ≤ level) := by
    rw [taken_eq]
    by_cases hl : 1 ≤ level <;> simp [hl]
  rw [hallowed]

/-- A reply that is no integer is a denial, and nothing else. -/
theorem allow_trouble (h : r.redis = true) (ho : c.outcome = .errorReply ∨ c.outcome = .nilReply) :
    cfg.decision r c = { call := c, allowed := false, consulted := .nothing } ∧
    (cfg.allow r c).2 = r := by
  obtain ⟨redis, buckets, db⟩ := r
  simp only at h
  subst h
  rcases ho with ho | ho
  all_goals simp only [Limits.decision, Limits.allow, Limits.allowRedis, Limits.consulted, ho,
    redisCommand, if_true, and_self]

/-- Without a reply the call is let through, and Redis is dropped. -/
theorem allow_lost (h : r.redis = true) (ho : c.outcome.lost = true) :
    cfg.decision r c = { call := c, allowed := true, consulted := .nothing } ∧
    (cfg.allow r c).2.redis = false ∧ (cfg.allow r c).2.buckets = r.buckets := by
  unfold Outcome.lost at ho
  split at ho
  · rename_i ran hran
    cases ran
    all_goals simp only [Limits.decision, Limits.allow, Limits.allowRedis, Limits.consulted, h,
      hran, redisCommand, if_true, and_self]
  · cases ho

/-- Without Redis the bucket of this process decides. -/
theorem allow_process (h : r.redis = false) :
    let level := (cfg.bucketAt r.buckets c.tenant_id c.steady_clock).tokens
    cfg.decision r c = { call := c, allowed := decide (1 ≤ level), consulted := .process level } ∧
    (cfg.allow r c).2 =
      { redis := false
        buckets := Function.update r.buckets c.tenant_id (some ⟨rest level, c.steady_clock⟩)
        db := r.db } := by
  simp only [Limits.decision, Limits.allow, Limits.consulted, h, allowLocal_eq,
    Bool.false_eq_true, if_false, and_self]

/-- The four kinds of outcome, as the limiter tells them apart. -/
theorem outcome_cases (o : Outcome) :
    (∃ redis_ms, o = .replied redis_ms) ∨ (o = .errorReply ∨ o = .nilReply) ∨ o.lost = true := by
  cases o with
  | replied redis_ms => exact Or.inl ⟨redis_ms, rfl⟩
  | errorReply => exact Or.inr (Or.inl (Or.inl rfl))
  | nilReply => exact Or.inr (Or.inl (Or.inr rfl))
  | noReply ran => exact Or.inr (Or.inr rfl)

end step

/-! ## Who is to blame for a denial -/

/-- The calls that Redis is asked for and answers: those before the first one
without a reply. -/
def asked (connected : Bool) (calls : List Call) : List Call :=
  if connected then calls.takeWhile (fun c => !c.outcome.lost) else []

/-- A denial comes from a bucket with less than one token. Where Redis could
not run the script, the call is let through or the bucket of this process
decides. -/
structure Decision.Fair (d : Decision) : Prop where
  denied : d.allowed = false →
    ∃ tokens < 1, d.consulted = .redis tokens ∨ d.consulted = .process tokens
  fallback : (∀ redis_ms, d.call.outcome ≠ .replied redis_ms) →
    d.allowed = true ∨ ∃ tokens, d.consulted = .process tokens

theorem fair_process (cfg : Limits) {r : RateLimiter} (c : Call) (h : r.redis = false) :
    (cfg.decision r c).Fair := by
  obtain ⟨hdec, _⟩ := allow_process cfg (c := c) h
  rw [hdec]
  refine ⟨?_, fun _ => Or.inr ⟨_, rfl⟩⟩
  intro hdenied
  simp only [decide_eq_false_iff_not, not_le] at hdenied
  exact ⟨_, hdenied, Or.inr rfl⟩

/-- Without Redis every decision is fair. -/
theorem fair_without_redis (cfg : Limits) (calls : List Call) (r : RateLimiter)
    (h : r.redis = false) : ∀ d ∈ cfg.decisions r calls, d.Fair := by
  induction calls generalizing r with
  | nil =>
    intro d hd
    cases hd
  | cons c calls ih =>
    intro d hd
    simp only [Limits.decisions, List.mem_cons] at hd
    rcases hd with rfl | hd
    · exact fair_process cfg c h
    · obtain ⟨_, hnext⟩ := allow_process cfg (c := c) h
      exact ih _ (by rw [hnext]) d hd

theorem fair_with_redis (cfg : Limits) (calls : List Call) (r : RateLimiter)
    (h : r.redis = true) :
    (∀ d ∈ cfg.decisions r calls, d.Fair) ↔
      ∀ c ∈ asked true calls, c.outcome ≠ .errorReply ∧ c.outcome ≠ .nilReply := by
  induction calls generalizing r with
  | nil => simp [Limits.decisions, asked]
  | cons c calls ih =>
    simp only [Limits.decisions, List.mem_cons, forall_eq_or_imp]
    rcases outcome_cases c.outcome with ⟨redis_ms, ho⟩ | ho | ho
    · obtain ⟨hdec, hnext⟩ := allow_replied cfg h ho
      have hfair : (cfg.decision r c).Fair := by
        rw [hdec]
        refine ⟨?_, fun hnone => absurd ho (hnone redis_ms)⟩
        intro hdenied
        simp only [decide_eq_false_iff_not, not_le] at hdenied
        exact ⟨_, hdenied, Or.inl rfl⟩
      have hasked : asked true (c :: calls) = c :: asked true calls := by
        simp [asked, ho, Outcome.lost]
      rw [ih _ (by rw [hnext]), hasked]
      simp [hfair, ho]
    · -- the denial of an unhealthy Redis consulted no bucket
      obtain ⟨hdec, _⟩ := allow_trouble cfg h ho
      have hunfair : ¬ (cfg.decision r c).Fair := by
        rw [hdec]
        intro hfair
        obtain ⟨tokens, _, hc | hc⟩ := hfair.denied rfl
        · cases hc
        · cases hc
      have hasked : asked true (c :: calls) = c :: asked true calls := by
        rcases ho with ho | ho <;> simp [asked, ho, Outcome.lost]
      rw [hasked]
      constructor
      · intro hall
        exact absurd hall.1 hunfair
      · intro hall
        have hc := hall c (by simp)
        rcases ho with ho | ho
        · exact absurd ho hc.1
        · exact absurd ho hc.2
    · obtain ⟨hdec, hnext, _⟩ := allow_lost cfg h ho
      have hfair : (cfg.decision r c).Fair := by
        rw [hdec]
        refine ⟨?_, fun _ => Or.inl rfl⟩
        intro hdenied
        cases hdenied
      have hasked : asked true (c :: calls) = [] := by
        simp [asked, ho]
      have hlater := fair_without_redis cfg calls _ hnext
      rw [hasked]
      simpa [hfair] using hlater

/-- Every decision of a run is fair exactly when no call that Redis answered
got an error or a nil for a reply. -/
theorem denials_are_fair_exactly_when_redis_answers_in_integers (cfg : Limits) (connected : Bool)
    (db : Db) (calls : List Call) :
    (∀ d ∈ cfg.decisions (.start connected db) calls, d.Fair) ↔
      ∀ c ∈ asked connected calls, c.outcome ≠ .errorReply ∧ c.outcome ≠ .nilReply := by
  cases connected with
  | true => exact fair_with_redis cfg calls _ rfl
  | false =>
    simp only [asked, Bool.false_eq_true, if_false, List.not_mem_nil, false_implies, implies_true,
      iff_true]
    exact fair_without_redis cfg calls _ rfl

/-- Redis loads its data from disk when the first call comes. -/
def loadingCall : Call :=
  { tenant_id := bytes "t1", system_clock := 0, steady_clock := 0, outcome := .errorReply }

/-- The tenant has a full bucket everywhere, and is denied. -/
theorem a_loading_redis_denies_a_full_bucket :
    (({ rate_rps := 10, burst := 20 } : Limits).decisions (.start true (fun _ => none))
      [loadingCall]).map Decision.allowed = [false] ∧
    ¬ ∀ d ∈ ({ rate_rps := 10, burst := 20 } : Limits).decisions (.start true (fun _ => none))
      [loadingCall], d.Fair := by
  refine ⟨rfl, ?_⟩
  intro hall
  obtain ⟨tokens, _, hc | hc⟩ := (hall _ (by simp [Limits.decisions]; rfl)).denied rfl
  · cases hc
  · cases hc

end inference_server
