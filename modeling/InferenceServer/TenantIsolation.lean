-- Which tenants share a bucket in Redis. The key of a tenant goes to Redis as
-- a C string, so two tenants that differ only behind a NUL have one key, and
-- the calls of one use up the tokens of the other.
import InferenceServer.Failover

namespace inference_server

open machine token_bucket

/-! ## Two runs -/

/-- What `allow` answered to the calls of a tenant, in order. -/
def answersTo (u : Bytes) (ds : List Decision) : List Bool :=
  (ds.filter (fun d => d.call.tenant_id = u)).map Decision.allowed

/-- The calls with those of a tenant removed. -/
def without (v : Bytes) (calls : List Call) : List Call :=
  calls.filter (fun c => c.tenant_id ≠ v)

/-- Each of the calls is made while there is a connection: none before the
last one drops it. -/
def OnRedis (calls : List Call) : Prop := ∀ c ∈ calls.dropLast, c.outcome.lost = false

/-- On the path through Redis the tenant `u` gets the same decisions with the
calls of `v` and without them, in every run of `allow_redis` calls. -/
def Isolated (u v : Bytes) : Prop :=
  ∀ (cfg : Limits) (db : Db) (calls : List Call), OnRedis calls →
    answersTo u (cfg.decisions (.start true db) calls) =
      answersTo u (cfg.decisions (.start true db) (without v calls))

theorem answersTo_cons (u : Bytes) (d : Decision) (ds : List Decision) :
    answersTo u (d :: ds) =
      if d.call.tenant_id = u then d.allowed :: answersTo u ds else answersTo u ds := by
  unfold answersTo
  by_cases h : d.call.tenant_id = u <;> simp [h]

theorem onRedis_tail {c : Call} {calls : List Call} (h : OnRedis (c :: calls)) : OnRedis calls := by
  intro c' hc'
  cases calls with
  | nil => cases hc'
  | cons c'' calls => exact h c' (List.mem_cons_of_mem _ hc')

theorem onRedis_head {c c' : Call} {calls : List Call} (h : OnRedis (c :: c' :: calls)) :
    c.outcome.lost = false := h c (by simp)

/-! ## One call -/

/-- One command looks only at its key, and writes only there. -/
theorem redisCommand_same_key {db db' : Db} {key : Bytes} (h : db key = db' key) (rate burst : ℚ)
    (now_ms : Int) (o : Outcome) :
    (redisCommand db key rate burst now_ms o).1 = (redisCommand db' key rate burst now_ms o).1 ∧
    (redisCommand db key rate burst now_ms o).2 key =
      (redisCommand db' key rate burst now_ms o).2 key := by
  have hget : ∀ redis_ms, hmget db key redis_ms = hmget db' key redis_ms := by
    intro redis_ms
    unfold hmget
    rw [h]
  cases o with
  | replied redis_ms => simp only [redisCommand, tokenBucketScript_eq, hget, hmset_self, and_self]
  | errorReply => exact ⟨rfl, h⟩
  | nilReply => exact ⟨rfl, h⟩
  | noReply ran =>
    cases ran with
    | none => exact ⟨rfl, h⟩
    | some redis_ms => simp only [redisCommand, tokenBucketScript_eq, hget, hmset_self, and_self]

theorem redisCommand_other_key {key key' : Bytes} (hne : key' ≠ key) (db : Db) (rate burst : ℚ)
    (now_ms : Int) (o : Outcome) : (redisCommand db key rate burst now_ms o).2 key' = db key' := by
  cases o with
  | replied redis_ms => simp only [redisCommand, tokenBucketScript_eq, hmset_of_ne _ _ _ hne]
  | errorReply => rfl
  | nilReply => rfl
  | noReply ran =>
    cases ran with
    | none => rfl
    | some redis_ms => simp only [redisCommand, tokenBucketScript_eq, hmset_of_ne _ _ _ hne]

section call

variable (cfg : Limits) {r r' : RateLimiter} (c : Call)

/-- The command that a call sends. -/
def Limits.command (cfg : Limits) (db : Db) (c : Call) : Option Reply × Db :=
  redisCommand db (redisKey c.tenant_id) (formatF cfg.rate_rps) cfg.burst (nowMs c.system_clock)
    c.outcome

/-- What a call over Redis makes of the reply. -/
theorem allow_redis_eq (hr : r.redis = true) :
    (cfg.decision r c).allowed = (match (cfg.command r.db c).1 with
      | none => true
      | some (.integer i) => decide (i = 1)
      | some _ => false) ∧
    (cfg.allow r c).2.db = (cfg.command r.db c).2 := by
  unfold Limits.decision Limits.allow Limits.allowRedis Limits.command
  simp only [hr, if_true]
  rcases redisCommand r.db (redisKey c.tenant_id) (formatF cfg.rate_rps) cfg.burst
    (nowMs c.system_clock) c.outcome with ⟨reply, db⟩
  rcases reply with _ | reply
  · exact ⟨rfl, rfl⟩
  · cases reply <;> exact ⟨rfl, rfl⟩

/-- A decision looks only at the key of its tenant, and so does what the call
writes there. -/
theorem allow_same_key (hr : r.redis = true) (hr' : r'.redis = true)
    (hsame : r.db (redisKey c.tenant_id) = r'.db (redisKey c.tenant_id)) :
    (cfg.decision r c).allowed = (cfg.decision r' c).allowed ∧
    (cfg.allow r c).2.db (redisKey c.tenant_id) = (cfg.allow r' c).2.db (redisKey c.tenant_id) := by
  obtain ⟨hallowed, hdb⟩ := allow_redis_eq cfg c hr
  obtain ⟨hallowed', hdb'⟩ := allow_redis_eq cfg c hr'
  obtain ⟨hreply, hkey⟩ := redisCommand_same_key hsame (formatF cfg.rate_rps) cfg.burst
    (nowMs c.system_clock) c.outcome
  rw [hallowed, hallowed', hdb, hdb']
  unfold Limits.command
  exact ⟨by rw [hreply], hkey⟩

theorem allow_other_key (hr : r.redis = true) {key : Bytes} (hne : key ≠ redisKey c.tenant_id) :
    (cfg.allow r c).2.db key = r.db key := by
  rw [(allow_redis_eq cfg c hr).2]
  exact redisCommand_other_key hne r.db _ _ _ _

/-- A call that gets a reply keeps the connection. -/
theorem allow_keeps (hr : r.redis = true) (ho : c.outcome.lost = false) :
    (cfg.allow r c).2.redis = true := by
  rcases outcome_cases c.outcome with ⟨redis_ms, h⟩ | h | h
  · rw [(allow_replied cfg hr h).2]
  · rw [(allow_trouble cfg hr h).2]
    exact hr
  · rw [ho] at h
    cases h

end call

/-! ## The law of isolation -/

/-- Two limiters that agree on the key of `u` answer `u` alike, one with the
calls of `v` and one without them, when `v` has another key. -/
theorem answers_without (cfg : Limits) {u v : Bytes} (hkey : redisKey u ≠ redisKey v)
    (calls : List Call) (r r' : RateLimiter) (hr : r.redis = true) (hr' : r'.redis = true)
    (hsame : r.db (redisKey u) = r'.db (redisKey u)) (hon : OnRedis calls) :
    answersTo u (cfg.decisions r calls) = answersTo u (cfg.decisions r' (without v calls)) := by
  induction calls generalizing r r' with
  | nil => rfl
  | cons c calls ih =>
    have hmore : calls = [] ∨ c.outcome.lost = false := by
      cases calls with
      | nil => exact Or.inl rfl
      | cons c' calls => exact Or.inr (onRedis_head hon)
    have hhead : ∀ r : RateLimiter, (cfg.decision r c).call = c := fun _ => rfl
    by_cases hv : c.tenant_id = v
    · -- a call that is removed, and that `u` does not see
      have hu : c.tenant_id ≠ u := by
        rintro rfl
        exact hkey (by rw [hv])
      have hwithout : without v (c :: calls) = without v calls := by
        simp [without, hv]
      rw [hwithout, Limits.decisions, answersTo_cons, hhead, if_neg hu]
      rcases hmore with rfl | hkept
      · rfl
      · apply ih
        · exact allow_keeps cfg c hr hkept
        · exact hr'
        · rw [allow_other_key cfg c hr (hv ▸ hkey)]
          exact hsame
        · exact onRedis_tail hon
    · have hwithout : without v (c :: calls) = c :: without v calls := by
        simp [without, hv]
      have hafter : (cfg.allow r c).2.db (redisKey u) = (cfg.allow r' c).2.db (redisKey u) := by
        by_cases hsamekey : redisKey c.tenant_id = redisKey u
        · rw [← hsamekey] at hsame ⊢
          exact (allow_same_key cfg c hr hr' hsame).2
        · have hne : redisKey u ≠ redisKey c.tenant_id := fun h => hsamekey h.symm
          rw [allow_other_key cfg c hr hne, allow_other_key cfg c hr' hne]
          exact hsame
      have hrest : answersTo u (cfg.decisions (cfg.allow r c).2 calls) =
          answersTo u (cfg.decisions (cfg.allow r' c).2 (without v calls)) := by
        rcases hmore with rfl | hkept
        · rfl
        · exact ih _ _ (allow_keeps cfg c hr hkept) (allow_keeps cfg c hr' hkept) hafter
            (onRedis_tail hon)
      rw [hwithout, Limits.decisions, Limits.decisions, answersTo_cons, answersTo_cons, hhead,
        hhead, hrest]
      by_cases hu : c.tenant_id = u
      · subst hu
        rw [(allow_same_key cfg c hr hr' hsame).1]
      · rw [if_neg hu, if_neg hu]

/-- A call at the start of all clocks that Redis answers. -/
def firstCall (tenant_id : Bytes) : Call :=
  { tenant_id := tenant_id, system_clock := 0, steady_clock := 0, outcome := .replied 0 }

/-- One token, and none after it. -/
def oneToken : Limits := { rate_rps := 0, burst := 1 }

/-- The limiter after one call of the tenant. -/
def usedUp (tenant_id : Bytes) : RateLimiter where
  redis := true
  buckets := fun _ => none
  db := hmset (fun _ => none) (redisKey tenant_id) ⟨0, 0⟩ 0

theorem first_call_allowed (u : Bytes) :
    (oneToken.decision (.start true fun _ => none) (firstCall u)).allowed = true ∧
    (oneToken.allow (.start true fun _ => none) (firstCall u)).2 = usedUp u := by
  have hnow : nowMs 0 = 0 := by simp [nowMs]
  have hlevel : scriptTokens (formatF oneToken.rate_rps) oneToken.burst 0
      (hmget (fun _ => none) (redisKey u) 0) = 1 := by
    simp [hmget, scriptTokens_none, oneToken]
  obtain ⟨hdec, hnext⟩ := allow_replied oneToken (r := .start true fun _ => none)
    (c := firstCall u) rfl rfl
  simp only [firstCall, RateLimiter.start, hnow, hlevel] at hdec hnext ⊢
  have hrest : rest (1 : ℚ) = 0 := by simp [rest]
  rw [hdec, hnext, hrest]
  exact ⟨by simp, rfl⟩

/-- The next call on the same key is denied. -/
theorem next_call_denied {u v : Bytes} (h : redisKey u = redisKey v) :
    (oneToken.decision (usedUp v) (firstCall u)).allowed = false := by
  have hnow : nowMs 0 = 0 := by simp [nowMs]
  have hget : hmget (usedUp v).db (redisKey u) 0 = some ⟨0, 0⟩ := by
    unfold hmget usedUp
    simp only [h, hmset_self]
    rfl
  have hlevel : scriptTokens (formatF oneToken.rate_rps) oneToken.burst 0 (some ⟨0, 0⟩) = 0 := by
    simp [scriptTokens, oneToken]
  obtain ⟨hdec, _⟩ := allow_replied oneToken (r := usedUp v) (c := firstCall u) rfl rfl
  simp only [firstCall, hnow, hget, hlevel] at hdec ⊢
  rw [hdec]
  simp

/-- Tenants with one key use up one bucket. -/
theorem not_isolated_of_same_key {u v : Bytes} (h : redisKey u = redisKey v) : ¬ Isolated u v := by
  intro hiso
  have htwo := hiso oneToken (fun _ => none) [firstCall v, firstCall u] (by
    intro c hc
    simp only [List.dropLast_cons_cons, List.dropLast_singleton, List.mem_singleton] at hc
    rw [hc]
    rfl)
  have hhead : ∀ (r : RateLimiter) (w : Bytes),
      (oneToken.decision r (firstCall w)).call.tenant_id = w := fun _ _ => rfl
  obtain ⟨hallowed, hnext⟩ := first_call_allowed v
  have hdenied := next_call_denied h
  rw [Limits.decisions, Limits.decisions, Limits.decisions, hnext, answersTo_cons, answersTo_cons,
    hhead, hhead, if_pos rfl, hdenied] at htwo
  by_cases huv : v = u
  · subst huv
    have hnone : without v [firstCall v, firstCall v] = [] := by
      simp [without, firstCall]
    rw [hnone, if_pos rfl] at htwo
    cases htwo
  · have hone : without v [firstCall v, firstCall u] = [firstCall u] := by
      have huv' : ¬ u = v := fun he => huv he.symm
      simp [without, firstCall, huv']
    rw [hone, if_neg huv, Limits.decisions, answersTo_cons, hhead, if_pos rfl,
      (first_call_allowed u).1] at htwo
    cases htwo

/-- Two tenants are isolated on the path through Redis exactly when their ids
differ before the first NUL. -/
theorem tenants_are_isolated_iff_their_c_strings_differ (u v : Bytes) :
    Isolated u v ↔ cString u ≠ cString v := by
  rw [Ne, ← redisKey_inj]
  constructor
  · intro hiso h
    exact not_isolated_of_same_key h hiso
  · intro hkey cfg db calls hon
    exact answers_without cfg hkey calls _ _ rfl rfl rfl hon

/-- Two ids of different tenants, as a JSON string or a protobuf string may
hold them. -/
def nulX : Bytes := [97, 0, 120]
def nulY : Bytes := [97, 0, 121]

/-- With one token each, the call of one tenant denies the other one. -/
theorem tenants_behind_a_nul_share_a_bucket :
    nulX ≠ nulY ∧
    answersTo nulX (oneToken.decisions (.start true fun _ => none)
      [firstCall nulY, firstCall nulX]) = [false] ∧
    answersTo nulX (oneToken.decisions (.start true fun _ => none)
      (without nulY [firstCall nulY, firstCall nulX])) = [true] ∧
    ¬ Isolated nulX nulY := by
  exact ⟨by decide, by decide +kernel, by decide +kernel, not_isolated_of_same_key (by decide)⟩

end inference_server
