-- The script in Redis and the bucket in this process decide alike. That a key
-- goes after a day does not show, when a day fills the bucket.
import InferenceServer.LocalBucket
import Mathlib.Data.List.MinMax
import Mathlib.Data.List.TakeWhile

namespace inference_server

open machine token_bucket

/-! ## What the script does to its hash -/

theorem scriptTokens_none (rate burst : ℚ) (now_ms : Int) :
    scriptTokens rate burst now_ms none = burst := by
  simp [scriptTokens]

theorem scriptTokens_some (rate burst : ℚ) (now_ms : Int) (h : Hash) :
    scriptTokens rate burst now_ms (some h) =
      gain burst h.tokens (max 0 (((now_ms - h.last_ms : Int) : ℚ) / 1000) * rate) := rfl

theorem scriptTokens_le (rate burst : ℚ) (now_ms : Int) (data : Option Hash) :
    scriptTokens rate burst now_ms data ≤ burst := min_le_left _ _

/-- A call takes its token, if there is one, and writes the rest. -/
theorem tokenBucketScript_eq (db : Db) (key : Bytes) (rate burst : ℚ) (now_ms redis_ms : Int) :
    let level := scriptTokens rate burst now_ms (hmget db key redis_ms)
    tokenBucketScript db key rate burst now_ms redis_ms =
      ((taken level : Int), hmset db key { tokens := rest level, last_ms := now_ms } redis_ms) := by
  unfold tokenBucketScript taken rest
  by_cases h : scriptTokens rate burst now_ms (hmget db key redis_ms) < 1
  · simp [h]
  · simp [h]

theorem hmset_self (db : Db) (key : Bytes) (h : Hash) (redis_ms : Int) :
    hmset db key h redis_ms key =
      some { hash := h, expire_at := redis_ms + 86400 * 1000 } := Function.update_self ..

theorem hmset_of_ne {key key' : Bytes} (db : Db) (h : Hash) (redis_ms : Int) (hne : key' ≠ key) :
    hmset db key h redis_ms key' = db key' := Function.update_of_ne hne _ _

/-! ## What the command sends -/

theorem roundHalfEven_intCast (k : Int) : roundHalfEven (k : ℚ) = k := by
  simp [roundHalfEven]

/-- `%f` sends a multiple of 0.000001 as it is. -/
theorem formatF_exact {x : ℚ} {k : Int} (h : x = k / 1000000) : formatF x = x := by
  have hx : x * 1000000 = k := by
    rw [h]
    ring
  rw [formatF, hx, roundHalfEven_intCast, h]

theorem cString_eq {s : Bytes} (h : 0 ∉ s) : cString s = s := by
  unfold cString
  rw [List.takeWhile_eq_self_iff]
  intro b hb
  simp only [ne_eq, decide_eq_true_eq]
  rintro rfl
  exact h hb

theorem cString_append {a b : Bytes} (h : 0 ∉ a) : cString (a ++ b) = a ++ cString b := by
  unfold cString
  apply List.takeWhile_append_of_pos
  intro x hx
  simp only [ne_eq, decide_eq_true_eq]
  rintro rfl
  exact h hx

/-- A key is the prefix and what the C string of the tenant holds. -/
theorem redisKey_eq (tenant_id : Bytes) :
    redisKey tenant_id = bytes "ratelimit:" ++ cString tenant_id :=
  cString_append (by decide)

theorem redisKey_inj {u v : Bytes} : redisKey u = redisKey v ↔ cString u = cString v := by
  rw [redisKey_eq, redisKey_eq, List.append_cancel_left_eq]

/-- Two tenants without a NUL have two keys. -/
theorem redisKey_ne {u v : Bytes} (hu : 0 ∉ u) (hv : 0 ∉ v) (h : u ≠ v) :
    redisKey u ≠ redisKey v := by
  rw [Ne, redisKey_inj, cString_eq hu, cString_eq hv]
  exact h

/-! ## Runs of the script -/

/-- One run of the script for a tenant, at a time of the caller's clock and
of the server's. -/
structure ScriptCall where
  tenant_id : Bytes
  now_ms : Int
  redis_ms : Int

/-- The database, and a record of all replies. -/
structure ScriptServer where
  db : Db
  replies : List Int

/-- The script, one call after another. -/
def scriptServer (rate burst : ℚ) (start : Db) : Machine ScriptServer ScriptCall where
  init := { db := start, replies := [] }
  step s c :=
    let r := tokenBucketScript s.db (redisKey c.tenant_id) rate burst c.now_ms c.redis_ms
    { db := r.2, replies := s.replies ++ [r.1] }

theorem scriptServer_step (rate burst : ℚ) (start : Db) (s : ScriptServer) (c : ScriptCall) :
    let level := scriptTokens rate burst c.now_ms (hmget s.db (redisKey c.tenant_id) c.redis_ms)
    (scriptServer rate burst start).step s c =
      { db := hmset s.db (redisKey c.tenant_id) { tokens := rest level, last_ms := c.now_ms }
          c.redis_ms
        replies := s.replies ++ [(taken level : Int)] } := by
  simp only [scriptServer, tokenBucketScript_eq]

/-! ## Two buckets in step -/

/-- The hash and the bucket of one tenant say the same, and were last used
at `last` milliseconds or before. -/
def InStep (last : Int) : Option Stored → Option Bucket → Prop
  | none, none => True
  | some s, some b => b.tokens = s.hash.tokens ∧ 0 ≤ b.tokens ∧
      b.last_refill = (s.hash.last_ms : ℚ) / 1000 ∧
      s.expire_at = s.hash.last_ms + 86400 * 1000 ∧ s.hash.last_ms ≤ last
  | _, _ => False

theorem InStep.mono {last later : Int} {s : Option Stored} {b : Option Bucket}
    (h : InStep last s b) (hle : last ≤ later) : InStep later s b := by
  unfold InStep at *
  split at h
  · trivial
  · exact ⟨h.1, h.2.1, h.2.2.1, h.2.2.2.1, le_trans h.2.2.2.2 hle⟩
  · exact h.elim

theorem InStep.bucket {last : Int} {s : Option Stored} {b : Bucket} (h : InStep last s (some b)) :
    0 ≤ b.tokens ∧ b.last_refill ≤ (last : ℚ) / 1000 := by
  cases s with
  | none => exact h.elim
  | some s =>
    obtain ⟨_, hnonneg, hlast, _, hle⟩ := h
    refine ⟨hnonneg, ?_⟩
    rw [hlast]
    exact div_le_div_of_nonneg_right (by exact_mod_cast hle) (by norm_num)

section step

variable {cfg : Limits} {db : Db} {buckets : Buckets} {u : Bytes} {ms : Int}

/-- At the same time both buckets hold the same number of tokens. A hash that
is gone would hold the whole burst by now. -/
theorem same_level (hburst : 0 ≤ cfg.burst) (hday : (cfg.burst : ℚ) ≤ cfg.rate_rps * 86400)
    (h : InStep ms (db (redisKey u)) (buckets u)) :
    scriptTokens cfg.rate_rps cfg.burst ms (hmget db (redisKey u) ms) =
      (cfg.bucketAt buckets u (ms / 1000)).tokens := by
  have hcap : (0 : ℚ) ≤ cfg.burst := by exact_mod_cast hburst
  have hrate : 0 ≤ cfg.rate_rps := by linarith
  unfold hmget
  cases hs : db (redisKey u) with
  | none =>
    cases hb : buckets u with
    | none => rw [scriptTokens_none, bucketAt_new cfg _ hb]
    | some b =>
      rw [hs, hb] at h
      exact h.elim
  | some s =>
    cases hb : buckets u with
    | none =>
      rw [hs, hb] at h
      exact h.elim
    | some b =>
      rw [hs, hb] at h
      obtain ⟨htokens, hnonneg, hlast, hexpire, hle⟩ := h
      have hle' : (s.hash.last_ms : ℚ) ≤ ms := by exact_mod_cast hle
      rw [bucketAt_gain cfg _ hb, hlast]
      simp only
      by_cases hlive : ms < s.expire_at
      · rw [if_pos hlive, scriptTokens_some, htokens]
        have helapsed : max 0 (((ms - s.hash.last_ms : Int) : ℚ) / 1000) =
            ((ms : ℚ) - s.hash.last_ms) / 1000 := by
          push_cast
          exact max_eq_right (div_nonneg (by linarith) (by norm_num))
        rw [helapsed]
        congr 1
        ring
      · rw [if_neg hlive, scriptTokens_none, gain_eq_cap hnonneg]
        have hgone : (s.hash.last_ms : ℚ) + 86400 * 1000 ≤ ms := by
          rw [hexpire] at hlive
          exact_mod_cast not_lt.mp hlive
        have hfill : cfg.rate_rps * 86400 ≤
            cfg.rate_rps * ((ms : ℚ) / 1000 - (s.hash.last_ms : ℚ) / 1000) :=
          mul_le_mul_of_nonneg_left (by linarith) hrate
        linarith

end step

/-- A call of a tenant, at a time in milliseconds. -/
structure MsCall where
  tenant_id : Bytes
  ms : Int

/-- The call as Redis gets it. -/
def MsCall.script (c : MsCall) : ScriptCall := ⟨c.tenant_id, c.ms, c.ms⟩

/-- The call as `allow_local` gets it. -/
def MsCall.local (c : MsCall) : LocalCall := ⟨c.tenant_id, (c.ms : ℚ) / 1000⟩

/-- What a local answer is as a reply. -/
def Answer.reply (a : Answer) : Int := if a.allowed then 1 else 0

/-- Both limiters after the same calls. -/
structure Agree (last : Int) (s : ScriptServer) (lim : LocalLimiter) : Prop where
  replies : s.replies = lim.log.map Answer.reply
  buckets : ∀ u, 0 ∉ u → InStep last (s.db (redisKey u)) (lim.buckets u)

theorem agree_step {cfg : Limits} (hburst : 0 ≤ cfg.burst)
    (hday : (cfg.burst : ℚ) ≤ cfg.rate_rps * 86400) {s : ScriptServer} {lim : LocalLimiter}
    {c : MsCall} (hc : 0 ∉ c.tenant_id) (start : Db) (h : Agree c.ms s lim) :
    Agree c.ms ((scriptServer cfg.rate_rps cfg.burst start).step s c.script)
      ((localLimiter cfg).step lim c.local) := by
  have hsame : scriptTokens cfg.rate_rps cfg.burst c.script.now_ms
      (hmget s.db (redisKey c.script.tenant_id) c.script.redis_ms) =
      (cfg.bucketAt lim.buckets c.local.tenant_id c.local.now).tokens :=
    same_level hburst hday (h.buckets c.tenant_id hc)
  have hlevel : 0 ≤ (cfg.bucketAt lim.buckets c.local.tenant_id c.local.now).tokens := by
    have hcap : (0 : ℚ) ≤ cfg.burst := by exact_mod_cast hburst
    have hbucket : ∀ b, lim.buckets c.tenant_id = some b →
        0 ≤ b.tokens ∧ b.last_refill ≤ (c.ms : ℚ) / 1000 := by
      intro b hb
      have hin := h.buckets c.tenant_id hc
      rw [hb] at hin
      exact hin.bucket
    exact level_nonneg (by linarith) hburst (fun b hb => (hbucket b hb).1)
      (fun b hb => (hbucket b hb).2)
  rw [scriptServer_step, localLimiter_step, hsame]
  clear hsame
  generalize (cfg.bucketAt lim.buckets c.local.tenant_id c.local.now).tokens = level at *
  simp only [MsCall.script, MsCall.local]
  refine ⟨?_, ?_⟩
  · simp only [List.map_append, List.map_cons, List.map_nil, h.replies, Answer.reply, taken_eq]
    split <;> simp
  · intro u hu
    by_cases huc : u = c.tenant_id
    · subst huc
      simp only [hmset_self, Function.update_self]
      exact ⟨rfl, rest_nonneg hlevel, rfl, rfl, le_refl _⟩
    · simp only [hmset_of_ne _ _ _ (redisKey_ne hu hc huc), Function.update_of_ne huc]
      exact h.buckets u hu

theorem agree_run {cfg : Limits} (hburst : 0 ≤ cfg.burst)
    (hday : (cfg.burst : ℚ) ≤ cfg.rate_rps * 86400) (calls : List MsCall)
    (hnul : ∀ c ∈ calls, 0 ∉ c.tenant_id) (hsorted : calls.Pairwise (fun a b => a.ms ≤ b.ms))
    (last : Int) (hlast : ∀ c ∈ calls, c.ms ≤ last) :
    Agree last
      ((scriptServer cfg.rate_rps cfg.burst (fun _ => none)).run (calls.map MsCall.script))
      ((localLimiter cfg).run (calls.map MsCall.local)) := by
  induction calls using List.reverseRecOn generalizing last with
  | nil => exact ⟨rfl, fun _ _ => trivial⟩
  | append_singleton calls c ih =>
    rw [List.pairwise_append] at hsorted
    have hbefore := ih (fun d hd => hnul d (List.mem_append_left _ hd)) hsorted.1 c.ms
      (fun d hd => hsorted.2.2 d hd c (by simp))
    have hstep := agree_step hburst hday (hnul c (by simp)) (fun _ => none) hbefore
    simp only [List.map_append, List.map_cons, List.map_nil, run_snoc]
    exact ⟨hstep.replies, fun u hu => (hstep.buckets u hu).mono (hlast c (by simp))⟩

/-- With a rate that `%f` sends as it is, a day of which fills the bucket,
the replies of the script are the answers of `allow_local`, for all tenants
without a NUL and all times in order. -/
theorem the_script_and_the_local_bucket_decide_alike (cfg : Limits) (k : Int)
    (hsent : cfg.rate_rps = k / 1000000) (hburst : 0 ≤ cfg.burst)
    (hday : (cfg.burst : ℚ) ≤ cfg.rate_rps * 86400) (calls : List MsCall)
    (hnul : ∀ c ∈ calls, 0 ∉ c.tenant_id) (hsorted : calls.Pairwise (fun a b => a.ms ≤ b.ms)) :
    ((scriptServer (formatF cfg.rate_rps) cfg.burst (fun _ => none)).run
      (calls.map MsCall.script)).replies =
    ((localLimiter cfg).run (calls.map MsCall.local)).log.map Answer.reply := by
  rw [formatF_exact hsent]
  obtain ⟨last, hlast⟩ : ∃ last, ∀ c ∈ calls, c.ms ≤ last := by
    refine ⟨(calls.map MsCall.ms).foldr max 0, ?_⟩
    intro c hc
    exact List.le_max_of_le' 0 (List.mem_map_of_mem hc) (le_refl _)
  exact (agree_run hburst hday calls hnul hsorted last hlast).replies

/-- One token in 50000 seconds. The third call comes when the key is gone. -/
def aDayApart : List MsCall := [⟨bytes "a", 0⟩, ⟨bytes "a", 1000⟩, ⟨bytes "a", 86402000⟩]

theorem the_script_and_the_local_bucket_decide_alike_a_day_apart :
    let cfg : Limits := { rate_rps := 20 / 1000000, burst := 1 }
    let replies := ((scriptServer (formatF cfg.rate_rps) cfg.burst (fun _ => none)).run
      (aDayApart.map MsCall.script)).replies
    replies = [1, 0, 1] ∧
    replies = ((localLimiter cfg).run (aDayApart.map MsCall.local)).log.map Answer.reply :=
  ⟨by decide +kernel, the_script_and_the_local_bucket_decide_alike
    { rate_rps := 20 / 1000000, burst := 1 } 20 (by decide +kernel) (by decide)
    (by decide +kernel) aDayApart (by decide) (by decide)⟩

end inference_server
