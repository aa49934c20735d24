-- A denied call of `allow_local` moves `last_refill` and writes `tokens`, and
-- yet no later call can tell: a client that polls an empty bucket is allowed
-- neither later nor earlier than one that waits.
import InferenceServer.LocalBucket

namespace inference_server

open machine token_bucket

/-! ## What later calls see -/

/-- The two tables give every call the same level, whenever it is made. -/
def SameLevels (cfg : Limits) (buckets buckets' : Buckets) : Prop :=
  ∀ u now, (cfg.bucketAt buckets u now).tokens = (cfg.bucketAt buckets' u now).tokens

/-- No call can tell the two tables apart: a bucket holds no whole token, or
the levels are the same. -/
def Alike (cfg : Limits) (buckets buckets' : Buckets) : Prop :=
  (cfg.burst : ℚ) < 1 ∨ SameLevels cfg buckets buckets'

section call

variable {cfg : Limits} {buckets buckets' : Buckets}

theorem level_le_burst (cfg : Limits) (buckets : Buckets) (u : Bytes) (now : ℚ) :
    (cfg.bucketAt buckets u now).tokens ≤ cfg.burst := by
  rcases hb : buckets u with _ | b
  · rw [bucketAt_new cfg now hb]
  · rw [bucketAt_gain cfg now hb]
    apply gain_le_cap

theorem Alike.decision (h : Alike cfg buckets buckets') (u : Bytes) (now : ℚ) :
    (1 ≤ (cfg.bucketAt buckets u now).tokens ↔ 1 ≤ (cfg.bucketAt buckets' u now).tokens) := by
  rcases h with hburst | hsame
  · have hle := level_le_burst cfg buckets u now
    have hle' := level_le_burst cfg buckets' u now
    constructor
    · intro h1
      linarith
    · intro h1
      linarith
  · rw [hsame]

theorem bucketAt_update_self (cfg : Limits) (buckets : Buckets) (u : Bytes) (b : Bucket) (t : ℚ) :
    (cfg.bucketAt (Function.update buckets u (some b)) u t).tokens =
      gain (cfg.burst : ℚ) b.tokens (cfg.rate_rps * (t - b.last_refill)) :=
  bucketAt_gain cfg t (Function.update_self u (some b) buckets)

theorem bucketAt_update_of_ne (cfg : Limits) (buckets : Buckets) {u v : Bytes} (hv : v ≠ u)
    (b : Option Bucket) (t : ℚ) :
    cfg.bucketAt (Function.update buckets u b) v t = cfg.bucketAt buckets v t := by
  unfold Limits.bucketAt
  rw [Function.update_of_ne hv]

/-- Both tables store the same bucket. -/
theorem Alike.update (h : Alike cfg buckets buckets') (u : Bytes) (b : Bucket) :
    Alike cfg (Function.update buckets u (some b)) (Function.update buckets' u (some b)) := by
  rcases h with hburst | hsame
  · exact Or.inl hburst
  · right
    intro v t
    by_cases hv : v = u
    · subst hv
      rw [bucketAt_update_self, bucketAt_update_self]
    · rw [bucketAt_update_of_ne cfg buckets hv, bucketAt_update_of_ne cfg buckets' hv]
      exact hsame v t

/-- The same call on both tables. -/
theorem Alike.same_call (h : Alike cfg buckets buckets') (u : Bytes) (now : ℚ) :
    Alike cfg
      (Function.update buckets u
        (some { tokens := rest (cfg.bucketAt buckets u now).tokens, last_refill := now }))
      (Function.update buckets' u
        (some { tokens := rest (cfg.bucketAt buckets' u now).tokens, last_refill := now })) := by
  rcases h with hburst | hsame
  · exact Or.inl hburst
  · rw [hsame u now]
    exact Alike.update (Or.inr hsame) u _

/-- A denied call stores its bucket, and no call after it can tell. The level
is below 1 and so below the cap: the credit before the call and the credit
after it add up. -/
theorem Alike.denied (h : Alike cfg buckets buckets') {u : Bytes} {now : ℚ}
    (hdenied : (cfg.bucketAt buckets u now).tokens < 1) :
    Alike cfg (Function.update buckets u (some
      { tokens := rest (cfg.bucketAt buckets u now).tokens, last_refill := now })) buckets' := by
  rcases h with hburst | hsame
  · exact Or.inl hburst
  by_cases hburst : (cfg.burst : ℚ) < 1
  · exact Or.inl hburst
  right
  intro v t
  by_cases hv : v = u
  · subst hv
    rw [← hsame, bucketAt_update_self, rest, if_pos hdenied]
    rcases hb : buckets v with _ | b
    · -- a new bucket is full, so its first call is not denied
      rw [bucketAt_new cfg now hb] at hdenied
      exact absurd hdenied hburst
    · rw [bucketAt_gain cfg now hb] at hdenied ⊢
      rw [bucketAt_gain cfg t hb, gain_gain (by linarith)]
      congr 1
      ring
  · rw [bucketAt_update_of_ne cfg buckets hv]
    exact hsame v t

end call

/-! ## Runs with fewer calls -/

/-- A log, and the same log with some of its denied answers left out. -/
inductive Thinned : List Answer → List Answer → Prop
  | nil : Thinned [] []
  | kept {log log' : List Answer} (a : Answer) : Thinned log log' →
      Thinned (log ++ [a]) (log' ++ [a])
  | left_out {log log' : List Answer} (a : Answer) : Thinned log log' → a.allowed = false →
      Thinned (log ++ [a]) log'

/-- A run whose log ends with an answer ends with the call of this answer. -/
theorem run_of_log_snoc {cfg : Limits} {calls : List LocalCall} {log : List Answer} {a : Answer}
    (h : ((localLimiter cfg).run calls).log = log ++ [a]) :
    ∃ before, calls = before ++ [a.toLocalCall] ∧
      ((localLimiter cfg).run before).log = log ∧
      a.allowed = decide (1 ≤
        (cfg.bucketAt ((localLimiter cfg).run before).buckets a.tenant_id a.now).tokens) := by
  rcases calls.eq_nil_or_concat' with rfl | ⟨before, c, rfl⟩
  · exact absurd h.symm (by simp [localLimiter])
  · rw [run_snoc, localLimiter_step] at h
    obtain ⟨hlog, hlast⟩ := List.append_inj' h rfl
    cases hlast
    exact ⟨before, rfl, hlog, rfl⟩

/-- After a run and after the same run with denied calls left out, no call can
tell the buckets apart. -/
theorem thinned_run (cfg : Limits) {log log' : List Answer} (h : Thinned log log') :
    ∀ calls, ((localLimiter cfg).run calls).log = log →
      ((localLimiter cfg).run (log'.map Answer.toLocalCall)).log = log' ∧
      Alike cfg ((localLimiter cfg).run calls).buckets
        ((localLimiter cfg).run (log'.map Answer.toLocalCall)).buckets := by
  induction h with
  | nil =>
    intro calls hlog
    rcases calls.eq_nil_or_concat' with rfl | ⟨before, c, rfl⟩
    · exact ⟨rfl, Or.inr fun _ _ => rfl⟩
    · rw [run_snoc, localLimiter_step] at hlog
      simp at hlog
  | kept a _ ih =>
    intro calls hlog
    obtain ⟨before, rfl, hbefore, hallowed⟩ := run_of_log_snoc hlog
    obtain ⟨hlog', halike⟩ := ih before hbefore
    rw [List.map_append, List.map_singleton, run_snoc, run_snoc, localLimiter_step,
      localLimiter_step, hlog']
    refine ⟨?_, halike.same_call a.tenant_id a.now⟩
    rw [← decide_eq_decide.mpr (halike.decision a.tenant_id a.now), ← hallowed]
  | left_out a _ hdenied ih =>
    intro calls hlog
    obtain ⟨before, rfl, hbefore, hallowed⟩ := run_of_log_snoc hlog
    obtain ⟨hlog', halike⟩ := ih before hbefore
    rw [hdenied, eq_comm, decide_eq_false_iff_not, not_le] at hallowed
    refine ⟨hlog', ?_⟩
    rw [run_snoc, localLimiter_step]
    exact halike.denied hallowed

/-! ## The law of denied calls -/

/-- Leave out any denied calls of a run: each call that remains gets the answer
that it got before. -/
theorem denied_calls_are_neutral (cfg : Limits) (calls : List LocalCall) (log : List Answer)
    (h : Thinned ((localLimiter cfg).run calls).log log) :
    ((localLimiter cfg).run (log.map Answer.toLocalCall)).log = log := by
  exact (thinned_run cfg h calls rfl).1

/-- A client that polls an empty bucket twice, and one that waits. -/
def polls : List LocalCall :=
  [⟨bytes "t1", 0⟩, ⟨bytes "t1", 1 / 4⟩, ⟨bytes "t1", 1 / 2⟩, ⟨bytes "t1", 1⟩]

theorem a_client_that_waits_is_allowed_as_early :
    let cfg : Limits := { rate_rps := 1, burst := 1 }
    ((localLimiter cfg).run polls).log.map Answer.allowed = [true, false, false, true] ∧
      ((localLimiter cfg).run [⟨bytes "t1", 0⟩, ⟨bytes "t1", 1⟩]).log =
        [⟨⟨bytes "t1", 0⟩, true⟩, ⟨⟨bytes "t1", 1⟩, true⟩] := by
  intro cfg
  have hlog : ((localLimiter cfg).run polls).log = [⟨⟨bytes "t1", 0⟩, true⟩] ++
      [⟨⟨bytes "t1", 1 / 4⟩, false⟩] ++ [⟨⟨bytes "t1", 1 / 2⟩, false⟩] ++
      [⟨⟨bytes "t1", 1⟩, true⟩] := by decide +kernel
  refine ⟨by rw [hlog]; rfl, ?_⟩
  refine denied_calls_are_neutral cfg polls [⟨⟨bytes "t1", 0⟩, true⟩, ⟨⟨bytes "t1", 1⟩, true⟩] ?_
  rw [hlog]
  exact .kept _ (.left_out _ (.left_out _ (.kept _ .nil) rfl) rfl)

end inference_server
