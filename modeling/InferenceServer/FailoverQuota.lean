-- The quota of a tenant across the loss of Redis: one burst of each bucket,
-- the one call that is let through, and the rate of the window. The times that
-- Redis gets are cut to milliseconds, which may add one millisecond.
import InferenceServer.Failover

namespace inference_server

open machine token_bucket

/-! ## What each phase of a run does -/

/-- The run of the script that the call makes on a key, when Redis answers. -/
def scriptCall? (key : Bytes) (c : Call) : Option ScriptCall :=
  match c.outcome with
  | .replied redis_ms =>
    if redisKey c.tenant_id = key then some ⟨c.tenant_id, nowMs c.system_clock, redis_ms⟩ else none
  | _ => none

/-- The runs of the script on a key. -/
def scriptCalls (key : Bytes) (calls : List Call) : List ScriptCall :=
  calls.filterMap (scriptCall? key)

theorem key_scriptCalls {key : Bytes} {calls : List Call} :
    ∀ c ∈ scriptCalls key calls, redisKey c.tenant_id = key := by
  intro c hc
  obtain ⟨d, _, hd⟩ := List.mem_filterMap.mp hc
  unfold scriptCall? at hd
  split at hd
  · split at hd
    · cases hd
      assumption
    · cases hd
  · cases hd

/-- How many calls on a key were allowed. -/
def allowedOn (key : Bytes) (ds : List Decision) : Nat :=
  ds.countP (fun d => redisKey d.call.tenant_id = key && d.allowed)

theorem allowedOn_cons (key : Bytes) (d : Decision) (ds : List Decision) :
    allowedOn key (d :: ds) =
      allowedOn key ds + if redisKey d.call.tenant_id = key ∧ d.allowed = true then 1 else 0 := by
  simp [allowedOn, List.countP_cons]

section redis

variable (cfg : Limits)

/-- While Redis answers, the connection stays, the buckets of this process
stay as they are, and nobody is let through unseen. -/
theorem redis_phase (calls : List Call) (hlost : ∀ c ∈ calls, c.outcome.lost = false)
    (r : RateLimiter) (h : r.redis = true) :
    (cfg.after r calls).redis = true ∧ (cfg.after r calls).buckets = r.buckets ∧
      ∀ d ∈ cfg.decisions r calls, d.consulted = .nothing → d.allowed = false := by
  induction calls generalizing r with
  | nil => exact ⟨h, rfl, by simp [Limits.decisions]⟩
  | cons c calls ih =>
    have hrest : ∀ d ∈ calls, d.outcome.lost = false := fun d hd => hlost d (by simp [hd])
    have hafter : cfg.after r (c :: calls) = cfg.after (cfg.allow r c).2 calls := rfl
    rw [hafter]
    simp only [Limits.decisions, List.mem_cons, forall_eq_or_imp]
    rcases outcome_cases c.outcome with ⟨redis_ms, ho⟩ | ho | ho
    · obtain ⟨hdec, hnext⟩ := allow_replied cfg h ho
      obtain ⟨h1, h2, h3⟩ := ih hrest (cfg.allow r c).2 (by rw [hnext])
      refine ⟨h1, by rw [h2, hnext], ?_, h3⟩
      rw [hdec]
      intro hc
      cases hc
    · obtain ⟨hdec, hnext⟩ := allow_trouble cfg h ho
      rw [hnext]
      obtain ⟨h1, h2, h3⟩ := ih hrest r h
      exact ⟨h1, h2, by simp [hdec], h3⟩
    · have hnot := hlost c (by simp)
      rw [ho] at hnot
      cases hnot

/-- While Redis answers, the calls on a key are those that the script allows. -/
theorem script_phase (key : Bytes) (start : Db) (calls : List Call)
    (hlost : ∀ c ∈ calls, c.outcome.lost = false) (r : RateLimiter) (h : r.redis = true)
    (s : ScriptServer) (hs : s.db key = r.db key) :
    ((scriptCalls key calls).foldl (scriptServer (formatF cfg.rate_rps) cfg.burst start).step
      s).allowed = s.allowed + allowedOn key (cfg.decisions r calls) := by
  induction calls generalizing r s with
  | nil => rfl
  | cons c calls ih =>
    have hrest : ∀ d ∈ calls, d.outcome.lost = false := fun d hd => hlost d (by simp [hd])
    rw [Limits.decisions, allowedOn_cons]
    rcases outcome_cases c.outcome with ⟨redis_ms, ho⟩ | ho | ho
    · obtain ⟨hdec, hnext⟩ := allow_replied cfg h ho
      by_cases hk : redisKey c.tenant_id = key
      · have hcalls : scriptCalls key (c :: calls) =
            ⟨c.tenant_id, nowMs c.system_clock, redis_ms⟩ :: scriptCalls key calls := by
          simp [scriptCalls, scriptCall?, ho, hk]
        obtain ⟨hallowed, hholds⟩ := allowed_step (formatF cfg.rate_rps) cfg.burst start s
          (c := ⟨c.tenant_id, nowMs c.system_clock, redis_ms⟩) hk
        have hget : hmget s.db key redis_ms = hmget r.db (redisKey c.tenant_id) redis_ms := by
          unfold hmget
          rw [hs, hk]
        simp only [hget] at hallowed hholds
        rw [hcalls, List.foldl_cons, ih hrest (cfg.allow r c).2 (by rw [hnext]) _ ?_, hallowed,
          hdec]
        · simp only [hk, true_and, taken_eq]
          omega
        · rw [hnext]
          subst hk
          exact hholds.trans (hmset_self _ _ _ _).symm
      · have hcalls : scriptCalls key (c :: calls) = scriptCalls key calls := by
          simp [scriptCalls, scriptCall?, ho, hk]
        rw [hcalls, ih hrest (cfg.allow r c).2 (by rw [hnext]) s ?_, hdec]
        · simp [hk]
        · rw [hnext]
          exact hs.trans (hmset_of_ne _ _ _ (fun he => hk he.symm)).symm
    · obtain ⟨hdec, hnext⟩ := allow_trouble cfg h ho
      have hcalls : scriptCalls key (c :: calls) = scriptCalls key calls := by
        rcases ho with ho | ho <;> simp [scriptCalls, scriptCall?, ho]
      rw [hcalls, hnext, ih hrest r h s hs, hdec]
      simp
    · have hnot := hlost c (by simp)
      rw [ho] at hnot
      cases hnot

end redis

/-- The call as `allow_local` gets it. -/
def Call.local (c : Call) : LocalCall := ⟨c.tenant_id, c.steady_clock⟩

/-- The decision as a local answer. -/
def Decision.answer (d : Decision) : Answer := { toLocalCall := d.call.local, allowed := d.allowed }

/-- Without Redis, a run is a run of `allow_local`. -/
theorem process_phase (cfg : Limits) (calls : List Call) (r : RateLimiter) (h : r.redis = false)
    (lim : LocalLimiter) (hlim : lim.buckets = r.buckets) :
    ((calls.map Call.local).foldl (localLimiter cfg).step lim).log =
      lim.log ++ (cfg.decisions r calls).map Decision.answer ∧
    ∀ d ∈ cfg.decisions r calls, ∃ tokens, d.consulted = .process tokens := by
  induction calls generalizing r lim with
  | nil => simp [Limits.decisions]
  | cons c calls ih =>
    obtain ⟨hdec, hnext⟩ := allow_process cfg (c := c) h
    have hbuckets : ((localLimiter cfg).step lim c.local).buckets = (cfg.allow r c).2.buckets := by
      rw [localLimiter_step, hnext, hlim]
      rfl
    obtain ⟨h1, h2⟩ := ih (cfg.allow r c).2 (by rw [hnext]) _ hbuckets
    simp only [Limits.decisions, List.map_cons, List.foldl_cons, List.mem_cons, forall_eq_or_imp]
    refine ⟨?_, ⟨⟨_, by rw [hdec]⟩, h2⟩⟩
    rw [h1, localLimiter_step, hdec, hlim]
    simp only [Decision.answer, Call.local, List.append_assoc, List.singleton_append]
    rfl

/-! ## Times cut to milliseconds -/

theorem nowMs_mono {a b : ℚ} (h : a ≤ b) : nowMs a ≤ nowMs b := by
  have hms : a * 1000 ≤ b * 1000 := by linarith
  unfold nowMs
  simp only
  split <;> split
  · exact Int.floor_mono hms
  · rename_i ha hb
    exact absurd (le_trans ha hms) hb
  · rename_i ha hb
    have hceil : ⌈a * 1000⌉ ≤ 0 := Int.ceil_le.mpr (by push_cast; linarith)
    have hfloor : 0 ≤ ⌊b * 1000⌋ := Int.floor_nonneg.mpr hb
    omega
  · exact Int.ceil_mono hms

/-- The cut is towards zero, by less than a millisecond. -/
theorem nowMs_near (a : ℚ) :
    (a * 1000 - 1 < nowMs a ∧ (nowMs a : ℚ) ≤ a * 1000 ∧ 0 ≤ a) ∨
      (a * 1000 ≤ nowMs a ∧ (nowMs a : ℚ) < a * 1000 + 1 ∧ a < 0) := by
  unfold nowMs
  simp only
  split
  · rename_i h
    exact Or.inl ⟨Int.sub_one_lt_floor _, Int.floor_le _, by linarith⟩
  · rename_i h
    exact Or.inr ⟨Int.le_ceil _, Int.ceil_lt_add_one _, by linarith⟩

/-- Between two cut times there is at most one millisecond more than between
the times. -/
theorem nowMs_sub_le (a b : ℚ) :
    ((nowMs b : ℚ) - nowMs a) / 1000 ≤ max 0 (b - a) + 1 / 1000 := by
  rcases le_total b a with hba | hab
  · have hmono : (nowMs b : ℚ) ≤ nowMs a := by exact_mod_cast nowMs_mono hba
    have hmax := le_max_left 0 (b - a)
    linarith
  · have hmax := le_max_right 0 (b - a)
    rcases nowMs_near a with ⟨h1, h2, h3⟩ | ⟨h1, h2, h3⟩
    · rcases nowMs_near b with ⟨g1, g2, g3⟩ | ⟨g1, g2, g3⟩ <;> linarith
    · rcases nowMs_near b with ⟨g1, g2, g3⟩ | ⟨g1, g2, g3⟩ <;> linarith

/-- A clock at a whole millisecond is sent as it is. -/
theorem nowMs_whole {a : ℚ} {k : Int} (h : a = k / 1000) : nowMs a = k := by
  have hms : a * 1000 = k := by
    rw [h]
    ring
  unfold nowMs
  simp only [hms, Int.floor_intCast, Int.ceil_intCast, ite_self]

theorem roundHalfEven_nonneg {x : ℚ} (h : 0 ≤ x) : 0 ≤ roundHalfEven x := by
  have hfloor : 0 ≤ ⌊x⌋ := Int.floor_nonneg.mpr h
  unfold roundHalfEven
  simp only
  split
  · exact hfloor
  · split
    · omega
    · split <;> omega

theorem formatF_nonneg {x : ℚ} (h : 0 ≤ x) : 0 ≤ formatF x := by
  have hround : (0 : ℚ) ≤ roundHalfEven (x * 1000000) := by
    exact_mod_cast roundHalfEven_nonneg (by linarith)
  exact div_nonneg hround (by norm_num)

/-- Times in order go forward from the first to the last. -/
theorem forward_sorted (a : Int) (times : List Int)
    (hsorted : (a :: times).Pairwise (fun x y => x ≤ y)) :
    ∃ b ∈ a :: times, forward (a :: times) = b - a := by
  induction times generalizing a with
  | nil => exact ⟨a, by simp, by simp [forward]⟩
  | cons b times ih =>
    obtain ⟨hall, hrest⟩ := List.pairwise_cons.mp hsorted
    obtain ⟨c, hc, hforward⟩ := ih b hrest
    refine ⟨c, List.mem_cons_of_mem a hc, ?_⟩
    have hab := hall b (by simp)
    rw [forward, hforward]
    omega

/-! ## One window of time -/

/-- The calls from `s` to `e` of the steady clock. -/
def callsIn (s e : ℚ) (calls : List Call) : List Call :=
  calls.filter (fun c => s ≤ c.steady_clock ∧ c.steady_clock ≤ e)

theorem callsIn_mem {s e : ℚ} {calls : List Call} {c : Call} (h : c ∈ callsIn s e calls) :
    s ≤ c.steady_clock ∧ c.steady_clock ≤ e := by
  simpa only [decide_eq_true_eq] using (List.mem_filter.mp h).2

/-- How many calls of a tenant were allowed from `s` to `e`. -/
def allowedIn (tenant_id : Bytes) (s e : ℚ) (ds : List Decision) : Nat :=
  ds.countP (fun d => s ≤ d.call.steady_clock ∧ d.call.steady_clock ≤ e ∧
    d.call.tenant_id = tenant_id ∧ d.allowed = true)

theorem allowedIn_append (u : Bytes) (s e : ℚ) (a b : List Decision) :
    allowedIn u s e (a ++ b) = allowedIn u s e a + allowedIn u s e b := List.countP_append

theorem allowedIn_three (u : Bytes) (s e : ℚ) (a b : List Decision) (d : Decision) :
    allowedIn u s e (a ++ d :: b) ≤ allowedIn u s e a + 1 + allowedIn u s e b := by
  rw [allowedIn_append]
  unfold allowedIn
  rw [List.countP_cons]
  split <;> omega

/-- Calls outside the window do not count. -/
theorem allowedIn_outside (cfg : Limits) (r : RateLimiter) (u : Bytes) {s e : ℚ}
    {calls : List Call} (h : ∀ c ∈ calls, c.steady_clock < s ∨ e < c.steady_clock) :
    allowedIn u s e (cfg.decisions r calls) = 0 := by
  unfold allowedIn
  rw [List.countP_eq_zero]
  intro d hd
  have hmem : d.call ∈ calls := by
    rw [← decisions_call cfg r calls]
    exact List.mem_map_of_mem hd
  simp only [decide_eq_true_eq]
  rintro ⟨hs, he, _⟩
  rcases h _ hmem with hlt | hlt
  · exact absurd hs (not_le.mpr hlt)
  · exact absurd he (not_le.mpr hlt)

theorem allowedIn_le_allowedOn (u : Bytes) (s e : ℚ) (ds : List Decision) :
    allowedIn u s e ds ≤ allowedOn (redisKey u) ds := by
  apply List.countP_mono_left
  intro d _ hd
  simp only [decide_eq_true_eq] at hd
  obtain ⟨_, _, hu, hallowed⟩ := hd
  simp [hu, hallowed]

/-- Calls in order fall before, into and after the window. -/
theorem split_window {calls : List Call}
    (hsorted : calls.Pairwise (fun a b => a.steady_clock ≤ b.steady_clock)) (s e : ℚ) :
    ∃ before after, calls = before ++ callsIn s e calls ++ after ∧
      (∀ c ∈ before, c.steady_clock < s) ∧ ∀ c ∈ after, e < c.steady_clock := by
  induction calls with
  | nil => exact ⟨[], [], rfl, by simp, by simp⟩
  | cons c calls ih =>
    obtain ⟨hall, hrest⟩ := List.pairwise_cons.mp hsorted
    obtain ⟨before, after, heq, hbefore, hafter⟩ := ih hrest
    by_cases hs : c.steady_clock < s
    · refine ⟨c :: before, after, ?_, ?_, hafter⟩
      · have hout : callsIn s e (c :: calls) = callsIn s e calls := by
          simp [callsIn, not_le.mpr hs]
        rw [hout, List.cons_append, List.cons_append, ← heq]
      · simp only [List.mem_cons, forall_eq_or_imp]
        exact ⟨hs, hbefore⟩
    · -- from the first call of the window on, none comes before it
      have hnone : before = [] := by
        rcases before with _ | ⟨d, before⟩
        · rfl
        · have hd := hbefore d (by simp)
          have hcd := hall d (by rw [heq]; simp)
          linarith
      subst hnone
      by_cases he : c.steady_clock ≤ e
      · refine ⟨[], after, ?_, by simp, hafter⟩
        have hin : callsIn s e (c :: calls) = c :: callsIn s e calls := by
          simp [callsIn, not_lt.mp hs, he]
        rw [hin]
        simpa using heq
      · refine ⟨[], c :: calls, ?_, by simp, ?_⟩
        · have hout : callsIn s e (c :: calls) = [] := by
            unfold callsIn
            rw [List.filter_eq_nil_iff]
            intro d hd
            simp only [decide_eq_true_eq, not_and, not_le]
            intro _
            rcases List.mem_cons.mp hd with rfl | hd
            · exact not_le.mp he
            · exact lt_of_lt_of_le (not_le.mp he) (hall d hd)
          rw [hout]
          rfl
        · simp only [List.mem_cons, forall_eq_or_imp]
          refine ⟨not_le.mp he, ?_⟩
          intro d hd
          exact lt_of_lt_of_le (not_le.mp he) (hall d hd)

/-- The system clock goes with the steady clock, and the cut to milliseconds
adds at most `slack` seconds to any span of these calls. -/
structure InTime (slack : ℚ) (calls : List Call) : Prop where
  sorted : calls.Pairwise (fun a b => a.steady_clock ≤ b.steady_clock)
  sent : calls.Pairwise (fun a b => nowMs a.system_clock ≤ nowMs b.system_clock)
  slack_nonneg : 0 ≤ slack
  near : ∀ c ∈ calls, ∀ d ∈ calls,
    ((nowMs d.system_clock : ℚ) - nowMs c.system_clock) / 1000 ≤
      max 0 (d.steady_clock - c.steady_clock) + slack

theorem InTime.sublist {slack : ℚ} {a b : List Call} (h : InTime slack b) (hab : a.Sublist b) :
    InTime slack a where
  sorted := h.sorted.sublist hab
  sent := h.sent.sublist hab
  slack_nonneg := h.slack_nonneg
  near c hc d hd := h.near c (hab.subset hc) d (hab.subset hd)

theorem times_sublist (key : Bytes) (calls : List Call) :
    ((scriptCalls key calls).map ScriptCall.now_ms).Sublist
      (calls.map (fun c => nowMs c.system_clock)) := by
  induction calls with
  | nil => exact List.Sublist.slnil
  | cons c calls ih =>
    unfold scriptCalls at *
    rw [List.filterMap_cons]
    split
    · exact ih.cons _
    · rename_i d hd
      have hnow : d.now_ms = nowMs c.system_clock := by
        unfold scriptCall? at hd
        split at hd
        · split at hd
          · cases hd
            rfl
          · cases hd
        · cases hd
      rw [List.map_cons, List.map_cons, hnow]
      exact ih.cons_cons _

section bound

variable {cfg : Limits} {u : Bytes} {s e slack : ℚ}

/-- The credit that the script gives over calls between `s` and `e`. -/
theorem credit_le (hrate : 0 ≤ cfg.rate_rps) {calls : List Call} (h : InTime slack calls)
    (hse : s ≤ e) (hin : ∀ c ∈ calls, s ≤ c.steady_clock ∧ c.steady_clock ≤ e) (key : Bytes) :
    creditOver (formatF cfg.rate_rps) (scriptCalls key calls) ≤
      formatF cfg.rate_rps * (e - s + slack) := by
  have hsent := formatF_nonneg hrate
  have hslack := h.slack_nonneg
  have hsub := times_sublist key calls
  have hsorted : ((scriptCalls key calls).map ScriptCall.now_ms).Pairwise (fun x y => x ≤ y) :=
    (List.pairwise_map.mpr h.sent).sublist hsub
  have hfrom : ∀ t ∈ (scriptCalls key calls).map ScriptCall.now_ms,
      ∃ c ∈ calls, nowMs c.system_clock = t := fun t ht => List.mem_map.mp (hsub.subset ht)
  have hspan : (forward ((scriptCalls key calls).map ScriptCall.now_ms) : ℚ) / 1000 ≤
      e - s + slack := by
    generalize (scriptCalls key calls).map ScriptCall.now_ms = times at *
    cases times with
    | nil =>
      simp only [forward, Int.cast_zero, zero_div]
      linarith
    | cons a times =>
      obtain ⟨b, hb, hforward⟩ := forward_sorted a times hsorted
      obtain ⟨c, hc, hca⟩ := hfrom a (by simp)
      obtain ⟨d, hd, hdb⟩ := hfrom b hb
      have hnear := h.near c hc d hd
      rw [hca, hdb] at hnear
      have hmax : max 0 (d.steady_clock - c.steady_clock) ≤ e - s := by
        apply max_le (by linarith)
        have hc' := hin c hc
        have hd' := hin d hd
        linarith
      rw [hforward, Int.cast_sub]
      linarith
  unfold creditOver
  rw [mul_div_assoc]
  exact mul_le_mul_of_nonneg_left hspan hsent

/-- While Redis answers, a window takes one burst and its share of the rate,
as Redis gets it. -/
theorem redis_window (hrate : 0 ≤ cfg.rate_rps) (hburst : 0 ≤ cfg.burst) {calls : List Call}
    (hlost : ∀ c ∈ calls, c.outcome.lost = false) (h : InTime slack calls) {r : RateLimiter}
    (hr : r.redis = true) (hlives : KeyLives (scriptCalls (redisKey u) (callsIn s e calls)))
    {m : ℚ} (hsm : s ≤ m) (hm : ∀ c ∈ callsIn s e calls, c.steady_clock ≤ m) :
    (allowedIn u s e (cfg.decisions r calls) : ℚ) ≤
      cfg.burst + formatF cfg.rate_rps * (m - s + slack) := by
  have hcap : (0 : ℚ) ≤ cfg.burst := by exact_mod_cast hburst
  obtain ⟨before, after, heq, hbefore, hafter⟩ := split_window h.sorted s e
  have hin : ∀ c ∈ callsIn s e calls, s ≤ c.steady_clock ∧ c.steady_clock ≤ m :=
    fun c hc => ⟨(callsIn_mem hc).1, hm c hc⟩
  have hwindow := h.sublist (a := callsIn s e calls) List.filter_sublist
  have hlostBefore : ∀ c ∈ before, c.outcome.lost = false := by
    intro c hc
    exact hlost c (by rw [heq]; simp [hc])
  have hlostIn : ∀ c ∈ callsIn s e calls, c.outcome.lost = false := fun c hc =>
    hlost c (List.mem_of_mem_filter hc)
  obtain ⟨hr1, _, _⟩ := redis_phase cfg before hlostBefore r hr
  generalize callsIn s e calls = window at *
  subst heq
  rw [decisions_append, decisions_append, allowedIn_append, allowedIn_append,
    allowedIn_outside cfg _ u (fun c hc => Or.inl (hbefore c hc)),
    allowedIn_outside cfg _ u (fun c hc => Or.inr (hafter c hc)), Nat.zero_add, Nat.add_zero]
  have hon := allowedIn_le_allowedOn u s e (cfg.decisions (cfg.after r before) window)
  have hscript := script_phase cfg (redisKey u) (cfg.after r before).db window hlostIn
    (cfg.after r before) hr1 (scriptServer (formatF cfg.rate_rps) cfg.burst
      (cfg.after r before).db).init rfl
  have hbound := allowed_le (cfg.after r before).db (formatF_nonneg hrate) hcap
    (scriptCalls (redisKey u) window) key_scriptCalls hlives
  have hcredit := credit_le hrate hwindow hsm hin (redisKey u)
  have hrun : ((scriptServer (formatF cfg.rate_rps) cfg.burst (cfg.after r before).db).run
      (scriptCalls (redisKey u) window)).allowed =
      allowedOn (redisKey u) (cfg.decisions (cfg.after r before) window) := by
    apply hscript.trans
    exact Nat.zero_add _
  rw [hrun] at hbound
  have hon' : (allowedIn u s e (cfg.decisions (cfg.after r before) window) : ℚ) ≤
      allowedOn (redisKey u) (cfg.decisions (cfg.after r before) window) := by exact_mod_cast hon
  linarith

theorem allowedIn_answers (u : Bytes) (s e : ℚ) (ds : List Decision) :
    allowedIn u s e ds = grantedIn u s e (ds.map Decision.answer) := by
  unfold allowedIn grantedIn granted
  rw [List.countP_filter, List.countP_map]
  apply List.countP_congr
  intro d _
  simp only [Decision.answer, Call.local, Function.comp_apply, Bool.decide_and, Bool.and_eq_true,
    decide_eq_true_eq]
  constructor
  · rintro ⟨hs, he, hu, hallowed⟩
    exact ⟨⟨decide_eq_true hu, hallowed⟩, decide_eq_true hs, decide_eq_true he⟩
  · rintro ⟨⟨hu, hallowed⟩, hs, he⟩
    exact ⟨of_decide_eq_true hs, of_decide_eq_true he, of_decide_eq_true hu, hallowed⟩

/-- Without Redis, a window takes one burst and its share of the rate. -/
theorem process_window (hrate : 0 ≤ cfg.rate_rps) (hburst : 0 ≤ cfg.burst) {calls : List Call}
    (hsorted : calls.Pairwise (fun a b => a.steady_clock ≤ b.steady_clock)) {r : RateLimiter}
    (hr : r.redis = false) (hnew : r.buckets = fun _ => none) (hse : s ≤ e) :
    (allowedIn u s e (cfg.decisions r calls) : ℚ) ≤ cfg.burst + cfg.rate_rps * (e - s) := by
  obtain ⟨hlog, _⟩ := process_phase cfg calls r hr (localLimiter cfg).init hnew.symm
  have hsorted' : (calls.map Call.local).Pairwise (fun a b => a.now ≤ b.now) :=
    List.pairwise_map.mpr hsorted
  have hbound := (booked_run hrate hburst u hse (calls.map Call.local) hsorted').bound
  have hrun : ((localLimiter cfg).run (calls.map Call.local)).log =
      (cfg.decisions r calls).map Decision.answer := hlog
  rw [hrun, ← allowedIn_answers] at hbound
  exact hbound

/-- A window over calls that all come at `p` or later starts at `p`. -/
theorem allowedIn_later {calls : List Call} {r : RateLimiter} {p : ℚ}
    (hp : ∀ c ∈ calls, p ≤ c.steady_clock) (hsp : s ≤ p) :
    allowedIn u s e (cfg.decisions r calls) = allowedIn u p e (cfg.decisions r calls) := by
  apply List.countP_congr
  intro d hd
  have hmem : d.call ∈ calls := by
    rw [← decisions_call cfg r calls]
    exact List.mem_map_of_mem hd
  have hlater := hp _ hmem
  have hs : s ≤ d.call.steady_clock := le_trans hsp hlater
  simp only [decide_eq_true_eq]
  tauto

end bound

/-! ## The loss of Redis -/

/-- Before the first command without a reply, Redis answers. That command is
the first of the rest. -/
theorem asked_split (calls : List Call) :
    (∀ c ∈ asked true calls, c.outcome.lost = false) ∧
    (calls = asked true calls ∨
      ∃ c rest, calls = asked true calls ++ c :: rest ∧ c.outcome.lost = true) := by
  induction calls with
  | nil => exact ⟨by simp [asked], Or.inl rfl⟩
  | cons c calls ih =>
    obtain ⟨hall, hsplit⟩ := ih
    by_cases hc : c.outcome.lost = true
    · have hasked : asked true (c :: calls) = [] := by simp [asked, hc]
      rw [hasked]
      exact ⟨by simp, Or.inr ⟨c, calls, rfl, hc⟩⟩
    · have hasked : asked true (c :: calls) = c :: asked true calls := by simp [asked, hc]
      rw [hasked]
      refine ⟨by simpa using ⟨by simpa using hc, hall⟩, ?_⟩
      rcases hsplit with heq | ⟨d, rest, heq, hd⟩
      · exact Or.inl (congrArg (c :: ·) heq)
      · exact Or.inr ⟨d, rest, congrArg (c :: ·) heq, hd⟩

theorem asked_sublist (calls : List Call) : (asked true calls).Sublist calls := by
  simp only [asked, if_true]
  exact List.takeWhile_sublist _

/-- A call that was allowed without a look at any bucket. -/
def Decision.unseen (d : Decision) : Bool := d.allowed && decide (d.consulted = .nothing)

/-- The decisions of a run with Redis: those that Redis answers, the one that
gets no reply, and those of this process. -/
theorem three_parts (cfg : Limits) (db : Db) (calls : List Call) :
    (∀ d ∈ cfg.decisions (.start true db) (asked true calls), d.unseen = false) ∧
    (calls = asked true calls ∨ ∃ c rest r, calls = asked true calls ++ c :: rest ∧
      cfg.decisions (.start true db) calls = cfg.decisions (.start true db) (asked true calls) ++
        { call := c, allowed := true, consulted := .nothing } :: cfg.decisions r rest ∧
      r.redis = false ∧ r.buckets = fun _ => none) := by
  obtain ⟨hlost, hsplit⟩ := asked_split calls
  obtain ⟨hr, hbuckets, hseen⟩ := redis_phase cfg (asked true calls) hlost (.start true db) rfl
  refine ⟨?_, ?_⟩
  · intro d hd
    by_cases hc : d.consulted = .nothing
    · simp [Decision.unseen, hseen d hd hc]
    · simp [Decision.unseen, hc]
  · rcases hsplit with heq | ⟨c, rest, heq, hc⟩
    · exact Or.inl heq
    · obtain ⟨hdec, hgone, hkept⟩ := allow_lost cfg hr hc
      refine Or.inr ⟨c, rest, (cfg.allow (cfg.after (.start true db) (asked true calls)) c).2, heq,
        ?_, hgone, hkept.trans hbuckets⟩
      conv_lhs => rw [heq]
      rw [decisions_append, Limits.decisions, hdec]

theorem unseen_process (cfg : Limits) (calls : List Call) {r : RateLimiter} (h : r.redis = false) :
    ∀ d ∈ cfg.decisions r calls, d.unseen = false ∧ ∃ tokens, d.consulted = .process tokens := by
  intro d hd
  obtain ⟨_, hall⟩ := process_phase cfg calls r h { buckets := r.buckets, log := [] } rfl
  obtain ⟨tokens, htokens⟩ := hall d hd
  exact ⟨by simp [Decision.unseen, htokens], tokens, htokens⟩

/-- At most one call is let through unseen, and after it this process decides. -/
theorem unseen_once (cfg : Limits) (connected : Bool) (db : Db) (calls : List Call) :
    (cfg.decisions (.start connected db) calls).countP Decision.unseen ≤ 1 ∧
    (cfg.decisions (.start connected db) calls).Pairwise
      (fun d d' => d.unseen = true → ∃ tokens, d'.consulted = .process tokens) := by
  have hnone : ∀ ds : List Decision, (∀ d ∈ ds, d.unseen = false) →
      ds.countP Decision.unseen = 0 ∧
      ds.Pairwise (fun d d' => d.unseen = true → ∃ tokens, d'.consulted = .process tokens) := by
    intro ds hds
    refine ⟨?_, ?_⟩
    · rw [List.countP_eq_zero]
      intro d hd
      simp [hds d hd]
    · apply List.Pairwise.imp_of_mem _ (List.pairwise_of_forall (fun _ _ => trivial))
      intro d d' hd _ _ hun
      rw [hds d hd] at hun
      cases hun
  cases connected with
  | false =>
    obtain ⟨hcount, hpair⟩ := hnone _
      (fun d hd => (unseen_process cfg calls (r := .start false db) rfl d hd).1)
    exact ⟨by omega, hpair⟩
  | true =>
    obtain ⟨hasked, hsplit⟩ := three_parts cfg db calls
    obtain ⟨hcount, hpair⟩ := hnone _ hasked
    rcases hsplit with heq | ⟨c, rest, r, heq, hdec, hr, _⟩
    · rw [heq]
      exact ⟨by omega, hpair⟩
    · have hrest := unseen_process cfg rest hr
      obtain ⟨hcount', hpair'⟩ := hnone _ (fun d hd => (hrest d hd).1)
      rw [hdec]
      refine ⟨?_, ?_⟩
      · rw [List.countP_append, List.countP_cons, hcount, hcount']
        split <;> omega
      · rw [List.pairwise_append]
        refine ⟨hpair, List.pairwise_cons.mpr ⟨fun d hd _ => (hrest d hd).2, hpair'⟩, ?_⟩
        intro d hd d' _ hun
        rw [hasked d hd] at hun
        cases hun

/-- Redis is lost before, in or after a window. The part of the window that
Redis had and the part that this process had share its rate. -/
theorem split_quota {cfg : Limits} (hrate : 0 ≤ cfg.rate_rps) (hburst : 0 ≤ cfg.burst) (db : Db)
    {calls rest : List Call} {c : Call} {r : RateLimiter} {slack : ℚ} (h : InTime slack calls)
    (heq : calls = asked true calls ++ c :: rest) (hr : r.redis = false)
    (hnew : r.buckets = fun _ => none) (u : Bytes) {s e : ℚ} (hse : s ≤ e)
    (hlives : KeyLives (scriptCalls (redisKey u) (callsIn s e (asked true calls)))) :
    (allowedIn u s e (cfg.decisions (.start true db) (asked true calls)) : ℚ) +
      allowedIn u s e (cfg.decisions r rest) ≤
    2 * cfg.burst + max cfg.rate_rps (formatF cfg.rate_rps) * (e - s + slack) := by
  have hcap : (0 : ℚ) ≤ cfg.burst := by exact_mod_cast hburst
  have hslack := h.slack_nonneg
  have hsorted := h.sorted
  have hin := h.sublist (asked_sublist calls)
  have hle := le_max_left cfg.rate_rps (formatF cfg.rate_rps)
  have hle' := le_max_right cfg.rate_rps (formatF cfg.rate_rps)
  generalize max cfg.rate_rps (formatF cfg.rate_rps) = top at *
  have hcost : ∀ rate x, rate ≤ top → 0 ≤ x → rate * x ≤ top * x :=
    fun rate x hr hx => mul_le_mul_of_nonneg_right hr hx
  have hextra := mul_nonneg (le_trans hrate hle) hslack
  rw [heq, List.pairwise_append, List.pairwise_cons] at hsorted
  obtain ⟨_, ⟨hafter, hrest⟩, hbefore⟩ := hsorted
  have hlost := (asked_split calls).1
  rcases lt_or_ge e c.steady_clock with hout | hend
  · -- Redis was lost after the window
    have hlater : ∀ d ∈ rest, d.steady_clock < s ∨ e < d.steady_clock :=
      fun d hd => Or.inr (lt_of_lt_of_le hout (hafter d hd))
    have hbound := redis_window hrate hburst hlost hin (r := .start true db) rfl hlives hse
      (fun d hd => (callsIn_mem hd).2)
    have hwhole := hcost _ (e - s + slack) hle' (by linarith)
    rw [allowedIn_outside cfg r u hlater, Nat.cast_zero]
    linarith
  · rcases lt_or_ge c.steady_clock s with hout | hstart
    · -- Redis was lost before the window
      have hearlier : ∀ d ∈ asked true calls, d.steady_clock < s ∨ e < d.steady_clock :=
        fun d hd => Or.inl (lt_of_le_of_lt (hbefore d hd c (by simp)) hout)
      have hbound := process_window (u := u) hrate hburst hrest hr hnew hse
      have hwindow := hcost _ (e - s) hle (by linarith)
      rw [allowedIn_outside cfg (.start true db) u hearlier, Nat.cast_zero]
      linarith
    · -- Redis was lost in the window, which is cut in two
      have hfirst := redis_window hrate hburst hlost hin (r := .start true db) rfl hlives hstart
        (fun d hd => hbefore d (List.mem_of_mem_filter hd) c (by simp))
      have hsecond := process_window (u := u) hrate hburst hrest hr hnew hend
      have hcost1 := hcost _ (c.steady_clock - s + slack) hle' (by linarith)
      have hcost2 := hcost _ (e - c.steady_clock) hle (by linarith)
      rw [allowedIn_later hafter hstart]
      linarith

/-- The quota of a window, with the slack of the cut times. -/
theorem quota_with_slack {cfg : Limits} (hrate : 0 ≤ cfg.rate_rps) (hburst : 0 ≤ cfg.burst)
    (connected : Bool) (db : Db) {calls : List Call} {slack : ℚ} (h : InTime slack calls)
    (u : Bytes) {s e : ℚ} (hse : s ≤ e)
    (hlives : KeyLives (scriptCalls (redisKey u) (callsIn s e (asked connected calls)))) :
    (allowedIn u s e (cfg.decisions (.start connected db) calls) : ℚ) ≤
      2 * cfg.burst + 1 + max cfg.rate_rps (formatF cfg.rate_rps) * (e - s + slack) := by
  have hcap : (0 : ℚ) ≤ cfg.burst := by exact_mod_cast hburst
  have hslack := h.slack_nonneg
  have hspan : 0 ≤ e - s + slack := by linarith
  cases connected with
  | false =>
    have hbound := process_window (u := u) hrate hburst h.sorted (r := .start false db) rfl rfl hse
    have hgrow : cfg.rate_rps * (e - s) ≤
        max cfg.rate_rps (formatF cfg.rate_rps) * (e - s + slack) :=
      mul_le_mul (le_max_left _ _) (by linarith) (by linarith) (le_max_of_le_left hrate)
    linarith
  | true =>
    obtain ⟨_, hsplit⟩ := three_parts cfg db calls
    rcases hsplit with heq | ⟨c, rest, r, heq, hdec, hr, hnew⟩
    · have hbound := redis_window hrate hburst (asked_split calls).1
        (h.sublist (asked_sublist calls)) (r := .start true db) rfl hlives hse
        (fun d hd => (callsIn_mem hd).2)
      have hgrow : formatF cfg.rate_rps * (e - s + slack) ≤
          max cfg.rate_rps (formatF cfg.rate_rps) * (e - s + slack) :=
        mul_le_mul_of_nonneg_right (le_max_right _ _) hspan
      rw [← heq] at hbound
      linarith
    · have hparts : (allowedIn u s e (cfg.decisions (.start true db) calls) : ℚ) ≤
          allowedIn u s e (cfg.decisions (.start true db) (asked true calls)) + 1 +
            allowedIn u s e (cfg.decisions r rest) := by
        rw [hdec]
        exact_mod_cast allowedIn_three u s e _ _ _
      have hbound := split_quota hrate hburst db h heq hr hnew u hse hlives
      linarith

/-! ## The law of the loss of Redis -/

theorem inTime_of_clocks {calls : List Call} {offset : ℚ}
    (hsorted : calls.Pairwise (fun a b => a.steady_clock ≤ b.steady_clock))
    (hclock : ∀ c ∈ calls, c.system_clock = c.steady_clock + offset) :
    InTime (1 / 1000) calls ∧
    ((∀ c ∈ calls, ∃ k : Int, c.system_clock = k / 1000) → InTime 0 calls) := by
  have hsent : calls.Pairwise (fun a b => nowMs a.system_clock ≤ nowMs b.system_clock) := by
    apply hsorted.imp_of_mem
    intro a b ha hb hab
    rw [hclock a ha, hclock b hb]
    exact nowMs_mono (by linarith)
  refine ⟨⟨hsorted, hsent, by norm_num, ?_⟩, ?_⟩
  · intro c hc d hd
    have hnear := nowMs_sub_le c.system_clock d.system_clock
    rw [hclock c hc, hclock d hd] at *
    rwa [add_sub_add_right_eq_sub] at hnear
  · intro hwhole
    refine ⟨hsorted, hsent, le_refl 0, ?_⟩
    intro c hc d hd
    obtain ⟨k, hk⟩ := hwhole c hc
    obtain ⟨l, hl⟩ := hwhole d hd
    rw [nowMs_whole hk, nowMs_whole hl]
    have hspan : ((l : ℚ) - k) / 1000 = d.steady_clock - c.steady_clock := by
      have hc' := hclock c hc
      have hd' := hclock d hd
      rw [hk] at hc'
      rw [hl] at hd'
      linarith
    rw [hspan, add_zero]
    exact le_max_right _ _

/-- A node may lose its Redis at any call. In each window of time in which
the key of a tenant lives, at most two bursts, one call, and the rate of the
window and one millisecond are allowed, at the rate as it is or as it is sent.
With times in whole milliseconds and a rate that `%f` sends as it is, the
millisecond goes. At most one call is let through without a bucket, and after
it the bucket of this process decides. -/
theorem the_quota_holds_across_the_loss_of_redis (cfg : Limits) (hrate : 0 ≤ cfg.rate_rps)
    (hburst : 0 ≤ cfg.burst) (connected : Bool) (db : Db) (calls : List Call) (offset : ℚ)
    (hsorted : calls.Pairwise (fun a b => a.steady_clock ≤ b.steady_clock))
    (hclock : ∀ c ∈ calls, c.system_clock = c.steady_clock + offset) :
    let ds := cfg.decisions (.start connected db) calls
    (∀ u s w, 0 ≤ w →
      KeyLives (scriptCalls (redisKey u) (callsIn s (s + w) (asked connected calls))) →
      (allowedIn u s (s + w) ds : ℚ) ≤
        2 * cfg.burst + 1 + max cfg.rate_rps (formatF cfg.rate_rps) * (w + 1 / 1000) ∧
      ((∃ k : Int, cfg.rate_rps = k / 1000000) →
        (∀ c ∈ calls, ∃ k : Int, c.system_clock = k / 1000) →
        (allowedIn u s (s + w) ds : ℚ) ≤ 2 * cfg.burst + 1 + cfg.rate_rps * w)) ∧
    ds.countP Decision.unseen ≤ 1 ∧
    ds.Pairwise (fun d d' => d.unseen = true → ∃ tokens, d'.consulted = .process tokens) := by
  intro ds
  obtain ⟨hcut, hexact⟩ := inTime_of_clocks hsorted hclock
  refine ⟨?_, unseen_once cfg connected db calls⟩
  intro u s w hw hlives
  refine ⟨?_, ?_⟩
  · have hbound := quota_with_slack hrate hburst connected db hcut u (by linarith) hlives
    rwa [add_sub_cancel_left] at hbound
  · rintro ⟨k, hk⟩ hwhole
    have hbound := quota_with_slack hrate hburst connected db (hexact hwhole) u (by linarith) hlives
    rwa [formatF_exact hk, max_self, add_sub_cancel_left, add_zero] at hbound

/-- A call of one tenant at a time of both clocks. -/
def callOf (clock : ℚ) (outcome : Outcome) : Call :=
  { tenant_id := bytes "t", system_clock := clock, steady_clock := clock, outcome := outcome }

/-- One second with Redis, which is lost at its end. -/
def aSecondAndALoss : List Call :=
  [callOf 0 (.replied 0), callOf 1 (.replied 1000), callOf 1 (.noReply none),
    callOf 1 (.noReply none)]

/-- One token a second and a burst of one: the window of this second takes its
four calls, two bursts, one call and the rate, and no more. -/
theorem the_quota_holds_across_the_loss_of_redis_to_the_last_call :
    let cfg : Limits := { rate_rps := 1, burst := 1 }
    let ds := cfg.decisions (.start true (fun _ => none)) aSecondAndALoss
    allowedIn (bytes "t") 0 (0 + 1) ds = 4 ∧
    (allowedIn (bytes "t") 0 (0 + 1) ds : ℚ) ≤ 2 * cfg.burst + 1 + cfg.rate_rps * 1 ∧
    ds.countP Decision.unseen ≤ 1 ∧
    ds.Pairwise (fun d d' => d.unseen = true → ∃ tokens, d'.consulted = .process tokens) := by
  intro cfg ds
  obtain ⟨hquota, honce⟩ := the_quota_holds_across_the_loss_of_redis cfg (by decide +kernel)
    (by decide +kernel) true (fun _ => none) aSecondAndALoss 0 (by decide +kernel)
    (by decide +kernel)
  have hlives : KeyLives (scriptCalls (redisKey (bytes "t"))
      (callsIn 0 (0 + 1) (asked true aSecondAndALoss))) := by
    unfold KeyLives
    decide +kernel
  have hwhole : ∀ c ∈ aSecondAndALoss, ∃ k : Int, c.system_clock = k / 1000 := by
    simp only [aSecondAndALoss, callOf, List.mem_cons, List.not_mem_nil, or_false, forall_eq_or_imp,
      forall_eq]
    exact ⟨⟨0, by norm_num⟩, ⟨1000, by norm_num⟩, ⟨1000, by norm_num⟩, ⟨1000, by norm_num⟩⟩
  have hbound := (hquota (bytes "t") 0 1 (by norm_num) hlives).2 ⟨1000000, by norm_num [cfg]⟩ hwhole
  exact ⟨by decide +kernel, hbound, honce⟩

/-- Two calls on the two sides of a millisecond, then Redis is lost. -/
def acrossAMillisecond : List Call :=
  [callOf (9999 / 10000000) (.replied 0), callOf (1 / 1000) (.replied 0),
    callOf (1 / 1000) (.noReply none), callOf (1 / 1000) (.noReply none)]

/-- A million tokens a second and a burst of one: four calls are allowed within
a tenth of a microsecond, where two bursts, one call and the rate are 3.1. -/
theorem a_millisecond_earns_more_than_its_window :
    let cfg : Limits := { rate_rps := 1000000, burst := 1 }
    let s : ℚ := 9999 / 10000000
    let w : ℚ := 1 / 10000000
    acrossAMillisecond.Pairwise (fun a b => a.steady_clock ≤ b.steady_clock) ∧
    KeyLives (scriptCalls (redisKey (bytes "t"))
      (callsIn s (s + w) (asked true acrossAMillisecond))) ∧
    ¬ (allowedIn (bytes "t") s (s + w)
        (cfg.decisions (.start true (fun _ => none)) acrossAMillisecond) : ℚ) ≤
      2 * cfg.burst + 1 + cfg.rate_rps * w := by
  refine ⟨by decide +kernel, ?_, by decide +kernel⟩
  unfold KeyLives
  decide +kernel

end inference_server
