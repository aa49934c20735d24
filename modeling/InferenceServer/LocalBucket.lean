-- The bucket in this process answers like a limiter that looks at the whole
-- past: a call is allowed exactly when no window that ends with it would hold
-- more calls than the burst and its share of the rate.
import InferenceServer.RateLimiter
import Mathlib.Data.Rat.Cast.Order

namespace inference_server

open machine token_bucket

/-! ## What one call does to its bucket -/

section bucket

variable (cfg : Limits) (buckets : Buckets) (tenant_id : Bytes) (now : ℚ)

theorem bucketAt_last_refill : (cfg.bucketAt buckets tenant_id now).last_refill = now := by
  unfold Limits.bucketAt
  split <;> rfl

variable {buckets tenant_id} in
theorem bucketAt_new (h : buckets tenant_id = none) :
    (cfg.bucketAt buckets tenant_id now).tokens = cfg.burst := by
  unfold Limits.bucketAt
  rw [h]

variable {buckets tenant_id} in
theorem bucketAt_gain {b : Bucket} (h : buckets tenant_id = some b) :
    (cfg.bucketAt buckets tenant_id now).tokens =
      gain (cfg.burst : ℚ) b.tokens (cfg.rate_rps * (now - b.last_refill)) := by
  unfold Limits.bucketAt
  rw [h]
  simp only [Limits.refill, gain, mul_comm]

/-- A call takes its token, if there is one, and leaves the rest. -/
theorem allowLocal_eq :
    let level := (cfg.bucketAt buckets tenant_id now).tokens
    cfg.allowLocal buckets tenant_id now = (decide (1 ≤ level),
      Function.update buckets tenant_id (some { tokens := rest level, last_refill := now })) := by
  have hnow := bucketAt_last_refill cfg buckets tenant_id now
  unfold Limits.allowLocal
  generalize cfg.bucketAt buckets tenant_id now = b at *
  obtain ⟨tokens, last_refill⟩ := b
  simp only at hnow
  subst hnow
  by_cases h : tokens < 1
  · simp [rest, h, not_le.mpr h]
  · simp [rest, h, not_lt.mp h]

end bucket

theorem taken_eq (level : ℚ) : taken level = if decide (1 ≤ level) then 1 else 0 := by
  unfold taken
  by_cases h : level < 1
  · rw [if_pos h]
    simp [not_le.mpr h]
  · rw [if_neg h]
    simp [not_lt.mp h]

/-! ## Runs of calls -/

/-- One call of `allow_local`, with the clock as it reads it. -/
structure LocalCall where
  tenant_id : Bytes
  now : ℚ
  deriving DecidableEq

structure Answer extends LocalCall where
  allowed : Bool
  deriving DecidableEq

/-- The buckets, and a record of all answers. -/
structure LocalLimiter where
  buckets : Buckets
  log : List Answer

/-- `allow_local`, one call after another. -/
def localLimiter (cfg : Limits) : Machine LocalLimiter LocalCall where
  init := { buckets := fun _ => none, log := [] }
  step s c :=
    let a := cfg.allowLocal s.buckets c.tenant_id c.now
    { buckets := a.2, log := s.log ++ [{ toLocalCall := c, allowed := a.1 }] }

theorem localLimiter_step (cfg : Limits) (s : LocalLimiter) (c : LocalCall) :
    let level := (cfg.bucketAt s.buckets c.tenant_id c.now).tokens
    (localLimiter cfg).step s c =
      { buckets := Function.update s.buckets c.tenant_id
          (some { tokens := rest level, last_refill := c.now })
        log := s.log ++ [{ toLocalCall := c, allowed := decide (1 ≤ level) }] } := by
  simp only [localLimiter, allowLocal_eq]

/-- How many calls of a tenant were allowed. -/
def granted (tenant_id : Bytes) (log : List Answer) : Nat :=
  log.countP (fun a => a.tenant_id = tenant_id && a.allowed)

theorem granted_append (u : Bytes) (l m : List Answer) :
    granted u (l ++ m) = granted u l + granted u m := List.countP_append

/-- The windows of a tenant, as `now` sees them: one from each of its calls. -/
def windows (cfg : Limits) (tenant_id : Bytes) (now : ℚ) : List Answer → List (Window ℚ)
  | [] => []
  | a :: log =>
    if a.tenant_id = tenant_id then
      ⟨cfg.rate_rps * (now - a.now), granted tenant_id (a :: log)⟩ ::
        windows cfg tenant_id now log
    else windows cfg tenant_id now log

section windows

variable (cfg : Limits) (u : Bytes)

theorem mem_windows (now : ℚ) (log : List Answer) (w : Window ℚ) :
    w ∈ windows cfg u now log ↔ ∃ j b, log[j]? = some b ∧ b.tenant_id = u ∧
      w = ⟨cfg.rate_rps * (now - b.now), granted u (log.drop j)⟩ := by
  induction log with
  | nil => simp [windows]
  | cons a log ih =>
    have hsplit : (∃ j b, (a :: log)[j]? = some b ∧ b.tenant_id = u ∧
        w = ⟨cfg.rate_rps * (now - b.now), granted u ((a :: log).drop j)⟩) ↔
        (a.tenant_id = u ∧ w = ⟨cfg.rate_rps * (now - a.now), granted u (a :: log)⟩) ∨
        ∃ j b, log[j]? = some b ∧ b.tenant_id = u ∧
          w = ⟨cfg.rate_rps * (now - b.now), granted u (log.drop j)⟩ := by
      constructor
      · rintro ⟨_ | j, b, hget, hb, hw⟩
        · simp only [List.getElem?_cons_zero, Option.some.injEq] at hget
          subst hget
          exact Or.inl ⟨hb, hw⟩
        · exact Or.inr ⟨j, b, hget, hb, hw⟩
      · rintro (⟨ha, hw⟩ | ⟨j, b, hget, hb, hw⟩)
        · exact ⟨0, a, rfl, ha, hw⟩
        · exact ⟨j + 1, b, hget, hb, hw⟩
    rw [hsplit, ← ih, windows]
    by_cases ha : a.tenant_id = u
    · rw [if_pos ha, List.mem_cons]
      simp [ha]
    · rw [if_neg ha]
      simp [ha]

/-- Later, the windows have earned more. -/
theorem windows_earn (now later : ℚ) (log : List Answer) :
    windows cfg u later log =
      (windows cfg u now log).map (fun w => w.earn (cfg.rate_rps * (later - now))) := by
  induction log with
  | nil => rfl
  | cons a log ih =>
    unfold windows
    by_cases ha : a.tenant_id = u
    · rw [if_pos ha, if_pos ha, List.map_cons, ← ih]
      congr 1
      simp only [Window.earn, Window.mk.injEq, and_true]
      ring
    · rw [if_neg ha, if_neg ha, ih]

/-- A call of the tenant counts in all its windows, and starts one. -/
theorem windows_snoc (log : List Answer) (a : Answer) (ha : a.tenant_id = u) :
    windows cfg u a.now (log ++ [a]) =
      (windows cfg u a.now log ++ [Window.fresh]).map
        (fun w : Window ℚ => w.use (if a.allowed then 1 else 0)) := by
  have hone : granted u [a] = if a.allowed then 1 else 0 := by
    simp [granted, List.countP_cons, ha]
  induction log with
  | nil => simp [windows, ha, hone, Window.use, Window.fresh]
  | cons b log ih =>
    simp only [List.cons_append, windows]
    by_cases hb : b.tenant_id = u
    · rw [if_pos hb, if_pos hb, ih, ← List.cons_append, granted_append, hone]
      rfl
    · rw [if_neg hb, if_neg hb, ih]

/-- A call of another tenant changes no window. -/
theorem windows_other (now : ℚ) (log : List Answer) (a : Answer) (ha : a.tenant_id ≠ u) :
    windows cfg u now (log ++ [a]) = windows cfg u now log := by
  have hone : granted u [a] = 0 := by simp [granted, ha]
  induction log with
  | nil => simp [windows, ha]
  | cons b log ih =>
    simp only [List.cons_append, windows]
    by_cases hb : b.tenant_id = u
    · rw [if_pos hb, if_pos hb, ih, ← List.cons_append, granted_append, hone]
      rfl
    · rw [if_neg hb, if_neg hb, ih]

end windows

/-! ## The bucket is as tight as its windows -/

/-- Each bucket is exactly what the windows of its tenant allow. -/
def Exact (cfg : Limits) (s : LocalLimiter) : Prop :=
  ∀ u, match s.buckets u with
    | none => windows cfg u 0 s.log = []
    | some b => Tight (cfg.burst : ℚ) (windows cfg u b.last_refill s.log) b.tokens

theorem windows_nil (cfg : Limits) (u : Bytes) (now later : ℚ) (log : List Answer)
    (h : windows cfg u now log = []) : windows cfg u later log = [] := by
  rw [windows_earn cfg u now, h]
  rfl

/-- What a call finds in its bucket is what its windows allow. -/
theorem tight_bucketAt {cfg : Limits} {s : LocalLimiter} (h : Exact cfg s) (u : Bytes) (now : ℚ) :
    Tight (cfg.burst : ℚ) (windows cfg u now s.log ++ [Window.fresh])
      (cfg.bucketAt s.buckets u now).tokens := by
  have hu := h u
  cases hb : s.buckets u with
  | none =>
    rw [hb] at hu
    rw [bucketAt_new cfg now hb, windows_nil cfg u 0 now s.log hu]
    exact tight_full _
  | some b =>
    rw [hb] at hu
    rw [bucketAt_gain cfg now hb, windows_earn cfg u b.last_refill now]
    exact tight_gain hu _

theorem exact_step {cfg : Limits} {s : LocalLimiter} (h : Exact cfg s) (c : LocalCall) :
    Exact cfg ((localLimiter cfg).step s c) := by
  intro u
  have htight := tight_bucketAt h c.tenant_id c.now
  rw [localLimiter_step]
  generalize (cfg.bucketAt s.buckets c.tenant_id c.now).tokens = level at *
  by_cases hu : c.tenant_id = u
  · subst hu
    have hsnoc := windows_snoc cfg c.tenant_id s.log
      { toLocalCall := c, allowed := decide (1 ≤ level) } rfl
    simp only [Function.update_self] at hsnoc ⊢
    rw [hsnoc, ← taken_eq]
    exact tight_rest htight
  · have hother : ∀ now, windows cfg u now (s.log ++
        [{ toLocalCall := c, allowed := decide (1 ≤ level) }]) = windows cfg u now s.log :=
      fun now => windows_other cfg u now s.log _ hu
    simp only [Function.update_of_ne (Ne.symm hu), hother]
    exact h u

theorem exact_run (cfg : Limits) (calls : List LocalCall) :
    Exact cfg ((localLimiter cfg).run calls) :=
  invariant _ (Exact cfg) (fun _ => rfl) (fun _ c h => exact_step h c) calls

/-! ## The log -/

/-- Each answer of the log is right about its windows in the log before it. -/
def Judged (cfg : Limits) (log : List Answer) : Prop :=
  ∀ i a, log[i]? = some a → (a.allowed = true ↔
    ∀ w ∈ windows cfg a.tenant_id a.now (log.take i) ++ [Window.fresh],
      (w.used : ℚ) + 1 ≤ cfg.burst + w.credit)

theorem judged_run (cfg : Limits) (calls : List LocalCall) :
    Judged cfg ((localLimiter cfg).run calls).log := by
  apply invariant_under _ (Exact cfg) (fun s => Judged cfg s.log) (exact_run cfg)
  · intro i a ha
    simp [localLimiter] at ha
  · intro s c hexact h i a hget
    have htight := tight_bucketAt hexact c.tenant_id c.now
    rw [localLimiter_step] at hget ⊢
    simp only at hget ⊢
    by_cases hi : i < s.log.length
    · rw [List.getElem?_append_left hi] at hget
      rw [List.take_append_of_le_length (by omega)]
      exact h i a hget
    · have hlast : i = s.log.length := by
        by_contra hne
        rw [List.getElem?_eq_none] at hget
        · cases hget
        · simp only [List.length_append, List.length_singleton]
          omega
      subst hlast
      rw [List.getElem?_concat_length, Option.some.injEq] at hget
      subst hget
      rw [List.take_left']
      · simp only [decide_eq_true_eq]
        exact tight_one_le htight
      · rfl

theorem log_run (cfg : Limits) (calls : List LocalCall) :
    ((localLimiter cfg).run calls).log.map Answer.toLocalCall = calls := by
  induction calls using List.reverseRecOn with
  | nil => rfl
  | append_singleton calls c ih =>
    rw [run_snoc, localLimiter_step]
    simp [ih]

/-- Each bucket was last refilled by a call of its tenant. -/
theorem last_refill_run (cfg : Limits) (calls : List LocalCall) :
    ∀ u b, ((localLimiter cfg).run calls).buckets u = some b →
      ∃ c ∈ calls, b.last_refill = c.now := by
  induction calls using List.reverseRecOn with
  | nil =>
    intro u b hb
    cases hb
  | append_singleton calls c ih =>
    intro u b hb
    rw [run_snoc, localLimiter_step] at hb
    by_cases hu : u = c.tenant_id
    · subst hu
      simp only [Function.update_self, Option.some.injEq] at hb
      exact ⟨c, by simp, by rw [← hb]⟩
    · simp only [Function.update_of_ne hu] at hb
      obtain ⟨d, hd, hlast⟩ := ih u b hb
      exact ⟨d, List.mem_append_left _ hd, hlast⟩

/-! ## One window of time -/

/-- How many calls of a tenant were allowed from `s` to `e`. -/
def grantedIn (tenant_id : Bytes) (s e : ℚ) (log : List Answer) : Nat :=
  granted tenant_id (log.filter (fun a => s ≤ a.now ∧ a.now ≤ e))

/-- The books of one tenant and one window of time. -/
structure Booked (cfg : Limits) (u : Bytes) (s e : ℚ) (lim : LocalLimiter) : Prop where
  bound : (grantedIn u s e lim.log : ℚ) ≤ cfg.burst + cfg.rate_rps * (e - s)
  unknown : lim.buckets u = none → grantedIn u s e lim.log = 0
  nonneg : ∀ b, lim.buckets u = some b → 0 ≤ b.tokens
  before : ∀ b, lim.buckets u = some b → b.last_refill < s → grantedIn u s e lim.log = 0
  within : ∀ b, lim.buckets u = some b → s ≤ b.last_refill → b.last_refill ≤ e →
    b.tokens ≤ Window.room (cfg.burst : ℚ)
      ⟨cfg.rate_rps * (b.last_refill - s), grantedIn u s e lim.log⟩

theorem grantedIn_snoc (u : Bytes) (s e : ℚ) (log : List Answer) (a : Answer) :
    grantedIn u s e (log ++ [a]) = grantedIn u s e log +
      if s ≤ a.now ∧ a.now ≤ e ∧ a.tenant_id = u ∧ a.allowed = true then 1 else 0 := by
  unfold grantedIn
  rw [List.filter_append, granted_append]
  congr 1
  by_cases hin : s ≤ a.now ∧ a.now ≤ e
  · obtain ⟨h1, h2⟩ := hin
    simp [granted, List.countP_cons, h1, h2]
  · have hout : ¬ (s ≤ a.now ∧ a.now ≤ e ∧ a.tenant_id = u ∧ a.allowed = true) :=
      fun h => hin ⟨h.1, h.2.1⟩
    rw [if_neg hout, List.filter_cons_of_neg (by simpa using hin)]
    rfl

section booked

variable {cfg : Limits} {u : Bytes} {s e : ℚ} {lim : LocalLimiter}

/-- What a call in the window finds in its bucket fits the window. -/
theorem level_within (hrate : 0 ≤ cfg.rate_rps) (h : Booked cfg u s e lim) {t : ℚ} (hs : s ≤ t)
    (he : t ≤ e) (hlast : ∀ b, lim.buckets u = some b → b.last_refill ≤ t) :
    (cfg.bucketAt lim.buckets u t).tokens ≤
      Window.room (cfg.burst : ℚ) ⟨cfg.rate_rps * (t - s), grantedIn u s e lim.log⟩ := by
  have hcredit : 0 ≤ cfg.rate_rps * (t - s) := mul_nonneg hrate (by linarith)
  cases hb : lim.buckets u with
  | none =>
    rw [bucketAt_new cfg t hb, h.unknown hb]
    simp only [Window.room, Nat.cast_zero]
    linarith
  | some b =>
    rw [bucketAt_gain cfg t hb]
    by_cases hbs : s ≤ b.last_refill
    · have hle := within_gain (h.within b hb hbs (le_trans (hlast b hb) he))
        (cfg.rate_rps * (t - b.last_refill))
      have hearn : Window.earn ⟨cfg.rate_rps * (b.last_refill - s), grantedIn u s e lim.log⟩
          (cfg.rate_rps * (t - b.last_refill)) =
          ⟨cfg.rate_rps * (t - s), grantedIn u s e lim.log⟩ := by
        simp only [Window.earn, Window.mk.injEq, and_true]
        ring
      rwa [hearn] at hle
    · rw [h.before b hb (not_le.mp hbs)]
      apply le_trans (gain_le_cap _ _ _)
      simp only [Window.room, Nat.cast_zero]
      linarith

theorem level_nonneg (hrate : 0 ≤ cfg.rate_rps) (hburst : 0 ≤ cfg.burst)
    (hnonneg : ∀ b, lim.buckets u = some b → 0 ≤ b.tokens) {t : ℚ}
    (hlast : ∀ b, lim.buckets u = some b → b.last_refill ≤ t) :
    0 ≤ (cfg.bucketAt lim.buckets u t).tokens := by
  have hcap : (0 : ℚ) ≤ cfg.burst := by exact_mod_cast hburst
  cases hb : lim.buckets u with
  | none =>
    rw [bucketAt_new cfg t hb]
    exact hcap
  | some b =>
    rw [bucketAt_gain cfg t hb]
    have := hlast b hb
    exact gain_nonneg hcap (hnonneg b hb) (mul_nonneg hrate (by linarith))

/-- A call of the tenant keeps the books, wherever it falls. -/
theorem booked_call (hrate : 0 ≤ cfg.rate_rps) (hburst : 0 ≤ cfg.burst)
    (h : Booked cfg u s e lim) (c : LocalCall) (hc : c.tenant_id = u)
    (hlast : ∀ b, lim.buckets u = some b → b.last_refill ≤ c.now) :
    Booked cfg u s e ((localLimiter cfg).step lim c) := by
  subst hc
  have hlevel := level_nonneg hrate hburst h.nonneg hlast
  have hfits := fun hs he => level_within hrate h (t := c.now) hs he hlast
  rw [localLimiter_step]
  generalize (cfg.bucketAt lim.buckets c.tenant_id c.now).tokens = level at *
  have hsnoc := grantedIn_snoc c.tenant_id s e lim.log
    { toLocalCall := c, allowed := decide (1 ≤ level) }
  have hstored : ∀ b, Function.update lim.buckets c.tenant_id
      (some { tokens := rest level, last_refill := c.now }) c.tenant_id = some b →
      b = { tokens := rest level, last_refill := c.now } := by
    intro b hb
    rw [Function.update_self, Option.some.injEq] at hb
    exact hb.symm
  by_cases hin : s ≤ c.now ∧ c.now ≤ e
  · obtain ⟨hs, he⟩ := hin
    have hused : grantedIn c.tenant_id s e
        (lim.log ++ [{ toLocalCall := c, allowed := decide (1 ≤ level) }]) =
        grantedIn c.tenant_id s e lim.log + taken level := by
      rw [hsnoc, taken_eq]
      simp [hs, he]
    have hroom := within_rest (hfits hs he)
    simp only [Window.use, ← hused] at hroom
    have hbound := used_le hroom (rest_nonneg hlevel)
    have hgrow : cfg.rate_rps * (c.now - s) ≤ cfg.rate_rps * (e - s) :=
      mul_le_mul_of_nonneg_left (by linarith) hrate
    refine ⟨by linarith, ?_, ?_, ?_, ?_⟩
    · simp
    · intro b hb
      obtain rfl := hstored b hb
      exact rest_nonneg hlevel
    · intro b hb hlt
      obtain rfl := hstored b hb
      exact absurd hs (not_le.mpr hlt)
    · intro b hb _ _
      obtain rfl := hstored b hb
      exact hroom
  · have hsame : grantedIn c.tenant_id s e
        (lim.log ++ [{ toLocalCall := c, allowed := decide (1 ≤ level) }]) =
        grantedIn c.tenant_id s e lim.log := by
      rw [hsnoc, if_neg (fun hc => hin ⟨hc.1, hc.2.1⟩), Nat.add_zero]
    refine ⟨by simpa only [hsame] using h.bound, ?_, ?_, ?_, ?_⟩
    · simp
    · intro b hb
      obtain rfl := hstored b hb
      exact rest_nonneg hlevel
    · intro b hb hlt
      obtain rfl := hstored b hb
      simp only [hsame] at hlt ⊢
      cases hold : lim.buckets c.tenant_id with
      | none => exact h.unknown hold
      | some b => exact h.before b hold (lt_of_le_of_lt (hlast b hold) hlt)
    · intro b hb hs he
      obtain rfl := hstored b hb
      exact absurd ⟨hs, he⟩ hin

/-- A call of another tenant touches neither the bucket nor the count. -/
theorem booked_other (h : Booked cfg u s e lim) (c : LocalCall) (hc : c.tenant_id ≠ u) :
    Booked cfg u s e ((localLimiter cfg).step lim c) := by
  rw [localLimiter_step]
  generalize (cfg.bucketAt lim.buckets c.tenant_id c.now).tokens = level
  have hsame : grantedIn u s e
      (lim.log ++ [{ toLocalCall := c, allowed := decide (1 ≤ level) }]) =
      grantedIn u s e lim.log := by
    rw [grantedIn_snoc, if_neg (fun hin => hc hin.2.2.1), Nat.add_zero]
  have hbucket : Function.update lim.buckets c.tenant_id
      (some { tokens := rest level, last_refill := c.now }) u = lim.buckets u :=
    Function.update_of_ne (fun he => hc he.symm) _ _
  obtain ⟨g1, g2, g3, g4, g5⟩ := h
  rw [← hbucket, ← hsame] at g2
  exact ⟨hsame ▸ g1, g2, by simpa only [hbucket] using g3, by simpa only [hbucket, hsame] using g4,
    by simpa only [hbucket, hsame] using g5⟩

end booked

theorem booked_run {cfg : Limits} (hrate : 0 ≤ cfg.rate_rps) (hburst : 0 ≤ cfg.burst) (u : Bytes)
    {s e : ℚ} (hse : s ≤ e) (calls : List LocalCall)
    (hsorted : calls.Pairwise (fun a b => a.now ≤ b.now)) :
    Booked cfg u s e ((localLimiter cfg).run calls) := by
  induction calls using List.reverseRecOn with
  | nil =>
    refine ⟨?_, fun _ => rfl, ?_, ?_, ?_⟩
    · have hcap : (0 : ℚ) ≤ cfg.burst := by exact_mod_cast hburst
      have := mul_nonneg hrate (sub_nonneg.mpr hse)
      simp only [localLimiter, run_nil, grantedIn, granted, List.filter_nil, List.countP_nil,
        Nat.cast_zero]
      linarith
    all_goals
      intro b hb
      cases hb
  | append_singleton calls c ih =>
    rw [List.pairwise_append] at hsorted
    rw [run_snoc]
    have hbooked := ih hsorted.1
    by_cases hc : c.tenant_id = u
    · apply booked_call hrate hburst hbooked c hc
      intro b hb
      obtain ⟨d, hd, hlast⟩ := last_refill_run cfg calls u b hb
      rw [hlast]
      exact hsorted.2.2 d hd c (by simp)
    · exact booked_other hbooked c hc

/-! ## Other tenants -/

/-- A tenant sees the limiter that it would see alone. -/
theorem alone_run (cfg : Limits) (u : Bytes) (calls : List LocalCall) :
    let all := (localLimiter cfg).run calls
    let alone := (localLimiter cfg).run (calls.filter (fun c => c.tenant_id = u))
    all.buckets u = alone.buckets u ∧ all.log.filter (fun a => a.tenant_id = u) = alone.log := by
  induction calls using List.reverseRecOn with
  | nil => exact ⟨rfl, rfl⟩
  | append_singleton calls c ih =>
    obtain ⟨hbuckets, hlog⟩ := ih
    simp only [run_snoc, List.filter_append]
    by_cases hc : c.tenant_id = u
    · have hone : [c].filter (fun c => c.tenant_id = u) = [c] := by simp [hc]
      rw [hone, run_snoc]
      generalize (localLimiter cfg).run calls = all at *
      generalize (localLimiter cfg).run (calls.filter (fun c => c.tenant_id = u)) = alone at *
      have hlevel : cfg.bucketAt all.buckets c.tenant_id c.now =
          cfg.bucketAt alone.buckets c.tenant_id c.now := by
        unfold Limits.bucketAt
        rw [hc, hbuckets]
      rw [localLimiter_step, localLimiter_step, hlevel]
      refine ⟨by simp [hc], ?_⟩
      rw [List.filter_append, hlog]
      simp [hc]
    · have hnone : [c].filter (fun c => c.tenant_id = u) = [] := by simp [hc]
      rw [hnone, List.append_nil]
      rw [localLimiter_step]
      simp only [List.filter_append]
      rw [Function.update_of_ne (fun he => hc he.symm)]
      refine ⟨hbuckets, ?_⟩
      rw [hlog]
      simp [hc]

/-! ## The law of the windows -/

/-- A call is allowed if and only if, for each call of its tenant up to
itself, the calls allowed since then and one more fit the burst and the rate.
So no window of time admits more than the burst and its share of the rate,
and the calls of other tenants never matter. -/
theorem a_call_is_allowed_exactly_when_no_window_is_exceeded (cfg : Limits)
    (hrate : 0 ≤ cfg.rate_rps) (hburst : 0 ≤ cfg.burst) (calls : List LocalCall)
    (hsorted : calls.Pairwise (fun a b => a.now ≤ b.now)) :
    let log := ((localLimiter cfg).run calls).log
    log.map Answer.toLocalCall = calls ∧
    (∀ i a, log[i]? = some a → (a.allowed = true ↔
      ∀ j ≤ i, ∀ b, log[j]? = some b → b.tenant_id = a.tenant_id →
        (granted a.tenant_id ((log.take i).drop j) : ℚ) + 1 ≤
          cfg.burst + cfg.rate_rps * (a.now - b.now))) ∧
    (∀ u s e, s ≤ e → (grantedIn u s e log : ℚ) ≤ cfg.burst + cfg.rate_rps * (e - s)) ∧
    ∀ u, log.filter (fun a => a.tenant_id = u) =
      ((localLimiter cfg).run (calls.filter (fun c => c.tenant_id = u))).log := by
  intro log
  refine ⟨log_run cfg calls, ?_, ?_, fun u => (alone_run cfg u calls).2⟩
  · intro i a hget
    rw [judged_run cfg calls i a hget]
    constructor
    · intro hall j hj b hb hu
      rcases Nat.lt_or_eq_of_le hj with hlt | rfl
      · apply hall ⟨_, _⟩
        apply List.mem_append_left
        rw [mem_windows]
        refine ⟨j, b, ?_, hu, rfl⟩
        rw [List.getElem?_take_of_lt hlt]
        exact hb
      · rw [hget, Option.some.injEq] at hb
        subst hb
        have hfresh := hall Window.fresh (by simp)
        have hnone : (log.take j).drop j = [] := by simp
        rw [hnone]
        simpa [Window.fresh, granted] using hfresh
    · intro hall w hw
      rw [List.mem_append, List.mem_singleton, mem_windows] at hw
      rcases hw with ⟨j, b, hb, hu, rfl⟩ | rfl
      · have hlt : j < i := by
          by_contra hge
          rw [List.getElem?_take_eq_none (by omega)] at hb
          cases hb
        rw [List.getElem?_take_of_lt hlt] at hb
        exact hall j (Nat.le_of_lt hlt) b hb hu
      · have hself := hall i (Nat.le_refl i) a hget rfl
        have hnone : (log.take i).drop i = [] := by simp
        rw [hnone] at hself
        simpa [Window.fresh, granted] using hself
  · intro u s e hse
    exact (booked_run hrate hburst u hse calls hsorted).bound

/-- Three calls of one tenant and one of another, all in the same moment. -/
def twoTenants : List LocalCall :=
  [⟨bytes "a", 0⟩, ⟨bytes "a", 0⟩, ⟨bytes "a", 0⟩, ⟨bytes "b", 0⟩]

theorem a_call_is_allowed_exactly_when_no_window_is_exceeded_two_tenants :
    let log := ((localLimiter { rate_rps := 1000, burst := 2 }).run twoTenants).log
    log.map Answer.allowed = [true, true, false, true] ∧
    ∀ u s e, s ≤ e → (grantedIn u s e log : ℚ) ≤ (2 : Int) + 1000 * (e - s) :=
  ⟨by decide +kernel, (a_call_is_allowed_exactly_when_no_window_is_exceeded
    { rate_rps := 1000, burst := 2 } (by decide +kernel) (by decide) twoTenants
    (by decide +kernel)).2.2.1⟩

end inference_server
