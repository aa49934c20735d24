-- What the shared quota makes of the clocks of many nodes. The script stores
-- the time of each call as it comes, so a time that goes back and forth earns
-- the same interval again.
import InferenceServer.ScriptBucket

namespace inference_server

open machine token_bucket

/-! ## The time that the script sees -/

/-- How far the times go forward, all steps together. -/
def forward : List Int → Int
  | a :: b :: times => max 0 (b - a) + forward (b :: times)
  | _ => 0

/-- The latest time less the earliest. -/
def spread : List Int → Int
  | [] => 0
  | a :: times => times.foldr max a - times.foldr min a

/-- No key goes between one call and the next. -/
def KeyLives (calls : List ScriptCall) : Prop :=
  calls.IsChain (fun a b => b.redis_ms < a.redis_ms + 86400 * 1000)

theorem forward_nonneg (times : List Int) : 0 ≤ forward times := by
  induction times with
  | nil => exact Int.le_refl 0
  | cons a times ih =>
    cases times with
    | nil => exact Int.le_refl 0
    | cons b times =>
      simp only [forward]
      omega

theorem le_foldr_max (a : Int) (times : List Int) : a ≤ times.foldr max a := by
  induction times with
  | nil => exact Int.le_refl a
  | cons b times ih => exact le_max_of_le_right ih

theorem foldr_min_le (a : Int) (times : List Int) : times.foldr min a ≤ a := by
  induction times with
  | nil => exact Int.le_refl a
  | cons b times ih => exact min_le_of_right_le ih

theorem spread_nonneg (times : List Int) : 0 ≤ spread times := by
  cases times with
  | nil => exact Int.le_refl 0
  | cons a times =>
    have hmax := le_foldr_max a times
    have hmin := foldr_min_le a times
    simp only [spread]
    omega

/-- The calls that the script allowed. -/
def ScriptServer.allowed (s : ScriptServer) : Nat := s.replies.count 1

/-! ## One call after another on one key -/

/-- The key holds these tokens since the call `last`. -/
def Holds (s : ScriptServer) (key : Bytes) (last : ScriptCall) (tokens : ℚ) : Prop :=
  s.db key = some { hash := { tokens := tokens, last_ms := last.now_ms }
                    expire_at := last.redis_ms + 86400 * 1000 }

/-- The credit, in tokens, from one call to the next. -/
def creditOf (rate : ℚ) (last c : ScriptCall) : ℚ :=
  rate * (max 0 (c.now_ms - last.now_ms) : Int) / 1000

theorem creditOf_nonneg {rate : ℚ} (hrate : 0 ≤ rate) (last c : ScriptCall) :
    0 ≤ creditOf rate last c := by
  have hstep : (0 : ℚ) ≤ (max 0 (c.now_ms - last.now_ms) : Int) := by
    exact_mod_cast le_max_left 0 (c.now_ms - last.now_ms)
  exact div_nonneg (mul_nonneg hrate hstep) (by norm_num)

/-- The credit of a whole list of calls, the first one apart. -/
def creditOver (rate : ℚ) (calls : List ScriptCall) : ℚ :=
  rate * forward (calls.map ScriptCall.now_ms) / 1000

theorem creditOver_cons (rate : ℚ) (last c : ScriptCall) (calls : List ScriptCall) :
    creditOver rate (last :: c :: calls) =
      creditOf rate last c + creditOver rate (c :: calls) := by
  simp only [creditOver, creditOf, List.map_cons, forward, Int.cast_add]
  ring

theorem creditOver_one (rate : ℚ) (last : ScriptCall) : creditOver rate [last] = 0 := by
  simp [creditOver, forward]

theorem creditOver_nonneg {rate : ℚ} (hrate : 0 ≤ rate) (calls : List ScriptCall) :
    0 ≤ creditOver rate calls := by
  have hforward : (0 : ℚ) ≤ forward (calls.map ScriptCall.now_ms) := by
    exact_mod_cast forward_nonneg _
  exact div_nonneg (mul_nonneg hrate hforward) (by norm_num)

section step

variable {rate burst : ℚ} {s : ScriptServer} {key : Bytes} {c last : ScriptCall} {tokens : ℚ}

theorem allowed_step (rate burst : ℚ) (start : Db) (s : ScriptServer)
    (hc : redisKey c.tenant_id = key) :
    let level := scriptTokens rate burst c.now_ms (hmget s.db key c.redis_ms)
    ((scriptServer rate burst start).step s c).allowed = s.allowed + taken level ∧
      Holds ((scriptServer rate burst start).step s c) key c (rest level) := by
  subst hc
  rw [scriptServer_step]
  refine ⟨?_, hmset_self _ _ _ _⟩
  unfold ScriptServer.allowed
  rw [List.count_append]
  congr 1
  unfold taken
  split <;> simp

/-- The level of a call that follows another one on the same key. -/
theorem level_after (h : Holds s key last tokens)
    (hlive : c.redis_ms < last.redis_ms + 86400 * 1000) :
    scriptTokens rate burst c.now_ms (hmget s.db key c.redis_ms) =
      gain burst tokens (creditOf rate last c) := by
  have hget : hmget s.db key c.redis_ms = some { tokens := tokens, last_ms := last.now_ms } := by
    unfold hmget
    rw [h]
    exact if_pos hlive
  rw [hget, scriptTokens_some]
  congr 1
  have hmax : max (0 : ℚ) (((c.now_ms - last.now_ms : Int) : ℚ) / 1000) =
      ((max 0 (c.now_ms - last.now_ms) : Int) : ℚ) / 1000 := by
    push_cast
    rcases le_total ((c.now_ms : ℚ) - last.now_ms) 0 with hneg | hpos
    · rw [max_eq_left hneg, max_eq_left]
      · simp
      · exact div_nonpos_of_nonpos_of_nonneg hneg (by norm_num)
    · rw [max_eq_right hpos, max_eq_right]
      exact div_nonneg hpos (by norm_num)
  rw [hmax, creditOf]
  ring

end step

section quota

variable {rate burst : ℚ} {key : Bytes}

/-- Whatever the times do, the calls after `last` fit the window that `last`
is in, with the credit of all forward steps. -/
theorem allowed_le_credit (start : Db) (hrate : 0 ≤ rate) (hburst : 0 ≤ burst)
    (calls : List ScriptCall) (hkey : ∀ c ∈ calls, redisKey c.tenant_id = key) (s : ScriptServer)
    (last : ScriptCall) (tokens : ℚ) (w : Window ℚ) (hholds : Holds s key last tokens)
    (hroom : tokens ≤ w.room burst)
    (hused : w.used = s.allowed) (hcredit : 0 ≤ w.credit) (hdebt : w.used = 0 ∨ 0 ≤ tokens)
    (hlives : KeyLives (last :: calls)) :
    ((calls.foldl (scriptServer rate burst start).step s).allowed : ℚ) ≤
      burst + w.credit + creditOver rate (last :: calls) := by
  induction calls generalizing s last tokens w with
  | nil =>
    rw [creditOver_one, add_zero, List.foldl_nil, ← hused]
    rcases hdebt with h0 | hnonneg
    · rw [h0, Nat.cast_zero]
      linarith
    · exact used_le hroom hnonneg
  | cons c calls ih =>
    obtain ⟨hlive, hrest⟩ := List.isChain_cons_cons.mp hlives
    obtain ⟨hallowed, hholds'⟩ := allowed_step rate burst start s (hkey c (by simp))
    rw [level_after hholds hlive] at hallowed hholds'
    have hearn := creditOf_nonneg hrate last c
    have hroom' := within_rest (within_gain hroom (creditOf rate last c))
    have hnext := ih (fun d hd => hkey d (by simp [hd])) _ c _ _ hholds' hroom'
      (by rw [hallowed, ← hused]; rfl) (add_nonneg hcredit hearn) ?_ hrest
    · rw [List.foldl_cons, creditOver_cons]
      simp only [Window.use, Window.earn] at hnext
      linarith
    · -- a grant leaves no debt, and with no grant so far nothing changes
      by_cases htaken : taken (gain burst tokens (creditOf rate last c)) = 0
      · rcases hdebt with h0 | hnonneg
        · left
          simp only [Window.use, Window.earn, h0, htaken]
        · exact Or.inr (rest_nonneg (gain_nonneg hburst hnonneg hearn))
      · exact Or.inr (rest_nonneg_of_taken htaken)

/-- Over a period in which the key lives, the script allows at most one burst
and the rate of all forward steps. -/
theorem allowed_le (start : Db) (hrate : 0 ≤ rate) (hburst : 0 ≤ burst) (calls : List ScriptCall)
    (hkey : ∀ c ∈ calls, redisKey c.tenant_id = key) (hlives : KeyLives calls) :
    (((scriptServer rate burst start).run calls).allowed : ℚ) ≤
      burst + creditOver rate calls := by
  cases calls with
  | nil =>
    simp only [run_nil, scriptServer, ScriptServer.allowed, List.count_nil, Nat.cast_zero]
    exact add_nonneg hburst (creditOver_nonneg hrate [])
  | cons c calls =>
    obtain ⟨hallowed, hholds⟩ := allowed_step rate burst start
      (scriptServer rate burst start).init (hkey c (by simp))
    have hcap := scriptTokens_le rate burst c.now_ms
      (hmget (scriptServer rate burst start).init.db key c.redis_ms)
    generalize scriptTokens rate burst c.now_ms
      (hmget (scriptServer rate burst start).init.db key c.redis_ms) = level at *
    have hroom : level ≤ Window.fresh.room burst := by rwa [Window.room_fresh]
    have hnext := allowed_le_credit start hrate hburst calls
      (fun d hd => hkey d (by simp [hd])) _ c _ (Window.fresh.use (taken level)) hholds
      (within_rest hroom) (by rw [hallowed]; rfl) (le_refl _) ?_ hlives
    · have hrun : (scriptServer rate burst start).run (c :: calls) =
          calls.foldl (scriptServer rate burst start).step
            ((scriptServer rate burst start).step (scriptServer rate burst start).init c) := rfl
      rw [hrun]
      simpa [Window.use, Window.fresh] using hnext
    · by_cases htaken : taken level = 0
      · exact Or.inl (by simp [Window.use, Window.fresh, htaken])
      · exact Or.inr (rest_nonneg_of_taken htaken)

/-- With tokens for all calls but the last, and credit for one more on the
way, every call is allowed. -/
theorem all_allowed (burst : ℚ) (key : Bytes) (start : Db) (hrate : 0 ≤ rate)
    (calls : List ScriptCall) (hkey : ∀ c ∈ calls, redisKey c.tenant_id = key) (s : ScriptServer)
    (last : ScriptCall) (tokens : ℚ) (hholds : Holds s key last tokens)
    (hcap : tokens + creditOver rate (last :: calls) ≤ burst)
    (hmost : (calls.length : ℚ) ≤ tokens + 1)
    (hall : (calls.length : ℚ) ≤ tokens + creditOver rate (last :: calls))
    (hlives : KeyLives (last :: calls)) :
    (calls.foldl (scriptServer rate burst start).step s).allowed = s.allowed + calls.length := by
  induction calls generalizing s last tokens with
  | nil => rfl
  | cons c calls ih =>
    obtain ⟨hlive, hrest⟩ := List.isChain_cons_cons.mp hlives
    obtain ⟨hallowed, hholds'⟩ := allowed_step rate burst start s (hkey c (by simp))
    rw [level_after hholds hlive] at hallowed hholds'
    rw [creditOver_cons] at hcap hall
    rw [List.length_cons, Nat.cast_add, Nat.cast_one] at hmost hall
    have hearn := creditOf_nonneg hrate last c
    have hlater := creditOver_nonneg hrate (c :: calls)
    have hlevel : gain burst tokens (creditOf rate last c) = tokens + creditOf rate last c :=
      min_eq_right (by linarith)
    have hone : 1 ≤ tokens + creditOf rate last c := by
      cases calls with
      | nil =>
        rw [creditOver_one] at hall
        simp only [List.length_nil, Nat.cast_zero] at hall
        linarith
      | cons d calls =>
        simp only [List.length_cons, Nat.cast_add, Nat.cast_one] at hmost
        have hlen : (0 : ℚ) ≤ calls.length := Nat.cast_nonneg _
        linarith
    have htaken : taken (tokens + creditOf rate last c) = 1 := if_neg (not_lt.mpr hone)
    have hleft : rest (tokens + creditOf rate last c) = tokens + creditOf rate last c - 1 :=
      if_neg (not_lt.mpr hone)
    rw [hlevel, hleft] at hholds'
    rw [hlevel, htaken] at hallowed
    have hnext := ih (fun d hd => hkey d (by simp [hd])) _ c _ hholds' (by linarith) (by linarith)
      (by linarith) hrest
    rw [List.foldl_cons, hnext, hallowed, List.length_cons]
    omega

/-- On a new key, with a burst of one less than the calls and a credit of one
on the way, every call is allowed. -/
theorem all_allowed_new (hrate : 0 ≤ rate) (c : ScriptCall) (calls : List ScriptCall)
    (hsome : 1 ≤ calls.length) (hkey : ∀ d ∈ c :: calls, redisKey d.tenant_id = key)
    (hcredit : creditOver rate (c :: calls) = 1) (hlives : KeyLives (c :: calls)) :
    ((scriptServer rate (calls.length : ℚ) (fun _ => none)).run (c :: calls)).allowed =
      calls.length + 1 := by
  obtain ⟨hallowed, hholds⟩ := allowed_step rate (calls.length : ℚ) (fun _ => none)
    (scriptServer rate (calls.length : ℚ) (fun _ => none)).init (hkey c (by simp))
  have hget : hmget (scriptServer rate (calls.length : ℚ) (fun _ => none)).init.db key
      c.redis_ms = none := rfl
  rw [hget, scriptTokens_none] at hallowed hholds
  have hone : ¬ (calls.length : ℚ) < 1 := by exact_mod_cast not_lt.mpr hsome
  have htaken : taken (calls.length : ℚ) = 1 := if_neg hone
  have hleft : rest (calls.length : ℚ) = calls.length - 1 := if_neg hone
  rw [htaken] at hallowed
  rw [hleft] at hholds
  have hnext := all_allowed (calls.length : ℚ) key (fun _ => none) hrate calls
    (fun d hd => hkey d (by simp [hd])) _ c _ hholds (by linarith) (by linarith) (by linarith)
    hlives
  have hrun : (scriptServer rate (calls.length : ℚ) (fun _ => none)).run (c :: calls) =
      calls.foldl (scriptServer rate (calls.length : ℚ) (fun _ => none)).step
        ((scriptServer rate (calls.length : ℚ) (fun _ => none)).step
          (scriptServer rate (calls.length : ℚ) (fun _ => none)).init c) := rfl
  have hinit : (scriptServer rate (calls.length : ℚ) (fun _ => none)).init.allowed = 0 := rfl
  rw [hrun, hnext, hallowed, hinit]
  omega

end quota

/-! ## The law of the shared quota -/

/-- Over these times, as Redis gets them for one key that lives on, no rate
and no burst is exceeded. -/
def QuotaHolds (times : List Int) : Prop :=
  ∀ (rate : ℚ) (burst : Int) (start : Db) (key : Bytes) (calls : List ScriptCall),
    0 ≤ rate → 0 ≤ burst → calls.map ScriptCall.now_ms = times →
    (∀ c ∈ calls, redisKey c.tenant_id = key) → KeyLives calls →
    (((scriptServer rate burst start).run calls).allowed : ℚ) ≤
      burst + rate * spread times / 1000

/-- A call of one tenant at a time of its node, all in one moment of the server. -/
def callAt (now_ms : Int) : ScriptCall := ⟨[], now_ms, 0⟩

theorem map_callAt (times : List Int) :
    (times.map callAt).map ScriptCall.now_ms = times := by
  rw [List.map_map]
  exact List.map_id times

theorem keyLives_callAt (times : List Int) : KeyLives (times.map callAt) := by
  induction times with
  | nil => exact .nil
  | cons a times ih =>
    cases times with
    | nil => exact .singleton _
    | cons b times =>
      have hday : (0 : Int) < 0 + 86400 * 1000 := by decide
      exact List.isChain_cons_cons.mpr ⟨hday, ih⟩

theorem key_callAt (times : List Int) :
    ∀ c ∈ times.map callAt, redisKey c.tenant_id = redisKey [] := by
  intro c hc
  obtain ⟨t, _, rfl⟩ := List.mem_map.mp hc
  rfl

/-- With one token less than there are calls, and a rate that earns one token
over all forward steps, every call is allowed. -/
theorem all_calls_allowed (a b : Int) (times : List Int) (hup : 0 < forward (a :: b :: times)) :
    ((scriptServer (1000 / forward (a :: b :: times)) ((times.length + 1 : Nat) : ℚ)
      (fun _ => none)).run ((a :: b :: times).map callAt)).allowed = times.length + 2 := by
  have hup' : (0 : ℚ) < forward (a :: b :: times) := by exact_mod_cast hup
  have hrate : (0 : ℚ) ≤ 1000 / forward (a :: b :: times) :=
    div_nonneg (by norm_num) (le_of_lt hup')
  have hcredit : creditOver (1000 / forward (a :: b :: times))
      ((a :: b :: times).map callAt) = 1 := by
    rw [creditOver, map_callAt]
    field_simp
  have hlen : ((b :: times).map callAt).length = times.length + 1 := by simp
  have hall := all_allowed_new hrate (callAt a) ((b :: times).map callAt) (by omega)
    (key_callAt (a :: b :: times)) hcredit (keyLives_callAt (a :: b :: times))
  rw [hlen] at hall
  exact hall

/-- The quota holds, for every rate and burst, exactly when the forward steps
of the times together are no longer than the whole span of the times. -/
theorem the_shared_quota_holds_exactly_when_no_interval_is_earned_twice (times : List Int) :
    QuotaHolds times ↔ forward times ≤ spread times := by
  constructor
  · intro hquota
    cases times with
    | nil => exact Int.le_refl 0
    | cons a times =>
      cases times with
      | nil => simp [forward, spread]
      | cons b times =>
        by_contra hlt
        have hspread := spread_nonneg (a :: b :: times)
        have hup : 0 < forward (a :: b :: times) := by omega
        have hall := all_calls_allowed a b times hup
        have hup' : (0 : ℚ) < forward (a :: b :: times) := by exact_mod_cast hup
        have hbound := hquota (1000 / forward (a :: b :: times)) (times.length + 1 : Nat)
          (fun _ => none) (redisKey []) ((a :: b :: times).map callAt)
          (div_nonneg (by norm_num) (le_of_lt hup')) (by omega) (map_callAt _) ?_
          (keyLives_callAt _)
        · rw [Int.cast_natCast, hall] at hbound
          have hshare : (1000 : ℚ) / forward (a :: b :: times) * spread (a :: b :: times) / 1000 =
              spread (a :: b :: times) / forward (a :: b :: times) := by
            field_simp
          rw [hshare] at hbound
          push_cast at hbound
          have hone : (1 : ℚ) ≤ spread (a :: b :: times) / forward (a :: b :: times) := by linarith
          rw [le_div_iff₀ hup', one_mul] at hone
          exact hlt (by exact_mod_cast hone)
        · exact key_callAt _
  · intro hle rate burst start key calls hrate hburst htimes hkey hlives
    have hcap : (0 : ℚ) ≤ burst := by exact_mod_cast hburst
    apply le_trans (allowed_le start hrate hcap calls hkey hlives)
    rw [creditOver, htimes]
    have hle' : (forward times : ℚ) ≤ spread times := by exact_mod_cast hle
    have hgrow : rate * forward times ≤ rate * spread times := mul_le_mul_of_nonneg_left hle' hrate
    linarith

/-- Two nodes, one of them a second behind. -/
def backAndForth : List ScriptCall := [0, 1000, 0, 1000].map callAt

/-- With a burst of one and one token a second, three calls are allowed
within one second. -/
theorem back_and_forth_exceeds_the_shared_quota :
    ((scriptServer 1 (1 : Int) (fun _ => none)).run backAndForth).replies = [1, 1, 0, 1] ∧
    ¬ QuotaHolds [0, 1000, 0, 1000] := by
  have hreplies : ((scriptServer 1 (1 : Int) (fun _ => none)).run backAndForth).replies =
      [1, 1, 0, 1] := by decide +kernel
  refine ⟨hreplies, ?_⟩
  intro hquota
  have hbound := hquota 1 1 (fun _ => none) (redisKey []) backAndForth (by decide) (by decide)
    (map_callAt _) ?_ (keyLives_callAt _)
  · have hthree : ((scriptServer 1 (1 : Int) (fun _ => none)).run backAndForth).allowed = 3 := by
      unfold ScriptServer.allowed
      rw [hreplies]
      rfl
    have hspread : spread [0, 1000, 0, 1000] = 1000 := by decide
    rw [hthree, hspread] at hbound
    norm_num at hbound
  · exact key_callAt _

end inference_server
