-- The numbers that bound a request, from its JSON body to the checks of the
-- engine. A field is read as an `int`, so a number of more than 32 bits is cut,
-- and what the engine compares is another number.
import InferenceServer.Backlog
import InferenceServer.Failures

namespace inference_server

open machine

/-! ## From the body to the request -/

/-- The body gives the deadline in milliseconds and the token limit, under the
names of its endpoint. -/
def ClientRequest.Numbers (d N : Int) : ClientRequest → Prop
  | .infer _ (some body) => body.field? "deadline_ms" = some (.integer d) ∧
      body.field? "max_new_tokens" = some (.integer N)
  | .chat _ (some body) => body.field? "timeout_ms" = some (.integer d) ∧
      body.field? "max_tokens" = some (.integer N)
  | _ => False

theorem bind_ok {ε α β : Type} {x : Except ε α} {f : α → Except ε β} {b : β}
    (h : x >>= f = .ok b) : ∃ a, x = .ok a ∧ f a = .ok b := by
  cases x with
  | error err => cases h
  | ok a => exact ⟨a, rfl, h⟩

/-- An integer in a field is cut to 32 bits. -/
theorem value_integer {j : Json} {key : String} {i : Int} (h : j.field? key = some (.integer i))
    (default : Int32) : j.value Json.getInt key default = .ok (Int32.ofInt i) := by
  cases j with
  | object fields =>
    simp only [Json.field?] at h
    simp only [Json.value, h]
    rfl
  | _ => cases h

theorem inferRequest_numbers {env : Surroundings} {tenant_id : Bytes} {body : Json} {r : Request}
    (h : inferRequest env tenant_id body = .ok r) {d N : Int}
    (hd : body.field? "deadline_ms" = some (.integer d))
    (hN : body.field? "max_new_tokens" = some (.integer N)) :
    r.deadline = (Int32.ofInt d).toInt ∧ r.max_new_tokens = (Int32.ofInt N).toInt := by
  unfold inferRequest at h
  obtain ⟨_, _, h⟩ := bind_ok h
  obtain ⟨_, _, h⟩ := bind_ok h
  rw [value_integer hd, value_integer hN] at h
  cases h
  exact ⟨rfl, rfl⟩

theorem chatRequest_numbers {env : Surroundings} {tenant_id : Bytes} {body : Json}
    {messages : List Json} {r : Request} (h : chatRequest env tenant_id body messages = .ok r)
    {d N : Int} (hd : body.field? "timeout_ms" = some (.integer d))
    (hN : body.field? "max_tokens" = some (.integer N)) :
    r.deadline = (Int32.ofInt d).toInt ∧ r.max_new_tokens = (Int32.ofInt N).toInt := by
  unfold chatRequest at h
  obtain ⟨_, _, h⟩ := bind_ok h
  rw [value_integer hd, value_integer hN] at h
  cases h
  exact ⟨rfl, rfl⟩

theorem dispatched_numbers {cfg : ServerConfig} {env : Surroundings} {req : ClientRequest}
    {r : Request} {respond : Bytes → ClientResponse}
    (h : req.handle cfg env = .dispatched r respond) {d N : Int} (hnum : req.Numbers d N) :
    r.deadline = (Int32.ofInt d).toInt ∧ r.max_new_tokens = (Int32.ofInt N).toInt := by
  cases req with
  | infer headers parsed =>
    obtain ⟨_, hg, _⟩ := map_dispatched h
    obtain ⟨_, _, rfl, hread, _⟩ := postInfer_dispatched hg
    exact inferRequest_numbers hread hnum.1 hnum.2
  | chat headers parsed =>
    obtain ⟨_, hg, _⟩ := map_dispatched h
    obtain ⟨_, _, _, rfl, hread, _⟩ := postChat_dispatched hg
    exact chatRequest_numbers hread hnum.1 hnum.2
  | grpcInfer req => exact hnum.elim
  | grpcChat req => exact hnum.elim

/-! ## Numbers of 32 bits -/

theorem wrap_bounds (i : Int) :
    -2 ^ 31 ≤ (Int32.ofInt i).toInt ∧ (Int32.ofInt i).toInt < 2 ^ 31 :=
  ⟨Int32.le_toInt _, Int32.toInt_lt _⟩

theorem wrap_eq_iff (i : Int) : (Int32.ofInt i).toInt = i ↔ -2 ^ 31 ≤ i ∧ i < 2 ^ 31 := by
  constructor
  · intro h
    rw [← h]
    exact wrap_bounds i
  · rintro ⟨hlow, hhigh⟩
    exact Int32.toInt_ofInt_of_le hlow hhigh

/-- A moment is past a deadline of `k` exactly when it is past one of `d`, for
each moment, only for one and the same deadline. -/
theorem same_deadline_iff (t k d : Int) :
    (∀ now, now > t + k * 1000000 ↔ now > t + d * 1000000) ↔ k = d := by
  constructor
  · intro h
    have hk := h (t + k * 1000000 + 1)
    have hd := h (t + d * 1000000 + 1)
    omega
  · rintro rfl now
    exact Iff.rfl

/-- The limit that a cut number gives, against the limit that was asked for. -/
theorem same_limit_iff {default : Int} (hdefault : default < 2 ^ 31) (N : Int) :
    (if (Int32.ofInt N).toInt > 0 then (Int32.ofInt N).toInt else default) =
        (if N > 0 then N else default) ↔
      N < 2 ^ 31 ∧ (-2 ^ 31 ≤ N ∨ (Int32.ofInt N).toInt ≤ 0 ∨
        (Int32.ofInt N).toInt = default) := by
  obtain ⟨hlow, hhigh⟩ := wrap_bounds N
  by_cases hfits : -2 ^ 31 ≤ N ∧ N < 2 ^ 31
  · rw [(wrap_eq_iff N).mpr hfits]
    exact iff_of_true rfl ⟨hfits.2, Or.inl hfits.1⟩
  · generalize (Int32.ofInt N).toInt = k at *
    by_cases hbig : 2 ^ 31 ≤ N
    · -- no `int` is as large as the number that was asked for
      rw [if_pos (show N > 0 by omega)]
      apply iff_of_false
      · split <;> omega
      · intro h
        omega
    · rw [if_neg (show ¬ N > 0 by omega)]
      constructor
      · intro h
        split at h <;> omega
      · rintro ⟨_, hk⟩
        split <;> omega

/-- `enqueue_time + deadline` as the source computes it, in nanoseconds of 64
bits. -/
def Request.dueTime64 (r : Request) : Int64 :=
  Int64.ofInt r.enqueue_time + Int64.ofInt r.deadline * 1000000

/-- A deadline of 32 bits never overflows the clock. -/
theorem dueTime64_eq {r : Request} (htime : -2 ^ 62 ≤ r.enqueue_time ∧ r.enqueue_time < 2 ^ 62)
    (hdeadline : -2 ^ 31 ≤ r.deadline ∧ r.deadline < 2 ^ 31) : r.dueTime64.toInt = r.dueTime := by
  have hsum : r.dueTime64 = Int64.ofInt r.dueTime := by
    rw [Request.dueTime64, Request.dueTime, Int64.ofInt_add, Int64.ofInt_mul]
    rfl
  rw [hsum, Request.dueTime]
  apply Int64.toInt_ofInt_of_le <;> omega

/-! ## The law of numeric limits -/

/-- The deadline and the token limit of a body survive up to the checks of the
engine if and only if 32 bits hold the deadline, and hold the limit or cut it
to one that stands for the same tokens. The sum of the clock and the deadline
is exact in 64 bits. -/
theorem numbers_survive_iff (cfg : ServerConfig) (env : Surroundings) (req : ClientRequest)
    (r : Request) (respond : Bytes → ClientResponse)
    (hreq : req.handle cfg env = .dispatched r respond) (d N : Int) (hnum : req.Numbers d N)
    (h0 : 0 ≤ d) (ecfg : EngineConfig) (hmax : ecfg.max_tokens < 2 ^ 31) {n : Nat} (e : Engine n)
    (sid : Fin n) (hocc : e.occupied sid = true) (promise : Nat)
    (hheld : e.request sid = { r with on_complete := some promise }) :
    (((∀ now, (e.retireExpired now).occupied sid = false ↔
          now > r.enqueue_time + d * 1000000) ∧
        ecfg.limit (e.request sid) = if N > 0 then N else ecfg.max_tokens) ↔
      d < 2 ^ 31 ∧ N < 2 ^ 31 ∧
        (-2 ^ 31 ≤ N ∨ (Int32.ofInt N).toInt ≤ 0 ∨ (Int32.ofInt N).toInt = ecfg.max_tokens)) ∧
    (-2 ^ 62 ≤ r.enqueue_time ∧ r.enqueue_time < 2 ^ 62 →
      (e.request sid).dueTime64.toInt = (e.request sid).dueTime) := by
  obtain ⟨hdeadline, htokens⟩ := dispatched_numbers hreq hnum
  have hretired : ∀ now, (e.retireExpired now).occupied sid = false ↔
      now > r.enqueue_time + (Int32.ofInt d).toInt * 1000000 := by
    intro now
    have hkept := (retireExpired_holders now e sid).1
    have hdue : (e.request sid).dueTime = r.enqueue_time + (Int32.ofInt d).toInt * 1000000 := by
      rw [hheld, ← hdeadline]
      rfl
    rw [hdue] at hkept
    rw [← Bool.not_eq_true, hkept, not_and]
    exact ⟨fun h => not_le.mp (h hocc), fun h _ => not_le.mpr h⟩
  have hlimit : ecfg.limit (e.request sid) =
      if (Int32.ofInt N).toInt > 0 then (Int32.ofInt N).toInt else ecfg.max_tokens := by
    rw [hheld, ← htokens]
    rfl
  refine ⟨?_, ?_⟩
  · simp only [hretired]
    rw [hlimit, same_deadline_iff, wrap_eq_iff, same_limit_iff hmax]
    apply and_congr_left
    intro _
    omega
  · intro htime
    rw [hheld]
    apply dueTime64_eq htime
    rw [hdeadline]
    exact wrap_bounds d

/-! One request to `/infer` in the only slot of an engine. -/

def inferNumbers (d N : Int) : ClientRequest :=
  .infer [] (some (.object [
    (bytes "payload", .string (bytes "hello")),
    (bytes "deadline_ms", .integer d),
    (bytes "max_new_tokens", .integer N)]))

/-- The request that the handler enqueues for such a body. -/
def workOf (d N : Int) : Request where
  id := 1
  tenant_id := bytes "default"
  payload := bytes "hello"
  priority := .Normal
  enqueue_time := 0
  deadline := (Int32.ofInt d).toInt
  max_new_tokens := (Int32.ofInt N).toInt
  on_complete := some 0

theorem numbers_survive_iff_a_minute :
    ∃ r respond, (inferNumbers 60000 16).handle {} letThrough = .dispatched r respond ∧
      let e := (Engine.new 1).seat 0 (workOf 60000 16)
      (∀ now, (e.retireExpired now).occupied 0 = false ↔ now > 0 + 60000 * 1000000) ∧
        EngineConfig.limit {} (e.request 0) = 16 := by
  refine ⟨{ workOf 60000 16 with on_complete := none }, _, rfl, ?_⟩
  exact (numbers_survive_iff {} letThrough (inferNumbers 60000 16)
    { workOf 60000 16 with on_complete := none } _ rfl 60000 16 ⟨rfl, rfl⟩ (by decide) {}
    (by decide) ((Engine.new 1).seat 0 (workOf 60000 16)) 0 (by decide) 0 rfl).1.mpr (by decide)

/-- A deadline of 2147483648 milliseconds, a bit less than 25 days, is over one
nanosecond after the request came in. -/
theorem a_long_deadline_is_over_at_once :
    ∃ r respond, (inferNumbers 2147483648 0).handle {} letThrough = .dispatched r respond ∧
      let e := (Engine.new 1).seat 0 { r with on_complete := some 0 }
      e.occupied 0 = true ∧ (e.retireExpired (r.enqueue_time + 1)).occupied 0 = false ∧
        ¬ r.enqueue_time + 1 > r.enqueue_time + 2147483648 * 1000000 := by
  refine ⟨{ workOf 2147483648 0 with on_complete := none }, _, rfl, ?_⟩
  decide +kernel

end inference_server
