-- What each turn of a loop, and each tick of the engine thread, can do. Every
-- law about the engine starts from these cases. Three of the four exits end
-- alike: the callback of the request is called, and its slot is retired.
import InferenceServer.ContinuousBatchEngine

namespace inference_server

open machine

variable {n : Nat}

namespace Engine

/-! ## The turns of the loops -/

/-- The request in a slot is answered, and the slot is retired. -/
def answer (e : Engine n) (sid : Fin n) (exit : Exit) (result : Bytes) : Engine n :=
  (e.complete (e.request sid) exit result).retireSlot sid

/-- What a turn of `retire_expired` does: it leaves a free slot and a slot in
time as they are, and answers a late one. -/
theorem retireExpiredTurn_cases (now : Int) (e : Engine n) (sid : Fin n) :
    ((e.occupied sid = false ∨ now ≤ (e.request sid).dueTime) ∧ e.retireExpiredTurn now sid = e) ∨
    (e.occupied sid = true ∧ (e.request sid).dueTime < now ∧
      e.retireExpiredTurn now sid = (e.countExpired.countTotalFor sid).answer sid
        .deadline_exceeded (bytes "\x7b\"error\":\"deadline_exceeded\"\x7d")) := by
  unfold retireExpiredTurn
  rcases e.occupied sid with _ | _
  · exact Or.inl ⟨Or.inl rfl, rfl⟩
  · by_cases hlate : now > (e.request sid).dueTime
    · refine Or.inr ⟨rfl, hlate, ?_⟩
      simp only [Bool.not_true, Bool.false_eq_true, if_false, if_pos hlate]
      rw [answer, complete_eq, complete_eq]
      rfl
    · refine Or.inl ⟨Or.inr (not_lt.mp hlate), ?_⟩
      simp only [Bool.not_true, Bool.false_eq_true, if_false, if_neg hlate]

/-- What a turn of the loop after a failed decode does: it answers what it
finds in the slot. -/
theorem decodeFailedTurn_cases (e : Engine n) (sid : Fin n) :
    (e.occupied sid = false ∧ e.decodeFailedTurn sid = e) ∨
    (e.occupied sid = true ∧ e.decodeFailedTurn sid = (e.countTotalFor sid).answer sid
      .decode_failed (bytes "\x7b\"error\":\"decode_failed\"\x7d")) := by
  unfold decodeFailedTurn
  rcases e.occupied sid with _ | _
  · exact Or.inl ⟨rfl, rfl⟩
  · refine Or.inr ⟨rfl, ?_⟩
    simp only [Bool.not_true, Bool.false_eq_true, if_false]
    rw [answer, complete_eq, complete_eq]
    rfl

/-- A sampled token is recorded, and written unless it ends the generation. -/
def took (L : Llama) (e : Engine n) (sid : Fin n) (tok : Token) : Engine n :=
  if L.llama_vocab_is_eog tok then e.log (.sampled sid tok)
  else (e.log (.sampled sid tok)).append L sid tok

/-- What a turn of the sampling loop does: it takes the token, and answers
the request when the token ends it or its limit is reached. -/
theorem sampleTurn_cases (L : Llama) (cfg : EngineConfig) (cells : List (Cell n))
    (call : DecodeCall n) (e : Engine n) (sid : Fin n) :
    let tok := llamaSamplerSample L cells call.batch (call.logit_pos sid)
    let e' := e.took L sid tok
    let done := L.llama_vocab_is_eog tok = true ∨
      (e'.tokens_generated sid : Int) ≥ cfg.limit (e'.request sid)
    (e.occupied sid = false ∧ e.sampleTurn L cfg cells call sid = e) ∨
    (e.occupied sid = true ∧ done ∧
      e.sampleTurn L cfg cells call sid =
        (e'.countTotalFor sid).answer sid .generated (e'.results sid)) ∨
    (e.occupied sid = true ∧ ¬ done ∧ e.sampleTurn L cfg cells call sid = e') := by
  intro tok e' done
  unfold sampleTurn
  rcases e.occupied sid with _ | _
  · exact Or.inl ⟨rfl, rfl⟩
  · right
    have hdone : (L.llama_vocab_is_eog tok ||
        decide ((e'.tokens_generated sid : Int) ≥ cfg.limit (e'.request sid))) = true ↔ done := by
      simp [done]
    by_cases h : done
    · exact Or.inl ⟨rfl, h, if_pos (hdone.mpr h)⟩
    · exact Or.inr ⟨rfl, h, if_neg (fun hb => h (hdone.mp hb))⟩

/-- The engine with the request in the free slot `i`. -/
def seat (e : Engine n) (i : Fin n) (req : Request) : Engine n :=
  { e with slots := ⟨Function.update e.slots.slots i (.taken req), e.slots.free_count - 1⟩ }

/-- What a turn of the admit loop does: it seats the request in a free slot
and goes on there, or it finds all slots taken and drops the request. -/
theorem admitOne_cases (L : Llama) (e : Engine n) (req : Request) :
    (∃ i, e.occupied i = false ∧
      e.admitOne L req = admitTo L ((e.seat i req).log (.acquired i req)) i) ∨
    ((∀ i, e.occupied i = true) ∧ e.admitOne L req = e.log (.acquireFailed req)) := by
  unfold admitOne
  rcases e.slots.acquire_cases req with ⟨i, hfree, hacq⟩ | ⟨hfull, hacq⟩
  · rw [hacq]
    exact Or.inl ⟨i, hfree, rfl⟩
  · rw [hacq]
    exact Or.inr ⟨hfull, rfl⟩

/-! ## The ticks -/

/-- The engine at the call of `llama_decode`. -/
def calling (e : Engine n) : Engine n :=
  { e with
    slots := e.build.slots
    metrics := { e.metrics with
      kv_slot_utilization := (e.active.length : Rat) / n
      requests_inflight := e.metrics.requests_inflight + e.active.length }
    place := .decode ⟨e.active, e.build.batch, e.build.logit_pos⟩
    trace := e.trace ++ [.submitted e.build.batch] }

/-- What `collect` does: it goes back to the top with no active slot, or
with no token to decode, or it calls `llama_decode`. -/
theorem collect_cases (e : Engine n) :
    (e.active = [] ∧ e.collect = { e with place := .top }) ∨
    (e.active ≠ [] ∧ (e.active.map e.slotTokens).sum = 0 ∧
      e.collect = { e with
        metrics := { e.metrics with kv_slot_utilization := (e.active.length : Rat) / n }
        place := .top }) ∨
    (e.active ≠ [] ∧ (e.active.map e.slotTokens).sum ≠ 0 ∧ e.collect = e.calling) := by
  unfold collect
  simp only [List.isEmpty_iff]
  split
  · rename_i h
    exact Or.inl ⟨h, rfl⟩
  · rename_i h
    split
    · rename_i h0
      exact Or.inr (Or.inl ⟨h, h0, rfl⟩)
    · rename_i h0
      exact Or.inr (Or.inr ⟨h, h0, rfl⟩)

end Engine

/-- The drain takes the front of the queue, one request for each free slot. -/
theorem drainLoop_eq (canAdmit : Nat) (toAdmit pending : List Request) :
    drainLoop canAdmit toAdmit pending =
      (toAdmit ++ pending.take canAdmit, pending.drop canAdmit) := by
  induction canAdmit generalizing toAdmit pending with
  | zero => simp [drainLoop]
  | succ k ih =>
    cases pending with
    | nil => simp [drainLoop]
    | cons r rs => simp [drainLoop, ih]

/-- Between two iterations of the loop. -/
def Place.boundary : Place n → Bool
  | .top | .wait | .exited => true
  | _ => false

namespace Engine

/-- Where the thread may move to between two iterations: it waits only with
all slots free, and leaves the loop only after a shutdown. -/
def MovesTo (e : Engine n) (p : Place n) : Prop :=
  (p = .wait ∧ (e.place = .wait ∨ e.slots.free_count = n)) ∨ p = .drain ∨
    (p = .exited ∧ (e.place = .exited ∨ e.running = false))

section ticks

variable (L : Llama) (cfg : EngineConfig) {e : Engine n} (env : Env)

theorem tick_drain (hp : e.place = .drain) :
    e.tick L cfg env = { e with
      pending := e.pending.drop e.slots.free_count.toNat
      place := .admission (e.pending.take e.slots.free_count.toNat) } := by
  unfold tick
  rw [hp]
  simp only [drainLoop_eq, List.nil_append]

theorem tick_admission {toAdmit : List Request} (hp : e.place = .admission toAdmit) :
    e.tick L cfg env =
      { (toAdmit.foldl (admitOne L) e).retireExpired env.now with place := .collect env.now } := by
  unfold tick
  rw [hp]

theorem tick_collect {now : Int} (hp : e.place = .collect now) :
    e.tick L cfg env = e.collect := by
  unfold tick
  rw [hp]

theorem tick_decode {call : DecodeCall n} (hp : e.place = .decode call) :
    e.tick L cfg env = e.decoded L cfg call env.decode := by
  unfold tick
  rw [hp]

end ticks

/-- What a tick does: between two iterations the thread only moves, and at
any other place it does the work of the place. -/
theorem tick_cases (L : Llama) (cfg : EngineConfig) (e : Engine n) (env : Env) :
    (e.place.boundary = true ∧ ∃ p : Place n, e.MovesTo p ∧
      e.tick L cfg env = { e with place := p }) ∨
    (e.place = .drain ∧ e.tick L cfg env = { e with
      pending := e.pending.drop e.slots.free_count.toNat
      place := .admission (e.pending.take e.slots.free_count.toNat) }) ∨
    (∃ toAdmit, e.place = .admission toAdmit ∧ e.tick L cfg env =
      { (toAdmit.foldl (admitOne L) e).retireExpired env.now with place := .collect env.now }) ∨
    (∃ now, e.place = .collect now ∧ e.tick L cfg env = e.collect) ∨
    (∃ call, e.place = .decode call ∧ e.tick L cfg env = e.decoded L cfg call env.decode) := by
  have hstay : ∀ p, e.place = p → e = { e with place := p } := by
    rintro p rfl
    rfl
  cases hp : e.place with
  | top =>
    refine Or.inl ⟨rfl, ?_⟩
    unfold tick
    rw [hp]
    simp only
    split
    · rename_i hstop
      exact ⟨.exited, Or.inr (Or.inr ⟨rfl, Or.inr (by simpa using hstop)⟩), rfl⟩
    · split
      · rename_i hfree
        exact ⟨.wait, Or.inl ⟨rfl, Or.inr hfree⟩, rfl⟩
      · exact ⟨.drain, Or.inr (Or.inl rfl), rfl⟩
  | wait =>
    refine Or.inl ⟨rfl, ?_⟩
    unfold tick
    rw [hp]
    simp only
    split
    · split
      · rename_i hstop
        exact ⟨.exited, Or.inr (Or.inr ⟨rfl, Or.inr (by simpa using hstop)⟩), rfl⟩
      · exact ⟨.drain, Or.inr (Or.inl rfl), rfl⟩
    · exact ⟨.wait, Or.inl ⟨rfl, Or.inl hp⟩, hstay _ hp⟩
  | exited =>
    refine Or.inl ⟨rfl, .exited, Or.inr (Or.inr ⟨rfl, Or.inl hp⟩), ?_⟩
    unfold tick
    rw [hp]
    exact hstay _ hp
  | drain => exact Or.inr (Or.inl ⟨rfl, tick_drain L cfg env hp⟩)
  | admission toAdmit =>
    exact Or.inr (Or.inr (Or.inl ⟨toAdmit, rfl, tick_admission L cfg env hp⟩))
  | collect now =>
    exact Or.inr (Or.inr (Or.inr (Or.inl ⟨now, rfl, tick_collect L cfg env hp⟩)))
  | decode call =>
    exact Or.inr (Or.inr (Or.inr (Or.inr ⟨call, rfl, tick_decode L cfg env hp⟩)))

/-- What a decode keeps: it holds whatever the cells, it is kept by each turn
of the two loops, and it does not look at the place and at the gauges. -/
theorem decoded_keeps {P : Engine n → Prop} (L : Llama) (cfg : EngineConfig) {e : Engine n}
    (call : DecodeCall n) (o : DecodeOutcome) (hcells : ∀ cells, P { e with cells := cells })
    (hsample : ∀ cells e sid, P e → P (e.sampleTurn L cfg cells call sid))
    (hfailed : ∀ e sid, P e → P (e.decodeFailedTurn sid))
    (hgauges : ∀ (e : Engine n) inflight sizes, P e → P { e with
      metrics := { e.metrics with requests_inflight := inflight, batch_size := sizes }
      place := .top }) : P (e.decoded L cfg call o) := by
  cases o with
  | ok =>
    apply hgauges
    apply List.foldlRecOn
    · exact hcells _
    · exact fun e he sid _ => hsample _ e sid he
  | failed cached =>
    apply hgauges
    apply List.foldlRecOn
    · exact hcells _
    · exact fun e he sid _ => hfailed e sid he

end Engine

end inference_server
