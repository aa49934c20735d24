-- Time counted in calls of `llama_decode`. Each call moves every occupied slot
-- on by one token, so what a request costs is the number of its picks, and a
-- slot is free again that many calls later.
import InferenceServer.Admission
import InferenceServer.StandAlone

namespace inference_server

open machine generation

variable {n : Nat} {L : Llama} {cfg : EngineConfig}

/-! ## The calls so far -/

def Event.isCall : Event n → Bool
  | .submitted _ => true
  | _ => false

/-- How often `llama_decode` was called. -/
def Engine.calls (e : Engine n) : Nat := e.trace.countP Event.isCall

/-- How many of the calls have returned. -/
def Engine.returned (e : Engine n) : Nat :=
  match e.place with
  | .decode _ => e.calls - 1
  | _ => e.calls

/-- The batch of the iteration takes no request from the queue any more. -/
def Place.closed : Place n → Bool
  | .admission _ | .collect _ | .decode _ => true
  | _ => false

/-- How many calls return before the first one that a waiting request can be
part of. -/
def Engine.missed (e : Engine n) : Nat := if e.place.closed then e.returned + 1 else e.returned

theorem calls_log (e : Engine n) {ev : Event n} (h : ev.isCall = false) :
    (e.log ev).calls = e.calls := by
  simp [Engine.calls, Engine.log, List.countP_append, h]

@[simp] theorem calls_complete (e : Engine n) (req : Request) (exit : Exit) (result : Bytes) :
    (e.complete req exit result).calls = e.calls := by
  unfold Engine.complete
  split
  · exact calls_log e rfl
  · rfl

@[simp] theorem calls_release (e : Engine n) (sid : Fin n) : (e.release sid).calls = e.calls :=
  calls_log e rfl

theorem calls_answer (e : Engine n) (sid : Fin n) (exit : Exit) (result : Bytes) :
    (e.answer sid exit result).calls = e.calls :=
  (calls_log (e.complete (e.request sid) exit result) rfl).trans (calls_complete e _ _ _)

theorem calls_admitOne (L : Llama) (e : Engine n) (req : Request) :
    (e.admitOne L req).calls = e.calls := by
  rcases e.admitOne_cases L req with ⟨i, _, he⟩ | ⟨_, he⟩
  · have hseat : ((e.seat i req).log (.acquired i req)).calls = e.calls := calls_log _ rfl
    rw [he, ← hseat]
    unfold Engine.admitTo
    simp only
    split
    · rw [calls_release, calls_complete]
      rfl
    · rfl
  · rw [he]
    exact calls_log e rfl

theorem calls_retireExpiredTurn (now : Int) (e : Engine n) (sid : Fin n) :
    (e.retireExpiredTurn now sid).calls = e.calls := by
  rcases e.retireExpiredTurn_cases now sid with ⟨_, he⟩ | ⟨_, _, he⟩
  · rw [he]
  · rw [he, calls_answer]
    rfl

theorem calls_decodeFailedTurn (e : Engine n) (sid : Fin n) :
    (e.decodeFailedTurn sid).calls = e.calls := by
  rcases e.decodeFailedTurn_cases sid with ⟨_, he⟩ | ⟨_, he⟩
  · rw [he]
  · rw [he, calls_answer]
    rfl

theorem calls_took (L : Llama) (e : Engine n) (sid : Fin n) (tok : Token) :
    (e.took L sid tok).calls = e.calls := by
  have hlog : (e.log (.sampled sid tok)).calls = e.calls := calls_log e rfl
  unfold Engine.took
  split
  · exact hlog
  · exact hlog

theorem calls_sampleTurn (L : Llama) (cfg : EngineConfig) (cells : List (Cell n))
    (call : DecodeCall n) (e : Engine n) (sid : Fin n) :
    (e.sampleTurn L cfg cells call sid).calls = e.calls := by
  rcases e.sampleTurn_cases L cfg cells call sid with ⟨_, he⟩ | ⟨_, _, he⟩ | ⟨_, _, he⟩
  · rw [he]
  · rw [he, calls_answer]
    exact calls_took L e sid _
  · rw [he]
    exact calls_took L e sid _

theorem calls_decoded (L : Llama) (cfg : EngineConfig) (e : Engine n) (call : DecodeCall n)
    (o : DecodeOutcome) : (e.decoded L cfg call o).calls = e.calls := by
  apply Engine.decoded_keeps (P := fun e' => e'.calls = e.calls)
  · exact fun _ => rfl
  · exact fun cells e' sid he => (calls_sampleTurn L cfg cells call e' sid).trans he
  · exact fun e' sid he => (calls_decodeFailedTurn e' sid).trans he
  · exact fun _ _ _ he => he

theorem calls_calling (e : Engine n) : e.calling.calls = e.calls + 1 := by
  simp [Engine.calls, Engine.calling, List.countP_append, Event.isCall]

/-- While a call runs, it is one of those made. -/
def Called (e : Engine n) : Prop := ∀ call, e.place = .decode call → 0 < e.calls

theorem called_tick (L : Llama) (cfg : EngineConfig) (e : Engine n) (env : Engine.Env) :
    Called (e.tick L cfg env) := by
  rcases e.tick_cases L cfg env with ⟨_, p, hp, he⟩ | ⟨_, he⟩ | ⟨toAdmit, _, he⟩ | ⟨_, _, he⟩ |
    ⟨call, _, he⟩
  · rw [he]
    rcases hp with ⟨rfl, _⟩ | rfl | ⟨rfl, _⟩
    all_goals exact nofun
  · rw [he]
    exact nofun
  · rw [he]
    exact nofun
  · rw [he]
    rcases e.collect_cases with ⟨_, hc⟩ | ⟨_, _, hc⟩ | ⟨_, _, hc⟩
    · rw [hc]
      exact nofun
    · rw [hc]
      exact nofun
    · rw [hc]
      intro _ _
      rw [calls_calling]
      exact Nat.succ_pos _
  · rw [he]
    cases env.decode <;> exact nofun

theorem called_run (L : Llama) (cfg : EngineConfig) (as : List Engine.Action) :
    Called ((engine L cfg).run as) := by
  apply invariant (engine L cfg) Called
  · exact nofun
  · intro e a h
    cases a with
    | enqueue req => exact h
    | shutdown => exact h
    | tick env => exact called_tick L cfg e env

/-! ## What a request costs -/

/-- The calls of `llama_decode` that a request takes part in, one for each of
its picks. One that the tokenizer refuses takes part in none. -/
def decodesOf (L : Llama) (cfg : EngineConfig) (req : Request) : Nat :=
  if promptOf L req.payload = [] then 0
  else rounds L.pick L.llama_vocab_is_eog (cfg.tokens req) (promptOf L req.payload)

/-- The calls that the plan keeps a slot for a request. The slot that a refused
request leaves is not filled before the next drain, so one call may go by
without it. -/
def plannedOf (L : Llama) (cfg : EngineConfig) (req : Request) : Nat :=
  max 1 (decodesOf L cfg req)

/-- The calls that the sequence of a slot still takes. -/
def SlotView.decodesLeft (L : Llama) (cfg : EngineConfig) (v : SlotView) : Nat :=
  if v.slot.occupied then
    rounds L.pick L.llama_vocab_is_eog (cfg.tokens v.slot.request - v.sampled.length) v.seen
  else 0

/-- The number of calls after whose return the slot is free. -/
def Engine.freeAt (L : Llama) (cfg : EngineConfig) (e : Engine n) (sid : Fin n) : Nat :=
  e.returned + (e.view sid).decodesLeft L cfg

theorem tokens_positive (cfg : EngineConfig) (req : Request) : 0 < cfg.tokens req := by
  unfold EngineConfig.tokens
  omega

theorem plannedOf_pos (L : Llama) (cfg : EngineConfig) (req : Request) :
    0 < plannedOf L cfg req :=
  Nat.lt_of_lt_of_le Nat.one_pos (Nat.le_max_left 1 _)

/-- A request with a prompt is planned with the calls that it takes part in. -/
theorem plannedOf_of_prompt (req : Request) (h : promptOf L req.payload ≠ []) :
    plannedOf L cfg req =
      rounds L.pick L.llama_vocab_is_eog (cfg.tokens req) (promptOf L req.payload) := by
  have hpos : 0 < rounds L.pick L.llama_vocab_is_eog (cfg.tokens req) (promptOf L req.payload) :=
    rounds_pos (tokens_positive cfg req) _
  unfold plannedOf decodesOf
  rw [if_neg h]
  exact Nat.max_eq_right hpos

section slot

variable {v : SlotView}

theorem decodesLeft_free (h : v.slot.occupied = false) : v.decodesLeft L cfg = 0 := by
  simp [SlotView.decodesLeft, h]

theorem decodesLeft_pos (h : Running L cfg v) : 0 < v.decodesLeft L cfg := by
  have hlen := running_below h
  unfold SlotView.decodesLeft
  rw [if_pos h.occupied]
  exact rounds_pos (by omega) _

/-- A request that is seated has all its calls in front of it. -/
theorem decodesLeft_admitted (req : Request) (h : promptOf L req.payload ≠ []) :
    (admittedView L (seatedView v req)).decodesLeft L cfg = plannedOf L cfg req ∧
    (admittedView L (seatedView v req)).slot = .taken req := by
  have hsome := mt (promptOf_eq_nil L req.payload).mpr h
  have hview : admittedView L (seatedView v req) = { seatedView v req with
      prompt := promptOf L req.payload
      in_prefill := true
      result := []
      generated := 0
      sampler := some .greedy } := if_neg hsome
  rw [hview]
  refine ⟨?_, rfl⟩
  rw [plannedOf_of_prompt req h]
  simp [SlotView.decodesLeft, SlotView.seen, seatedView]

theorem decodesLeft_expired (now : Int) :
    (expiredView now v).decodesLeft L cfg ≤ v.decodesLeft L cfg := by
  unfold expiredView
  split
  · exact (decodesLeft_free rfl).trans_le (Nat.zero_le _)
  · exact Nat.le_refl _

/-- Each sample takes one call off. -/
theorem decodesLeft_sampled (h : Decoded L cfg v) :
    (sampleView L cfg (L.pick v.seen) v).decodesLeft L cfg + 1 = v.decodesLeft L cfg := by
  have hlen := running_below h.toRunning
  have hgen := h.generated
  obtain ⟨k, hk⟩ : ∃ k, cfg.tokens v.slot.request - v.sampled.length = k + 1 :=
    ⟨cfg.tokens v.slot.request - v.sampled.length - 1, by omega⟩
  have hretired : ∀ w : SlotView, w.retired.decodesLeft L cfg = 0 := fun _ => rfl
  have hold : v.decodesLeft L cfg = if L.llama_vocab_is_eog (L.pick v.seen) then 1
      else rounds L.pick L.llama_vocab_is_eog k (v.seen ++ [L.pick v.seen]) + 1 := by
    unfold SlotView.decodesLeft
    rw [if_pos h.occupied, hk]
    rfl
  rw [hold]
  unfold sampleView
  simp only [h.occupied, Bool.not_true, Bool.false_eq_true, if_false]
  by_cases heog : L.llama_vocab_is_eog (L.pick v.seen) = true
  · simp only [heog, true_or, if_true, hretired]
  · simp only [heog, Bool.false_eq_true, if_false, false_or]
    split
    · -- the limit is reached with this token
      rename_i hlimit
      have hk0 : k = 0 := by
        simp only [appendView] at hlimit
        unfold EngineConfig.tokens at hk hlen
        omega
      rw [hretired, hk0]
      rfl
    · have hocc := h.occupied
      have hk' : cfg.tokens v.slot.request - (v.sampled.length + 1) = k := by omega
      simp [SlotView.decodesLeft, appendView, SlotView.seen, hocc, hk']

end slot

end inference_server
