-- What a shutdown leaves behind. The loop leaves at the next test of
-- `running_`, and after that nobody calls the callbacks of the requests that
-- still wait or decode.
import InferenceServer.Conservation

namespace inference_server

open machine

variable {n : Nat}

/-- `on_complete` of each request that was ever enqueued has been called. -/
def Engine.AllAnswered (e : Engine n) : Prop := ∀ t < e.enqueued.length, 0 < e.answered t

/-- All are answered exactly when nothing waits, nothing is drained and
nothing decodes. -/
theorem allAnswered_iff {e : Engine n} {l : List Request} (h : Accounts e l) :
    e.AllAnswered ↔ e.pending ++ l = [] ∧ ∀ sid, e.occupied sid = false := by
  constructor
  · intro hall
    refine ⟨?_, ?_⟩
    · rw [List.eq_nil_iff_forall_not_mem]
      intro r hr
      obtain ⟨t, ht, hq⟩ := h.known r hr
      have hlt := known_lt hq
      have hold_books := h.ledger t
      have hpos := inQueue_pos_iff.mpr ⟨r, hr, ht⟩
      have hans := hall t hlt
      rw [if_pos hlt] at hold_books
      rw [inQueue_append] at hpos
      omega
    · intro sid
      by_contra hocc
      rw [Bool.not_eq_false] at hocc
      obtain ⟨t, ht, hq⟩ := h.known_slots sid hocc
      have hlt := known_lt hq
      have hold_books := h.ledger t
      have hpos := inSlots_pos_iff.mpr ⟨sid, hocc, ht⟩
      have hans := hall t hlt
      rw [if_pos hlt] at hold_books
      omega
  · rintro ⟨hp, hs⟩ t ht
    have hold_books := h.ledger t
    have hslots : e.slots.inSlots t = 0 := by
      unfold KVSlotManager.inSlots
      apply Finset.sum_eq_zero
      intro i _
      exact holds_of_free (hs i) t
    rw [if_pos ht, ← inQueue_append, hp, hslots] at hold_books
    simp only [inQueue_nil] at hold_books
    omega

/-! ## After the loop -/

/-- The engine thread left the loop: what the others do then only makes the
queue longer. -/
theorem after_exit (L : Llama) (cfg : EngineConfig) (after : List Engine.Action) (e : Engine n)
    (h : e.place = .exited) :
    let e' := after.foldl (Engine.step L cfg) e
    e'.place = .exited ∧ e'.slots = e.slots ∧
      ∃ late, e'.pending = e.pending ++ late ∧
        (late = [] ↔ ∀ req, Engine.Action.enqueue req ∉ after) := by
  induction after generalizing e with
  | nil => exact ⟨h, rfl, [], by simp, by simp⟩
  | cons a after ih =>
    rw [List.foldl_cons]
    cases a with
    | enqueue req =>
      obtain ⟨h1, h2, late, h3, _⟩ := ih (Engine.step L cfg e (.enqueue req)) h
      refine ⟨h1, h2, { req with on_complete := some e.enqueued.length } :: late, ?_, ?_⟩
      · rw [h3]
        simp [Engine.step]
      · constructor
        · intro hc
          cases hc
        · intro hc
          exact absurd (List.mem_cons_self) (hc req)
    | shutdown =>
      obtain ⟨h1, h2, late, h3, h4⟩ := ih (Engine.step L cfg e .shutdown) h
      exact ⟨h1, h2, late, h3, by simpa using h4⟩
    | tick env =>
      have hstay : Engine.step L cfg e (.tick env) = e := by
        simp [Engine.step, Engine.tick, h]
      rw [hstay]
      obtain ⟨h1, h2, late, h3, h4⟩ := ih e h
      exact ⟨h1, h2, late, h3, by simpa using h4⟩

/-- The tick that leaves the loop changes only where the thread stands. -/
theorem exit_tick (L : Llama) (cfg : EngineConfig) (e : Engine n) (env : Engine.Env)
    (hexit : (e.tick L cfg env).place = .exited) :
    e.tick L cfg env = { e with place := .exited } := by
  rcases e.tick_cases L cfg env with ⟨_, p, _, he⟩ | ⟨_, he⟩ | ⟨_, _, he⟩ | ⟨_, _, he⟩ |
    ⟨call, _, he⟩
  · rw [he] at hexit ⊢
    have hpe : p = .exited := hexit
    rw [hpe]
  · rw [he] at hexit
    cases hexit
  · rw [he] at hexit
    cases hexit
  · rw [he] at hexit
    rcases e.collect_cases with ⟨_, hc⟩ | ⟨_, _, hc⟩ | ⟨_, _, hc⟩
    all_goals
      rw [hc] at hexit
      cases hexit
  · rw [he] at hexit
    cases hd : env.decode <;> rw [hd] at hexit <;> cases hexit

/-! ## The law of shutdown -/

/-- A run in which the engine thread has left the loop with the tick after
`before`. In the end every request was answered if and only if the thread
left with an empty queue and no occupied slot, and nobody enqueued after it. -/
theorem shutdown_answers_all_only_when_idle (L : Llama) (cfg : EngineConfig)
    (before after : List Engine.Action) (env : Engine.Env)
    (hexit : ((engine L cfg).run (before ++ [.tick env])).place = .exited) :
    ((engine L cfg).run (before ++ .tick env :: after)).AllAnswered ↔
      ((engine L cfg).run before).pending = [] ∧
      (∀ sid, ((engine L cfg).run before).occupied sid = false) ∧
      ∀ req, .enqueue req ∉ after := by
  have hsplit : before ++ .tick env :: after = (before ++ [.tick env]) ++ after := by simp
  have hbal := (balanced_run L cfg (before ++ .tick env :: after)).accounts
  rw [hsplit, run_append, run_snoc] at *
  generalize (engine L cfg).run before = e at *
  have hstep : (engine L cfg).step e (.tick env) = { e with place := .exited } :=
    exit_tick L cfg e env hexit
  rw [hstep] at hbal ⊢
  obtain ⟨h1, h2, late, h3, h4⟩ := after_exit L cfg after { e with place := .exited } rfl
  have hstep' : (engine L cfg).step = Engine.step L cfg := rfl
  rw [hstep'] at hbal ⊢
  have hnone : (Place.exited : Place cfg.max_slots).drained = [] := rfl
  rw [h1] at hbal
  rw [allAnswered_iff hbal, hnone, List.append_nil, h3, List.append_eq_nil_iff, h4]
  unfold Engine.occupied
  rw [h2]
  tauto

/-- A shutdown while one request waits in the queue of an idle engine. -/
def abandoned : List Engine.Action := [.enqueue helloRequest, .shutdown]

/-- The request that waited is never answered: the loop has left, and its
callback was not called. -/
theorem shutdown_abandons_a_waiting_request :
    ((engine (byteLlama fun _ => 0) {}).run (abandoned ++ [.tick ⟨0, .ok⟩])).place = .exited ∧
    ¬ ((engine (byteLlama fun _ => 0) {}).run (abandoned ++ [.tick ⟨0, .ok⟩])).AllAnswered := by
  refine ⟨rfl, fun h => ?_⟩
  have := h 0 (by decide)
  revert this
  decide

theorem shutdown_answers_all_only_when_idle_abandoned :
    ((engine (byteLlama fun _ => 0) {}).run (abandoned ++ [.tick ⟨0, .ok⟩])).AllAnswered ↔
      ((engine (byteLlama fun _ => 0) {}).run abandoned).pending = [] ∧
      (∀ sid, ((engine (byteLlama fun _ => 0) {}).run abandoned).occupied sid = false) ∧
      ∀ req, Engine.Action.enqueue req ∉ [] :=
  shutdown_answers_all_only_when_idle (byteLlama fun _ => 0) {} abandoned [] ⟨0, .ok⟩
    rfl

end inference_server
