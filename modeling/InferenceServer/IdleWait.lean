-- The idle wait of the engine thread, one lock, one test and one notify at a
-- time. `enqueue` pushes under `pending_mutex_` before it notifies.
-- `shutdown` clears `running_` and notifies without the mutex, so its
-- notify can fall between the engine's test and its sleep.
import InferenceServer.Conservation

namespace inference_server

open machine

/-- The predicate of the wait. -/
def Engine.mayGo {n : Nat} (e : Engine n) : Bool := !e.pending.isEmpty || !e.running

/-! ## The threads -/

/-- Where the engine thread stands with `pending_mutex_` and
`pending_cv_.wait`. It holds the mutex when it tests the predicate, when the
predicate failed and it is about to sleep, when the predicate held, and in
the drain. -/
inductive WaitStage where
  | outside
  | testing
  | tested
  | asleep
  | woken
  | passed
  | draining
  deriving DecidableEq, Repr

/-- The next instruction of one call of `enqueue` or `shutdown`. -/
inductive CallStage where
  | idle
  | enqueue_lock (req : Request)
  | enqueue_push (req : Request)
  | enqueue_unlock
  | enqueue_notify
  | shutdown_store
  | shutdown_notify
  | shutdown_join
  deriving DecidableEq, Repr

/-- Who holds `pending_mutex_`. -/
inductive Holder (ι : Type*) where
  | engine
  | caller (i : ι)
  deriving DecidableEq, Repr

/-- The stages in which the engine thread holds the mutex. -/
def WaitStage.holds : WaitStage → Bool
  | .testing | .tested | .passed | .draining => true
  | _ => false

/-- The stages inside `pending_cv_.wait`, or right behind it. -/
def WaitStage.waits : WaitStage → Bool
  | .outside | .draining => false
  | _ => true

def CallStage.holds : CallStage → Bool
  | .enqueue_push _ | .enqueue_unlock => true
  | _ => false

/-- The call has not started, or it is past its notify. -/
def CallStage.settled : CallStage → Bool
  | .idle | .shutdown_join => true
  | _ => false

/-- The engine, the mutex, the engine thread and the callers. Each caller may
make any number of calls, one after the other. -/
structure Threads (n : Nat) (ι : Type*) where
  engine : Engine n
  holder : Option (Holder ι)
  stage : WaitStage
  calls : ι → CallStage

namespace Threads

variable {n : Nat} {ι : Type*} [DecidableEq ι]

def new (n : Nat) (ι : Type*) : Threads n ι where
  engine := .new n
  holder := none
  stage := .outside
  calls := fun _ => .idle

def setCall (s : Threads n ι) (i : ι) (c : CallStage) : Threads n ι :=
  { s with calls := Function.update s.calls i c }

/-- A notify on `pending_cv_`. Only the engine thread ever waits on it, so
`notify_one` and `notify_all` do the same: they wake it if it sleeps. -/
def notify (s : Threads n ι) : Threads n ι :=
  { s with stage := if s.stage = .asleep then .woken else s.stage }

/-- The next instruction of the engine thread. At a lock that another thread
holds, and asleep, it stays where it is. -/
def engineStep (L : Llama) (cfg : EngineConfig) (s : Threads n ι) (env : Engine.Env) :
    Threads n ι :=
  match s.stage with
  | .outside =>
    match s.engine.place with
    | .wait => if s.holder = none then { s with holder := some .engine, stage := .testing } else s
    | .drain => if s.holder = none then { s with holder := some .engine, stage := .draining } else s
    | _ => { s with engine := s.engine.tick L cfg env }
  | .testing => { s with stage := if s.engine.mayGo then .passed else .tested }
  | .tested => { s with holder := none, stage := .asleep }
  | .asleep => s
  | .woken => if s.holder = none then { s with holder := some .engine, stage := .testing } else s
  | .passed =>
    -- `if (!running_) break;`, and the lock goes out of scope
    { s with
      engine := { s.engine with place := if s.engine.running then .drain else .exited }
      holder := none
      stage := .outside }
  | .draining => { s with engine := s.engine.tick L cfg env, holder := none, stage := .outside }

/-- The next instruction of caller `i`. -/
def callStep (L : Llama) (cfg : EngineConfig) (s : Threads n ι) (i : ι) : Threads n ι :=
  match s.calls i with
  | .idle => s
  | .enqueue_lock req =>
    if s.holder = none then { s.setCall i (.enqueue_push req) with holder := some (.caller i) }
    else s
  | .enqueue_push req =>
    { s.setCall i .enqueue_unlock with engine := s.engine.step L cfg (.enqueue req) }
  | .enqueue_unlock => { s.setCall i .enqueue_notify with holder := none }
  | .enqueue_notify => (s.setCall i .idle).notify
  | .shutdown_store =>
    { s.setCall i .shutdown_notify with engine := s.engine.step L cfg .shutdown }
  | .shutdown_notify => (s.setCall i .shutdown_join).notify
  | .shutdown_join => match s.engine.place with
    | .exited => s.setCall i .idle
    | _ => s

/-- `wake` is a wake-up that nobody asked for, which the standard allows. -/
inductive Action (ι : Type*) where
  | startEnqueue (i : ι) (req : Request)
  | startShutdown (i : ι)
  | call (i : ι)
  | engine (env : Engine.Env)
  | wake

def step (L : Llama) (cfg : EngineConfig) (s : Threads n ι) : Action ι → Threads n ι
  | .startEnqueue i req => if s.calls i = .idle then s.setCall i (.enqueue_lock req) else s
  | .startShutdown i => if s.calls i = .idle then s.setCall i .shutdown_store else s
  | .call i => s.callStep L cfg i
  | .engine env => s.engineStep L cfg env
  | .wake => s.notify

end Threads

/-- The threads of a configuration, as a machine. -/
def threads (L : Llama) (cfg : EngineConfig) (ι : Type*) [DecidableEq ι] :
    Machine (Threads cfg.max_slots ι) (Threads.Action ι) :=
  { init := .new cfg.max_slots ι, step := Threads.step L cfg }

namespace Threads

variable {n : Nat} {ι : Type*}

/-! ## What the mutex keeps -/

/-- The mutex has the holder that the stages say, the engine thread waits
only at its wait, and `running_` is cleared before the notify of a
shutdown. -/
structure Guarded (s : Threads n ι) : Prop where
  engine_holds : s.holder = some .engine ↔ s.stage.holds = true
  caller_holds : ∀ i, s.holder = some (.caller i) ↔ (s.calls i).holds = true
  at_wait : s.stage.waits = true → s.engine.place = .wait
  at_drain : s.stage = .draining → s.engine.place = .drain
  passed : s.stage = .passed → s.engine.mayGo = true
  stored : ∀ i, s.calls i = .shutdown_notify → s.engine.running = false

theorem guarded_new : Guarded (Threads.new n ι) := by
  refine ⟨?_, ?_, ?_, ?_, ?_, ?_⟩ <;>
    simp [Threads.new, WaitStage.holds, WaitStage.waits, CallStage.holds]

section guarded

variable {s : Threads n ι} (h : Guarded s)

include h

/-- Nobody is inside a section that the free mutex guards. -/
theorem Guarded.nobody (hfree : s.holder = none) :
    s.stage.holds = false ∧ ∀ i, (s.calls i).holds = false := by
  refine ⟨?_, fun i => ?_⟩
  · rw [← Bool.not_eq_true, ← h.engine_holds, hfree]
    exact Option.some_ne_none _ ∘ Eq.symm
  · rw [← Bool.not_eq_true, ← h.caller_holds i, hfree]
    exact Option.some_ne_none _ ∘ Eq.symm

/-- The stages of the others, while the engine thread holds the mutex. -/
theorem Guarded.alone (hholds : s.stage.holds = true) (i : ι) : (s.calls i).holds = false := by
  rw [← Bool.not_eq_true, ← h.caller_holds i, h.engine_holds.mpr hholds]
  simp

/-- The stages of the others, while a caller holds the mutex. -/
theorem Guarded.caller_alone {i : ι} (hholds : (s.calls i).holds = true) :
    s.stage.holds = false ∧ ∀ j ≠ i, (s.calls j).holds = false := by
  have hmine : s.holder = some (.caller i) := (h.caller_holds i).mpr hholds
  refine ⟨?_, fun j hj => ?_⟩
  · rw [← Bool.not_eq_true, ← h.engine_holds, hmine]
    simp
  · rw [← Bool.not_eq_true, ← h.caller_holds j, hmine]
    simpa using Ne.symm hj

theorem Guarded.notify : Guarded s.notify := by
  unfold Threads.notify
  by_cases hs : s.stage = .asleep
  · have hholds := h.engine_holds
    have hwait := h.at_wait
    rw [hs] at hholds hwait
    exact ⟨by simpa [hs, WaitStage.holds] using hholds, h.caller_holds, fun _ => hwait rfl,
      by simp [hs], by simp [hs], h.stored⟩
  · simpa only [hs, if_false] using h

theorem Guarded.enqueue (L : Llama) (cfg : EngineConfig) (req : Request) :
    Guarded { s with engine := s.engine.step L cfg (.enqueue req) } :=
  ⟨h.engine_holds, h.caller_holds, h.at_wait, h.at_drain,
    fun _ => by simp [Engine.mayGo, Engine.step], h.stored⟩

theorem Guarded.shutdown (L : Llama) (cfg : EngineConfig) :
    Guarded { s with engine := s.engine.step L cfg .shutdown } :=
  ⟨h.engine_holds, h.caller_holds, h.at_wait, h.at_drain,
    fun _ => by simp [Engine.mayGo, Engine.step], fun _ _ => rfl⟩

/-- The engine thread takes the free mutex. -/
theorem Guarded.take (hfree : s.holder = none) (stage : WaitStage)
    (hholds : stage.holds = true) (hwait : stage.waits = true → s.engine.place = .wait)
    (hdrain : stage = .draining → s.engine.place = .drain) (hpassed : stage ≠ .passed) :
    Guarded { s with holder := some .engine, stage := stage } := by
  obtain ⟨_, hcalls⟩ := h.nobody hfree
  exact ⟨by simp [hholds], fun i => by simp [hcalls i], hwait, hdrain,
    fun hp => absurd hp hpassed, h.stored⟩

/-- The engine thread gives the mutex back, after what it did to the
engine. -/
theorem Guarded.give (hholds : s.stage.holds = true) (e : Engine n)
    (hrunning : e.running = s.engine.running) (stage : WaitStage)
    (hstage : stage.holds = false) (hwait : stage.waits = true → e.place = .wait) :
    Guarded { s with engine := e, holder := none, stage := stage } := by
  refine ⟨by simp [hstage], fun i => by simp [h.alone hholds i], hwait, ?_, ?_, ?_⟩
  · rintro rfl
    cases hstage
  · rintro rfl
    cases hstage
  · intro i hi
    rw [hrunning]
    exact h.stored i hi

end guarded

theorem guarded_engineStep (L : Llama) (cfg : EngineConfig) {s : Threads n ι} (h : Guarded s)
    (env : Engine.Env) : Guarded (s.engineStep L cfg env) := by
  unfold engineStep
  cases hs : s.stage with
  | outside =>
    simp only
    split
    · rename_i hp
      split
      · rename_i hfree
        exact h.take hfree .testing rfl (fun _ => hp) (by simp) (by simp)
      · exact h
    · rename_i hp
      split
      · rename_i hfree
        exact h.take hfree .draining rfl (by simp [WaitStage.waits]) (fun _ => hp) (by simp)
      · exact h
    · have hholder := h.engine_holds
      rw [hs] at hholder
      refine ⟨hholder, h.caller_holds, by simp [WaitStage.waits], by simp, by simp, ?_⟩
      intro i hi
      exact (tick_running L cfg s.engine env).trans (h.stored i hi)
  | testing =>
    have hwait : s.engine.place = .wait := h.at_wait (by simp [hs, WaitStage.waits])
    have hholder := h.engine_holds
    rw [hs] at hholder
    simp only
    split
    · rename_i hgo
      exact ⟨hholder, h.caller_holds, fun _ => hwait, by simp, fun _ => hgo, h.stored⟩
    · exact ⟨hholder, h.caller_holds, fun _ => hwait, by simp, by simp, h.stored⟩
  | tested =>
    have hwait : s.engine.place = .wait := h.at_wait (by simp [hs, WaitStage.waits])
    exact h.give (by simp [hs, WaitStage.holds]) s.engine rfl .asleep rfl (fun _ => hwait)
  | asleep => exact h
  | woken =>
    simp only
    split
    · rename_i hfree
      have hwait : s.engine.place = .wait := h.at_wait (by simp [hs, WaitStage.waits])
      exact h.take hfree .testing rfl (fun _ => hwait) (by simp) (by simp)
    · exact h
  | passed =>
    exact h.give (by simp [hs, WaitStage.holds])
      { s.engine with place := if s.engine.running then .drain else .exited } rfl .outside rfl
      (by simp [WaitStage.waits])
  | draining =>
    exact h.give (by simp [hs, WaitStage.holds]) _ (tick_running L cfg s.engine env) .outside rfl
      (by simp [WaitStage.waits])

variable [DecidableEq ι]

theorem setCall_calls (s : Threads n ι) (i j : ι) (c : CallStage) :
    (s.setCall i c).calls j = if j = i then c else s.calls j := by
  simp only [setCall, Function.update_apply]

/-- A call that moves on without a change to the mutex. -/
theorem Guarded.setCall {s : Threads n ι} (h : Guarded s) {i : ι} {c : CallStage}
    (hc : c.holds = (s.calls i).holds) (hs : c = .shutdown_notify → s.engine.running = false) :
    Guarded (s.setCall i c) := by
  refine ⟨h.engine_holds, fun j => ?_, h.at_wait, h.at_drain, h.passed, fun j => ?_⟩
  · rw [setCall_calls]
    split
    · rename_i hj
      rw [hc, ← hj]
      exact h.caller_holds j
    · exact h.caller_holds j
  · rw [setCall_calls]
    split
    · exact hs
    · exact h.stored j

/-- A call that takes the free mutex, or gives it back. -/
theorem Guarded.setHolder {s : Threads n ι} (h : Guarded s) {i : ι} {c : CallStage}
    (hstage : s.stage.holds = false) (hothers : ∀ j ≠ i, (s.calls j).holds = false)
    (hs : c ≠ .shutdown_notify) :
    Guarded { s.setCall i c with holder := if c.holds then some (.caller i) else none } := by
  refine ⟨?_, fun j => ?_, h.at_wait, h.at_drain, h.passed, fun j hj => ?_⟩
  · show _ ↔ s.stage.holds = true
    rw [hstage]
    split <;> simp
  · show _ ↔ ((s.setCall i c).calls j).holds = true
    rw [setCall_calls]
    by_cases hj : j = i
    · subst hj
      cases hc : c.holds <;> simp [hc]
    · simp only [hj, if_false, hothers j hj]
      cases c.holds <;> simp [Ne.symm hj]
  · have hj : (s.setCall i c).calls j = .shutdown_notify := hj
    rw [setCall_calls] at hj
    split at hj
    · exact absurd hj hs
    · exact h.stored j hj

theorem guarded_callStep (L : Llama) (cfg : EngineConfig) {s : Threads n ι} (h : Guarded s)
    (i : ι) : Guarded (s.callStep L cfg i) := by
  unfold callStep
  cases hc : s.calls i with
  | idle => exact h
  | enqueue_lock req =>
    simp only
    split
    · rename_i hfree
      obtain ⟨hstage, hcalls⟩ := h.nobody hfree
      exact h.setHolder hstage (fun j _ => hcalls j) (c := .enqueue_push req) (by simp)
    · exact h
  | enqueue_push req =>
    exact (h.enqueue L cfg req).setCall (by simp [hc, CallStage.holds]) (by simp)
  | enqueue_unlock =>
    obtain ⟨hstage, hothers⟩ := h.caller_alone (i := i) (by simp [hc, CallStage.holds])
    exact h.setHolder hstage hothers (c := .enqueue_notify) (by simp)
  | enqueue_notify => exact (h.setCall (by simp [hc, CallStage.holds]) (by simp)).notify
  | shutdown_store =>
    exact (h.shutdown L cfg).setCall (by simp [hc, CallStage.holds]) (fun _ => rfl)
  | shutdown_notify => exact (h.setCall (by simp [hc, CallStage.holds]) (by simp)).notify
  | shutdown_join =>
    simp only
    split
    · exact h.setCall (by simp [hc, CallStage.holds]) (by simp)
    · exact h

theorem guarded_step (L : Llama) (cfg : EngineConfig) {s : Threads n ι} (h : Guarded s)
    (a : Action ι) : Guarded (s.step L cfg a) := by
  cases a with
  | startEnqueue i req =>
    simp only [step]
    split
    · rename_i hc
      exact h.setCall (by simp [hc, CallStage.holds]) (by simp)
    · exact h
  | startShutdown i =>
    simp only [step]
    split
    · rename_i hc
      exact h.setCall (by simp [hc, CallStage.holds]) (by simp)
    · exact h
  | call i => exact guarded_callStep L cfg h i
  | engine env => exact guarded_engineStep L cfg h env
  | wake => exact h.notify

end Threads

/-- No run breaks the mutex. -/
theorem threads_guarded (L : Llama) (cfg : EngineConfig) {ι : Type*} [DecidableEq ι]
    (as : List (Threads.Action ι)) : ((threads L cfg ι).run as).Guarded :=
  invariant (threads L cfg ι) Threads.Guarded Threads.guarded_new
    (fun _ a h => Threads.guarded_step L cfg h a) as

/-! ## One instruction at a time is enough -/

namespace Threads

variable {n : Nat} {ι : Type*} [DecidableEq ι]

/-- One instruction of a thread does nothing to the engine, or one action of
the machine in which whole calls and whole ticks take turns. -/
theorem step_refines (L : Llama) (cfg : EngineConfig) {s : Threads n ι} (h : Guarded s)
    (a : Action ι) : (s.step L cfg a).engine = s.engine ∨
      ∃ b, (s.step L cfg a).engine = s.engine.step L cfg b := by
  cases a with
  | startEnqueue i req =>
    simp only [step]
    split <;> exact Or.inl rfl
  | startShutdown i =>
    simp only [step]
    split <;> exact Or.inl rfl
  | call i =>
    simp only [step, callStep]
    cases s.calls i with
    | enqueue_push req => exact Or.inr ⟨.enqueue req, rfl⟩
    | shutdown_store => exact Or.inr ⟨.shutdown, rfl⟩
    | enqueue_lock req =>
      simp only
      split <;> exact Or.inl rfl
    | shutdown_join =>
      simp only
      split <;> exact Or.inl rfl
    | _ => exact Or.inl rfl
  | engine env =>
    simp only [step, engineStep]
    cases hs : s.stage with
    | outside =>
      simp only
      split
      · split <;> exact Or.inl rfl
      · split <;> exact Or.inl rfl
      · exact Or.inr ⟨.tick env, rfl⟩
    | woken =>
      simp only
      split <;> exact Or.inl rfl
    | passed =>
      -- nothing came between the test that let the thread go and this one
      have hwait : s.engine.place = .wait := h.at_wait (by simp [hs, WaitStage.waits])
      have hgo : (!s.engine.pending.isEmpty || !s.engine.running) = true := h.passed hs
      refine Or.inr ⟨.tick env, ?_⟩
      simp only [Engine.step, Engine.tick, hwait, hgo, if_true]
      cases s.engine.running <;> simp
    | draining => exact Or.inr ⟨.tick env, rfl⟩
    | _ => exact Or.inl rfl
  | wake => exact Or.inl rfl

end Threads

/-- Each run of the threads leaves the engine as some run of whole calls and
whole ticks does, so what holds after all of those holds here too. -/
theorem threads_refine_the_engine (L : Llama) (cfg : EngineConfig) {ι : Type*} [DecidableEq ι]
    (as : List (Threads.Action ι)) :
    ∃ bs, ((threads L cfg ι).run as).engine = (engine L cfg).run bs := by
  induction as using List.reverseRecOn with
  | nil => exact ⟨[], rfl⟩
  | append_singleton as a ih =>
    obtain ⟨bs, hbs⟩ := ih
    rw [run_snoc]
    rcases Threads.step_refines L cfg (threads_guarded L cfg as) a with h | ⟨b, h⟩
    · exact ⟨bs, h.trans hbs⟩
    · refine ⟨bs ++ [b], ?_⟩
      rw [run_snoc, ← hbs]
      exact h

/-! ## The notify that nobody hears -/

namespace Threads

variable {n : Nat} {ι : Type*}

/-- The engine thread does not sleep through work or through a shutdown:
when it sleeps and no call is still to notify, the queue is empty and
`running_` is set. -/
def NoLostWakeup (s : Threads n ι) : Prop :=
  s.stage = .asleep → (∀ i, (s.calls i).settled = true) →
    s.engine.pending = [] ∧ s.engine.running = true

/-- The step is not the `notify_all` of a shutdown between the engine's test
of the predicate and its sleep. -/
def HeardShutdown (s : Threads n ι) : Action ι → Prop
  | .call i => s.calls i = .shutdown_notify → s.stage ≠ .tested
  | _ => True

instance (s : Threads n ι) (a : Action ι) : Decidable (s.HeardShutdown a) := by
  cases a <;> unfold HeardShutdown <;> infer_instance

/-- What the engine thread has not seen, some call is still to tell it. -/
structure Watched (s : Threads n ι) : Prop where
  empty : s.stage = .tested → s.engine.pending = []
  pushed : s.stage = .asleep → s.engine.pending = [] ∨
    ∃ i, s.calls i = .enqueue_unlock ∨ s.calls i = .enqueue_notify
  stored : s.stage = .tested ∨ s.stage = .asleep →
    s.engine.running = true ∨ ∃ i, s.calls i = .shutdown_notify

/-- Only a sleeping engine thread, or one about to sleep, needs to be
told. -/
theorem watched_of_awake {s : Threads n ι} (ht : s.stage ≠ .tested) (ha : s.stage ≠ .asleep) :
    Watched s :=
  ⟨fun h => absurd h ht, fun h => absurd h ha, fun h => absurd h (not_or.mpr ⟨ht, ha⟩)⟩

theorem Watched.noLostWakeup {s : Threads n ι} (h : Watched s) : s.NoLostWakeup := by
  intro hs hsettled
  refine ⟨?_, ?_⟩
  · rcases h.pushed hs with hp | ⟨i, hi | hi⟩
    · exact hp
    · have := hsettled i
      simp [hi, CallStage.settled] at this
    · have := hsettled i
      simp [hi, CallStage.settled] at this
  · rcases h.stored (Or.inr hs) with hr | ⟨i, hi⟩
    · exact hr
    · have := hsettled i
      simp [hi, CallStage.settled] at this

theorem watched_engineStep (L : Llama) (cfg : EngineConfig) {s : Threads n ι} (h : Watched s)
    (env : Engine.Env) : Watched (s.engineStep L cfg env) := by
  unfold engineStep
  cases hs : s.stage with
  | outside =>
    simp only
    split
    · split
      · exact watched_of_awake (by simp) (by simp)
      · exact h
    · split
      · exact watched_of_awake (by simp) (by simp)
      · exact h
    · exact watched_of_awake (by simp) (by simp)
  | testing =>
    simp only
    split
    · exact watched_of_awake (by simp) (by simp)
    · rename_i hgo
      have hgo : s.engine.pending = [] ∧ s.engine.running = true := by
        simpa [Engine.mayGo] using hgo
      exact ⟨fun _ => hgo.1, fun _ => Or.inl hgo.1, fun _ => Or.inl hgo.2⟩
  | tested =>
    exact ⟨fun _ => h.empty hs, fun _ => Or.inl (h.empty hs), fun _ => h.stored (Or.inl hs)⟩
  | asleep => exact h
  | woken =>
    simp only
    split
    · exact watched_of_awake (by simp) (by simp)
    · exact h
  | passed => exact watched_of_awake (by simp) (by simp)
  | draining => exact watched_of_awake (by simp) (by simp)

variable [DecidableEq ι]

/-- A call that moves on, when nobody waits for what it was about to say. -/
theorem Watched.setCall {s : Threads n ι} (h : Watched s) {i : ι} {c : CallStage}
    (hpush : s.calls i = .enqueue_unlock ∨ s.calls i = .enqueue_notify →
      c = .enqueue_notify ∨ s.stage ≠ .asleep)
    (hstop : s.calls i = .shutdown_notify → s.stage ≠ .tested ∧ s.stage ≠ .asleep) :
    Watched (s.setCall i c) := by
  refine ⟨h.empty, fun hs => ?_, fun hs => ?_⟩
  · rcases h.pushed hs with hp | ⟨j, hj⟩
    · exact Or.inl hp
    · by_cases hji : j = i
      · subst hji
        rcases hpush hj with hc | hc
        · exact Or.inr ⟨j, by simp [setCall_calls, hc]⟩
        · exact absurd hs hc
      · exact Or.inr ⟨j, by simpa [setCall_calls, hji] using hj⟩
  · rcases h.stored hs with hr | ⟨j, hj⟩
    · exact Or.inl hr
    · by_cases hji : j = i
      · subst hji
        exact absurd hs (not_or.mpr (hstop hj))
      · exact Or.inr ⟨j, by simpa [setCall_calls, hji] using hj⟩

/-- A call that notifies and moves on. -/
theorem Watched.notify {s : Threads n ι} (h : Watched s) {i : ι} {c : CallStage}
    (hstop : s.calls i = .shutdown_notify → s.stage ≠ .tested) :
    Watched (s.setCall i c).notify := by
  unfold Threads.notify
  by_cases hs : s.stage = .asleep
  · exact watched_of_awake (by simp [Threads.setCall, hs]) (by simp [Threads.setCall, hs])
  · rw [if_neg (show (s.setCall i c).stage ≠ .asleep from hs)]
    exact h.setCall (fun _ => Or.inr hs) (fun hi => ⟨hstop hi, hs⟩)

theorem watched_callStep (L : Llama) (cfg : EngineConfig) {s : Threads n ι} (hg : Guarded s)
    (h : Watched s) (i : ι) (hheard : s.HeardShutdown (.call i)) :
    Watched (s.callStep L cfg i) := by
  unfold callStep
  cases hc : s.calls i with
  | idle => exact h
  | enqueue_lock req =>
    simp only
    split
    · have := h.setCall (i := i) (c := .enqueue_push req) (by simp [hc]) (by simp [hc])
      exact ⟨this.empty, this.pushed, this.stored⟩
    · exact h
  | enqueue_push req =>
    -- this call holds the mutex, so the engine thread is not about to sleep
    have hstage : s.stage ≠ .tested := by
      intro hs
      have hholds := (hg.caller_alone (i := i) (by simp [hc, CallStage.holds])).1
      rw [hs] at hholds
      cases hholds
    have hset := h.setCall (i := i) (c := .enqueue_unlock) (by simp [hc]) (by simp [hc])
    exact ⟨fun hs => absurd hs hstage,
      fun _ => Or.inr ⟨i, Or.inl (by simp [setCall_calls])⟩, hset.stored⟩
  | enqueue_unlock =>
    have := h.setCall (i := i) (c := .enqueue_notify) (by simp) (by simp [hc])
    exact ⟨this.empty, this.pushed, this.stored⟩
  | enqueue_notify => exact h.notify (by simp [hc])
  | shutdown_store =>
    have hset := h.setCall (i := i) (c := .shutdown_notify) (by simp [hc]) (by simp [hc])
    exact ⟨hset.empty, hset.pushed, fun _ => Or.inr ⟨i, by simp [setCall_calls]⟩⟩
  | shutdown_notify => exact h.notify hheard
  | shutdown_join =>
    simp only
    split
    · exact h.setCall (by simp [hc]) (by simp [hc])
    · exact h

theorem watched_step (L : Llama) (cfg : EngineConfig) {s : Threads n ι} (hg : Guarded s)
    (h : Watched s) (a : Action ι) (hheard : s.HeardShutdown a) : Watched (s.step L cfg a) := by
  cases a with
  | startEnqueue i req =>
    simp only [step]
    split
    · rename_i hc
      exact h.setCall (by simp [hc]) (by simp [hc])
    · exact h
  | startShutdown i =>
    simp only [step]
    split
    · rename_i hc
      exact h.setCall (by simp [hc]) (by simp [hc])
    · exact h
  | call i => exact watched_callStep L cfg hg h i hheard
  | engine env => exact watched_engineStep L cfg h env
  | wake =>
    unfold step Threads.notify
    by_cases hs : s.stage = .asleep
    · exact watched_of_awake (by simp [hs]) (by simp [hs])
    · simpa only [hs, if_false] using h

end Threads

/-- In every run in which the engine thread is never between its test and its
sleep when a shutdown notifies, no wake-up is lost. -/
theorem no_wakeup_is_lost_while_shutdowns_are_heard (L : Llama) (cfg : EngineConfig) {ι : Type*}
    [DecidableEq ι] (as : List (Threads.Action ι))
    (has : (threads L cfg ι).Meets Threads.HeardShutdown (threads L cfg ι).init as) :
    ((threads L cfg ι).run as).NoLostWakeup := by
  have hrun : ((threads L cfg ι).run as).Guarded ∧ ((threads L cfg ι).run as).Watched := by
    apply invariant_while (threads L cfg ι) Threads.HeardShutdown (fun s => s.Guarded ∧ s.Watched)
    · exact ⟨Threads.guarded_new, Threads.watched_of_awake (by simp [threads, Threads.new])
        (by simp [threads, Threads.new])⟩
    · rintro s a hheard ⟨hg, hw⟩
      exact ⟨Threads.guarded_step L cfg hg a, Threads.watched_step L cfg hg hw a hheard⟩
    · exact has
  exact hrun.2.noLostWakeup

/-! Runs of one caller, with one slot and a model that ends at once. -/

namespace Threads

def oneSlot : EngineConfig := { max_slots := 1 }

def instructions (k : Nat) : List (Action Unit) := List.replicate k (.engine ⟨0, .ok⟩)

/-- The idle engine is woken by a request, serves it, and sleeps again. -/
def serveAndSleep : List (Action Unit) :=
  instructions 4 ++ [.startEnqueue () helloRequest] ++ List.replicate 4 (.call ()) ++
    instructions 13

/-- The idle engine tests the predicate, a shutdown stores and notifies, and
the engine goes to sleep. -/
def shutdownInTheGap : List (Action Unit) :=
  instructions 3 ++ [.startShutdown (), .call (), .call ()] ++ instructions 1

end Threads

theorem a_served_engine_sleeps_with_nothing_to_do :
    ((threads (byteLlama fun _ => 0) Threads.oneSlot Unit).run Threads.serveAndSleep).stage =
        .asleep ∧
      ((threads (byteLlama fun _ => 0) Threads.oneSlot Unit).run
        Threads.serveAndSleep).NoLostWakeup :=
  ⟨by decide +kernel,
    no_wakeup_is_lost_while_shutdowns_are_heard _ _ Threads.serveAndSleep (by decide +kernel)⟩

/-- The engine sleeps after `running_` was cleared and every call notified,
and `join` waits for it. -/
theorem a_shutdown_in_the_gap_is_lost :
    ¬ ((threads (byteLlama fun _ => 0) Threads.oneSlot Unit).run
      Threads.shutdownInTheGap).NoLostWakeup := by
  intro h
  have hrunning := (h (by decide +kernel) (by decide +kernel)).2
  revert hrunning
  decide +kernel

/-- A shutdown that notifies in the gap. -/
theorem a_notify_in_the_gap_is_lost (L : Llama) (cfg : EngineConfig) {ι : Type*} [DecidableEq ι]
    (as : List (Threads.Action ι)) (env : Engine.Env) (i : ι)
    (hgap : ¬ ((threads L cfg ι).run as).HeardShutdown (.call i))
    (halone : ∀ j ≠ i, (((threads L cfg ι).run as).calls j).settled = true) :
    ¬ ((threads L cfg ι).run (as ++ [.call i, .engine env])).NoLostWakeup := by
  set s := (threads L cfg ι).run as with hs
  have hcall : s.calls i = .shutdown_notify := by
    by_contra hne
    exact hgap (fun h => absurd h hne)
  have htested : s.stage = .tested := by
    by_contra hne
    exact hgap (fun _ => hne)
  have hstep : (threads L cfg ι).run (as ++ [.call i, .engine env]) =
      { s.setCall i .shutdown_join with holder := none, stage := .asleep } := by
    rw [run_append, ← hs]
    simp [threads, Threads.step, Threads.callStep, hcall, Threads.notify, Threads.setCall, htested,
      Threads.engineStep]
  rw [hstep]
  intro hlost
  have hsettled : ∀ j, ((s.setCall i .shutdown_join).calls j).settled = true := by
    intro j
    rw [Threads.setCall_calls]
    split
    · rfl
    · rename_i hj
      exact halone j hj
  have hrunning : s.engine.running = true := (hlost rfl hsettled).2
  have hstored : s.engine.running = false := (threads_guarded L cfg as).stored i hcall
  rw [hrunning] at hstored
  cases hstored

end inference_server
