-- What the gauge `queue_depth` counts. Its help text says "waiting in queue",
-- and both front ends move it around the whole of `dispatch`, so a request in
-- a slot is counted too, and one whose thread has not woken up yet.
import InferenceServer.Connections

namespace inference_server

open machine

variable {n : Nat}

/-! ## The requests without an answer -/

theorem sum_inQueue {e : Engine n} {rs : List Request} (h : ∀ r ∈ rs, e.Known r) :
    ∑ t ∈ Finset.range e.enqueued.length, inQueue rs t = rs.length := by
  induction rs with
  | nil => simp
  | cons r rs ih =>
    obtain ⟨t, ht, hr⟩ := h r (by simp)
    have hrest := ih (fun r' hr' => h r' (List.mem_cons_of_mem r hr'))
    simp only [inQueue_cons, Finset.sum_add_distrib, hrest, ht, Option.some.injEq,
      Finset.sum_ite_eq, Finset.mem_range, known_lt hr, if_true, List.length_cons]

theorem sum_inSlots {e : Engine n} (h : ∀ sid, e.occupied sid = true → e.Known (e.request sid)) :
    ∑ t ∈ Finset.range e.enqueued.length, e.slots.inSlots t + e.slots.freeSlots = n := by
  have hslot : ∀ sid, (∑ t ∈ Finset.range e.enqueued.length, (e.slots.slots sid).holds t) +
      (if (e.slots.slots sid).occupied then 0 else 1) = 1 := by
    intro sid
    cases hocc : (e.slots.slots sid).occupied with
    | false => simp [holds_of_free hocc]
    | true =>
      obtain ⟨t, ht, hr⟩ := h sid hocc
      have hreq : (e.slots.slots sid).request.on_complete = some t := ht
      simp [holds_of_occupied hocc, hreq, known_lt hr]
  unfold KVSlotManager.inSlots KVSlotManager.freeSlots
  rw [Finset.sum_comm, ← Finset.sum_add_distrib]
  simp [hslot]

/-- The requests without an answer are those in the queue, those drained and
those in slots. -/
theorem unanswered_count {e : Engine n} {l : List Request} (h : Accounts e l) :
    ((List.range e.enqueued.length).countP (fun t => e.answered t = 0) : Int) =
      e.pending.length + l.length + (n - e.slots.free_count) := by
  have hcount : e.slots.free_count = e.slots.freeSlots := h.counted
  have hone : ∀ t ∈ Finset.range e.enqueued.length, (if e.answered t = 0 then 1 else 0) =
      inQueue e.pending t + inQueue l t + e.slots.inSlots t := by
    intro t ht
    have hledger := h.ledger t
    rw [if_pos (Finset.mem_range.mp ht)] at hledger
    split <;> omega
  have hrange : (List.range e.enqueued.length).countP (fun t => e.answered t = 0) =
      ∑ t ∈ Finset.range e.enqueued.length, if e.answered t = 0 then 1 else 0 := by
    generalize e.enqueued.length = m
    induction m with
    | zero => rfl
    | succ m ih =>
      rw [List.range_succ, List.countP_append, ih, Finset.sum_range_succ, List.countP_singleton]
      simp
  have hslots := sum_inSlots h.known_slots
  rw [hrange, Finset.sum_congr rfl hone, Finset.sum_add_distrib, Finset.sum_add_distrib,
    sum_inQueue (fun r hr => h.known r (List.mem_append_left _ hr)),
    sum_inQueue (fun r hr => h.known r (List.mem_append_right _ hr))]
  generalize ∑ t ∈ Finset.range e.enqueued.length, e.slots.inSlots t = seated at hslots ⊢
  push_cast
  omega

/-! ## The threads inside `dispatch` -/

/-- The thread is about to call `enqueue`. -/
def Stage.isEnqueuing : Stage → Bool
  | .enqueuing _ => true
  | _ => false

/-- The promise of the thread is fulfilled, and the thread did not leave yet. -/
def Stage.isAnswered (e : Engine n) : Stage → Bool
  | .waiting _ t => (e.fulfilled t).isSome
  | .leaving _ _ _ => true
  | _ => false

/-- The promise of the thread is not fulfilled. -/
def Stage.isOpen (e : Engine n) (stage : Stage) : Bool :=
  (stage.promise.map (fun t => decide (e.answered t = 0))).getD false

theorem isOpen_eq {e : Engine n} {t : Nat} {result : Bytes} (h : e.fulfilled t = some result) :
    decide (e.answered t = 0) = false := by
  have hpos := (fulfilled_iff e t).mp (by rw [h]; rfl)
  simp only [decide_eq_false_iff_not]
  omega

/-- Each thread inside `dispatch` is in one of three parts of it. -/
theorem inDispatch_split {cfg : ServerConfig} {e : Engine n} {c : Connection}
    (h : c.Sound cfg e) : (if c.stage.inDispatch then 1 else 0) =
      (if c.stage.isEnqueuing then 1 else 0) + (if c.stage.isOpen e then 1 else 0) +
        if c.stage.isAnswered e then 1 else 0 := by
  unfold Connection.Sound at h
  cases hstage : c.stage with
  | counting w => rfl
  | enqueuing w => rfl
  | waiting w t =>
    cases hf : e.fulfilled t with
    | none =>
      have hzero : e.answered t = 0 := by
        have hiff := fulfilled_iff e t
        rw [hf] at hiff
        simpa using hiff
      simp [Stage.inDispatch, Stage.isEnqueuing, Stage.isOpen, Stage.isAnswered, Stage.promise,
        hzero, hf]
    | some result =>
      simp [Stage.inDispatch, Stage.isEnqueuing, Stage.isOpen, Stage.isAnswered, Stage.promise,
        isOpen_eq hf, hf]
  | leaving w t result =>
    rw [hstage] at h
    simp [Stage.inDispatch, Stage.isEnqueuing, Stage.isOpen, Stage.isAnswered, Stage.promise,
      isOpen_eq h.2]
  | replied promise res =>
    cases promise with
    | none => rfl
    | some t =>
      rw [hstage] at h
      obtain ⟨_, _, _, hf, _⟩ := h
      simp [Stage.inDispatch, Stage.isEnqueuing, Stage.isOpen, Stage.isAnswered, Stage.promise,
        isOpen_eq hf]

theorem dispatch_count {cfg : ServerConfig} {e : Engine n} {cs : List Connection}
    (h : ∀ c ∈ cs, c.Sound cfg e) : cs.countP (fun c => c.stage.inDispatch) =
      cs.countP (fun c => c.stage.isEnqueuing) + cs.countP (fun c => c.stage.isOpen e) +
        cs.countP (fun c => c.stage.isAnswered e) := by
  induction cs with
  | nil => rfl
  | cons c cs ih =>
    have hone := inDispatch_split (h c (by simp))
    have hrest := ih (fun c' hc' => h c' (List.mem_cons_of_mem c hc'))
    simp only [List.countP_cons]
    omega

/-- Between any two steps, `queue_depth` is the number of threads that are about
to call `enqueue`, plus the requests in the queue, plus the drained ones, plus
the occupied slots, plus the threads whose answer is there and that did not
count themselves out yet. -/
theorem queue_depth_counts_the_slots_too (L : Llama) (ecfg : EngineConfig) (cfg : ServerConfig)
    (as : List Node.Action) :
    let s := (node L ecfg cfg).run as
    s.queue_depth = s.connections.countP (fun c => c.stage.isEnqueuing) +
      (s.engine.pending.length + s.engine.place.drained.length +
        (ecfg.max_slots - s.engine.slots.free_count)) +
      s.connections.countP (fun c => c.stage.isAnswered s.engine) := by
  intro s
  have hsound := sound_run L ecfg cfg as
  obtain ⟨es, hes⟩ := node_engine L ecfg cfg as
  have hacc : Accounts s.engine s.engine.place.drained := by
    have hbal := (balanced_run L ecfg es).accounts
    rw [← hes] at hbal
    exact hbal
  have hopen : s.connections.countP (fun c => c.stage.isOpen s.engine) =
      (List.range s.engine.enqueued.length).countP (fun t => s.engine.answered t = 0) := by
    rw [← hsound.owners.countP_eq, List.countP_filterMap]
    rfl
  have hdepth := hsound.depth
  rw [dispatch_count hsound.each, hopen] at hdepth
  rw [hdepth, ← unanswered_count hacc]
  push_cast
  rfl

end inference_server
