-- The whole service: HTTP and gRPC handlers in front of the engine, and the
-- two request counters that they share. A handler that the rate limiter let
-- through hands its request to the engine and waits for the answer. The HTTP
-- handlers (`src/server.cpp`) count the request before that, the gRPC handlers
-- (`src/grpc_server.cpp`) do not, and the engine counts at three of its four
-- exits.
import InferenceServer.CountedRequests

namespace inference_server

open machine

variable {n : Nat}

/-! ## The machine -/

inductive Protocol where
  | http
  | grpc
  deriving DecidableEq, Repr

/-- A request that a front end accepted past the rate limiter. -/
structure Accepted where
  protocol : Protocol
  request : Request

/-- A handler in front of its `enqueue`. `counted` only records how often it
incremented `requests_total`. -/
structure Handler extends Accepted where
  counted : Nat

/-- The engine, and the handlers that are about to call `enqueue`. The last two
fields only record: the requests ever accepted, and the handlers that handed
theirs to the engine, in the order of the promises. -/
structure Service (n : Nat) where
  engine : Engine n
  handlers : List Handler
  accepted : List Accepted
  handed : List Handler

inductive Service.Action where
  | accept (a : Accepted)
  | dispatch (i : Nat)
  | tick (env : Engine.Env)
  | shutdown

/-- One step of the service. To accept an HTTP request is to increment
`requests_total` for it. `dispatch` hands over the request of one handler. -/
def Service.step (L : Llama) (cfg : EngineConfig) (s : Service n) : Service.Action → Service n
  | .accept a =>
    match a.protocol with
    | .http =>
      { s with
        engine := s.engine.countTotal
        handlers := s.handlers ++ [{ a with counted := 1 }]
        accepted := s.accepted ++ [a] }
    | .grpc =>
      { s with
        handlers := s.handlers ++ [{ a with counted := 0 }]
        accepted := s.accepted ++ [a] }
  | .dispatch i =>
    match s.handlers[i]? with
    | some h =>
      { s with
        engine := s.engine.step L cfg (.enqueue h.request)
        handlers := s.handlers.eraseIdx i
        handed := s.handed ++ [h] }
    | none => s
  | .tick env => { s with engine := s.engine.step L cfg (.tick env) }
  | .shutdown => { s with engine := s.engine.step L cfg .shutdown }

def service (L : Llama) (cfg : EngineConfig) : Machine (Service cfg.max_slots) Service.Action :=
  { init := ⟨.new cfg.max_slots, [], [], []⟩, step := Service.step L cfg }

/-- No accepted request is unanswered. -/
def Service.AllAnswered (s : Service n) : Prop := s.handlers = [] ∧ s.engine.AllAnswered

/-! ## The exits -/

/-- The event is an answer through one of the exits. -/
def Event.leaves (x : Exit) : Event n → Bool
  | .completed _ exit _ => exit = x
  | _ => false

/-- How many requests were answered through one of the exits. -/
def Engine.exits (e : Engine n) (x : Exit) : Nat := e.trace.countP (Event.leaves x)

theorem exits_answer {e : Engine n} {sid : Fin n} {p : Nat}
    (hp : (e.request sid).on_complete = some p) (exit : Exit) (result : Bytes) (x : Exit) :
    (e.answer sid exit result).exits x = e.exits x + if exit = x then 1 else 0 := by
  unfold Engine.exits Engine.answer
  rw [Engine.retireSlot_trace, Engine.complete_eq, hp]
  by_cases hx : exit = x <;> simp [List.countP_append, Event.leaves, hx]

/-! ## The tally -/

/-- How the counters, the exits and the places of the requests belong
together. `http` is the number of requests that HTTP counted. -/
structure Tally (L : Llama) (http : Nat) (e : Engine n) (drained : List Request) : Prop where
  refused : e.exits .tokenization_failed + (e.pending ++ drained).countP L.refuses =
    e.enqueued.countP L.refuses
  places : (e.enqueued.length : Int) = (e.pending ++ drained).length + (n - e.slots.free_count) +
    (e.exits .tokenization_failed + e.exits .deadline_exceeded + e.exits .decode_failed +
      e.exits .generated)
  total : e.metrics.requests_total =
    http + (e.exits .deadline_exceeded + e.exits .decode_failed + e.exits .generated)
  expired : e.metrics.requests_deadline_exceeded = e.exits .deadline_exceeded

section tally

variable {L : Llama} {http : Nat} {e : Engine n} {l : List Request}

/-- The tally looks at the queue, the count of free slots, the exits and two
counters. -/
theorem Tally.congr {e' : Engine n} {l' : List Request} (h : Tally L http e l)
    (hp : e'.pending ++ l' = e.pending ++ l) (hs : e'.slots.free_count = e.slots.free_count)
    (hq : e'.enqueued = e.enqueued) (ht : ∀ x, e'.exits x = e.exits x)
    (h1 : e'.metrics.requests_total = e.metrics.requests_total)
    (h2 : e'.metrics.requests_deadline_exceeded = e.metrics.requests_deadline_exceeded) :
    Tally L http e' l' := by
  obtain ⟨g1, g2, g3, g4⟩ := h
  refine ⟨?_, ?_, ?_, ?_⟩
  · rw [hp, hq, ht]
    exact g1
  · rw [hp, hq, hs]
    simpa only [ht] using g2
  · rw [h1]
    simpa only [ht] using g3
  · rw [h2, ht]
    exact g4

/-- A request leaves its slot through an exit that is counted. -/
theorem Tally.left {e' : Engine n} {exit : Exit} (h : Tally L http e l)
    (hexit : exit ≠ .tokenization_failed) (hp : e'.pending = e.pending)
    (hs : e'.slots.free_count = e.slots.free_count + 1) (hq : e'.enqueued = e.enqueued)
    (ht : ∀ x, e'.exits x = e.exits x + if exit = x then 1 else 0)
    (h1 : e'.metrics.requests_total = e.metrics.requests_total + 1)
    (h2 : e'.metrics.requests_deadline_exceeded =
      e.metrics.requests_deadline_exceeded + if exit = .deadline_exceeded then 1 else 0) :
    Tally L http e' l := by
  obtain ⟨g1, g2, g3, g4⟩ := h
  have t1 := ht .tokenization_failed
  have t2 := ht .deadline_exceeded
  have t3 := ht .decode_failed
  have t4 := ht .generated
  rw [if_neg hexit] at t1
  refine ⟨?_, ?_, ?_, ?_⟩
  · rw [hp, hq, t1]
    exact g1
  · rw [hp, hq, hs]
    cases exit <;> simp at hexit t2 t3 t4 <;> omega
  · rw [h1]
    cases exit <;> simp at hexit t2 t3 t4 <;> omega
  · rw [h2, t2]
    omega

/-- An answer after the engine counted the request. -/
theorem tally_answer {e1 : Engine n} {sid : Fin n} {p : Nat} (h : Tally L http e l)
    (hp : (e.request sid).on_complete = some p) {exit : Exit} (result : Bytes)
    (hexit : exit ≠ .tokenization_failed)
    (he : e1 = { e with metrics := e1.metrics })
    (h1 : e1.metrics.requests_total = e.metrics.requests_total + 1)
    (h2 : e1.metrics.requests_deadline_exceeded =
      e.metrics.requests_deadline_exceeded + if exit = .deadline_exceeded then 1 else 0) :
    Tally L http (e1.answer sid exit result) l := by
  have hreq : e1.request sid = e.request sid := by
    rw [he]
    rfl
  have hmetrics : (e1.answer sid exit result).metrics = e1.metrics := by
    unfold Engine.answer
    rw [Engine.complete_eq]
    rfl
  have hshared := shared_answer e1 sid exit result
  apply h.left hexit
  · rw [pending_of_shared hshared, he]
  · unfold Engine.answer
    rw [Engine.retireSlot_slots, Engine.complete_slots, he]
    rfl
  · rw [enqueued_of_shared hshared, he]
  · intro x
    rw [exits_answer (hreq ▸ hp), he]
    rfl
  · rw [hmetrics]
    exact h1
  · rw [hmetrics]
    exact h2

theorem tally_retireExpiredTurn (now : Int) (sid : Fin n) (hacc : Accounts e l)
    (h : Tally L http e l) : Tally L http (e.retireExpiredTurn now sid) l := by
  rcases e.retireExpiredTurn_cases now sid with ⟨_, he⟩ | ⟨hocc, _, he⟩
  · rw [he]
    exact h
  · obtain ⟨p, hp, _⟩ := hacc.known_slots sid hocc
    rw [he]
    exact tally_answer h hp _ (by simp) rfl rfl rfl

theorem tally_decodeFailedTurn (sid : Fin n) (hacc : Accounts e l) (h : Tally L http e l) :
    Tally L http (e.decodeFailedTurn sid) l := by
  rcases e.decodeFailedTurn_cases sid with ⟨_, he⟩ | ⟨hocc, he⟩
  · rw [he]
    exact h
  · obtain ⟨p, hp, _⟩ := hacc.known_slots sid hocc
    rw [he]
    exact tally_answer h hp _ (by simp) rfl rfl rfl

theorem tally_took (sid : Fin n) (tok : Token) (h : Tally L http e l) :
    Tally L http (e.took L sid tok) l := by
  have hshared := shared_took L e sid tok
  apply h.congr
  · exact congrArg (· ++ l) (pending_of_shared hshared)
  · exact (sameHolders_took L e sid tok).count
  · exact enqueued_of_shared hshared
  · intro x
    unfold Engine.exits Engine.took
    split <;> simp [Engine.log, Engine.append, List.countP_append, Event.leaves]
  · unfold Engine.took
    split <;> rfl
  · unfold Engine.took
    split <;> rfl

theorem tally_sampleTurn (cfg : EngineConfig) (cells : List (Cell n)) (call : DecodeCall n)
    (sid : Fin n) (hacc : Accounts e l) (h : Tally L http e l) :
    Tally L http (e.sampleTurn L cfg cells call sid) l := by
  rcases e.sampleTurn_cases L cfg cells call sid with ⟨_, he⟩ | ⟨hocc, _, he⟩ | ⟨_, _, he⟩
  · rw [he]
    exact h
  · generalize llamaSamplerSample L cells call.batch (call.logit_pos sid) = tok at he
    have hocc' : (e.took L sid tok).occupied sid = true :=
      ((sameHolders_took L e sid tok).occupied sid).trans hocc
    obtain ⟨p, hp, _⟩ := (accounts_took L hacc sid tok).known_slots sid hocc'
    rw [he]
    exact tally_answer (tally_took sid tok h) hp _ (by simp) rfl rfl rfl
  · rw [he]
    exact tally_took sid _ h

/-- Admission answers a request only when the tokenizer refuses it, and
counts nothing. -/
theorem admitTo_exits {sid : Fin n} {p : Nat} (hp : (e.request sid).on_complete = some p)
    (x : Exit) :
    (Engine.admitTo L e sid).exits x = e.exits x +
        (if promptOf L (e.request sid).payload = [] ∧ x = .tokenization_failed then 1 else 0) ∧
      (Engine.admitTo L e sid).metrics = e.metrics := by
  unfold Engine.admitTo Engine.exits
  simp only [promptOf_eq_nil]
  split
  · rename_i hnone
    have hreq : ∀ toks, (e.setPrompt sid toks).request sid = e.request sid := fun _ => rfl
    rw [Engine.release_trace, Engine.complete_eq, hreq, hp]
    refine ⟨?_, rfl⟩
    by_cases hx : x = .tokenization_failed
    · simp [Engine.setPrompt, List.countP_append, Event.leaves, hnone, hx]
    · have hx' : ¬ Exit.tokenization_failed = x := fun h => hx h.symm
      simp [Engine.setPrompt, List.countP_append, Event.leaves, hx, hx']
  · rename_i hsome
    simp [Engine.setPrompt, hsome]

theorem admitOne_exits {r : Request} {p : Nat} (hp : r.on_complete = some p)
    (hc : e.slots.Counted) (hfree : 0 < e.slots.free_count) (x : Exit) :
    (e.admitOne L r).exits x = e.exits x +
        (if promptOf L r.payload = [] ∧ x = .tokenization_failed then 1 else 0) ∧
      (e.admitOne L r).metrics = e.metrics := by
  rcases e.admitOne_cases L r with ⟨j, _, he⟩ | ⟨hfull, _⟩
  · have hreq : ((e.seat j r).log (.acquired j r)).request j = r := by
      rw [view_request, view_seat, if_pos rfl]
      rfl
    have hbefore : ((e.seat j r).log (.acquired j r)).exits x = e.exits x := by
      simp [Engine.exits, Engine.log, Engine.seat, Event.leaves]
    have hto := admitTo_exits (L := L) (hreq.symm ▸ hp) x
    rw [hreq, hbefore] at hto
    rw [he]
    exact hto
  · unfold KVSlotManager.Counted at hc
    rw [(e.slots.freeSlots_eq_zero).mpr hfull] at hc
    omega

/-- One turn of the admit loop: the request takes a slot, or it is answered
at once and nobody counts it. -/
theorem tally_admitOne {r : Request} (hacc : Accounts e (r :: l))
    (hroom : ((r :: l).length : Int) ≤ e.slots.free_count) (h : Tally L http e (r :: l)) :
    Tally L http (e.admitOne L r) l := by
  obtain ⟨p, hp, _⟩ := hacc.known r (by simp)
  simp only [List.length_cons] at hroom
  have hshared := shared_admitOne L e r
  have hpending := pending_of_shared hshared
  have henq := enqueued_of_shared hshared
  obtain ⟨i, _, hslots⟩ := admitOne_slots (L := L) e r hacc.counted (by omega)
  have hexits := admitOne_exits (L := L) hp hacc.counted (by omega)
  have hmetrics : (e.admitOne L r).metrics = e.metrics := (hexits .generated).2
  obtain ⟨g1, g2, g3, g4⟩ := h
  have t1 := (hexits .tokenization_failed).1
  have t2 := (hexits .deadline_exceeded).1
  have t3 := (hexits .decode_failed).1
  have t4 := (hexits .generated).1
  simp only [and_true, reduceCtorEq, and_false, if_false, Nat.add_zero] at t1 t2 t3 t4
  rw [List.countP_append, List.countP_cons] at g1
  rw [List.length_append, List.length_cons] at g2
  refine ⟨?_, ?_, ?_, ?_⟩
  · rw [hpending, henq, t1, List.countP_append]
    unfold Llama.refuses at *
    by_cases hnone : promptOf L r.payload = []
    · simp only [hnone, decide_true, if_true] at g1 ⊢
      omega
    · simp only [hnone, decide_false, Bool.false_eq_true, if_false] at g1 ⊢
      omega
  · rw [hpending, henq, hslots, t1, t2, t3, t4, List.length_append]
    split <;> push_cast at g2 ⊢ <;> omega
  · rw [hmetrics, t2, t3, t4]
    exact g3
  · rw [hmetrics, t2]
    exact g4

end tally

/-! ## One tick -/

/-- The books and the tally together. -/
structure Audit (L : Llama) (http : Nat) (e : Engine n) (l : List Request) : Prop where
  accounts : Accounts e l
  tally : Tally L http e l

section audit

variable {L : Llama} {http : Nat} {e : Engine n} {l : List Request}

theorem audit_admission (h : Audit L http e l)
    (hroom : (l.length : Int) ≤ e.slots.free_count) :
    Audit L http (l.foldl (Engine.admitOne L) e) [] := by
  induction l generalizing e with
  | nil => exact h
  | cons r l ih =>
    obtain ⟨hacc, hleft⟩ := accounts_admitOne L e r l h.accounts hroom
    exact ih ⟨hacc, tally_admitOne h.accounts hroom h.tally⟩ hleft

theorem audit_retireExpired (now : Int) (h : Audit L http e l) :
    Audit L http (e.retireExpired now) l := by
  unfold Engine.retireExpired
  apply List.foldlRecOn (motive := fun e => Audit L http e l)
  · exact h
  · intro e he sid _
    exact ⟨accounts_retireExpiredTurn now e sid l he.accounts,
      tally_retireExpiredTurn now sid he.accounts he.tally⟩

theorem tally_collect (h : Tally L http e l) : Tally L http e.collect l := by
  rcases e.collect_cases with ⟨_, he⟩ | ⟨_, _, he⟩ | ⟨_, _, he⟩
  · rw [he]
    exact h.congr rfl rfl rfl (fun _ => rfl) rfl rfl
  · rw [he]
    exact h.congr rfl rfl rfl (fun _ => rfl) rfl rfl
  · have hexits : ∀ x, e.calling.exits x = e.exits x := by
      simp [Engine.exits, Engine.calling, Event.leaves]
    rw [he]
    exact h.congr rfl (sameHolders_build e).count rfl hexits rfl rfl

/-- The drain moves requests from the queue to the drained vector. -/
theorem tally_drain (k : Nat) (p : Place n) (h : Tally L http e []) :
    Tally L http { e with pending := e.pending.drop k, place := p } (e.pending.take k) := by
  obtain ⟨g1, g2, g3, g4⟩ := h
  have hperm : (e.pending.drop k ++ e.pending.take k).Perm (e.pending ++ []) := by
    rw [List.append_nil]
    exact List.perm_append_comm.trans (.of_eq (List.take_append_drop k e.pending))
  refine ⟨?_, ?_, g3, g4⟩
  · rw [← hperm.countP_eq] at g1
    exact g1
  · rw [← hperm.length_eq] at g2
    exact g2

theorem audit_decoded (cfg : EngineConfig) (call : DecodeCall n) (o : DecodeOutcome)
    (h : Audit L http e l) : Audit L http (e.decoded L cfg call o) l := by
  apply Engine.decoded_keeps (P := fun e => Audit L http e l)
  · intro cells
    exact ⟨h.accounts.congr (.refl _) rfl rfl rfl, h.tally.congr rfl rfl rfl (fun _ => rfl) rfl rfl⟩
  · intro cells e sid he
    exact ⟨accounts_sampleTurn L cfg cells call e sid l he.accounts,
      tally_sampleTurn cfg cells call sid he.accounts he.tally⟩
  · intro e sid he
    exact ⟨accounts_decodeFailedTurn e sid l he.accounts,
      tally_decodeFailedTurn sid he.accounts he.tally⟩
  · intro e inflight sizes he
    exact ⟨he.accounts.congr (.refl _) rfl rfl rfl,
      he.tally.congr rfl rfl rfl (fun _ => rfl) rfl rfl⟩

theorem tally_tick (cfg : EngineConfig) (env : Engine.Env) (hbal : Balanced e)
    (h : Tally L http e e.place.drained) :
    Tally L http (e.tick L cfg env) (e.tick L cfg env).place.drained := by
  have hacc := hbal.accounts
  have hroom := hbal.room
  rcases e.tick_cases L cfg env with ⟨hb, p, hp, he⟩ | ⟨hp, he⟩ | ⟨toAdmit, hp, he⟩ |
    ⟨now, hp, he⟩ | ⟨call, hp, he⟩
  · have hnone : p.drained = [] := movesTo_drained hp
    rw [boundary_drained hb] at h
    rw [he, hnone]
    exact h.congr rfl rfl rfl (fun _ => rfl) rfl rfl
  · rw [hp] at h
    rw [he]
    exact tally_drain _ _ h
  · rw [hp] at hacc hroom h
    rw [he]
    have haudit := audit_retireExpired env.now (audit_admission ⟨hacc, h⟩ hroom)
    exact haudit.tally.congr rfl rfl rfl (fun _ => rfl) rfl rfl
  · rw [hp] at h
    rw [he, collect_drained]
    exact tally_collect h
  · rw [hp] at h hacc
    rw [he, decoded_drained]
    exact (audit_decoded cfg call env.decode ⟨hacc, h⟩).tally

end audit

/-! ## Any run of the service -/

/-- HTTP accepted the request. -/
def Accepted.isHttp (a : Accepted) : Bool := a.protocol = .http

/-- The tokenizer has no token for the accepted request. -/
def Accepted.refused (L : Llama) (a : Accepted) : Bool := L.refuses a.request

/-- How often `requests_total` was incremented for the request with the promise
`t`: by its handler, and by the engine. -/
def Service.timesCounted (s : Service n) (t : Nat) (h : Handler) : Nat :=
  h.counted + s.engine.counted t

/-- What every run of the service keeps. -/
structure Service.Audited (L : Llama) (s : Service n) : Prop where
  balanced : Balanced s.engine
  tally : Tally L (s.accepted.countP Accepted.isHttp) s.engine s.engine.place.drained
  marked : Marked L s.engine
  handed : s.accepted.Perm ((s.handed ++ s.handlers).map Handler.toAccepted)
  counted : ∀ h ∈ s.handed ++ s.handlers, h.counted = if h.isHttp then 1 else 0
  enqueued : s.handed.map (fun h => h.refused L) = s.engine.enqueued.map L.refuses

section audited

variable {L : Llama} {s : Service n}

theorem audited_accept (cfg : EngineConfig) (a : Accepted) (h : s.Audited L) :
    (s.step L cfg (.accept a)).Audited L := by
  obtain ⟨h1, ⟨g1, g2, g3, g4⟩, h3, h4, h5, h6⟩ := h
  have hhanded : ∀ count : Nat, (s.accepted ++ [a]).Perm
      ((s.handed ++ (s.handlers ++ [(⟨a, count⟩ : Handler)])).map Handler.toAccepted) := by
    intro count
    rw [← List.append_assoc, List.map_append]
    exact h4.append_right _
  have hcounted : ∀ count : Nat, count = (if a.isHttp then 1 else 0) →
      ∀ h ∈ s.handed ++ (s.handlers ++ [(⟨a, count⟩ : Handler)]),
        h.counted = if h.isHttp then 1 else 0 := by
    intro count hcount h hmem
    rw [← List.append_assoc, List.mem_append, List.mem_singleton] at hmem
    rcases hmem with hmem | rfl
    · exact h5 h hmem
    · exact hcount
  obtain ⟨protocol, request⟩ := a
  cases protocol with
  | http =>
    refine ⟨⟨h1.accounts.congr (.refl _) rfl rfl rfl, h1.room⟩, ⟨g1, g2, ?_, g4⟩,
      h3.congr (.refl _) rfl rfl rfl, hhanded 1, hcounted 1 rfl, h6⟩
    simp only [Service.step, Engine.countTotal, List.countP_append]
    rw [g3]
    simp [Accepted.isHttp, Engine.exits]
    omega
  | grpc =>
    refine ⟨h1, ⟨g1, g2, ?_, g4⟩, h3, hhanded 0, hcounted 0 rfl, h6⟩
    simp only [Service.step, List.countP_append]
    rw [g3]
    simp [Accepted.isHttp]

theorem audited_dispatch (cfg : EngineConfig) (i : Nat) (h : s.Audited L) :
    (s.step L cfg (.dispatch i)).Audited L := by
  unfold Service.step
  simp only
  split
  · rename_i a ha
    obtain ⟨h1, ⟨g1, g2, g3, g4⟩, h3, h4, h5, h6⟩ := h
    have hperm : (s.handed ++ s.handlers).Perm (s.handed ++ [a] ++ s.handlers.eraseIdx i) := by
      obtain ⟨hi, rfl⟩ := List.getElem?_eq_some_iff.mp ha
      rw [List.append_assoc]
      exact (List.getElem_cons_eraseIdx_perm hi).symm.append_left _
    have hsame : L.refuses { a.request with on_complete := some s.engine.enqueued.length } =
        a.refused L := rfl
    refine ⟨balanced_enqueue s.engine a.request h1, ⟨?_, ?_, g3, g4⟩,
      marked_enqueue a.request h3 cfg, h4.trans (hperm.map _),
      fun h hmem => h5 h (hperm.mem_iff.mpr hmem), ?_⟩
    · simp only [Engine.step, Engine.exits, List.countP_append, List.countP_singleton] at g1 ⊢
      omega
    · simp only [Engine.step, Engine.exits, List.length_append, List.length_singleton] at g2 ⊢
      push_cast at g2 ⊢
      omega
    · simp only [Engine.step, List.map_append, h6, List.map_singleton, hsame]
  · exact h

theorem audited_step (cfg : EngineConfig) (a : Service.Action) (h : s.Audited L) :
    (s.step L cfg a).Audited L := by
  cases a with
  | accept a => exact audited_accept cfg a h
  | dispatch i => exact audited_dispatch cfg i h
  | tick env =>
    obtain ⟨h1, h2, h3, h4, h5, h6⟩ := h
    have henq := tick_enqueued L cfg s.engine env
    exact ⟨balanced_tick L cfg s.engine env h1, tally_tick cfg env h1 h2,
      marked_tick cfg env h1 h3, h4, h5, h6.trans (by simp [Service.step, Engine.step, henq])⟩
  | shutdown =>
    obtain ⟨h1, h2, h3, h4, h5, h6⟩ := h
    exact ⟨balanced_step L cfg s.engine .shutdown h1, h2.congr rfl rfl rfl (fun _ => rfl) rfl rfl,
      h3.congr (.refl _) rfl rfl rfl, h4, h5, h6⟩

end audited

theorem audited_run (L : Llama) (cfg : EngineConfig) (as : List Service.Action) :
    ((service L cfg).run as).Audited L := by
  apply invariant (service L cfg) (Service.Audited L)
  · refine ⟨balanced_new _, ⟨?_, ?_, ?_, ?_⟩, ⟨?_, ?_, ?_⟩, .refl _,
      fun h hmem => absurd hmem List.not_mem_nil, rfl⟩
    · rfl
    · simp [service, Engine.new, Engine.exits, Place.drained, KVSlotManager.new]
    · rfl
    · rfl
    · intro sid hocc
      cases hocc
    · intro t
      rfl
    · intro t exit result hmem
      cases hmem
  · intro s a h
    exact audited_step cfg a h

/-! ## The law of the counters -/

/-- A request that was answered was counted by its handler over HTTP, and by
the engine if it has a prompt. -/
theorem timesCounted_answered {s : Service n} (haudit : s.Audited L)
    (hanswered : s.engine.AllAnswered) {t : Nat} {h : Handler} (hh : s.handed[t]? = some h) :
    s.timesCounted t h = (if h.isHttp then 1 else 0) + if h.refused L then 0 else 1 := by
  have hrefuses : (s.engine.enqueued.map L.refuses)[t]? = some (h.refused L) := by
    rw [← haudit.enqueued, List.getElem?_map, hh]
    rfl
  rw [List.getElem?_map, Option.map_eq_some_iff] at hrefuses
  obtain ⟨r, hr, hrefuses⟩ := hrefuses
  have hmem : h ∈ s.handed ++ s.handlers :=
    List.mem_append_left _ (List.mem_of_getElem? hh)
  unfold Service.timesCounted
  rw [counted_of_answered haudit.balanced.accounts haudit.marked hr (hanswered t (known_lt hr)),
    hrefuses, haudit.counted h hmem]

/-- In a state of any run in which no accepted request is unanswered, each of
them has a promise, and the following holds. Each one was counted once and both
counters are right, if and only if HTTP accepted just those requests that the
tokenizer refused: each HTTP request is counted by its handler too, and a
refused request is not counted by the engine. -/
theorem the_counters_are_right_iff (L : Llama) (cfg : EngineConfig) (as : List Service.Action)
    (hall : ((service L cfg).run as).AllAnswered) :
    let s := (service L cfg).run as
    s.accepted.Perm (s.handed.map Handler.toAccepted) ∧
      (((∀ t h, s.handed[t]? = some h → s.timesCounted t h = 1) ∧
          s.engine.metrics.requests_total = s.accepted.length ∧
          s.engine.metrics.requests_deadline_exceeded = s.engine.exits .deadline_exceeded) ↔
        ∀ a ∈ s.accepted, (a.isHttp = true ↔ a.refused L = true)) := by
  intro s
  have haudit : s.Audited L := audited_run L cfg as
  obtain ⟨hhandlers, hanswered⟩ := hall
  have hempty : s.handlers = [] := hhandlers
  have hperm : s.accepted.Perm (s.handed.map Handler.toAccepted) := by
    have hboth := haudit.handed
    rwa [hempty, List.append_nil] at hboth
  have htimes : ∀ t h, s.handed[t]? = some h → s.timesCounted t h =
      (if h.isHttp then 1 else 0) + if h.refused L then 0 else 1 :=
    fun t h hh => timesCounted_answered haudit hanswered hh
  refine ⟨hperm, ?_⟩
  constructor
  · rintro ⟨honce, _⟩ a ha
    obtain ⟨h, hmem, rfl⟩ := List.mem_map.mp (hperm.mem_iff.mp ha)
    obtain ⟨t, ht⟩ := List.getElem?_of_mem hmem
    have hone := honce t h ht
    rw [htimes t h ht] at hone
    cases hhttp : h.isHttp <;> cases hrefused : h.refused L <;> simp [hhttp, hrefused] at hone ⊢
  · intro hiff
    have hequal : ∀ a ∈ s.accepted, a.isHttp = a.refused L :=
      fun a ha => Bool.eq_iff_iff.mpr (hiff a ha)
    refine ⟨?_, ?_⟩
    · intro t h ht
      have hmem : h.toAccepted ∈ s.accepted :=
        hperm.mem_iff.mpr (List.mem_map_of_mem (List.mem_of_getElem? ht))
      rw [htimes t h ht, hequal _ hmem]
      cases h.refused L <;> rfl
    · -- the totals, from the tally with nothing waiting and all slots free
      obtain ⟨g1, g2, g3, g4⟩ := haudit.tally
      obtain ⟨hnone, hfree⟩ := (allAnswered_iff haudit.balanced.accounts).mp hanswered
      have hcounted : s.engine.slots.free_count = s.engine.slots.freeSlots :=
        haudit.balanced.accounts.counted
      have hslots := (s.engine.slots.freeSlots_eq_n).mpr hfree
      have hlength : s.accepted.length = s.engine.enqueued.length := by
        have hmap := congrArg List.length haudit.enqueued
        rw [List.length_map, List.length_map] at hmap
        rw [hperm.length_eq, List.length_map, hmap]
      have hrefused : s.accepted.countP Accepted.isHttp = s.engine.enqueued.countP L.refuses := by
        have hmap := congrArg (List.countP id) haudit.enqueued
        rw [List.countP_map, List.countP_map, Function.id_comp, Function.id_comp] at hmap
        have hhanded := hperm.countP_eq (Accepted.refused L)
        rw [List.countP_map] at hhanded
        rw [← hmap]
        exact (List.countP_congr (fun a ha => hiff a ha)).trans hhanded
      rw [hnone] at g1 g2
      simp only [List.countP_nil, List.length_nil] at g1 g2
      omega

/-- One HTTP request, from its acceptance to its answer. -/
def oneHttp : List Service.Action :=
  [.accept ⟨.http, helloRequest⟩, .dispatch 0] ++ List.replicate 6 (.tick ⟨0, .ok⟩)

theorem oneHttp_answered :
    ((service (byteLlama fun _ => 0) { max_slots := 1 }).run oneHttp).AllAnswered := by
  unfold Service.AllAnswered Engine.AllAnswered
  decide +kernel

/-- The request was generated, and `requests_total` is 2. -/
theorem an_http_request_is_counted_twice :
    let s := (service (byteLlama fun _ => 0) { max_slots := 1 }).run oneHttp
    s.AllAnswered ∧ s.accepted.length = 1 ∧ s.engine.metrics.requests_total = 2 ∧
    ¬ (s.engine.metrics.requests_total = s.accepted.length ∧
      s.engine.metrics.requests_deadline_exceeded = s.engine.exits .deadline_exceeded) := by
  intro s
  exact ⟨oneHttp_answered, by decide +kernel, by decide +kernel, by decide +kernel⟩

theorem the_counters_are_right_iff_one_http :
    let s := (service (byteLlama fun _ => 0) { max_slots := 1 }).run oneHttp
    s.accepted.Perm (s.handed.map Handler.toAccepted) ∧
      (((∀ t h, s.handed[t]? = some h → s.timesCounted t h = 1) ∧
          s.engine.metrics.requests_total = s.accepted.length ∧
          s.engine.metrics.requests_deadline_exceeded = s.engine.exits .deadline_exceeded) ↔
        ∀ a ∈ s.accepted, (a.isHttp = true ↔ a.refused (byteLlama fun _ => 0) = true)) :=
  the_counters_are_right_iff (byteLlama fun _ => 0) { max_slots := 1 } oneHttp oneHttp_answered

end inference_server
