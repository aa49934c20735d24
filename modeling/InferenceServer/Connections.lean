-- The handler threads of both front ends around the engine. `dispatch`
-- (`src/server.cpp`, `src/grpc_server.cpp`) counts the request in
-- `queue_depth`, hands it to the engine with a fresh promise, blocks until the
-- promise is fulfilled, and counts it out again. Threads, engine and shutdown
-- may interleave in any order.
import InferenceServer.Failures
import InferenceServer.Records
import InferenceServer.StandAlone

namespace inference_server

open machine

variable {n : Nat}

/-! ## The machine -/

/-- What a handler keeps through `dispatch`: the request, and what it makes of
the result. -/
structure Work where
  request : Request
  respond : Bytes → ClientResponse

/-- Where the thread of a connection stands. Before the promise there is
nothing to wait for, and a thread that never went to the engine has none. -/
inductive Stage where
  | counting (w : Work)
  | enqueuing (w : Work)
  | waiting (w : Work) (promise : Nat)
  | leaving (w : Work) (promise : Nat) (result : Bytes)
  | replied (promise : Option Nat) (res : ClientResponse)

def Stage.isReplied : Stage → Bool
  | .replied _ _ => true
  | _ => false

def ClientRequest.overHttp : ClientRequest → Bool
  | .infer _ _ | .chat _ _ => true
  | .grpcInfer _ | .grpcChat _ => false

structure Connection where
  client : ClientRequest
  env : Surroundings
  stage : Stage

/-- The engine, the gauge that both `dispatch` functions write, and the
connections in the order of their arrival. -/
structure Node (n : Nat) where
  engine : Engine n
  queue_depth : Int
  connections : List Connection

/-- A handler up to its answer or to `dispatch`. httplib answers 500 for an
exception. -/
def ClientRequest.serve (cfg : ServerConfig) (client : ClientRequest) (env : Surroundings) :
    Stage :=
  match client.handle cfg env with
  | .answered res => .replied none res
  | .dispatched r respond => .counting ⟨r, respond⟩
  | .escaped => .replied none (.http { status := 500, body := none })

/-- The thread of one connection takes its next step. `future.get()` blocks
until there is a result. -/
def Node.go (L : Llama) (ecfg : EngineConfig) (s : Node n) (i : Nat) : Node n :=
  match s.connections[i]? with
  | none => s
  | some c =>
    let moved (stage : Stage) := s.connections.set i { c with stage := stage }
    match c.stage with
    | .counting w =>
      { s with queue_depth := s.queue_depth + 1, connections := moved (.enqueuing w) }
    | .enqueuing w =>
      { s with
        engine := s.engine.step L ecfg (.enqueue w.request)
        connections := moved (.waiting w s.engine.enqueued.length) }
    | .waiting w t =>
      match s.engine.fulfilled t with
      | some result => { s with connections := moved (.leaving w t result) }
      | none => s
    | .leaving w t result =>
      { s with
        queue_depth := s.queue_depth - 1
        connections := moved (.replied (some t) (w.respond result)) }
    | .replied _ _ => s

inductive Node.Action where
  | arrive (client : ClientRequest) (env : Surroundings)
  | go (i : Nat)
  | tick (env : Engine.Env)
  | shutdown

def Node.step (L : Llama) (ecfg : EngineConfig) (cfg : ServerConfig) (s : Node n) :
    Node.Action → Node n
  | .arrive client env =>
    { s with connections := s.connections ++ [⟨client, env, client.serve cfg env⟩] }
  | .go i => s.go L ecfg i
  | .tick env => { s with engine := s.engine.step L ecfg (.tick env) }
  | .shutdown => { s with engine := s.engine.step L ecfg .shutdown }

def node (L : Llama) (ecfg : EngineConfig) (cfg : ServerConfig) :
    Machine (Node ecfg.max_slots) Node.Action :=
  { init := ⟨.new ecfg.max_slots, 0, []⟩, step := Node.step L ecfg cfg }

/-- What a step of one connection does: it moves this connection on, or it
finds nothing to do. -/
theorem go_cases (L : Llama) (ecfg : EngineConfig) (s : Node n) (i : Nat) :
    s.go L ecfg i = s ∨ ∃ c, s.connections[i]? = some c ∧
      ((∃ w, c.stage = .counting w ∧ s.go L ecfg i = { s with
          queue_depth := s.queue_depth + 1
          connections := s.connections.set i { c with stage := .enqueuing w } }) ∨
       (∃ w, c.stage = .enqueuing w ∧ s.go L ecfg i = { s with
          engine := s.engine.step L ecfg (.enqueue w.request)
          connections := s.connections.set i
            { c with stage := .waiting w s.engine.enqueued.length } }) ∨
       (∃ w t result, c.stage = .waiting w t ∧ s.engine.fulfilled t = some result ∧
          s.go L ecfg i = { s with
            connections := s.connections.set i { c with stage := .leaving w t result } }) ∨
       (∃ w t result, c.stage = .leaving w t result ∧ s.go L ecfg i = { s with
          queue_depth := s.queue_depth - 1
          connections := s.connections.set i
            { c with stage := .replied (some t) (w.respond result) } })) := by
  unfold Node.go
  cases hc : s.connections[i]? with
  | none => exact Or.inl rfl
  | some c =>
    simp only
    cases hstage : c.stage with
    | counting w => exact Or.inr ⟨c, rfl, Or.inl ⟨w, hstage, rfl⟩⟩
    | enqueuing w => exact Or.inr ⟨c, rfl, Or.inr (Or.inl ⟨w, hstage, rfl⟩)⟩
    | waiting w t =>
      cases hresult : s.engine.fulfilled t with
      | none =>
        simp only [hresult]
        exact Or.inl trivial
      | some result =>
        simp only [hresult]
        exact Or.inr ⟨c, rfl, Or.inr (Or.inr (Or.inl ⟨w, t, result, hstage, hresult, rfl⟩))⟩
    | leaving w t result =>
      exact Or.inr ⟨c, rfl, Or.inr (Or.inr (Or.inr ⟨w, t, result, hstage, rfl⟩))⟩
    | replied promise res => exact Or.inl rfl

/-! ## Whose promise is whose -/

/-- The promise of a connection, once it has one. -/
def Stage.promise : Stage → Option Nat
  | .waiting _ t => some t
  | .leaving _ t _ => some t
  | .replied promise _ => promise
  | .counting _ | .enqueuing _ => none

/-- Between the increment and the decrement of `queue_depth`. -/
def Stage.inDispatch : Stage → Bool
  | .enqueuing _ | .waiting _ _ | .leaving _ _ _ => true
  | .counting _ | .replied _ _ => false

/-- The request of the handler was enqueued with the promise. -/
def Connection.Owns (cfg : ServerConfig) (e : Engine n) (c : Connection) (w : Work) (t : Nat) :
    Prop :=
  c.client.handle cfg c.env = .dispatched w.request w.respond ∧
    e.enqueued[t]? = some { w.request with on_complete := some t }

/-- What is true of a connection at each stage. -/
def Connection.Sound (cfg : ServerConfig) (e : Engine n) (c : Connection) : Prop :=
  match c.stage with
  | .counting w | .enqueuing w => c.client.handle cfg c.env = .dispatched w.request w.respond
  | .waiting w t => c.Owns cfg e w t
  | .leaving w t result => c.Owns cfg e w t ∧ e.fulfilled t = some result
  | .replied (some t) res =>
    ∃ w result, c.Owns cfg e w t ∧ e.fulfilled t = some result ∧ res = w.respond result
  | .replied none res => c.client.handle cfg c.env = .answered res ∨
      c.client.handle cfg c.env = .escaped ∧ res = .http { status := 500, body := none }

/-- The connections own the promises one to one, and the gauge counts those
inside `dispatch`. -/
structure Node.Sound (cfg : ServerConfig) (s : Node n) : Prop where
  each : ∀ c ∈ s.connections, c.Sound cfg s.engine
  owners : (s.connections.filterMap (fun c => c.stage.promise)).Perm
    (List.range s.engine.enqueued.length)
  depth : s.queue_depth = s.connections.countP (fun c => c.stage.inDispatch)

theorem Connection.Sound.later {cfg : ServerConfig} {e e' : Engine n} {c : Connection}
    (h : c.Sound cfg e) (he : e.Recalls e') : c.Sound cfg e' := by
  have howns : ∀ {w t}, c.Owns cfg e w t → c.Owns cfg e' w t :=
    fun ho => ⟨ho.1, he.enqueued_some ho.2⟩
  unfold Connection.Sound at h ⊢
  split <;> rename_i hstage <;> rw [hstage] at h
  · exact h
  · exact h
  · exact howns h
  · exact ⟨howns h.1, he.fulfilled h.2⟩
  · obtain ⟨w, result, ho, hf, hres⟩ := h
    exact ⟨w, result, howns ho, he.fulfilled hf, hres⟩
  · exact h

/-- A connection that moves on without a new promise. -/
theorem sound_moved {cfg : ServerConfig} {s : Node n} (h : s.Sound cfg) {i : Nat} {c : Connection}
    (hc : s.connections[i]? = some c) {stage : Stage} (depth : Int)
    (hpromise : stage.promise = c.stage.promise)
    (hdepth : depth + (if c.stage.inDispatch then 1 else 0) =
      s.queue_depth + if stage.inDispatch then 1 else 0)
    (hsound : Connection.Sound cfg s.engine { c with stage := stage }) :
    Node.Sound cfg { s with
      queue_depth := depth
      connections := s.connections.set i { c with stage := stage } } := by
  obtain ⟨rest, hold, hnew⟩ := perm_set hc
  refine ⟨?_, ?_, ?_⟩
  · intro c' hc'
    rcases List.mem_or_eq_of_mem_set hc' with hmem | rfl
    · exact h.each c' hmem
    · exact hsound
  · have hp := h.owners
    have h1 := hold.filterMap (fun c => c.stage.promise)
    have h2 := (hnew { c with stage := stage }).filterMap (fun c => c.stage.promise)
    simp only [List.filterMap_cons, hpromise] at h1 h2
    exact h2.trans (h1.symm.trans hp)
  · have hd := h.depth
    have h1 := hold.countP_eq (fun c => c.stage.inDispatch)
    have h2 := (hnew { c with stage := stage }).countP_eq (fun c => c.stage.inDispatch)
    rw [List.countP_cons] at h1 h2
    simp only at h1 h2 ⊢
    rw [h2]
    rw [h1] at hd
    push_cast at hd ⊢
    split at hdepth <;> split at hdepth <;> simp_all

/-- A connection that hands its request to the engine gets the next promise. -/
theorem sound_enqueued {cfg : ServerConfig} (L : Llama) (ecfg : EngineConfig) {s : Node n}
    (h : s.Sound cfg) {i : Nat} {c : Connection} {w : Work} (hc : s.connections[i]? = some c)
    (hstage : c.stage = .enqueuing w) : Node.Sound cfg { s with
      engine := s.engine.step L ecfg (.enqueue w.request)
      connections := s.connections.set i
        { c with stage := .waiting w s.engine.enqueued.length } } := by
  have hrecalls := recalls_step L ecfg s.engine (.enqueue w.request)
  have hmine := h.each c (List.mem_of_getElem? hc)
  unfold Connection.Sound at hmine
  rw [hstage] at hmine
  obtain ⟨rest, hold, hnew⟩ := perm_set hc
  refine ⟨?_, ?_, ?_⟩
  · intro c' hc'
    rcases List.mem_or_eq_of_mem_set hc' with hmem | rfl
    · exact (h.each c' hmem).later hrecalls
    · refine ⟨hmine, ?_⟩
      change (s.engine.enqueued ++ [_])[s.engine.enqueued.length]? = _
      simp
  · have hp := h.owners
    have h1 := hold.filterMap (fun c => c.stage.promise)
    have h2 := (hnew { c with stage := .waiting w s.engine.enqueued.length }).filterMap
      (fun c => c.stage.promise)
    have hlen : (s.engine.step L ecfg (.enqueue w.request)).enqueued.length =
        s.engine.enqueued.length + 1 := List.length_append
    have hnone : c.stage.promise = none := by
      rw [hstage]
      rfl
    simp only [List.filterMap_cons, hnone] at h1
    simp only [hlen, List.range_succ]
    have hrest := (h1.symm.trans hp).cons s.engine.enqueued.length
    exact h2.trans (hrest.trans (List.perm_append_singleton _ _).symm)
  · have hd := h.depth
    have h1 := hold.countP_eq (fun c => c.stage.inDispatch)
    have h2 := (hnew { c with stage := .waiting w s.engine.enqueued.length }).countP_eq
      (fun c => c.stage.inDispatch)
    have hin : c.stage.inDispatch = true := by
      rw [hstage]
      rfl
    have hin' : (Stage.waiting w s.engine.enqueued.length).inDispatch = true := rfl
    simp only [List.countP_cons, hin, hin', if_true] at h1 h2
    simp only [h2, ← h1]
    exact hd

theorem sound_go {cfg : ServerConfig} (L : Llama) (ecfg : EngineConfig) {s : Node n}
    (h : s.Sound cfg) (i : Nat) : (s.go L ecfg i).Sound cfg := by
  rcases go_cases L ecfg s i with he | ⟨c, hc, ⟨w, hstage, he⟩ | ⟨w, hstage, he⟩ |
    ⟨w, t, result, hstage, hf, he⟩ | ⟨w, t, result, hstage, he⟩⟩
  · rw [he]
    exact h
  all_goals
    have hmine := h.each c (List.mem_of_getElem? hc)
    unfold Connection.Sound at hmine
    rw [hstage] at hmine
    rw [he]
  · apply sound_moved h hc
    · rw [hstage]
      rfl
    · rw [hstage]
      simp [Stage.inDispatch]
    · exact hmine
  · exact sound_enqueued L ecfg h hc hstage
  · apply sound_moved h hc s.queue_depth
    · rw [hstage]
      rfl
    · rw [hstage]
      rfl
    · exact ⟨hmine, hf⟩
  · apply sound_moved h hc
    · rw [hstage]
      rfl
    · rw [hstage]
      simp [Stage.inDispatch]
    · exact ⟨w, result, hmine.1, hmine.2, rfl⟩

theorem sound_engine {cfg : ServerConfig} {s : Node n} (h : s.Sound cfg) {e : Engine n}
    (hrecalls : s.engine.Recalls e) (hlen : e.enqueued.length = s.engine.enqueued.length) :
    Node.Sound cfg { s with engine := e } := by
  refine ⟨fun c hc => (h.each c hc).later hrecalls, ?_, h.depth⟩
  simp only [hlen]
  exact h.owners

theorem sound_step (L : Llama) (ecfg : EngineConfig) {cfg : ServerConfig} {s : Node n}
    (h : s.Sound cfg) (a : Node.Action) : (s.step L ecfg cfg a).Sound cfg := by
  cases a with
  | arrive client env =>
    have hnew : Connection.Sound cfg s.engine ⟨client, env, client.serve cfg env⟩ ∧
        (client.serve cfg env).promise = none ∧ (client.serve cfg env).inDispatch = false := by
      unfold ClientRequest.serve
      cases hh : client.handle cfg env with
      | answered res => exact ⟨Or.inl hh, rfl, rfl⟩
      | dispatched r respond => exact ⟨hh, rfl, rfl⟩
      | escaped => exact ⟨Or.inr ⟨hh, rfl⟩, rfl, rfl⟩
    refine ⟨?_, ?_, ?_⟩
    · intro c hc
      simp only [Node.step, List.mem_append, List.mem_singleton] at hc
      rcases hc with hc | rfl
      · exact h.each c hc
      · exact hnew.1
    · simp only [Node.step, List.filterMap_append, List.filterMap_cons, hnew.2.1,
        List.filterMap_nil, List.append_nil]
      exact h.owners
    · simp only [Node.step, List.countP_append, List.countP_singleton, hnew.2.2]
      simpa using h.depth
  | go i => exact sound_go L ecfg h i
  | tick env =>
    apply sound_engine h (recalls_step L ecfg s.engine (.tick env))
    exact congrArg List.length (tick_enqueued L ecfg s.engine env)
  | shutdown => exact sound_engine h (recalls_step L ecfg s.engine .shutdown) rfl

theorem sound_run (L : Llama) (ecfg : EngineConfig) (cfg : ServerConfig)
    (as : List Node.Action) : ((node L ecfg cfg).run as).Sound cfg := by
  apply invariant (node L ecfg cfg) (Node.Sound cfg)
  · refine ⟨fun c hc => absurd hc List.not_mem_nil, ?_, rfl⟩
    exact List.Perm.refl []
  · exact fun s a h => sound_step L ecfg h a

/-! ## The engine inside the node -/

/-- Whatever the threads do, the engine sees a run of its own. -/
theorem node_engine (L : Llama) (ecfg : EngineConfig) (cfg : ServerConfig)
    (as : List Node.Action) : ∃ es, ((node L ecfg cfg).run as).engine = (engine L ecfg).run es := by
  apply invariant (node L ecfg cfg) (fun s => ∃ es, s.engine = (engine L ecfg).run es)
  · exact ⟨[], rfl⟩
  · rintro s a ⟨es, hes⟩
    have hstep : ∀ ea, s.engine.step L ecfg ea = (engine L ecfg).run (es ++ [ea]) := by
      intro ea
      rw [run_snoc, ← hes]
      rfl
    cases a with
    | arrive client env => exact ⟨es, hes⟩
    | tick env => exact ⟨_, hstep (.tick env)⟩
    | shutdown => exact ⟨_, hstep .shutdown⟩
    | go i =>
      change ∃ es, (s.go L ecfg i).engine = _
      rcases go_cases L ecfg s i with he | ⟨c, _, ⟨w, _, he⟩ | ⟨w, _, he⟩ |
        ⟨w, t, result, _, _, he⟩ | ⟨w, t, result, _, he⟩⟩
      all_goals rw [he]
      · exact ⟨es, hes⟩
      · exact ⟨es, hes⟩
      · exact ⟨_, hstep (.enqueue w.request)⟩
      · exact ⟨es, hes⟩
      · exact ⟨es, hes⟩

/-! ## The law of the replies -/

theorem standAlone_promise (L : Llama) (ecfg : EngineConfig) (r : Request) (t : Nat) :
    standAlone L ecfg { r with on_complete := some t } = standAlone L ecfg r := rfl

/-- Whatever the threads, the engine and a shutdown do in between: a client is
sent what its handler answers without the engine, or what its handler makes
of the answer that its own request gets alone, or of one of the three error
texts. No two connections wait for one promise. -/
theorem every_client_is_sent_its_own_answer (L : Llama) (ecfg : EngineConfig)
    (cfg : ServerConfig) (as : List Node.Action) :
    let s := (node L ecfg cfg).run as
    (∀ c ∈ s.connections, ∀ promise res, c.stage = .replied promise res →
      (promise = none ∧ (c.client.handle cfg c.env = .answered res ∨
        c.client.handle cfg c.env = .escaped ∧ res = .http { status := 500, body := none })) ∨
      ∃ t r respond, promise = some t ∧ c.client.handle cfg c.env = .dispatched r respond ∧
        s.engine.enqueued[t]? = some { r with on_complete := some t } ∧
        (res = respond (standAlone L ecfg r) ∨
          ∃ (exit : Exit) (text : Bytes), exit.errorText = some text ∧ res = respond text)) ∧
    (s.connections.filterMap (fun c => c.stage.promise)).Nodup := by
  intro s
  have hsound := sound_run L ecfg cfg as
  obtain ⟨es, hes⟩ := node_engine L ecfg cfg as
  refine ⟨?_, hsound.owners.nodup_iff.mpr List.nodup_range⟩
  intro c hc promise res hstage
  have hmine := hsound.each c hc
  unfold Connection.Sound at hmine
  rw [hstage] at hmine
  cases promise with
  | none => exact Or.inl ⟨rfl, hmine⟩
  | some t =>
    obtain ⟨w, result, ⟨hhandle, hreq⟩, hf, hres⟩ := hmine
    refine Or.inr ⟨t, w.request, w.respond, rfl, hhandle, hreq, ?_⟩
    obtain ⟨exit, hev⟩ := fulfilled_some hf
    rw [hes] at hev hreq
    by_cases hexit : exit = .generated
    · left
      subst hexit
      obtain ⟨r, hr, hresult⟩ := faithful_run L ecfg es (t, result)
        ((mem_generatedAnswers _ t result).mpr hev)
      simp only at hr hresult
      rw [hr] at hreq
      cases hreq
      rw [hres, hresult, standAlone_promise]
    · right
      obtain ⟨text, htext⟩ : ∃ text, exit.errorText = some text := by
        cases exit <;> first | exact ⟨_, rfl⟩ | exact absurd rfl hexit
      have hresult : result = text := told_run L ecfg es _ hev text htext
      exact ⟨exit, text, htext, by rw [hres, hresult]⟩

end inference_server
