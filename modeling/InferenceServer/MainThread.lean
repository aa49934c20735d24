-- The whole process (`src/main.cpp`). The main thread listens for HTTP. A
-- signal handler runs on it, and shuts down the engine, the gRPC server and
-- the HTTP server, one after the other. Then `main` waits for what is left. It
-- does the same when it cannot listen, or cannot listen any longer.
import InferenceServer.Replies

namespace inference_server

open machine

variable {n : Nat}

/-! ## The machine -/

/-- Where `main` stands, once `on_signal` is installed: before
`server.run()`, in its loop of `accept`, in `task_queue->shutdown()`, in
`grpc_server.stop()` and the join, in `engine.shutdown()`, and after it. -/
inductive MainPlace where
  | starting
  | listening
  | joining_pool
  | stopping_grpc
  | stopping_engine
  | returned
  deriving DecidableEq, Repr

/-- The threads of the pool are there. -/
def MainPlace.serves : MainPlace → Bool
  | .listening | .joining_pool => true
  | _ => false

/-- Where `on_signal` stands: in the call that it has not returned from. -/
inductive HandlerPlace where
  | stopping_engine
  | stopping_grpc
  | stopping_http
  deriving DecidableEq, Repr

structure Process (n : Nat) where
  node : Node n
  main : MainPlace
  handler : Option HandlerPlace
  /-- `svr_sock_ != INVALID_SOCKET`. -/
  listens : Bool
  /-- `Shutdown` of gRPC was not called yet. -/
  grpc_open : Bool

def Place.isExited : Place n → Bool
  | .exited => true
  | _ => false

/-- No handler thread of HTTP is left to join. -/
def Node.httpDone (s : Node n) : Bool :=
  s.connections.all (fun c => !c.client.overHttp || c.stage.isReplied)

/-- The calls of gRPC in progress. -/
def Node.grpcCalls (s : Node n) : Nat :=
  s.connections.countP (fun c => !c.client.overHttp && !c.stage.isReplied)

/-- The next step of the main thread: of the signal handler while it runs on
it, and else of `main`. Whether `Shutdown` of gRPC returns is up to gRPC. -/
def Process.advance (shutdown_returns : Nat → Bool) (L : Llama) (ecfg : EngineConfig)
    (cfg : ServerConfig) (s : Process n) : Process n :=
  match s.handler with
  | some .stopping_engine =>
    if s.node.engine.place.isExited then
      { s with handler := some .stopping_grpc, grpc_open := false }
    else s
  | some .stopping_grpc =>
    if shutdown_returns s.node.grpcCalls then { s with handler := some .stopping_http } else s
  | some .stopping_http => { s with handler := none, listens := false }
  | none =>
    match s.main with
    | .starting => { s with main := .listening, listens := true }
    | .listening => if s.listens then s else { s with main := .joining_pool }
    | .joining_pool =>
      if s.node.httpDone then { s with main := .stopping_grpc, grpc_open := false } else s
    | .stopping_grpc =>
      if shutdown_returns s.node.grpcCalls then
        { s with main := .stopping_engine, node := s.node.step L ecfg cfg .shutdown }
      else s
    | .stopping_engine =>
      if s.node.engine.place.isExited then { s with main := .returned } else s
    | .returned => s

inductive Process.Action where
  | arrive (client : ClientRequest) (env : Surroundings)
  | go (i : Nat)
  | tick (env : Engine.Env)
  | signal
  | fail
  | main

/-- HTTP connections go on as long as the threads of the pool are there and
`svr_sock_` is valid, and gRPC takes calls until its `Shutdown`. -/
def Process.accepts (s : Process n) (client : ClientRequest) : Bool :=
  if client.overHttp then s.listens && s.main.serves else s.grpc_open

/-- `http_.listen` fails, and `Server::run` takes no notice. Without a bind it
never comes to its loop. An `accept` that fails ends the loop, and leaves
`svr_sock_` as it is. -/
def Process.failListen (s : Process n) : Process n :=
  match s.main with
  | .starting => { s with main := .stopping_grpc, grpc_open := false }
  | .listening => if s.listens then { s with main := .joining_pool } else s
  | _ => s

/-- A signal interrupts `main` while it starts, listens or waits for the pool;
its handler begins with `engine.shutdown()`. -/
def Process.step (shutdown_returns : Nat → Bool) (L : Llama) (ecfg : EngineConfig)
    (cfg : ServerConfig) (s : Process n) : Process.Action → Process n
  | .arrive client env =>
    if s.accepts client then { s with node := s.node.step L ecfg cfg (.arrive client env) }
    else s
  | .go i => { s with node := s.node.step L ecfg cfg (.go i) }
  | .tick env => { s with node := s.node.step L ecfg cfg (.tick env) }
  | .signal =>
    if s.handler = none ∧ (s.main = .starting ∨ s.main.serves = true ∧ s.listens = true) then
      { s with
        handler := some .stopping_engine
        node := s.node.step L ecfg cfg .shutdown }
    else s
  | .fail => if s.handler = none then s.failListen else s
  | .main => s.advance shutdown_returns L ecfg cfg

def process (shutdown_returns : Nat → Bool) (L : Llama) (ecfg : EngineConfig)
    (cfg : ServerConfig) : Machine (Process ecfg.max_slots) Process.Action :=
  { init := ⟨(node L ecfg cfg).init, .starting, none, false, true⟩
    step := Process.step shutdown_returns L ecfg cfg }

/-- `grpc::Server::Shutdown` waits until all calls are over, and returns then. -/
def WaitsForCalls (shutdown_returns : Nat → Bool) : Prop :=
  ∀ calls, shutdown_returns calls = true ↔ calls = 0

/-! ## What the main thread does -/

variable {sr : Nat → Bool} {L : Llama} {ecfg : EngineConfig} {cfg : ServerConfig}

/-- The main thread waits, or takes one of nine steps. -/
theorem advance_cases (sr : Nat → Bool) (L : Llama) (ecfg : EngineConfig) (cfg : ServerConfig)
    (s : Process n) : s.advance sr L ecfg cfg = s ∨
    (s.handler = some .stopping_engine ∧ s.node.engine.place.isExited = true ∧
      s.advance sr L ecfg cfg = { s with handler := some .stopping_grpc, grpc_open := false }) ∨
    (s.handler = some .stopping_grpc ∧ sr s.node.grpcCalls = true ∧
      s.advance sr L ecfg cfg = { s with handler := some .stopping_http }) ∨
    (s.handler = some .stopping_http ∧
      s.advance sr L ecfg cfg = { s with handler := none, listens := false }) ∨
    (s.handler = none ∧
      ((s.main = .starting ∧
        s.advance sr L ecfg cfg = { s with main := .listening, listens := true }) ∨
      (s.main = .listening ∧ s.listens = false ∧
        s.advance sr L ecfg cfg = { s with main := .joining_pool }) ∨
      (s.main = .joining_pool ∧ s.node.httpDone = true ∧
        s.advance sr L ecfg cfg = { s with main := .stopping_grpc, grpc_open := false }) ∨
      (s.main = .stopping_grpc ∧ sr s.node.grpcCalls = true ∧
        s.advance sr L ecfg cfg =
          { s with main := .stopping_engine, node := s.node.step L ecfg cfg .shutdown }) ∨
      (s.main = .stopping_engine ∧ s.node.engine.place.isExited = true ∧
        s.advance sr L ecfg cfg = { s with main := .returned }))) := by
  unfold Process.advance
  cases hh : s.handler with
  | some h =>
    cases h with
    | stopping_engine =>
      by_cases hexit : s.node.engine.place.isExited = true
      · simp [hexit]
      · simp [hexit]
    | stopping_grpc =>
      by_cases hcalls : sr s.node.grpcCalls = true
      · simp [hcalls]
      · simp [hcalls]
    | stopping_http => simp
  | none =>
    cases hm : s.main with
    | starting => simp
    | listening =>
      by_cases hl : s.listens = true
      · simp [hl]
      · simp [hl]
    | joining_pool =>
      by_cases hdone : s.node.httpDone = true
      · simp [hdone]
      · simp [hdone]
    | stopping_grpc =>
      by_cases hcalls : sr s.node.grpcCalls = true
      · simp [hcalls]
      · simp [hcalls]
    | stopping_engine =>
      by_cases hexit : s.node.engine.place.isExited = true
      · simp [hexit]
      · simp [hexit]
    | returned => simp

/-- A failure of `listen` changes something only while `main` starts or
listens. -/
theorem fail_cases (s : Process n) : s.failListen = s ∨
    (s.main = .starting ∧
      s.failListen = { s with main := .stopping_grpc, grpc_open := false }) ∨
    (s.main = .listening ∧ s.failListen = { s with main := .joining_pool }) := by
  unfold Process.failListen
  cases hm : s.main with
  | starting => exact Or.inr (Or.inl ⟨rfl, rfl⟩)
  | listening =>
    cases s.listens with
    | true => exact Or.inr (Or.inr ⟨rfl, rfl⟩)
    | false => exact Or.inl rfl
  | _ => exact Or.inl rfl

/-! ## The node inside the process -/

/-- The node of a process does nothing but steps of its own. -/
theorem step_node (sr : Nat → Bool) (L : Llama) (ecfg : EngineConfig) (cfg : ServerConfig)
    (s : Process n) (a : Process.Action) : (s.step sr L ecfg cfg a).node = s.node ∨
      ∃ b, (s.step sr L ecfg cfg a).node = s.node.step L ecfg cfg b := by
  cases a with
  | arrive client env =>
    unfold Process.step
    simp only
    split
    · exact Or.inr ⟨.arrive client env, rfl⟩
    · exact Or.inl rfl
  | go i => exact Or.inr ⟨.go i, rfl⟩
  | tick env => exact Or.inr ⟨.tick env, rfl⟩
  | signal =>
    unfold Process.step
    simp only
    split
    · exact Or.inr ⟨.shutdown, rfl⟩
    · exact Or.inl rfl
  | fail =>
    left
    change (if s.handler = none then s.failListen else s).node = s.node
    split
    · rcases fail_cases s with he | ⟨_, he⟩ | ⟨_, he⟩
      all_goals rw [he]
    · rfl
  | main =>
    change (s.advance sr L ecfg cfg).node = s.node ∨ ∃ b, (s.advance sr L ecfg cfg).node = _
    rcases advance_cases sr L ecfg cfg s with he | ⟨_, _, he⟩ | ⟨_, _, he⟩ | ⟨_, he⟩ |
      ⟨_, ⟨_, he⟩ | ⟨_, _, he⟩ | ⟨_, _, he⟩ | ⟨_, _, he⟩ | ⟨_, _, he⟩⟩
    all_goals rw [he]
    · exact Or.inl rfl
    · exact Or.inl rfl
    · exact Or.inl rfl
    · exact Or.inl rfl
    · exact Or.inl rfl
    · exact Or.inl rfl
    · exact Or.inl rfl
    · exact Or.inr ⟨.shutdown, rfl⟩
    · exact Or.inl rfl

theorem process_node (sr : Nat → Bool) (L : Llama) (ecfg : EngineConfig) (cfg : ServerConfig)
    (as : List Process.Action) :
    ∃ bs, ((process sr L ecfg cfg).run as).node = (node L ecfg cfg).run bs := by
  apply invariant (process sr L ecfg cfg) (fun s => ∃ bs, s.node = (node L ecfg cfg).run bs)
  · exact ⟨[], rfl⟩
  · rintro s a ⟨bs, hbs⟩
    rcases step_node sr L ecfg cfg s a with he | ⟨b, he⟩
    · exact ⟨bs, he.trans hbs⟩
    · refine ⟨bs ++ [b], he.trans ?_⟩
      rw [run_snoc, ← hbs]
      rfl

/-! ## One thing after the other -/

/-- The order in which `main` goes. -/
def MainPlace.order : MainPlace → Nat
  | .starting => 0
  | .listening => 1
  | .joining_pool => 2
  | .stopping_grpc => 3
  | .stopping_engine => 4
  | .returned => 5

/-- What is over when `main` has come so far. -/
structure Process.Orderly (s : Process n) : Prop where
  handling : s.handler ≠ none → s.main.order ≤ 2
  early : s.main = .starting → s.listens = false ∧
    ∀ c ∈ s.node.connections, c.client.overHttp = false
  http : 3 ≤ s.main.order → ∀ c ∈ s.node.connections, c.client.overHttp = true →
    c.stage.isReplied = true
  grpc_closed : 3 ≤ s.main.order → s.grpc_open = false
  grpc : 4 ≤ s.main.order → ∀ c ∈ s.node.connections, c.client.overHttp = false →
    c.stage.isReplied = true
  exited : 5 ≤ s.main.order → s.node.engine.place.isExited = true

/-- Those who have their reply keep it, and only an arrival can bring others. -/
theorem replied_step {p : ClientRequest → Prop} {s : Node n}
    (h : ∀ c ∈ s.connections, p c.client → c.stage.isReplied = true) (b : Node.Action)
    (hb : ∀ client env, b = .arrive client env → ¬ p client) :
    ∀ c ∈ (s.step L ecfg cfg b).connections, p c.client → c.stage.isReplied = true := by
  cases b with
  | arrive client env =>
    intro c hc hp
    simp only [Node.step, List.mem_append, List.mem_singleton] at hc
    rcases hc with hc | rfl
    · exact h c hc hp
    · exact absurd hp (hb client env rfl)
  | tick env => exact h
  | shutdown => exact h
  | go i =>
    -- the thread that moves is not one of those with a reply
    have hset : ∀ {c : Connection} {stage : Stage}, s.connections[i]? = some c →
        c.stage.isReplied = false → ∀ c' ∈ s.connections.set i { c with stage := stage },
          p c'.client → c'.stage.isReplied = true := by
      intro c stage hc hno c' hc' hp
      rcases List.mem_or_eq_of_mem_set hc' with hmem | rfl
      · exact h c' hmem hp
      · rw [h c (List.mem_of_getElem? hc) hp] at hno
        cases hno
    change ∀ c ∈ (s.go L ecfg i).connections, _
    rcases go_cases L ecfg s i with he | ⟨c, hc, ⟨w, hstage, he⟩ | ⟨w, hstage, he⟩ |
      ⟨w, t, result, hstage, _, he⟩ | ⟨w, t, result, hstage, he⟩⟩
    all_goals rw [he]
    · exact h
    all_goals exact hset hc (by rw [hstage]; rfl)

theorem exited_stays (L : Llama) (ecfg : EngineConfig) (cfg : ServerConfig) {s : Node n}
    (h : s.engine.place.isExited = true) (b : Node.Action) :
    (s.step L ecfg cfg b).engine.place.isExited = true := by
  have htick : ∀ env, (s.engine.tick L ecfg env).place.isExited = true := by
    intro env
    unfold Engine.tick
    cases hp : s.engine.place with
    | exited => simpa only [hp] using h
    | _ => rw [hp] at h; cases h
  cases b with
  | arrive client env => exact h
  | tick env => exact htick env
  | shutdown => exact h
  | go i =>
    change (s.go L ecfg i).engine.place.isExited = true
    rcases go_cases L ecfg s i with he | ⟨c, hc, ⟨w, _, he⟩ | ⟨w, _, he⟩ |
      ⟨w, t, result, _, _, he⟩ | ⟨w, t, result, _, he⟩⟩
    all_goals
      rw [he]
      exact h

theorem serves_order {m : MainPlace} (h : m.serves = true) : 1 ≤ m.order ∧ m.order ≤ 2 := by
  cases m <;> simp [MainPlace.serves, MainPlace.order] at *

/-- A step of the node keeps the clients, and an arrival adds one. -/
theorem clients_step {p : ClientRequest → Prop} {s : Node n}
    (h : ∀ c ∈ s.connections, p c.client) (b : Node.Action)
    (hb : ∀ client env, b = .arrive client env → p client) :
    ∀ c ∈ (s.step L ecfg cfg b).connections, p c.client := by
  cases b with
  | arrive client env =>
    intro c hc
    simp only [Node.step, List.mem_append, List.mem_singleton] at hc
    rcases hc with hc | rfl
    · exact h c hc
    · exact hb client env rfl
  | tick env => exact h
  | shutdown => exact h
  | go i =>
    have hset : ∀ {c : Connection} {stage : Stage}, s.connections[i]? = some c →
        ∀ c' ∈ s.connections.set i { c with stage := stage }, p c'.client := by
      intro c stage hc c' hc'
      rcases List.mem_or_eq_of_mem_set hc' with hmem | rfl
      · exact h c' hmem
      · exact h c (List.mem_of_getElem? hc)
    change ∀ c ∈ (s.go L ecfg i).connections, _
    rcases go_cases L ecfg s i with he | ⟨c, hc, ⟨w, _, he⟩ | ⟨w, _, he⟩ |
      ⟨w, t, result, _, _, he⟩ | ⟨w, t, result, _, he⟩⟩
    all_goals rw [he]
    · exact h
    all_goals exact hset hc

/-- A step of the node that brings no connection that is refused. -/
theorem Process.Orderly.node_step {s : Process n} (h : s.Orderly) (L : Llama)
    (ecfg : EngineConfig) (cfg : ServerConfig) (b : Node.Action)
    (hb : ∀ client env, b = .arrive client env → s.accepts client = true) :
    Process.Orderly { s with node := s.node.step L ecfg cfg b } where
  handling := h.handling
  early hm := ⟨(h.early hm).1, clients_step (p := fun client => client.overHttp = false)
    (h.early hm).2 b (by
      intro client env hbe
      have hacc := hb client env hbe
      have hstart : s.main = .starting := hm
      rw [← Bool.not_eq_true]
      intro hover
      unfold Process.accepts at hacc
      rw [if_pos hover, (h.early hm).1] at hacc
      cases hacc)⟩
  http ho := replied_step (p := fun client => client.overHttp = true) (h.http ho) b (by
    intro client env hbe hp
    have hacc := hb client env hbe
    unfold Process.accepts at hacc
    have hthree : 3 ≤ s.main.order := ho
    rw [if_pos hp, Bool.and_eq_true] at hacc
    have hserves := serves_order hacc.2
    omega)
  grpc_closed := h.grpc_closed
  grpc ho := replied_step (p := fun client => client.overHttp = false) (h.grpc ho) b (by
    intro client env hbe hp
    have hacc := hb client env hbe
    unfold Process.accepts at hacc
    have hfour : 4 ≤ s.main.order := ho
    rw [hp, if_neg Bool.false_ne_true, h.grpc_closed (by omega)] at hacc
    cases hacc)
  exited ho := exited_stays L ecfg cfg (h.exited ho) b

theorem httpDone_iff (s : Node n) : s.httpDone = true ↔
    ∀ c ∈ s.connections, c.client.overHttp = true → c.stage.isReplied = true := by
  unfold Node.httpDone
  rw [List.all_eq_true]
  refine forall₂_congr fun c _ => ?_
  cases c.client.overHttp <;> simp

theorem grpcCalls_zero_iff (s : Node n) : s.grpcCalls = 0 ↔
    ∀ c ∈ s.connections, c.client.overHttp = false → c.stage.isReplied = true := by
  unfold Node.grpcCalls
  rw [List.countP_eq_zero]
  refine forall₂_congr fun c _ => ?_
  cases c.client.overHttp <;> simp

theorem orderly_advance (hsr : WaitsForCalls sr) {s : Process n} (h : s.Orderly) :
    (s.advance sr L ecfg cfg).Orderly := by
  rcases advance_cases sr L ecfg cfg s with he | ⟨hh, _, he⟩ | ⟨hh, _, he⟩ | ⟨hh, he⟩ |
    ⟨hh, ⟨hm, he⟩ | ⟨hm, hl, he⟩ | ⟨hm, hdone, he⟩ | ⟨hm, hcalls, he⟩ | ⟨hm, hexit, he⟩⟩
  all_goals rw [he]
  · exact h
  · exact ⟨fun _ => h.handling (by simp [hh]), h.early, h.http, fun _ => rfl, h.grpc, h.exited⟩
  · exact ⟨fun _ => h.handling (by simp [hh]), h.early, h.http, h.grpc_closed, h.grpc, h.exited⟩
  · exact ⟨fun hno => absurd rfl hno, fun hm => ⟨rfl, (h.early hm).2⟩, h.http, h.grpc_closed,
      h.grpc, h.exited⟩
  · refine ⟨fun hno => absurd hh hno, nofun, ?_, ?_, ?_, ?_⟩
    all_goals
      intro ho
      simp [MainPlace.order] at ho
  · refine ⟨fun hno => absurd hh hno, nofun, ?_, ?_, ?_, ?_⟩
    all_goals
      intro ho
      simp [MainPlace.order] at ho
  · refine ⟨fun hno => absurd hh hno, nofun, fun _ => (httpDone_iff s.node).mp hdone,
      fun _ => rfl, ?_, ?_⟩
    all_goals
      intro ho
      simp [MainPlace.order] at ho
  · have hthree : 3 ≤ s.main.order := by simp [hm, MainPlace.order]
    refine ⟨fun hno => absurd hh hno, nofun, fun _ => h.http hthree,
      fun _ => h.grpc_closed hthree, fun _ => ?_, ?_⟩
    · exact (grpcCalls_zero_iff s.node).mp ((hsr _).mp hcalls)
    · intro ho
      simp [MainPlace.order] at ho
  · have hfour : 4 ≤ s.main.order := by simp [hm, MainPlace.order]
    exact ⟨fun hno => absurd hh hno, nofun, fun _ => h.http (by omega),
      fun _ => h.grpc_closed (by omega), fun _ => h.grpc hfour, fun _ => hexit⟩

/-- Without a bind there was no client over HTTP. -/
theorem orderly_fail {s : Process n} (h : s.Orderly) (hh : s.handler = none) :
    s.failListen.Orderly := by
  rcases fail_cases s with he | ⟨hm, he⟩ | ⟨hm, he⟩
  all_goals rw [he]
  · exact h
  · refine ⟨fun hno => absurd hh hno, nofun, ?_, fun _ => rfl, ?_, ?_⟩
    · intro _ c hc hover
      rw [(h.early hm).2 c hc] at hover
      cases hover
    all_goals
      intro ho
      simp [MainPlace.order] at ho
  · refine ⟨fun hno => absurd hh hno, nofun, ?_, ?_, ?_, ?_⟩
    all_goals
      intro ho
      simp [MainPlace.order] at ho

theorem orderly_run (hsr : WaitsForCalls sr) (L : Llama) (ecfg : EngineConfig)
    (cfg : ServerConfig) (as : List Process.Action) :
    ((process sr L ecfg cfg).run as).Orderly := by
  apply invariant (process sr L ecfg cfg) Process.Orderly
  · refine ⟨fun hno => absurd rfl hno, fun _ => ⟨rfl, ?_⟩, ?_, ?_, ?_, ?_⟩
    · exact fun c hc => absurd hc List.not_mem_nil
    all_goals
      intro ho
      simp [process, MainPlace.order] at ho
  · intro s a h
    cases a with
    | arrive client env =>
      change (if s.accepts client then _ else s).Orderly
      split
      · rename_i hacc
        exact h.node_step L ecfg cfg (.arrive client env) (fun _ _ he => by cases he; exact hacc)
      · exact h
    | go i => exact h.node_step L ecfg cfg (.go i) nofun
    | tick env => exact h.node_step L ecfg cfg (.tick env) nofun
    | signal =>
      change (if _ then _ else s).Orderly
      split
      · rename_i hc
        have hnode := h.node_step L ecfg cfg .shutdown nofun
        refine ⟨fun _ => ?_, hnode.early, hnode.http, hnode.grpc_closed, hnode.grpc, hnode.exited⟩
        rcases hc.2 with hm | ⟨hm, _⟩
        · simp [hm, MainPlace.order]
        · exact (serves_order hm).2
      · exact h
    | fail =>
      change (if s.handler = none then s.failListen else s).Orderly
      split
      · rename_i hh
        exact orderly_fail h hh
      · exact h
    | main => exact orderly_advance hsr h

/-! ## The law of the return -/

/-- Something made `main` stop listening: a signal came while it listened, or
`listen` failed. -/
def Process.Asked (s : Process n) : Prop :=
  2 ≤ s.main.order ∨ (s.main = .listening ∧ (s.handler ≠ none ∨ s.listens = false))

/-- The action that made it so, and where `main` stood then. -/
def Process.Asks (s : Process n) (a : Process.Action) : Prop :=
  s.handler = none ∧ (a = .signal ∧ s.main = .listening ∨
    a = .fail ∧ (s.main = .starting ∨ s.main = .listening))

theorem asked_step {s : Process n} {a : Process.Action}
    (h : (s.step sr L ecfg cfg a).Asked) : s.Asked ∨ s.Asks a := by
  cases a with
  | arrive client env =>
    change (if s.accepts client then _ else s).Asked at h
    split at h <;> exact Or.inl h
  | go i => exact Or.inl h
  | tick env => exact Or.inl h
  | signal =>
    change (if _ then _ else s).Asked at h
    split at h
    · rename_i hc
      rcases hc.2 with hm | ⟨hm, _⟩
      · rcases h with ho | ⟨hm', _⟩
        · simp [hm, MainPlace.order] at ho
        · simp [hm] at hm'
      · cases hm' : s.main with
        | listening => exact Or.inr ⟨hc.1, Or.inl ⟨rfl, hm'⟩⟩
        | joining_pool => exact Or.inl (Or.inl (by simp [hm', MainPlace.order]))
        | _ => simp [hm', MainPlace.serves] at hm
    · exact Or.inl h
  | fail =>
    change (if s.handler = none then s.failListen else s).Asked at h
    split at h
    · rename_i hh
      rcases fail_cases s with he | ⟨hm, _⟩ | ⟨hm, _⟩
      · rw [he] at h
        exact Or.inl h
      · exact Or.inr ⟨hh, Or.inr ⟨rfl, Or.inl hm⟩⟩
      · exact Or.inr ⟨hh, Or.inr ⟨rfl, Or.inr hm⟩⟩
    · exact Or.inl h
  | main =>
    left
    change (s.advance sr L ecfg cfg).Asked at h
    rcases advance_cases sr L ecfg cfg s with he | ⟨hh, _, he⟩ | ⟨hh, _, he⟩ | ⟨hh, he⟩ |
      ⟨hh, ⟨hm, he⟩ | ⟨hm, hl, he⟩ | ⟨hm, _, he⟩ | ⟨hm, _, he⟩ | ⟨hm, _, he⟩⟩
    all_goals rw [he] at h
    · exact h
    · exact h.imp_right fun hl => ⟨hl.1, Or.inl (by simp [hh])⟩
    · exact h.imp_right fun hl => ⟨hl.1, Or.inl (by simp [hh])⟩
    · exact h.imp_right fun hl => ⟨hl.1, Or.inl (by simp [hh])⟩
    · rcases h with ho | ⟨_, hno | hl⟩
      · simp [MainPlace.order] at ho
      · exact absurd hh hno
      · cases hl
    · exact Or.inr ⟨hm, Or.inr hl⟩
    all_goals
      left
      simp [hm, MainPlace.order]

theorem asked_run (sr : Nat → Bool) (L : Llama) (ecfg : EngineConfig) (cfg : ServerConfig)
    (as : List Process.Action) (h : ((process sr L ecfg cfg).run as).Asked) :
    ∃ before a after, as = before ++ a :: after ∧
      ((process sr L ecfg cfg).run before).Asks a := by
  induction as using List.reverseRecOn with
  | nil =>
    rcases h with ho | ⟨hm, _⟩
    · simp [process, MainPlace.order] at ho
    · cases hm
  | append_singleton as a ih =>
    rw [run_snoc] at h
    rcases asked_step h with hold | hasks
    · obtain ⟨before, b, after, rfl, hasks⟩ := ih hold
      exact ⟨before, b, after ++ [a], by simp, hasks⟩
    · exact ⟨as, a, [], rfl, hasks⟩

/-- The engine thread is gone, and every client has its reply. -/
structure Node.Finished (s : Node n) : Prop where
  exited : s.engine.place.isExited = true
  replied : ∀ c ∈ s.connections, c.stage.isReplied = true

theorem returned_finished (hsr : WaitsForCalls sr) (L : Llama) (ecfg : EngineConfig)
    (cfg : ServerConfig) (as : List Process.Action)
    (h : ((process sr L ecfg cfg).run as).main = .returned) :
    ((process sr L ecfg cfg).run as).node.Finished := by
  have horderly := orderly_run hsr L ecfg cfg as
  generalize (process sr L ecfg cfg).run as = s at *
  have horder : s.main.order = 5 := congrArg MainPlace.order h
  refine ⟨horderly.exited (by omega), ?_⟩
  intro c hc
  cases hover : c.client.overHttp with
  | true => exact horderly.http (by omega) c hc hover
  | false => exact horderly.grpc (by omega) c hc hover

theorem isReplied_iff (stage : Stage) :
    stage.isReplied = true ↔ ∃ promise res, stage = .replied promise res := by
  cases stage <;> simp [Stage.isReplied]

theorem isExited_iff (p : Place n) : p.isExited = true ↔ p = .exited := by
  cases p <;> simp [Place.isExited]

/-- When `main` has returned, in any run: a signal came while it listened, or
`listen` failed; the engine thread is gone, every client that ever got through
has its reply, and `queue_depth` is back at 0. -/
theorem main_returns_after_everybody_was_answered (shutdown_returns : Nat → Bool)
    (hgrpc : WaitsForCalls shutdown_returns) (L : Llama) (ecfg : EngineConfig)
    (cfg : ServerConfig) (as : List Process.Action)
    (hreturned : ((process shutdown_returns L ecfg cfg).run as).main = .returned) :
    let s := (process shutdown_returns L ecfg cfg).run as
    (∃ before a after, as = before ++ a :: after ∧
      ((process shutdown_returns L ecfg cfg).run before).Asks a) ∧
    s.node.engine.place = .exited ∧
    (∀ c ∈ s.node.connections, ∃ promise res, c.stage = .replied promise res) ∧
    s.node.queue_depth = 0 := by
  intro s
  have hfinished := returned_finished hgrpc L ecfg cfg as hreturned
  refine ⟨asked_run _ L ecfg cfg as (Or.inl ?_), (isExited_iff _).mp hfinished.exited,
    fun c hc => (isReplied_iff _).mp (hfinished.replied c hc), ?_⟩
  · rw [hreturned]
    decide
  · obtain ⟨bs, hbs⟩ := process_node shutdown_returns L ecfg cfg as
    have hdepth := (sound_run L ecfg cfg bs).depth
    rw [← hbs] at hdepth
    rw [hdepth, Int.natCast_eq_zero, List.countP_eq_zero]
    intro c hc hin
    obtain ⟨promise, res, hstage⟩ := (isReplied_iff _).mp (hfinished.replied c hc)
    rw [hstage] at hin
    cases hin

/-- One client is served, and then a signal comes. -/
def servedThenStopped : List Process.Action :=
  [.main, .arrive (.grpcInfer { payload := bytes "hello", max_new_tokens := 1 }) helloSurroundings,
    .go 0, .go 0] ++ List.replicate 6 (.tick ⟨0, .ok⟩) ++ [.go 0, .go 0, .signal, .tick ⟨0, .ok⟩] ++
    List.replicate 7 .main

/-- gRPC as its documentation has it. -/
def documentedShutdown (calls : Nat) : Bool := calls = 0

theorem waitsForCalls_documented : WaitsForCalls documentedShutdown :=
  fun calls => by simp [documentedShutdown]

set_option maxRecDepth 20000 in
theorem main_returns_after_everybody_was_answered_served :
    let s := (process documentedShutdown countingLlama {} {}).run servedThenStopped
    (∃ before a after, servedThenStopped = before ++ a :: after ∧
      ((process documentedShutdown countingLlama {} {}).run before).Asks a) ∧
    s.node.engine.place = .exited ∧
    (∀ c ∈ s.node.connections, ∃ promise res, c.stage = .replied promise res) ∧
    s.node.queue_depth = 0 :=
  main_returns_after_everybody_was_answered documentedShutdown waitsForCalls_documented
    countingLlama {} {} servedThenStopped (by decide +kernel)

/-- The port is in use: `main` returns without a signal. -/
example : ((process documentedShutdown countingLlama {} {}).run
    [.fail, .main, .tick ⟨0, .ok⟩, .main]).main = .returned := by decide +kernel

/-! ## Once the engine is gone -/

/-- The connection has its reply, or what it waits for is there. -/
def Connection.Settled (e : Engine n) (c : Connection) : Prop :=
  match c.stage with
  | .counting _ | .enqueuing _ => False
  | .waiting _ t => (e.fulfilled t).isSome
  | .leaving _ _ _ | .replied _ _ => True

instance (e : Engine n) (c : Connection) : Decidable (c.Settled e) := by
  unfold Connection.Settled
  cases c.stage <;> infer_instance

/-- An engine without its thread fulfils no promise. -/
theorem exited_fulfilled (L : Llama) (ecfg : EngineConfig) {e : Engine n}
    (h : e.place.isExited = true) (a : Engine.Action) (t : Nat) :
    (e.step L ecfg a).fulfilled t = e.fulfilled t := by
  cases a with
  | enqueue req => rfl
  | shutdown => rfl
  | tick env =>
    have hstay : e.tick L ecfg env = e := by
      unfold Engine.tick
      cases hp : e.place with
      | exited => simp
      | _ => rw [hp] at h; cases h
    exact congrArg (fun e => Engine.fulfilled e t) hstay

theorem node_fulfilled (L : Llama) (ecfg : EngineConfig) (cfg : ServerConfig) {s : Node n}
    (h : s.engine.place.isExited = true) (b : Node.Action) (t : Nat) :
    (s.step L ecfg cfg b).engine.fulfilled t = s.engine.fulfilled t := by
  by_cases hb : b = .shutdown
  · subst hb
    exact exited_fulfilled L ecfg h .shutdown t
  · rcases step_engine L ecfg cfg s b hb with ⟨env, _, he⟩ | ⟨_, he | ⟨req, he⟩⟩
    · rw [he]
      exact exited_fulfilled L ecfg h (.tick env) t
    · rw [he]
    · rw [he]
      exact exited_fulfilled L ecfg h (.enqueue req) t

/-- The engine thread is gone, and a connection waits for ever. -/
def Node.Leaves (s : Node n) (i : Nat) : Prop :=
  s.engine.place.isExited = true ∧
    ∃ c, s.connections[i]? = some c ∧ ¬ c.Settled s.engine

theorem leaves_step {s : Node n} (hb : Balanced s.engine) {i : Nat} (h : s.Leaves i)
    (b : Node.Action) : (s.step L ecfg cfg b).Leaves i := by
  obtain ⟨hgone, c, hc, hleft⟩ := h
  refine ⟨exited_stays L ecfg cfg hgone b, ?_⟩
  by_cases hgo : b = .go i
  · subst hgo
    refine ⟨_, go_connection L ecfg hc, ?_⟩
    have hsame := node_fulfilled L ecfg cfg hgone (.go i)
    unfold Connection.Settled at hleft ⊢
    cases hstage : c.stage with
    | counting w => simp
    | enqueuing w =>
      -- the new promise comes after the last one that was ever fulfilled
      have hnew : s.engine.fulfilled s.engine.enqueued.length = none := by
        rw [← Option.not_isSome_iff_eq_none, fulfilled_iff]
        have hledger := hb.accounts.ledger s.engine.enqueued.length
        rw [if_neg (Nat.lt_irrefl _)] at hledger
        omega
      simp only [hsame, hnew]
      simp
    | waiting w t =>
      rw [hstage] at hleft
      simp only [Bool.not_eq_true, Option.isSome_eq_false_iff, Option.isNone_iff_eq_none] at hleft
      simp only [hsame, hleft]
      simp
    | leaving w t result => simp [hstage] at hleft
    | replied promise res => simp [hstage] at hleft
  · refine ⟨c, step_connection hc hgo, ?_⟩
    unfold Connection.Settled at hleft ⊢
    simp only [node_fulfilled L ecfg cfg hgone]
    exact hleft

/-! ## A settled connection gets its reply -/

/-- How many steps a settled connection is from its reply. -/
def Stage.remaining : Stage → Nat
  | .counting _ | .enqueuing _ => 3
  | .waiting _ _ => 2
  | .leaving _ _ _ => 1
  | .replied _ _ => 0

/-- A settled connection without its reply can go on. -/
theorem settled_go (L : Llama) (ecfg : EngineConfig) {s : Node n} {i : Nat} {c : Connection}
    (hc : s.connections[i]? = some c) (hsettled : c.Settled s.engine)
    (hopen : c.stage.isReplied = false) :
    ∃ stage, Connection.Settled s.engine { c with stage := stage } ∧
      stage.remaining < c.stage.remaining ∧ (s.go L ecfg i).engine = s.engine ∧
      (s.go L ecfg i).connections = s.connections.set i { c with stage := stage } := by
  unfold Connection.Settled at hsettled
  unfold Node.go
  rw [hc]
  simp only
  cases hstage : c.stage with
  | counting w =>
    rw [hstage] at hsettled
    exact hsettled.elim
  | enqueuing w =>
    rw [hstage] at hsettled
    exact hsettled.elim
  | waiting w t =>
    rw [hstage] at hsettled
    obtain ⟨result, hresult⟩ := Option.isSome_iff_exists.mp hsettled
    simp only [hresult]
    exact ⟨.leaving w t result, trivial, by simp [Stage.remaining], by trivial, by trivial⟩
  | leaving w t result =>
    exact ⟨.replied (some t) (w.respond result), trivial, by simp [Stage.remaining], rfl, rfl⟩
  | replied promise res =>
    rw [hstage] at hopen
    cases hopen

/-- When all connections are settled, their threads alone bring them to their
replies. -/
theorem all_reply (L : Llama) (ecfg : EngineConfig) (s : Node n)
    (h : ∀ c ∈ s.connections, c.Settled s.engine) : ∃ is : List Nat,
      let s' := is.foldl (fun s i => s.go L ecfg i) s
      s'.engine = s.engine ∧ ∀ c ∈ s'.connections, c.stage.isReplied = true := by
  induction hk : (s.connections.map (fun c => c.stage.remaining)).sum using
    Nat.strong_induction_on generalizing s with
  | _ k ih =>
    by_cases hall : ∀ c ∈ s.connections, c.stage.isReplied = true
    · exact ⟨[], rfl, hall⟩
    · push Not at hall
      obtain ⟨c, hmem, hopen⟩ := hall
      rw [← Bool.eq_false_iff] at hopen
      obtain ⟨i, hc⟩ := List.mem_iff_getElem?.mp hmem
      obtain ⟨stage, hnew, hless, hengine, hconns⟩ :=
        settled_go L ecfg hc (h c hmem) hopen
      have hsum : ((s.go L ecfg i).connections.map (fun c => c.stage.remaining)).sum < k := by
        obtain ⟨rest, hold, hset⟩ := perm_set hc
        have h1 := (hold.map (fun c : Connection => c.stage.remaining)).sum_eq
        have h2 := ((hset { c with stage := stage }).map
          (fun c : Connection => c.stage.remaining)).sum_eq
        rw [List.map_cons, List.sum_cons] at h1 h2
        rw [hconns, h2]
        simp only
        omega
      have hsettled : ∀ c ∈ (s.go L ecfg i).connections, c.Settled (s.go L ecfg i).engine := by
        rw [hconns, hengine]
        intro c' hc'
        rcases List.mem_or_eq_of_mem_set hc' with hold | rfl
        · exact h c' hold
        · exact hnew
      obtain ⟨is, hsame, hreplied⟩ := ih _ hsum (s.go L ecfg i) hsettled rfl
      exact ⟨i :: is, hsame.trans hengine, hreplied⟩

/-! ## From there `main` returns -/

/-- `main` can come to its end. -/
def Process.CanReturn (sr : Nat → Bool) (L : Llama) (ecfg : EngineConfig) (cfg : ServerConfig)
    (s : Process n) : Prop :=
  ∃ bs : List Process.Action, (bs.foldl (Process.step sr L ecfg cfg) s).main = .returned

theorem canReturn_of_step {s : Process n} (a : Process.Action)
    (h : (s.step sr L ecfg cfg a).CanReturn sr L ecfg cfg) : s.CanReturn sr L ecfg cfg := by
  obtain ⟨bs, hbs⟩ := h
  exact ⟨a :: bs, hbs⟩

theorem Node.Finished.httpDone {s : Node n} (h : s.Finished) : s.httpDone = true :=
  (httpDone_iff s).mpr (fun c hc _ => h.replied c hc)

theorem Node.Finished.grpcCalls {s : Node n} (h : s.Finished) : s.grpcCalls = 0 :=
  (grpcCalls_zero_iff s).mpr (fun c hc _ => h.replied c hc)

theorem Node.Finished.shutdown {s : Node n} (h : s.Finished) (L : Llama) (ecfg : EngineConfig)
    (cfg : ServerConfig) : (s.step L ecfg cfg .shutdown).Finished :=
  ⟨exited_stays L ecfg cfg h.exited .shutdown, h.replied⟩

section ending

variable {s : Process n}

/-- A step of the main thread on the way to the end. -/
theorem canReturn_of_advance {s' : Process n} (he : s.advance sr L ecfg cfg = s')
    (h : s'.CanReturn sr L ecfg cfg) : s.CanReturn sr L ecfg cfg :=
  canReturn_of_step .main (by
    change (s.advance sr L ecfg cfg).CanReturn sr L ecfg cfg
    rwa [he])

/-- After the loop of `accept`, `main` has nothing to wait for. -/
theorem canReturn_unlistening (hsr : WaitsForCalls sr) (h : s.node.Finished)
    (hh : s.handler = none) (hm : s.main ≠ .starting)
    (hl : s.main = .listening → s.listens = false) : s.CanReturn sr L ecfg cfg := by
  have hengine : ∀ s : Process n, s.node.Finished → s.handler = none →
      s.main = .stopping_engine → s.CanReturn sr L ecfg cfg := by
    intro s h hh hm
    have he : s.advance sr L ecfg cfg = { s with main := .returned } := by
      simp [Process.advance, hh, hm, h.exited]
    exact canReturn_of_advance he ⟨[], rfl⟩
  have hgrpc : ∀ s : Process n, s.node.Finished → s.handler = none →
      s.main = .stopping_grpc → s.CanReturn sr L ecfg cfg := by
    intro s h hh hm
    have he : s.advance sr L ecfg cfg =
        { s with main := .stopping_engine, node := s.node.step L ecfg cfg .shutdown } := by
      simp [Process.advance, hh, hm, h.grpcCalls, (hsr 0).mpr]
    exact canReturn_of_advance he (hengine _ (h.shutdown L ecfg cfg) hh rfl)
  have hpool : ∀ s : Process n, s.node.Finished → s.handler = none →
      s.main = .joining_pool → s.CanReturn sr L ecfg cfg := by
    intro s h hh hm
    have he : s.advance sr L ecfg cfg = { s with main := .stopping_grpc, grpc_open := false } := by
      simp [Process.advance, hh, hm, h.httpDone]
    exact canReturn_of_advance he (hgrpc _ h hh rfl)
  cases hm' : s.main with
  | starting => exact absurd hm' hm
  | listening =>
    have he : s.advance sr L ecfg cfg = { s with main := .joining_pool } := by
      simp [Process.advance, hh, hm', hl hm']
    exact canReturn_of_advance he (hpool _ h hh rfl)
  | joining_pool => exact hpool s h hh hm'
  | stopping_grpc => exact hgrpc s h hh hm'
  | stopping_engine => exact hengine s h hh hm'
  | returned => exact ⟨[], hm'⟩

/-- The handler comes to its end. -/
theorem canReturn_handling (hsr : WaitsForCalls sr) (h : s.node.Finished) {place : HandlerPlace}
    (hh : s.handler = some place)
    (hdone : ∀ s' : Process n, s'.node.Finished → s'.handler = none → s'.main = s.main →
      s'.listens = false → s'.CanReturn sr L ecfg cfg) : s.CanReturn sr L ecfg cfg := by
  have hhttp : ∀ s' : Process n, s'.node.Finished → s'.main = s.main →
      s'.handler = some .stopping_http → s'.CanReturn sr L ecfg cfg := by
    intro s' h' hm' hh'
    have he : s'.advance sr L ecfg cfg = { s' with handler := none, listens := false } := by
      simp [Process.advance, hh']
    exact canReturn_of_advance he (hdone _ h' rfl hm' rfl)
  have hgrpc : ∀ s' : Process n, s'.node.Finished → s'.main = s.main →
      s'.handler = some .stopping_grpc → s'.CanReturn sr L ecfg cfg := by
    intro s' h' hm' hh'
    have he : s'.advance sr L ecfg cfg = { s' with handler := some .stopping_http } := by
      simp [Process.advance, hh', h'.grpcCalls, (hsr 0).mpr]
    exact canReturn_of_advance he (hhttp _ h' hm' rfl)
  cases place with
  | stopping_engine =>
    have he : s.advance sr L ecfg cfg =
        { s with handler := some .stopping_grpc, grpc_open := false } := by
      simp [Process.advance, hh, h.exited]
    exact canReturn_of_advance he (hgrpc _ h rfl rfl)
  | stopping_grpc => exact hgrpc s h rfl hh
  | stopping_http => exact hhttp s h rfl hh

/-- From everywhere, with one more signal if `main` still listens. -/
theorem finished_canReturn (hsr : WaitsForCalls sr) (h : s.node.Finished) :
    s.CanReturn sr L ecfg cfg := by
  have hlistening : ∀ s : Process n, s.node.Finished → s.handler = none →
      s.main = .listening → s.CanReturn sr L ecfg cfg := by
    intro s h hh hm
    cases hl : s.listens with
    | false => exact canReturn_unlistening hsr h hh (by simp [hm]) (fun _ => hl)
    | true =>
      have he : s.step sr L ecfg cfg .signal = { s with
          handler := some .stopping_engine
          node := s.node.step L ecfg cfg .shutdown } := by
        simp [Process.step, hh, hm, hl, MainPlace.serves]
      apply canReturn_of_step .signal
      rw [he]
      apply canReturn_handling hsr (h.shutdown L ecfg cfg) rfl
      exact fun s' h' hh' hm' hl' =>
        canReturn_unlistening hsr h' hh' (by simp [hm', hm]) (fun _ => hl')
  have hidle : ∀ s : Process n, s.node.Finished → s.handler = none →
      s.CanReturn sr L ecfg cfg := by
    intro s h hh
    by_cases hm : s.main = .starting
    · have he : s.advance sr L ecfg cfg = { s with main := .listening, listens := true } := by
        simp [Process.advance, hh, hm]
      exact canReturn_of_advance he (hlistening _ h hh rfl)
    · by_cases hm' : s.main = .listening
      · exact hlistening s h hh hm'
      · exact canReturn_unlistening hsr h hh hm (fun hl => absurd hl hm')
  cases hh : s.handler with
  | none => exact hidle s h hh
  | some place => exact canReturn_handling hsr h hh fun s' h' hh' _ _ => hidle s' h' hh'

end ending

/-! ## The law of the hanging process -/

/-- The steps of the threads, seen from the process. -/
theorem go_fold (s : Process n) (is : List Nat) :
    (is.map Process.Action.go).foldl (Process.step sr L ecfg cfg) s =
      { s with node := is.foldl (fun s i => s.go L ecfg i) s.node } := by
  induction is generalizing s with
  | nil => rfl
  | cons i is ih =>
    rw [List.map_cons, List.foldl_cons, List.foldl_cons, ih]
    rfl

/-- Once the engine thread is gone, in any run: `main` can still come to its
end if and only if no client is left, neither one that waits for a promise
that was not fulfilled, nor one that is about to enqueue. -/
theorem main_can_return_iff_nobody_is_left (shutdown_returns : Nat → Bool)
    (hgrpc : WaitsForCalls shutdown_returns) (L : Llama) (ecfg : EngineConfig)
    (cfg : ServerConfig) (as : List Process.Action)
    (hexit : ((process shutdown_returns L ecfg cfg).run as).node.engine.place = .exited) :
    let s := (process shutdown_returns L ecfg cfg).run as
    (∃ bs, ((process shutdown_returns L ecfg cfg).run (as ++ bs)).main = .returned) ↔
      ∀ c ∈ s.node.connections, c.Settled s.node.engine := by
  intro s
  have hgone : s.node.engine.place.isExited = true := congrArg Place.isExited hexit
  constructor
  · rintro ⟨bs, hreturned⟩ c hc
    by_contra hleft
    obtain ⟨i, hi⟩ := List.mem_iff_getElem?.mp hc
    -- the connection that is left stays where it is
    have hstays := invariant_after (process shutdown_returns L ecfg cfg) (fun _ _ => True)
      (fun s => Balanced s.node.engine) (fun s => s.node.Leaves i) ?_ ?_ as bs
      ⟨hgone, c, hi, hleft⟩ (meets_true _ _ _)
    · obtain ⟨_, c', hc', hleft'⟩ := hstays
      have hfinished := returned_finished hgrpc L ecfg cfg (as ++ bs) hreturned
      obtain ⟨promise, res, hstage⟩ :=
        (isReplied_iff _).mp (hfinished.replied c' (List.mem_of_getElem? hc'))
      apply hleft'
      unfold Connection.Settled
      rw [hstage]
      trivial
    · intro as
      obtain ⟨ns, hns⟩ := process_node shutdown_returns L ecfg cfg as
      obtain ⟨es, hes⟩ := node_engine L ecfg cfg ns
      rw [hns, hes]
      exact balanced_run L ecfg es
    · rintro s a hb - hleaves
      change (Process.step shutdown_returns L ecfg cfg s a).node.Leaves i
      rcases step_node shutdown_returns L ecfg cfg s a with he | ⟨b, he⟩
      · rw [he]
        exact hleaves
      · rw [he]
        exact leaves_step hb hleaves b
  · intro hsettled
    obtain ⟨is, hengine, hreplied⟩ := all_reply L ecfg s.node hsettled
    have hfinished : (is.foldl (fun s i => s.go L ecfg i) s.node).Finished :=
      ⟨by rw [hengine]; exact hgone, hreplied⟩
    obtain ⟨bs, hbs⟩ : Process.CanReturn shutdown_returns L ecfg cfg
        { s with node := is.foldl (fun s i => s.go L ecfg i) s.node } :=
      finished_canReturn hgrpc hfinished
    refine ⟨is.map .go ++ bs, ?_⟩
    rw [run_append, List.foldl_append]
    change (bs.foldl (Process.step shutdown_returns L ecfg cfg)
      ((is.map Process.Action.go).foldl (Process.step shutdown_returns L ecfg cfg) s)).main = _
    rw [go_fold]
    exact hbs

/-- A signal comes while a request waits in the queue of an idle engine. -/
def stoppedTooEarly : List Process.Action :=
  [.main, .arrive helloClient helloSurroundings, .go 0, .go 0, .signal, .tick ⟨0, .ok⟩]

/-- The client of that run is never answered, and in the run before everybody
was. -/
theorem main_can_return_iff_nobody_is_left_both_ways :
    (¬ ∃ bs, ((process documentedShutdown countingLlama {} {}).run
      (stoppedTooEarly ++ bs)).main = .returned) ∧
    ∃ bs, ((process documentedShutdown countingLlama {} {}).run
      (servedThenStopped ++ bs)).main = .returned := by
  have hearly := main_can_return_iff_nobody_is_left documentedShutdown waitsForCalls_documented
    countingLlama {} {} stoppedTooEarly rfl
  have hserved := main_can_return_iff_nobody_is_left documentedShutdown waitsForCalls_documented
    countingLlama {} {} servedThenStopped
  exact ⟨fun hreturns => absurd (hearly.mp hreturns) (by decide +kernel),
    (hserved ((isExited_iff _).mp (by decide +kernel))).mpr (by decide +kernel)⟩

end inference_server
