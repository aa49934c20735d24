-- The node behind the thread pool of the HTTP server. A thread of the pool
-- serves one connection at a time: it reads a request, runs the handler, which
-- may block for the engine, replies, and reads the next one (`listen_internal`
-- and `process_server_socket_core` in `httplib.h`). The calls of gRPC have
-- threads of their own.
import InferenceServer.PoolProgress
import InferenceServer.QueueDepth
import InferenceServer.Replies

namespace inference_server

open machine httplib

variable {n : Nat}

/-! ## The machine -/

/-- A request over HTTP, with what its handler will find around it. -/
structure SocketRequest where
  client : ClientRequest
  env : Surroundings
  over_http : client.overHttp = true

/-- A connection over HTTP. `requests` are those that are still to be read, and
`current` is the connection of the node whose handler runs. The last two fields
only record: all requests that may be read, and those that were handled. -/
structure Socket where
  requests : List SocketRequest
  current : Option Nat
  asked : List SocketRequest
  handled : List Nat

structure PooledNode (n : Nat) where
  node : Node n
  pool : ThreadPool Nat
  sockets : List Socket

/-- `CPPHTTPLIB_KEEPALIVE_MAX_COUNT`. -/
def keepAliveMaxCount : Nat := 100

/-- The pool that the constructor of `Server` asks for. -/
def newTaskQueue (hardware_concurrency : Nat) : PoolSizes where
  base_thread_count := threadPoolCount hardware_concurrency
  max_thread_count := threadPoolCount hardware_concurrency * 4
  max_queued_requests := 0
  base_le_max := Nat.le_mul_of_pos_right _ (by decide)

/-- The constructor of `ThreadPool` takes these sizes. -/
theorem newTaskQueue_eq (hardware_concurrency : Nat) :
    PoolSizes.new (threadPoolCount hardware_concurrency)
      (threadPoolCount hardware_concurrency * 4) 0 = some (newTaskQueue hardware_concurrency) := by
  have hpos : 8 ≤ threadPoolCount hardware_concurrency := le_max_left _ _
  unfold PoolSizes.new newTaskQueue
  rw [dif_neg (by omega)]
  simp only [Option.some.injEq, PoolSizes.mk.injEq, true_and, and_true]
  rw [if_neg (by omega)]

/-- What `keep_alive` finds on a new connection. 100 requests may be read from
it, and each that httplib can read comes to its handler. -/
def Socket.new (requests : List SocketRequest) : Socket where
  requests := requests.take keepAliveMaxCount
  current := none
  asked := requests.take keepAliveMaxCount
  handled := []

namespace PooledNode

/-- The connection that thread `i` of the pool serves. -/
def serving (s : PooledNode n) (i : Nat) : Option (Nat × Socket) :=
  match placeAt s.pool.workers i with
  | some (.running k) => s.sockets[k]?.map (fun c => (k, c))
  | _ => none

def isReplied (s : PooledNode n) (j : Nat) : Bool :=
  s.node.connections[j]?.any (fun c => c.stage.isReplied)

def setSocket (s : PooledNode n) (k : Nat) (c : Socket) : PooledNode n :=
  { s with sockets := s.sockets.set k c }

/-- The next step of thread `i` of the pool. With a request it is the step of
its handler, and behind the last request the job is done. -/
def work (L : Llama) (ecfg : EngineConfig) (cfg : ServerConfig) (s : PooledNode n) (i : Nat) :
    PooledNode n :=
  match s.serving i with
  | none => { s with pool := s.pool.work i }
  | some (k, c) =>
    match c.current with
    | some j =>
      if s.isReplied j then
        s.setSocket k { c with current := none, handled := c.handled ++ [j] }
      else { s with node := s.node.go L ecfg j }
    | none =>
      match c.requests with
      | r :: requests =>
        { s.setSocket k { c with requests, current := some s.node.connections.length } with
          node := s.node.step L ecfg cfg (.arrive r.client r.env) }
      | [] => { s with pool := s.pool.work i }

inductive Action where
  | accept (requests : List SocketRequest)
  | stop
  | own (pick : Nat)
  | work (i : Nat)
  | timeout (i : Nat)
  | wake (i : Nat)
  | call (client : ClientRequest) (env : Surroundings)
  | go (j : Nat)
  | tick (env : Engine.Env)
  | shutdown

/-- `accept` and `stop` are up to the listening thread while it is in its
loop. A call of gRPC comes and goes on by itself. -/
def step (L : Llama) (ecfg : EngineConfig) (cfg : ServerConfig) (sizes : PoolSizes)
    (s : PooledNode n) : Action → PooledNode n
  | .accept requests =>
    if s.pool.owner = .listening then
      { s with
        pool := s.pool.step sizes (.enqueue s.sockets.length)
        sockets := s.sockets ++ [.new requests] }
    else s
  | .stop => { s with pool := s.pool.step sizes .shutdown }
  | .own pick => { s with pool := s.pool.step sizes (.own pick) }
  | .work i => s.work L ecfg cfg i
  | .timeout i => { s with pool := s.pool.step sizes (.timeout i) }
  | .wake i => { s with pool := s.pool.step sizes (.wake i) }
  | .call client env =>
    if client.overHttp then s
    else { s with node := s.node.step L ecfg cfg (.arrive client env) }
  | .go j =>
    if s.node.connections[j]?.any (fun c => c.client.overHttp) then s
    else { s with node := s.node.go L ecfg j }
  | .tick env => { s with node := s.node.step L ecfg cfg (.tick env) }
  | .shutdown => { s with node := s.node.step L ecfg cfg .shutdown }

end PooledNode

def pooledNode (L : Llama) (ecfg : EngineConfig) (cfg : ServerConfig)
    (hardware_concurrency : Nat) : Machine (PooledNode ecfg.max_slots) PooledNode.Action :=
  { init := ⟨(node L ecfg cfg).init, .new (newTaskQueue hardware_concurrency), []⟩
    step := PooledNode.step L ecfg cfg (newTaskQueue hardware_concurrency) }

/-! ## The two parts -/

namespace PooledNode

variable {L : Llama} {ecfg : EngineConfig} {cfg : ServerConfig} {hw : Nat}

/-- What a step of thread `i` does: it is a step of the pool alone, or one for
the connection that the thread serves. -/
theorem work_cases (L : Llama) (ecfg : EngineConfig) (cfg : ServerConfig) (s : PooledNode n)
    (i : Nat) :
    (s.work L ecfg cfg i = { s with pool := s.pool.work i } ∧
      ∀ k c, s.serving i = some (k, c) → c.current = none ∧ c.requests = []) ∨
    ∃ k c, s.serving i = some (k, c) ∧
      ((∃ j, c.current = some j ∧ s.isReplied j = true ∧
        s.work L ecfg cfg i = s.setSocket k
          { c with current := none, handled := c.handled ++ [j] }) ∨
      (∃ j, c.current = some j ∧ s.isReplied j = false ∧
        s.work L ecfg cfg i = { s with node := s.node.go L ecfg j }) ∨
      (∃ r requests, c.current = none ∧ c.requests = r :: requests ∧
        s.work L ecfg cfg i =
          { s.setSocket k { c with requests, current := some s.node.connections.length } with
            node := s.node.step L ecfg cfg (.arrive r.client r.env) })) := by
  unfold work
  cases hserving : s.serving i with
  | none => exact Or.inl ⟨rfl, nofun⟩
  | some kc =>
    obtain ⟨k, c⟩ := kc
    simp only
    cases hcurrent : c.current with
    | some j =>
      cases hreplied : s.isReplied j with
      | true => exact Or.inr ⟨k, c, rfl, Or.inl ⟨j, hcurrent, hreplied, by simp [hreplied]⟩⟩
      | false =>
        exact Or.inr ⟨k, c, rfl, Or.inr (Or.inl ⟨j, hcurrent, hreplied, by simp [hreplied]⟩)⟩
    | none =>
      cases hrequests : c.requests with
      | nil =>
        refine Or.inl ⟨rfl, ?_⟩
        rintro k' c' h
        simp only [Option.some.injEq, Prod.mk.injEq] at h
        rw [← h.2]
        exact ⟨hcurrent, hrequests⟩
      | cons r requests =>
        exact Or.inr ⟨k, c, rfl, Or.inr (Or.inr ⟨r, requests, hcurrent, hrequests, rfl⟩)⟩

/-- What an action does to the node. -/
def nodeAction (s : PooledNode n) : Action → Node.Action
  | .work i =>
    match s.serving i with
    | none => .go s.node.connections.length
    | some (_, c) =>
      match c.current with
      | some j => if s.isReplied j then .go s.node.connections.length else .go j
      | none =>
        match c.requests with
        | r :: _ => .arrive r.client r.env
        | [] => .go s.node.connections.length
  | .call client env =>
    if client.overHttp then .go s.node.connections.length else .arrive client env
  | .go j =>
    if s.node.connections[j]?.any (fun c => c.client.overHttp) then .go s.node.connections.length
    else .go j
  | .tick env => .tick env
  | .shutdown => .shutdown
  | _ => .go s.node.connections.length

/-- What an action does to the pool. -/
def poolAction (s : PooledNode n) : Action → ThreadPool.Action Nat
  | .accept _ => .enqueue s.sockets.length
  | .stop => .shutdown
  | .own pick => .own pick
  | .work i =>
    match s.serving i with
    | none => .work i
    | some (_, c) =>
      match c.current, c.requests with
      | none, [] => .work i
      | _, _ => .wake s.pool.workers.length
  | .timeout i => .timeout i
  | .wake i => .wake i
  | _ => .wake s.pool.workers.length

/-- No connection has this number yet. -/
theorem go_nobody (s : Node n) : s.step L ecfg cfg (.go s.connections.length) = s := by
  change s.go L ecfg s.connections.length = s
  unfold Node.go
  rw [List.getElem?_eq_none (Nat.le_refl _)]

theorem wake_nobody {J : Type} (s : ThreadPool J) (sizes : PoolSizes) :
    s.step sizes (.wake s.workers.length) = s := by
  have hnone : placeAt s.workers s.workers.length = none := by
    unfold placeAt
    rw [List.getElem?_eq_none (Nat.le_refl _)]
    rfl
  change s.wake s.workers.length = s
  unfold ThreadPool.wake ThreadPool.sleeps
  rw [hnone]
  rfl

theorem step_node_part (L : Llama) (ecfg : EngineConfig) (cfg : ServerConfig) (sizes : PoolSizes)
    (s : PooledNode n) (a : Action) :
    (s.step L ecfg cfg sizes a).node = s.node.step L ecfg cfg (s.nodeAction a) := by
  cases a with
  | accept requests =>
    have hnode : (s.step L ecfg cfg sizes (.accept requests)).node = s.node := by
      unfold step
      simp only
      split <;> rfl
    exact hnode.trans (go_nobody _).symm
  | stop => exact (go_nobody _).symm
  | own pick => exact (go_nobody _).symm
  | timeout i => exact (go_nobody _).symm
  | wake i => exact (go_nobody _).symm
  | tick env => rfl
  | shutdown => rfl
  | call client env =>
    simp only [step, nodeAction]
    split
    · exact (go_nobody _).symm
    · rfl
  | go j =>
    simp only [step, nodeAction]
    split
    · exact (go_nobody _).symm
    · rfl
  | work i =>
    change (s.work L ecfg cfg i).node = _
    rcases work_cases L ecfg cfg s i with ⟨he, hend⟩ | ⟨k, c, hserving,
      ⟨j, hcurrent, hreplied, he⟩ | ⟨j, hcurrent, hreplied, he⟩ |
      ⟨r, requests, hcurrent, hrequests, he⟩⟩
    · rw [he]
      unfold nodeAction
      cases hserving : s.serving i with
      | none =>
        simp only [hserving]
        exact (go_nobody _).symm
      | some kc =>
        obtain ⟨hcurrent, hrequests⟩ := hend kc.1 kc.2 hserving
        simp only [hserving, hcurrent, hrequests]
        exact (go_nobody _).symm
    · simp only [he, nodeAction, hserving, hcurrent, hreplied, if_true]
      exact (go_nobody _).symm
    · simp only [he, nodeAction, hserving, hcurrent, hreplied, Bool.false_eq_true, if_false]
      rfl
    · simp only [he, nodeAction, hserving, hcurrent, hrequests]

theorem step_pool_part (L : Llama) (ecfg : EngineConfig) (cfg : ServerConfig) (sizes : PoolSizes)
    (s : PooledNode n) (a : Action) :
    (s.step L ecfg cfg sizes a).pool = s.pool.step sizes (s.poolAction a) := by
  cases a with
  | accept requests =>
    simp only [step, poolAction]
    split
    · rfl
    · rename_i ho
      simp only [ThreadPool.step, if_neg ho]
  | stop => rfl
  | own pick => rfl
  | timeout i => rfl
  | wake i => rfl
  | tick env => exact (wake_nobody _ _).symm
  | shutdown => exact (wake_nobody _ _).symm
  | call client env =>
    simp only [step, poolAction]
    rw [wake_nobody]
    split <;> rfl
  | go j =>
    simp only [step, poolAction]
    rw [wake_nobody]
    split <;> rfl
  | work i =>
    change (s.work L ecfg cfg i).pool = _
    rcases work_cases L ecfg cfg s i with ⟨he, hend⟩ | ⟨k, c, hserving,
      ⟨j, hcurrent, hreplied, he⟩ | ⟨j, hcurrent, hreplied, he⟩ |
      ⟨r, requests, hcurrent, hrequests, he⟩⟩
    · rw [he]
      unfold poolAction
      cases hserving : s.serving i with
      | none =>
        simp only [hserving]
        rfl
      | some kc =>
        obtain ⟨hcurrent, hrequests⟩ := hend kc.1 kc.2 hserving
        simp only [hserving, hcurrent, hrequests]
        rfl
    · simp only [he, poolAction, hserving, hcurrent]
      exact (wake_nobody _ _).symm
    · simp only [he, poolAction, hserving, hcurrent]
      exact (wake_nobody _ _).symm
    · simp only [he, poolAction, hserving, hcurrent, hrequests]
      exact (wake_nobody _ _).symm

end PooledNode

variable {L : Llama} {ecfg : EngineConfig} {cfg : ServerConfig} {hw : Nat}

def nodePart (L : Llama) (ecfg : EngineConfig) (cfg : ServerConfig) (hw : Nat) :
    Part (pooledNode L ecfg cfg hw) (node L ecfg cfg) where
  read := PooledNode.node
  act := PooledNode.nodeAction
  read_init := rfl
  read_step := PooledNode.step_node_part L ecfg cfg _

def poolPart (L : Llama) (ecfg : EngineConfig) (cfg : ServerConfig) (hw : Nat) :
    Part (pooledNode L ecfg cfg hw) (threadPool Nat (newTaskQueue hw)) where
  read := PooledNode.pool
  act := PooledNode.poolAction
  read_init := rfl
  read_step := PooledNode.step_pool_part L ecfg cfg _

/-! ## Requests and their handlers -/

/-- The connection of the node handles the request. -/
def Node.Handles (s : Node n) (r : SocketRequest) (j : Nat) : Prop :=
  ∃ stage, s.connections[j]? = some ⟨r.client, r.env, stage⟩

def Node.RepliedTo (s : Node n) (r : SocketRequest) (j : Nat) : Prop :=
  ∃ promise res, s.connections[j]? = some ⟨r.client, r.env, .replied promise res⟩

theorem Node.Handles.step {s : Node n} {r : SocketRequest} {j : Nat} (h : s.Handles r j)
    (b : Node.Action) : (s.step L ecfg cfg b).Handles r j := by
  obtain ⟨stage, hc⟩ := h
  by_cases hb : b = .go j
  · subst hb
    exact ⟨_, go_connection L ecfg hc⟩
  · exact ⟨stage, step_connection hc hb⟩

theorem Node.RepliedTo.step {s : Node n} {r : SocketRequest} {j : Nat} (h : s.RepliedTo r j)
    (b : Node.Action) : (s.step L ecfg cfg b).RepliedTo r j := by
  obtain ⟨promise, res, hc⟩ := h
  by_cases hb : b = .go j
  · subst hb
    exact ⟨promise, res, go_connection L ecfg hc⟩
  · exact ⟨promise, res, step_connection hc hb⟩

theorem Node.Handles.replied {s : PooledNode n} {r : SocketRequest} {j : Nat}
    (h : s.node.Handles r j) (hreplied : s.isReplied j = true) : s.node.RepliedTo r j := by
  obtain ⟨stage, hc⟩ := h
  unfold PooledNode.isReplied at hreplied
  rw [hc] at hreplied
  cases stage with
  | replied promise res => exact ⟨promise, res, hc⟩
  | _ => cases hreplied

/-! ## What one step does to a socket -/

/-- What one turn of its thread makes of a socket. -/
inductive Socket.Turn (s : PooledNode n) (c : Socket) : Socket → Prop
  | ends (j : Nat) : c.current = some j → s.isReplied j = true →
      Turn s c { c with current := none, handled := c.handled ++ [j] }
  | reads (r : SocketRequest) (requests : List SocketRequest) : c.current = none →
      c.requests = r :: requests →
      Turn s c { c with requests, current := some s.node.connections.length }

namespace PooledNode

theorem serving_eq {s : PooledNode n} {i k : Nat} {c : Socket} :
    s.serving i = some (k, c) ↔
      placeAt s.pool.workers i = some (.running k) ∧ s.sockets[k]? = some c := by
  unfold serving
  cases hp : placeAt s.pool.workers i with
  | none => simp
  | some p =>
    cases p <;> simp
    constructor
    · rintro ⟨hc, rfl⟩
      exact ⟨rfl, hc⟩
    · rintro ⟨rfl, hc⟩
      exact ⟨hc, rfl⟩

/-- A socket stays as it is, or the thread that serves it takes a turn. -/
theorem step_socket (L : Llama) (ecfg : EngineConfig) (cfg : ServerConfig) (sizes : PoolSizes)
    {s : PooledNode n} {k : Nat} {c : Socket} (hc : s.sockets[k]? = some c) (a : Action) :
    (s.step L ecfg cfg sizes a).sockets[k]? = some c ∨
      ∃ i c', a = .work i ∧ s.serving i = some (k, c) ∧ c.Turn s c' ∧
        (s.step L ecfg cfg sizes a).sockets[k]? = some c' := by
  have hlt := (List.getElem?_eq_some_iff.mp hc).1
  cases a with
  | accept requests =>
    left
    unfold step
    simp only
    split
    · rw [List.getElem?_append_left hlt]
      exact hc
    · exact hc
  | call client env =>
    left
    unfold step
    simp only
    split <;> exact hc
  | go j =>
    left
    unfold step
    simp only
    split <;> exact hc
  | work i =>
    change (s.work L ecfg cfg i).sockets[k]? = some c ∨ ∃ i' c', Action.work i = .work i' ∧
      s.serving i' = some (k, c) ∧ c.Turn s c' ∧ (s.work L ecfg cfg i).sockets[k]? = some c'
    -- a turn of another socket is none of this one
    have hturn : ∀ k' c₀ c', s.serving i = some (k', c₀) → c₀.Turn s c' →
        (s.sockets.set k' c')[k]? = some c ∨ ∃ i' c'', Action.work i = .work i' ∧
          s.serving i' = some (k, c) ∧ c.Turn s c'' ∧ (s.sockets.set k' c')[k]? = some c'' := by
      intro k' c₀ c' hserving ht
      by_cases hk : k' = k
      · subst hk
        have hsame := (serving_eq.mp hserving).2
        rw [hc, Option.some.injEq] at hsame
        subst hsame
        exact Or.inr ⟨i, c', rfl, hserving, ht, List.getElem?_set_self hlt⟩
      · left
        rw [List.getElem?_set_ne hk]
        exact hc
    rcases work_cases L ecfg cfg s i with ⟨he, _⟩ | ⟨k', c₀, hserving, ⟨j, hcurrent, hreplied, he⟩ |
      ⟨j, hcurrent, hreplied, he⟩ | ⟨r, requests, hcurrent, hrequests, he⟩⟩
    all_goals rw [he]
    · exact Or.inl hc
    · exact hturn k' c₀ _ hserving (.ends j hcurrent hreplied)
    · exact Or.inl hc
    · exact hturn k' c₀ _ hserving (.reads r requests hcurrent hrequests)
  | _ => exact Or.inl hc

theorem poolAction_work {s : PooledNode n} {a : Action} {i : Nat}
    (h : s.poolAction a = .work i) :
    a = .work i ∧ ∀ k c, s.serving i = some (k, c) → c.current = none ∧ c.requests = [] := by
  cases a with
  | work i' =>
    unfold poolAction at h
    cases hserving : s.serving i' with
    | none =>
      simp only [hserving, ThreadPool.Action.work.injEq] at h
      subst h
      exact ⟨rfl, fun k c hs => by rw [hserving] at hs; cases hs⟩
    | some kc =>
      obtain ⟨k, c⟩ := kc
      simp only [hserving] at h
      split at h
      · rename_i hcurrent hrequests
        rw [ThreadPool.Action.work.injEq] at h
        subst h
        refine ⟨rfl, fun k' c' hs => ?_⟩
        rw [hserving, Option.some.injEq, Prod.mk.injEq] at hs
        rw [← hs.2]
        exact ⟨hcurrent, hrequests⟩
      · cases h
  | _ => cases h

theorem poolAction_enqueue {s : PooledNode n} {a : Action} {k : Nat}
    (h : s.poolAction a = .enqueue k) : ∃ requests, a = .accept requests := by
  cases a with
  | accept requests => exact ⟨requests, rfl⟩
  | work i =>
    simp only [poolAction] at h
    split at h
    · cases h
    · split at h <;> cases h
  | _ => cases h

/-- A thread with something to do for its socket does it. -/
theorem step_turns (L : Llama) (ecfg : EngineConfig) (cfg : ServerConfig) (sizes : PoolSizes)
    {s : PooledNode n} {i k : Nat} {c : Socket}
    (hserving : s.serving i = some (k, c))
    (hready : c.current = none ∧ c.requests ≠ [] ∨ ∃ j, c.current = some j ∧ s.isReplied j = true) :
    ∃ c', c.Turn s c' ∧ (s.step L ecfg cfg sizes (.work i)).sockets[k]? = some c' := by
  have hlt := (List.getElem?_eq_some_iff.mp (serving_eq.mp hserving).2).1
  change ∃ c', c.Turn s c' ∧ (s.work L ecfg cfg i).sockets[k]? = some c'
  rcases work_cases L ecfg cfg s i with ⟨_, hend⟩ | ⟨k', c₀, hserving', hcases⟩
  · obtain ⟨hcurrent, hrequests⟩ := hend k c hserving
    rcases hready with ⟨_, hne⟩ | ⟨j, hj, _⟩
    · exact absurd hrequests hne
    · rw [hcurrent] at hj
      cases hj
  · rw [hserving, Option.some.injEq, Prod.mk.injEq] at hserving'
    obtain ⟨rfl, rfl⟩ := hserving'
    rcases hcases with ⟨j, hcurrent, hreplied, he⟩ | ⟨j, hcurrent, hreplied, he⟩ |
      ⟨r, requests, hcurrent, hrequests, he⟩
    · refine ⟨_, .ends j hcurrent hreplied, ?_⟩
      rw [he]
      exact List.getElem?_set_self hlt
    · rcases hready with ⟨hnone, _⟩ | ⟨j', hj', hreplied'⟩
      · rw [hcurrent] at hnone
        cases hnone
      · rw [hcurrent, Option.some.injEq] at hj'
        rw [← hj', hreplied] at hreplied'
        cases hreplied'
    · refine ⟨_, .reads r requests hcurrent hrequests, ?_⟩
      rw [he]
      exact List.getElem?_set_self hlt

end PooledNode

/-! ## What is true of the sockets -/

/-- What is true of a socket: each request was replied to, is with its handler
or is still to be read, in this order; while a handler runs, some thread serves
the socket; and behind its job nothing is left. -/
structure Socket.Sound (s : PooledNode n) (k : Nat) (c : Socket) : Prop where
  story : ∃ done doing, c.asked = done ++ doing ++ c.requests ∧
    List.Forall₂ s.node.RepliedTo done c.handled ∧
    List.Forall₂ s.node.Handles doing c.current.toList
  served : ∀ j, c.current = some j → ∃ i, placeAt s.pool.workers i = some (.running k)
  done : k ∈ s.pool.completed → c.current = none ∧ c.requests = []

/-- Every socket was given to the pool, and the handler of an HTTP request
belongs to a socket until it has replied. -/
structure PooledNode.Sound (s : PooledNode n) : Prop where
  accepted : s.pool.accepted = List.range s.sockets.length
  each : ∀ k (c : Socket), s.sockets[k]? = some c → c.Sound s k
  http : ∀ j (conn : Connection), s.node.connections[j]? = some conn → conn.client.overHttp = true →
    conn.stage.isReplied = false →
      ∃ (k : Nat) (c : Socket), s.sockets[k]? = some c ∧ c.current = some j

theorem Socket.Sound.new (s : PooledNode n) (k : Nat) (requests : List SocketRequest)
    (hk : k ∉ s.pool.completed) : (Socket.new requests).Sound s k := by
  refine ⟨⟨[], [], rfl, .nil, .nil⟩, ?_, fun h => absurd h hk⟩
  intro j hj
  cases hj

/-- A socket that stays as it is. -/
theorem Socket.Sound.kept {sizes : PoolSizes} {s : PooledNode n} {k : Nat} {c : Socket}
    (h : c.Sound s k) (hc : s.sockets[k]? = some c) (a : PooledNode.Action) :
    c.Sound (s.step L ecfg cfg sizes a) k := by
  obtain ⟨⟨done, doing, hasked, hdone, hdoing⟩, hserved, hend⟩ := h
  have hm := ThreadPool.step_moves sizes s.pool (s.poolAction a)
  rw [← PooledNode.step_pool_part L ecfg cfg] at hm
  refine ⟨⟨done, doing, hasked, ?_, ?_⟩, ?_, ?_⟩
  · rw [PooledNode.step_node_part]
    exact hdone.imp (fun r j hr => hr.step _)
  · rw [PooledNode.step_node_part]
    exact hdoing.imp (fun r j hr => hr.step _)
  · intro j hj
    obtain ⟨i, hi⟩ := hserved j hj
    rcases ThreadPool.moves_place hm hi with hi' | ha | ⟨hw, _⟩
    · exact ⟨i, hi'⟩
    · have hnone := ((PooledNode.poolAction_work ha).2 k c (PooledNode.serving_eq.mpr ⟨hi, hc⟩)).1
      rw [hj] at hnone
      cases hnone
    · cases hw
  · intro hk
    rcases ThreadPool.moves_completes hm hk with hold | ⟨i, ha, hi⟩
    · exact hend hold
    · exact (PooledNode.poolAction_work ha).2 k c (PooledNode.serving_eq.mpr ⟨hi, hc⟩)

/-- A socket whose thread takes a turn. -/
theorem Socket.Sound.turned {sizes : PoolSizes} {s : PooledNode n} {i k : Nat} {c c' : Socket}
    (h : c.Sound s k) (hserving : s.serving i = some (k, c)) (ht : c.Turn s c') :
    c'.Sound (s.step L ecfg cfg sizes (.work i)) k := by
  obtain ⟨⟨done, doing, hasked, hdone, hdoing⟩, hserved, hend⟩ := h
  have hi := (PooledNode.serving_eq.mp hserving).1
  have hnode := PooledNode.step_node_part L ecfg cfg sizes s (.work i)
  have hpool : (s.step L ecfg cfg sizes (.work i)).pool = s.pool := by
    rw [PooledNode.step_pool_part]
    cases ht with
    | ends j hcurrent hreplied =>
      simp only [PooledNode.poolAction, hserving, hcurrent]
      exact PooledNode.wake_nobody _ _
    | reads r requests hcurrent hrequests =>
      simp only [PooledNode.poolAction, hserving, hcurrent, hrequests]
      exact PooledNode.wake_nobody _ _
  cases ht with
  | ends j hcurrent hreplied =>
    rw [hcurrent, Option.toList_some] at hdoing
    obtain ⟨r, rest, hr, hrest, rfl⟩ := List.forall₂_cons_right_iff.mp hdoing
    rw [List.forall₂_nil_right_iff.mp hrest] at hasked
    refine ⟨⟨done ++ [r], [], ?_, ?_, .nil⟩, ?_, ?_⟩
    · simpa using hasked
    · rw [hnode]
      exact List.rel_append (hdone.imp (fun r j hr => hr.step _))
        (.cons ((hr.replied hreplied).step _) .nil)
    · intro j' hj'
      cases hj'
    · rw [hpool]
      intro hk
      rw [hcurrent] at hend
      cases (hend hk).1
  | reads r requests hcurrent hrequests =>
    rw [hcurrent, Option.toList_none, List.forall₂_nil_right_iff] at hdoing
    subst hdoing
    have harrive : (s.step L ecfg cfg sizes (.work i)).node =
        s.node.step L ecfg cfg (.arrive r.client r.env) := by
      rw [hnode]
      simp only [PooledNode.nodeAction, hserving, hcurrent, hrequests]
    refine ⟨⟨done, [r], ?_, ?_, ?_⟩, ?_, ?_⟩
    · simpa [hrequests] using hasked
    · rw [hnode]
      exact hdone.imp (fun r j hr => hr.step _)
    · refine .cons ⟨r.client.serve cfg r.env, ?_⟩ .nil
      rw [harrive]
      exact List.getElem?_concat_length
    · intro j _
      rw [hpool]
      exact ⟨i, hi⟩
    · rw [hpool]
      intro hk
      rw [hrequests] at hend
      cases (hend hk).2

/-- The handler of an HTTP request without a reply was there before, or it
came just now. -/
theorem unreplied_before {s : Node n} {b : Node.Action} {j : Nat} {conn : Connection}
    (hconn : (s.step L ecfg cfg b).connections[j]? = some conn)
    (hopen : conn.stage.isReplied = false) :
    (∃ stage, s.connections[j]? = some ⟨conn.client, conn.env, stage⟩ ∧ stage.isReplied = false) ∨
      b = .arrive conn.client conn.env ∧ j = s.connections.length := by
  cases hc : s.connections[j]? with
  | some c =>
    left
    by_cases hb : b = .go j
    · subst hb
      have hgo := (go_connection L ecfg hc).symm.trans hconn
      rw [Option.some.injEq] at hgo
      subst hgo
      refine ⟨c.stage, rfl, ?_⟩
      cases hstage : c.stage with
      | replied promise res => simp [hstage, Stage.isReplied] at hopen
      | _ => rfl
    · rw [step_connection hc hb, Option.some.injEq] at hconn
      subst hconn
      exact ⟨c.stage, rfl, hopen⟩
  | none =>
    right
    have hlen := List.getElem?_eq_none_iff.mp hc
    cases b with
    | arrive client env =>
      change (s.connections ++ [_])[j]? = some conn at hconn
      have hlast : j = s.connections.length := by
        have hlt := (List.getElem?_eq_some_iff.mp hconn).1
        rw [List.length_append, List.length_singleton] at hlt
        omega
      subst hlast
      rw [List.getElem?_concat_length, Option.some.injEq] at hconn
      subst hconn
      exact ⟨rfl, rfl⟩
    | tick env => exact absurd (hc.symm.trans hconn) (by simp)
    | shutdown => exact absurd (hc.symm.trans hconn) (by simp)
    | go i =>
      have hset : ∀ c', (s.connections.set i c')[j]? = none := by
        intro c'
        rw [List.getElem?_eq_none_iff, List.length_set]
        exact hlen
      change (s.go L ecfg i).connections[j]? = some conn at hconn
      rcases go_cases L ecfg s i with he | ⟨c, _, ⟨w, _, he⟩ | ⟨w, _, he⟩ |
        ⟨w, t, result, _, _, he⟩ | ⟨w, t, result, _, he⟩⟩
      all_goals rw [he] at hconn
      · exact absurd (hc.symm.trans hconn) (by simp)
      all_goals exact absurd ((hset _).symm.trans hconn) (by simp)

namespace PooledNode

theorem nodeAction_arrive {s : PooledNode n} {a : Action} {client : ClientRequest}
    {env : Surroundings} (h : s.nodeAction a = .arrive client env) :
    client.overHttp = false ∨ ∃ i k c, a = .work i ∧ s.serving i = some (k, c) ∧
      c.current = none ∧ c.requests ≠ [] := by
  cases a with
  | call client' env' =>
    simp only [nodeAction] at h
    split at h
    · cases h
    · rename_i hhttp
      rw [Node.Action.arrive.injEq] at h
      rw [← h.1]
      exact Or.inl (by simpa using hhttp)
  | go j =>
    simp only [nodeAction] at h
    split at h <;> cases h
  | work i =>
    right
    simp only [nodeAction] at h
    cases hserving : s.serving i with
    | none =>
      rw [hserving] at h
      cases h
    | some kc =>
      obtain ⟨k, c⟩ := kc
      simp only [hserving] at h
      refine ⟨i, k, c, rfl, hserving, ?_⟩
      cases hcurrent : c.current with
      | some j =>
        simp only [hcurrent] at h
        split at h <;> cases h
      | none =>
        refine ⟨rfl, ?_⟩
        intro hnil
        simp only [hcurrent, hnil] at h
        cases h
  | _ => cases h

theorem step_sockets (L : Llama) (ecfg : EngineConfig) (cfg : ServerConfig) (sizes : PoolSizes)
    (s : PooledNode n) (a : Action) :
    (s.step L ecfg cfg sizes a).sockets.length = s.sockets.length ∨
      ∃ requests, a = .accept requests ∧ s.pool.owner = .listening ∧
        (s.step L ecfg cfg sizes a).sockets = s.sockets ++ [.new requests] := by
  cases a with
  | accept requests =>
    unfold step
    simp only
    split
    · rename_i ho
      exact Or.inr ⟨requests, rfl, ho, rfl⟩
    · exact Or.inl rfl
  | call client env =>
    left
    unfold step
    simp only
    split <;> rfl
  | go j =>
    left
    unfold step
    simp only
    split <;> rfl
  | work i =>
    left
    change (s.work L ecfg cfg i).sockets.length = _
    rcases work_cases L ecfg cfg s i with ⟨he, _⟩ | ⟨k, c, _, ⟨j, _, _, he⟩ | ⟨j, _, _, he⟩ |
      ⟨r, requests, _, _, he⟩⟩
    all_goals rw [he]
    · exact List.length_set
    · exact List.length_set
  | _ => exact Or.inl rfl

/-- A listening pool without a bound takes every job. -/
theorem enqueue_accepts {s : ThreadPool Nat} (hatt : s.Attended) (ho : s.owner = .listening)
    (k : Nat) : (s.step (newTaskQueue hw) (.enqueue k)).accepted = s.accepted ++ [k] := by
  have hopen : s.shutdown = false := by
    rw [hatt.closing, ho]
    rfl
  have hspawn : ∀ t : ThreadPool Nat, (ThreadPool.spawn (newTaskQueue hw) t).accepted =
      t.accepted := by
    intro t
    unfold ThreadPool.spawn
    split <;> rfl
  simp only [ThreadPool.step, if_pos ho, ThreadPool.enqueue, hopen, Bool.false_eq_true, if_false]
  rw [if_neg (by simp [newTaskQueue])]
  exact hspawn _

theorem sound_step {s : PooledNode n} (h : s.Sound) (hatt : s.pool.Attended)
    (hrec : s.pool.Recorded) (a : Action) : (s.step L ecfg cfg (newTaskQueue hw) a).Sound := by
  have hm := ThreadPool.step_moves (newTaskQueue hw) s.pool (s.poolAction a)
  rw [← step_pool_part L ecfg cfg] at hm
  have hknown : ∀ k ∈ (s.step L ecfg cfg (newTaskQueue hw) a).pool.completed,
      k < s.sockets.length := by
    intro k hk
    have hstarted : k ∈ s.pool.started → k < s.sockets.length := by
      intro hks
      have hacc : k ∈ s.pool.accepted := by
        rw [hrec.queue]
        exact List.mem_append_left _ hks
      rw [h.accepted] at hacc
      exact List.mem_range.mp hacc
    apply hstarted
    rw [hrec.places.mem_iff, List.mem_append]
    rcases ThreadPool.moves_completes hm hk with hold | ⟨i, _, hi⟩
    · exact Or.inr hold
    · exact Or.inl (mem_runningJobs hi)
  refine ⟨?_, ?_, ?_⟩
  · rcases step_sockets L ecfg cfg (newTaskQueue hw) s a with
      hlen | ⟨requests, rfl, ho, hsockets⟩
    · rw [hlen]
      rcases ThreadPool.moves_accepts hm with hsame | ⟨k, hk⟩
      · exact hsame.trans h.accepted
      · obtain ⟨requests, rfl⟩ := poolAction_enqueue hk
        by_cases ho : s.pool.owner = .listening
        · simp [step, ho] at hlen
        · simp only [step, if_neg ho]
          exact h.accepted
    · rw [hsockets, step_pool_part, List.length_append, List.length_singleton, List.range_succ,
        ← h.accepted]
      exact enqueue_accepts hatt ho _
  · intro k c' hc'
    by_cases hk : k < s.sockets.length
    · have hc := List.getElem?_eq_getElem hk
      rcases step_socket L ecfg cfg (newTaskQueue hw) hc a with
        hsame | ⟨i, c'', rfl, hserving, ht, hnew⟩
      · rw [hsame, Option.some.injEq] at hc'
        subst hc'
        exact (h.each k _ hc).kept hc a
      · rw [hnew, Option.some.injEq] at hc'
        subst hc'
        exact (h.each k _ hc).turned hserving ht
    · rcases step_sockets L ecfg cfg (newTaskQueue hw) s a with
        hlen | ⟨requests, rfl, ho, hsockets⟩
      · have := (List.getElem?_eq_some_iff.mp hc').1
        omega
      · rw [hsockets] at hc'
        have hlt := (List.getElem?_eq_some_iff.mp hc').1
        rw [List.length_append, List.length_singleton] at hlt
        have hlast : k = s.sockets.length := by omega
        subst hlast
        rw [List.getElem?_concat_length, Option.some.injEq] at hc'
        subst hc'
        exact .new _ _ requests (fun hdone => absurd (hknown _ hdone) (Nat.lt_irrefl _))
  · intro j conn hconn hhttp hopen
    rw [step_node_part] at hconn
    rcases unreplied_before hconn hopen with ⟨stage, hbefore, hstage⟩ | ⟨harrive, hj⟩
    · obtain ⟨k, c, hc, hcurrent⟩ := h.http j _ hbefore hhttp hstage
      rcases step_socket L ecfg cfg (newTaskQueue hw) hc a with
        hsame | ⟨i, c', rfl, hserving, ht, hnew⟩
      · exact ⟨k, c, hsame, hcurrent⟩
      · cases ht with
        | ends j' hj' hreplied =>
          rw [hcurrent, Option.some.injEq] at hj'
          subst hj'
          unfold isReplied at hreplied
          rw [hbefore, Option.any_some, hstage] at hreplied
          cases hreplied
        | reads r requests hnone hrequests =>
          rw [hcurrent] at hnone
          cases hnone
    · rcases nodeAction_arrive harrive with hgrpc | ⟨i, k, c, rfl, hserving, hcurrent, hrequests⟩
      · rw [hhttp] at hgrpc
        cases hgrpc
      · obtain ⟨c', ht, hnew⟩ := step_turns L ecfg cfg (newTaskQueue hw)
          hserving (Or.inl ⟨hcurrent, hrequests⟩)
        cases ht with
        | ends j' hj' hreplied =>
          rw [hcurrent] at hj'
          cases hj'
        | reads r requests hnone hrequests' => exact ⟨k, _, hnew, by rw [hj]⟩

end PooledNode

theorem pooled_sound (L : Llama) (ecfg : EngineConfig) (cfg : ServerConfig) (hw : Nat)
    (as : List PooledNode.Action) : ((pooledNode L ecfg cfg hw).run as).Sound := by
  apply invariant_under _ (fun s => s.pool.Attended ∧ s.pool.Recorded)
  · intro as
    obtain ⟨bs, hbs⟩ := (poolPart L ecfg cfg hw).read_run as
    change ((pooledNode L ecfg cfg hw).run as).pool = _ at hbs
    rw [hbs]
    exact ⟨ThreadPool.attended_run _ bs, ThreadPool.recorded_run _ bs⟩
  · refine ⟨rfl, ?_, ?_⟩
    · intro k c hc
      cases hc
    · intro j conn hconn
      cases hconn
  · exact fun s a hpool h => PooledNode.sound_step h hpool.1 hpool.2 a

/-! ## How many requests HTTP can have in the engine -/

/-- The handler thread is between the increment and the decrement of
`queue_depth`, for a request over HTTP. -/
def Connection.waitsOverHttp (c : Connection) : Bool := c.client.overHttp && c.stage.inDispatch

/-- The same for a call of gRPC. -/
def Connection.waitsOverGrpc (c : Connection) : Bool := !c.client.overHttp && c.stage.inDispatch

theorem inDispatch_count (cs : List Connection) :
    cs.countP (fun c => c.stage.inDispatch) =
      cs.countP Connection.waitsOverHttp + cs.countP Connection.waitsOverGrpc := by
  induction cs with
  | nil => rfl
  | cons c cs ih =>
    rw [List.countP_cons, List.countP_cons, List.countP_cons, ih]
    unfold Connection.waitsOverHttp Connection.waitsOverGrpc
    cases hhttp : c.client.overHttp with
    | false =>
      simp only [Bool.false_and, Bool.not_false, Bool.true_and, Bool.false_eq_true, if_false]
      omega
    | true =>
      simp only [Bool.true_and, Bool.not_true, Bool.false_and, Bool.false_eq_true, if_false]
      omega

theorem runningJobs_le {s : ThreadPool Nat} {sizes : PoolSizes} (h : s.Rostered sizes) :
    (runningJobs s.workers).length ≤ sizes.max_thread_count := by
  calc (runningJobs s.workers).length
      = s.workers.countP (fun w => w.place.job.isSome) := List.length_filterMap_eq_countP
    _ ≤ threadsAt WorkerPlace.alive s.workers := by
        apply List.countP_mono_left
        intro w _ hjob
        cases hp : w.place <;> simp_all [WorkerPlace.job, WorkerPlace.alive]
    _ ≤ sizes.max_thread_count := h.threads

/-- A handler of HTTP in `dispatch` holds a thread of the pool. -/
theorem waitsOverHttp_served {s : PooledNode n} (h : s.Sound) :
    s.node.connections.countP Connection.waitsOverHttp ≤ (runningJobs s.pool.workers).length := by
  apply countP_le_length (R := fun j k => ∃ c, s.sockets[k]? = some c ∧ c.current = some j)
  · intro j conn hconn hwaits
    simp only [Connection.waitsOverHttp, Bool.and_eq_true] at hwaits
    have hopen : conn.stage.isReplied = false := by
      cases hstage : conn.stage with
      | replied promise res => simp [hstage, Stage.inDispatch] at hwaits
      | _ => rfl
    obtain ⟨k, c, hc, hcurrent⟩ := h.http j conn hconn hwaits.1 hopen
    obtain ⟨i, hi⟩ := (h.each k c hc).served j hcurrent
    exact ⟨k, mem_runningJobs hi, c, hc, hcurrent⟩
  · rintro j j' k ⟨c, hc, hcurrent⟩ ⟨c', hc', hcurrent'⟩
    rw [hc, Option.some.injEq] at hc'
    subst hc'
    rw [hcurrent, Option.some.injEq] at hcurrent'
    exact hcurrent'

/-- Above the calls of gRPC, the gauge `queue_depth` never shows more than the
connections that the pool serves just now, and these are never more than its
threads can be: however many connections there are, HTTP cannot have more
requests than that with the engine. -/
theorem the_pool_bounds_the_requests_of_http (L : Llama) (ecfg : EngineConfig)
    (cfg : ServerConfig) (hardware_concurrency : Nat) (as : List PooledNode.Action) :
    let s := (pooledNode L ecfg cfg hardware_concurrency).run as
    s.node.queue_depth ≤ (runningJobs s.pool.workers).length +
        s.node.connections.countP Connection.waitsOverGrpc ∧
      (runningJobs s.pool.workers).length ≤ threadPoolCount hardware_concurrency * 4 := by
  intro s
  obtain ⟨bs, hbs⟩ := (nodePart L ecfg cfg hardware_concurrency).read_run as
  obtain ⟨cs, hcs⟩ := (poolPart L ecfg cfg hardware_concurrency).read_run as
  change s.node = _ at hbs
  change s.pool = _ at hcs
  constructor
  · have hdepth := (sound_run L ecfg cfg bs).depth
    rw [← hbs, inDispatch_count] at hdepth
    have hserved := waitsOverHttp_served (pooled_sound L ecfg cfg hardware_concurrency as)
    rw [hdepth]
    push_cast
    exact Int.add_le_add_right (by exact_mod_cast hserved) _
  · rw [hcs]
    exact runningJobs_le (ThreadPool.rostered_run _ cs)

end inference_server
