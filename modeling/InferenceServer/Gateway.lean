-- Both front ends with what they share: one rate limiter, the two id counters
-- and the engine. A handler first asks the limiter, and goes on when it has
-- the answer, so the handlers of many clients may overtake each other. The
-- limiter is that of a node without Redis.
import InferenceServer.Connections
import InferenceServer.LocalBucket
import InferenceServer.NumericLimits

namespace inference_server

open machine

variable {n : Nat}

/-! ## What a handler asks and takes -/

namespace ClientRequest

/-- The tenant that the handler asks the limiter about. A body that is not
JSON, or whose tenant is not a string, is never charged. -/
def tenant : ClientRequest → Option Bytes
  | .infer _ parsed =>
    parsed.bind (fun body => (body.value Json.getString "tenant_id" (bytes "default")).toOption)
  | .chat headers parsed => parsed.map (fun _ => chatTenant headers)
  | .grpcInfer req => some (InferenceService.tenantOf req.tenant_id)
  | .grpcChat req => some (InferenceService.tenantOf req.tenant_id)

def charged (cfg : ServerConfig) (env : Surroundings) : ClientRequest → Option Bytes
  | .infer _ parsed => (postInfer env parsed).charged
  | .chat headers parsed => (postChat cfg env headers parsed).charged
  | .grpcInfer req => (InferenceService.infer env req).charged
  | .grpcChat req => (InferenceService.chatComplete env req).charged

/-- The handler comes to the increment of its id counter. The one of
`/v1/chat/completions` reads the messages and the model before. -/
def takesId (cfg : ServerConfig) (client : ClientRequest) (allowed : Bool) : Bool :=
  allowed && match client with
    | .chat _ (some body) =>
      match body.field? "messages" with
      | some (.array _) => (body.value Json.getString "model" cfg.model_name).isOk
      | _ => false
    | _ => true

end ClientRequest

/-! ## The machine -/

/-- A handler that has asked the limiter, unless it had nobody to ask about. -/
structure Caller where
  client : ClientRequest
  answer : Option Answer

def Caller.allowed (c : Caller) : Bool := c.answer.any Answer.allowed

def Caller.denied (c : Caller) : Bool := c.answer.any (fun a => !a.allowed)

/-- A handler that went on, with the id that it took. -/
structure Entry extends Caller where
  id : Option Nat

/-- `entered` only records: what became of the clients, in the order of the
connections of the node. So does the log of the limiter. -/
structure Gateway (n : Nat) where
  node : Node n
  limiter : LocalLimiter
  request_id_counter : UInt64
  grpc_request_id_counter : UInt64
  requests_rate_limited : Nat
  callers : List Caller
  entered : List Entry

namespace Gateway

/-- The counter of the protocol. -/
def counter (s : Gateway n) (http : Bool) : UInt64 :=
  if http then s.request_id_counter else s.grpc_request_id_counter

/-- A handler up to the answer of `allow`. -/
def ask (limits : Limits) (s : Gateway n) (client : ClientRequest) (now : ℚ) : Gateway n :=
  match client.tenant with
  | none => { s with callers := s.callers ++ [⟨client, none⟩] }
  | some tenant_id =>
    let a := limits.allowLocal s.limiter.buckets tenant_id now
    { s with
      limiter := (localLimiter limits).step s.limiter ⟨tenant_id, now⟩
      callers := s.callers ++ [⟨client, some ⟨⟨tenant_id, now⟩, a.1⟩⟩] }

/-- The rest of a handler, up to its reply or to `dispatch`. -/
def enter (L : Llama) (ecfg : EngineConfig) (cfg : ServerConfig) (s : Gateway n) (c : Caller)
    (steady_clock system_clock : Int) : Gateway n :=
  let http := c.client.overHttp
  let id := s.counter http + 1
  let env : Surroundings := {
    allow := fun _ => c.allowed
    id := id.toNat
    steady_clock := steady_clock
    system_clock := system_clock }
  let takes := c.client.takesId cfg c.allowed
  { s with
    node := s.node.step L ecfg cfg (.arrive c.client env)
    request_id_counter := if takes && http then id else s.request_id_counter
    grpc_request_id_counter := if takes && !http then id else s.grpc_request_id_counter
    requests_rate_limited := s.requests_rate_limited + if c.denied then 1 else 0
    entered := s.entered ++ [⟨c, if takes then some id.toNat else none⟩] }

inductive Action where
  | ask (client : ClientRequest) (now : ℚ)
  | enter (i : Nat) (steady_clock system_clock : Int)
  | go (j : Nat)
  | tick (env : Engine.Env)
  | shutdown

def step (L : Llama) (ecfg : EngineConfig) (cfg : ServerConfig) (limits : Limits)
    (s : Gateway n) : Action → Gateway n
  | .ask client now => s.ask limits client now
  | .enter i steady_clock system_clock =>
    match s.callers[i]? with
    | none => s
    | some c =>
      { s.enter L ecfg cfg c steady_clock system_clock with callers := s.callers.eraseIdx i }
  | .go j => { s with node := s.node.go L ecfg j }
  | .tick env => { s with node := s.node.step L ecfg cfg (.tick env) }
  | .shutdown => { s with node := s.node.step L ecfg cfg .shutdown }

end Gateway

def gateway (L : Llama) (ecfg : EngineConfig) (cfg : ServerConfig) (limits : Limits) :
    Machine (Gateway ecfg.max_slots) Gateway.Action :=
  { init := ⟨(node L ecfg cfg).init, (localLimiter limits).init, 0, 0, 0, [], []⟩
    step := Gateway.step L ecfg cfg limits }

/-! ## What the handlers do with the answer -/

/-- The client is told that it is over its limit. -/
def ClientResponse.rateLimited : ClientResponse → Bool
  | .http res => res.status = 429
  | .infer reply => reply.code = .RESOURCE_EXHAUSTED
  | .chat reply => reply.code = .RESOURCE_EXHAUSTED

namespace ClientRequest

/-- Each handler charges the tenant that it was asked for, and no other. -/
theorem charged_eq (cfg : ServerConfig) (env : Surroundings) (client : ClientRequest) :
    client.charged cfg env = client.tenant := by
  cases client with
  | infer headers parsed =>
    cases parsed with
    | none => rfl
    | some body =>
      simp only [charged, postInfer, tenant, Option.bind_some]
      cases body.value Json.getString "tenant_id" (bytes "default") with
      | error _ => rfl
      | ok tenant_id =>
        simp only [Except.toOption]
        split
        · rfl
        · split <;> rfl
  | chat headers parsed =>
    cases parsed with
    | none => rfl
    | some body =>
      simp only [charged, postChat, tenant, Option.map_some]
      split
      · rfl
      · split
        · split
          · rfl
          · split <;> rfl
        · rfl
  | grpcInfer req =>
    simp only [charged, InferenceService.infer, tenant]
    split <;> rfl
  | grpcChat req =>
    simp only [charged, InferenceService.chatComplete, tenant]
    split <;> rfl

/-- The limiter said no. -/
def isDenied (client : ClientRequest) (env : Surroundings) : Bool :=
  client.tenant.any (fun u => !env.allow u)

end ClientRequest

/-- What is true of a handler whose request goes to the engine. -/
structure Dispatches (cfg : ServerConfig) (client : ClientRequest) (env : Surroundings)
    (r : Request) (respond : Bytes → ClientResponse) : Prop where
  tenant : client.tenant = some r.tenant_id
  allowed : env.allow r.tenant_id = true
  id : r.id = env.id
  takesId : client.takesId cfg true = true
  served : ∀ result, (respond result).rateLimited = false

/-- httplib neither makes nor takes back the status 429. -/
theorem finish_rateLimited (headers : List (Bytes × Bytes)) (res : HttpResponse) :
    (ClientResponse.http (httplib.finish headers res)).rateLimited =
      (ClientResponse.http res).rateLimited := by
  by_cases h200 : res.status = 200
  · unfold httplib.finish
    split
    · split <;> simp [ClientResponse.rateLimited, h200]
    · rfl
  · rw [httplib.finish_of_failure headers h200]

theorem dump_served (headers : List (Bytes × Bytes)) (j : Json) :
    (ClientResponse.http (httplib.finish headers (.dump j))).rateLimited = false := by
  rw [finish_rateLimited]
  unfold HttpResponse.dump
  cases j.dumps <;> rfl

theorem inferRequest_env {env : Surroundings} {tenant_id : Bytes} {body : Json} {r : Request}
    (h : inferRequest env tenant_id body = .ok r) : r.tenant_id = tenant_id ∧ r.id = env.id := by
  unfold inferRequest at h
  obtain ⟨_, _, h⟩ := bind_ok h
  obtain ⟨_, _, h⟩ := bind_ok h
  obtain ⟨_, _, h⟩ := bind_ok h
  obtain ⟨_, _, h⟩ := bind_ok h
  cases h
  exact ⟨rfl, rfl⟩

theorem chatRequest_env {env : Surroundings} {tenant_id : Bytes} {body : Json}
    {messages : List Json} {r : Request}
    (h : chatRequest env tenant_id body messages = .ok r) :
    r.tenant_id = tenant_id ∧ r.id = env.id := by
  unfold chatRequest at h
  obtain ⟨_, _, h⟩ := bind_ok h
  obtain ⟨_, _, h⟩ := bind_ok h
  obtain ⟨_, _, h⟩ := bind_ok h
  cases h
  exact ⟨rfl, rfl⟩

/-- What a handler does, as the limiter sees it. -/
def Reaction.Fits (cfg : ServerConfig) (client : ClientRequest) (env : Surroundings) :
    Reaction ClientResponse → Prop
  | .answered res => res.rateLimited = client.isDenied env
  | .dispatched r respond => Dispatches cfg client env r respond
  | .escaped => client.isDenied env = false

theorem handle_fits (cfg : ServerConfig) (client : ClientRequest) (env : Surroundings) :
    (client.handle cfg env).Fits cfg client env := by
  cases client with
  | infer headers parsed =>
    cases parsed with
    | none => rfl
    | some body =>
      simp only [ClientRequest.handle, postInfer]
      cases hvalue : body.value Json.getString "tenant_id" (bytes "default") with
      | error _ => simp [Reaction.map, Reaction.Fits, ClientRequest.isDenied, ClientRequest.tenant,
          hvalue, Except.toOption]
      | ok tenant_id =>
        have htenant : (ClientRequest.infer headers (some body)).tenant = some tenant_id := by
          simp [ClientRequest.tenant, hvalue, Except.toOption]
        have hdenied : ∀ b, env.allow tenant_id = b →
            (ClientRequest.infer headers (some body)).isDenied env = !b := by
          intro b hb
          simp [ClientRequest.isDenied, htenant, hb]
        cases hallow : env.allow tenant_id with
        | false => simp [Reaction.map, Reaction.Fits, hallow, hdenied _ hallow, HttpResponse.error,
            httplib.finish_of_failure, ClientResponse.rateLimited]
        | true =>
          simp only [hallow, Bool.not_true, Bool.false_eq_true, if_false]
          cases hread : inferRequest env tenant_id body with
          | error _ => exact hdenied _ hallow
          | ok r =>
            obtain ⟨hr, hid⟩ := inferRequest_env hread
            exact ⟨hr ▸ htenant, hr ▸ hallow, hid, rfl, fun result => dump_served headers _⟩
  | chat headers parsed =>
    cases parsed with
    | none => rfl
    | some body =>
      have hdenied : ∀ b, env.allow (chatTenant headers) = b →
          (ClientRequest.chat headers (some body)).isDenied env = !b := by
        intro b hb
        simp [ClientRequest.isDenied, ClientRequest.tenant, hb]
      simp only [ClientRequest.handle, postChat]
      cases hallow : env.allow (chatTenant headers) with
      | false => simp [Reaction.map, Reaction.Fits, hdenied _ hallow, HttpResponse.error,
          httplib.finish_of_failure, ClientResponse.rateLimited]
      | true =>
        simp only [Bool.not_true, Bool.false_eq_true, if_false]
        split
        · rename_i messages hmessages
          cases hmodel : body.value Json.getString "model" cfg.model_name with
          | error _ => exact hdenied _ hallow
          | ok model =>
            simp only
            cases hread : chatRequest env (chatTenant headers) body messages with
            | error _ => exact hdenied _ hallow
            | ok r =>
              obtain ⟨hr, hid⟩ := chatRequest_env hread
              have htakes : (ClientRequest.chat headers (some body)).takesId cfg true = true := by
                simp [ClientRequest.takesId, hmessages, hmodel, Except.isOk, Except.toBool]
              exact ⟨congrArg some hr.symm, hr ▸ hallow, hid, htakes,
                fun result => dump_served headers _⟩
        · exact (hdenied _ hallow).symm
  | grpcInfer req =>
    simp only [ClientRequest.handle, InferenceService.infer]
    cases hallow : env.allow (InferenceService.tenantOf req.tenant_id) with
    | false => simp [Reaction.map, Reaction.Fits, hallow, ClientRequest.isDenied,
        ClientRequest.tenant, ClientResponse.rateLimited]
    | true =>
      simp only [Bool.not_true, Bool.false_eq_true, if_false]
      exact ⟨rfl, hallow, rfl, rfl, fun result => rfl⟩
  | grpcChat req =>
    simp only [ClientRequest.handle, InferenceService.chatComplete]
    cases hallow : env.allow (InferenceService.tenantOf req.tenant_id) with
    | false => simp [Reaction.map, Reaction.Fits, hallow, ClientRequest.isDenied,
        ClientRequest.tenant, ClientResponse.rateLimited]
    | true =>
      simp only [Bool.not_true, Bool.false_eq_true, if_false]
      exact ⟨rfl, hallow, rfl, rfl, fun result => rfl⟩

/-! ## The records of the gateway -/

/-- What a connection keeps from its arrival on. -/
def Connection.start (c : Connection) : ClientRequest × Surroundings := (c.client, c.env)

/-- The record of a client and its connection belong together. -/
structure Entry.Matches (cfg : ServerConfig) (start : ClientRequest × Surroundings) (e : Entry) :
    Prop where
  client : start.1 = e.client
  allow : start.2.allow = fun _ => e.allowed
  answer : e.answer.map (fun a => a.tenant_id) = e.client.tenant
  id : e.id = if e.client.takesId cfg e.allowed then some start.2.id else none

/-- The ids that one protocol gave, in their order. -/
def Gateway.ids (s : Gateway n) (http : Bool) : List Nat :=
  s.entered.filterMap (fun e => if e.client.overHttp = http then e.id else none)

/-- The ids `1`, `2` and so on. They wrap around at 64 bits. -/
def countUp (k : Nat) : List Nat := (List.range k).map (fun i => (i + 1) % 2 ^ 64)

theorem countUp_succ (k : Nat) :
    countUp (k + 1) = countUp k ++ [(UInt64.ofNat k + 1).toNat] := by
  unfold countUp
  rw [List.range_succ, List.map_append, List.map_singleton, UInt64.toNat_add, UInt64.toNat_ofNat',
    UInt64.toNat_one, Nat.mod_add_mod]

theorem countUp_nodup {k : Nat} (hk : k < 2 ^ 64) : (countUp k).Nodup := by
  apply List.Nodup.map_on _ List.nodup_range
  intro i hi j hj hij
  rw [List.mem_range] at hi hj
  rw [Nat.mod_eq_of_lt (by omega), Nat.mod_eq_of_lt (by omega)] at hij
  omega

/-- What every run of the gateway keeps: each connection has its record, every
answer of the limiter belongs to one handler, the counter of the denials counts
the denied handlers that went on, and each protocol counts its ids up. -/
structure Gateway.Kept (cfg : ServerConfig) (s : Gateway n) : Prop where
  aligned : List.Forall₂ (Entry.Matches cfg) (s.node.connections.map Connection.start) s.entered
  callers : ∀ c ∈ s.callers, c.answer.map (fun a => a.tenant_id) = c.client.tenant
  answers : (s.callers.filterMap Caller.answer ++
    s.entered.filterMap (fun e => e.answer)).Perm s.limiter.log
  limited : s.requests_rate_limited = s.entered.countP (fun e => e.denied)
  ids : ∀ http, s.ids http = countUp (s.ids http).length ∧
    s.counter http = UInt64.ofNat (s.ids http).length

theorem go_starts (L : Llama) (ecfg : EngineConfig) (s : Node n) (j : Nat) :
    (s.go L ecfg j).connections.map Connection.start = s.connections.map Connection.start := by
  have hset : ∀ {c : Connection} {stage : Stage}, s.connections[j]? = some c →
      (s.connections.set j { c with stage := stage }).map Connection.start =
        s.connections.map Connection.start := by
    intro c stage hc
    obtain ⟨hlt, rfl⟩ := List.getElem?_eq_some_iff.mp hc
    have hlt' : j < (s.connections.map Connection.start).length := by
      rwa [List.length_map]
    have hstart : Connection.start { s.connections[j] with stage := stage } =
        (s.connections.map Connection.start)[j] := by
      rw [List.getElem_map]
      rfl
    rw [List.map_set, hstart]
    exact List.set_getElem_self _
  rcases go_cases L ecfg s j with he | ⟨c, hc, ⟨w, _, he⟩ | ⟨w, _, he⟩ |
    ⟨w, t, result, _, _, he⟩ | ⟨w, t, result, _, he⟩⟩
  all_goals rw [he]
  all_goals exact hset hc

/-- Nobody goes on, or the handler of one caller does. -/
theorem Gateway.enter_cases (L : Llama) (ecfg : EngineConfig) (cfg : ServerConfig)
    (limits : Limits) (s : Gateway n) (i : Nat) (steady system : Int) :
    s.step L ecfg cfg limits (.enter i steady system) = s ∨
      ∃ c, s.callers[i]? = some c ∧ s.step L ecfg cfg limits (.enter i steady system) =
        { s.enter L ecfg cfg c steady system with callers := s.callers.eraseIdx i } := by
  cases hc : s.callers[i]? with
  | none => exact Or.inl (by simp only [Gateway.step, hc])
  | some c => exact Or.inr ⟨c, rfl, by simp only [Gateway.step, hc]⟩

section kept

variable {L : Llama} {ecfg : EngineConfig} {cfg : ServerConfig} {limits : Limits} {s : Gateway n}

/-- A step of the node that brings no connection. -/
theorem Gateway.Kept.setNode (h : s.Kept cfg) {node : Node n}
    (hnode : node.connections.map Connection.start = s.node.connections.map Connection.start) :
    Gateway.Kept cfg { s with node := node } :=
  ⟨hnode ▸ h.aligned, h.callers, h.answers, h.limited, h.ids⟩

theorem kept_ask (h : s.Kept cfg) (client : ClientRequest) (now : ℚ) :
    (s.ask limits client now).Kept cfg := by
  have hcallers : ∀ {answer : Option Answer}, client.tenant = answer.map (fun a => a.tenant_id) →
      ∀ c ∈ s.callers ++ [⟨client, answer⟩], c.answer.map (fun a => a.tenant_id) =
        c.client.tenant := by
    intro answer htenant c hc
    rcases List.mem_append.mp hc with hc | hc
    · exact h.callers c hc
    · rw [List.mem_singleton] at hc
      subst hc
      exact htenant.symm
  unfold Gateway.ask
  cases htenant : client.tenant with
  | none =>
    refine ⟨h.aligned, hcallers htenant, ?_, h.limited, h.ids⟩
    simpa using h.answers
  | some tenant_id =>
    refine ⟨h.aligned, hcallers htenant, ?_, h.limited, h.ids⟩
    -- the new answer stands behind the waiting handlers and at the end of the log
    have hanswers := h.answers
    simp only [List.filterMap_append, List.filterMap_cons, List.filterMap_nil, localLimiter]
    rw [List.append_assoc]
    refine (List.Perm.append_left _ List.perm_append_comm).trans ?_
    rw [← List.append_assoc]
    exact hanswers.append_right _

/-- The counters of the two protocols do not touch each other. -/
theorem enter_counter (s : Gateway n) (c : Caller) (steady system : Int) (http : Bool) :
    (s.enter L ecfg cfg c steady system).counter http =
      if c.client.takesId cfg c.allowed = true ∧ http = c.client.overHttp then s.counter http + 1
      else s.counter http := by
  unfold Gateway.enter Gateway.counter
  cases http <;> cases c.client.overHttp <;> simp

theorem enter_ids (s : Gateway n) (c : Caller) (steady system : Int) (http : Bool) :
    (s.enter L ecfg cfg c steady system).ids http = s.ids http ++
      if c.client.takesId cfg c.allowed = true ∧ http = c.client.overHttp then
        [(s.counter http + 1).toNat] else [] := by
  have hentered : (s.enter L ecfg cfg c steady system).entered = s.entered ++ [⟨c,
      if c.client.takesId cfg c.allowed then some (s.counter c.client.overHttp + 1).toNat
      else none⟩] := by
    unfold Gateway.enter
    rfl
  unfold Gateway.ids
  rw [hentered, List.filterMap_append]
  congr 1
  by_cases htakes : c.client.takesId cfg c.allowed = true
  · by_cases hhttp : http = c.client.overHttp
    · simp [htakes, hhttp]
    · simp [htakes, hhttp, Ne.symm hhttp]
  · simp [htakes]

theorem kept_enter (h : s.Kept cfg) {i : Nat} {c : Caller} (hc : s.callers[i]? = some c)
    (steady system : Int) : Gateway.Kept cfg
      { s.enter L ecfg cfg c steady system with callers := s.callers.eraseIdx i } := by
  obtain ⟨hlt, hget⟩ := List.getElem?_eq_some_iff.mp hc
  have hperm : (c :: s.callers.eraseIdx i).Perm s.callers := by
    rw [← hget]
    exact List.getElem_cons_eraseIdx_perm hlt
  refine ⟨?_, ?_, ?_, ?_, ?_⟩
  · change List.Forall₂ _ ((s.node.connections ++ [_]).map Connection.start) (s.entered ++ [_])
    rw [List.map_append, List.map_singleton]
    refine List.rel_append h.aligned (.cons ⟨rfl, rfl, ?_, ?_⟩ .nil)
    · exact h.callers c (List.mem_of_getElem? hc)
    · rfl
  · exact fun c' hc' => h.callers c' (List.mem_of_mem_eraseIdx hc')
  · change (List.filterMap Caller.answer (s.callers.eraseIdx i) ++
      List.filterMap (fun e : Entry => e.answer) (s.entered ++ [_])).Perm s.limiter.log
    have hanswers := h.answers
    have hsplit := (hperm.filterMap Caller.answer).append_right
      (s.entered.filterMap (fun e => e.answer))
    refine List.Perm.trans ?_ (hsplit.trans hanswers)
    rw [List.filterMap_append]
    cases hanswer : c.answer with
    | none => simp [hanswer]
    | some a =>
      simp only [List.filterMap_cons, hanswer, List.filterMap_nil, List.cons_append]
      rw [← List.append_assoc]
      exact List.perm_append_singleton _ _
  · change s.requests_rate_limited + (if c.denied then 1 else 0) =
      (s.entered ++ [_]).countP (fun e : Entry => e.denied)
    rw [List.countP_append, List.countP_singleton, h.limited]
  · intro http
    obtain ⟨hids, hcounter⟩ := h.ids http
    change (s.enter L ecfg cfg c steady system).ids http =
        countUp ((s.enter L ecfg cfg c steady system).ids http).length ∧
      (s.enter L ecfg cfg c steady system).counter http =
        UInt64.ofNat ((s.enter L ecfg cfg c steady system).ids http).length
    rw [enter_ids, enter_counter]
    split
    · rw [List.length_append, List.length_singleton, countUp_succ, hcounter]
      refine ⟨by rw [← hids], ?_⟩
      rw [UInt64.ofNat_add]
      rfl
    · rw [List.append_nil]
      exact ⟨hids, hcounter⟩

theorem kept_run (L : Llama) (ecfg : EngineConfig) (cfg : ServerConfig) (limits : Limits)
    (as : List Gateway.Action) : ((gateway L ecfg cfg limits).run as).Kept cfg := by
  apply invariant (gateway L ecfg cfg limits) (Gateway.Kept cfg)
  · refine ⟨.nil, fun c hc => absurd hc List.not_mem_nil, .refl [], rfl, ?_⟩
    intro http
    cases http <;> exact ⟨rfl, rfl⟩
  · intro s a h
    cases a with
    | ask client now => exact kept_ask h client now
    | enter i steady system =>
      change (s.step L ecfg cfg limits (.enter i steady system)).Kept cfg
      rcases s.enter_cases L ecfg cfg limits i steady system with he | ⟨c, hc, he⟩
      · rw [he]
        exact h
      · rw [he]
        exact kept_enter h hc steady system
    | go j => exact h.setNode (go_starts L ecfg s.node j)
    | tick env => exact h.setNode rfl
    | shutdown => exact h.setNode rfl

end kept

end inference_server
