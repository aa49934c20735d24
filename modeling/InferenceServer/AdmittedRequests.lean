-- What the gateway lets through to the engine. The limiter and the handlers
-- of both protocols together keep the quota of each tenant, and a client is
-- told that it is over its limit exactly when the limiter said so.
import InferenceServer.Gateway

namespace inference_server

open machine

variable {n : Nat}

/-! ## The parts of a run -/

theorem gateway_node (L : Llama) (ecfg : EngineConfig) (cfg : ServerConfig) (limits : Limits)
    (as : List Gateway.Action) :
    ∃ bs, ((gateway L ecfg cfg limits).run as).node = (node L ecfg cfg).run bs := by
  apply invariant (gateway L ecfg cfg limits) (fun s => ∃ bs, s.node = (node L ecfg cfg).run bs)
  · exact ⟨[], rfl⟩
  · rintro s a ⟨bs, hbs⟩
    have hstep : ∀ b, s.node.step L ecfg cfg b = (node L ecfg cfg).run (bs ++ [b]) := by
      intro b
      rw [run_snoc, ← hbs]
      rfl
    cases a with
    | ask client now =>
      change ∃ bs, (s.ask limits client now).node = _
      unfold Gateway.ask
      split <;> exact ⟨bs, hbs⟩
    | enter i steady system =>
      change ∃ bs, (s.step L ecfg cfg limits (.enter i steady system)).node = _
      rcases s.enter_cases L ecfg cfg limits i steady system with he | ⟨c, _, he⟩
      · rw [he]
        exact ⟨bs, hbs⟩
      · rw [he]
        simp only [Gateway.enter]
        exact ⟨_, hstep _⟩
    | go j => exact ⟨_, hstep (.go j)⟩
    | tick env => exact ⟨_, hstep (.tick env)⟩
    | shutdown => exact ⟨_, hstep .shutdown⟩

theorem gateway_sound (L : Llama) (ecfg : EngineConfig) (cfg : ServerConfig) (limits : Limits)
    (as : List Gateway.Action) : ((gateway L ecfg cfg limits).run as).node.Sound cfg := by
  obtain ⟨bs, hbs⟩ := gateway_node L ecfg cfg limits as
  rw [hbs]
  exact sound_run L ecfg cfg bs

/-- The call of `allow_local` that an action makes. -/
def Gateway.Action.call : Gateway.Action → Option LocalCall
  | .ask client now => client.tenant.map (fun tenant_id => ⟨tenant_id, now⟩)
  | _ => none

/-- The limiter sees the calls of all handlers, in the order of the lock. -/
theorem gateway_limiter (L : Llama) (ecfg : EngineConfig) (cfg : ServerConfig) (limits : Limits)
    (as : List Gateway.Action) : ((gateway L ecfg cfg limits).run as).limiter =
      (localLimiter limits).run (as.filterMap Gateway.Action.call) := by
  induction as using List.reverseRecOn with
  | nil => rfl
  | append_singleton as a ih =>
    rw [run_snoc, List.filterMap_append]
    generalize (gateway L ecfg cfg limits).run as = s at ih
    cases a with
    | ask client now =>
      change (s.ask limits client now).limiter = _
      unfold Gateway.ask
      cases htenant : client.tenant with
      | none => simpa [Gateway.Action.call, htenant] using ih
      | some tenant_id => simp [Gateway.Action.call, htenant, ih]
    | enter i steady system =>
      change (s.step L ecfg cfg limits (.enter i steady system)).limiter = _
      rw [List.filterMap_cons_none rfl, List.filterMap_nil, List.append_nil, ← ih]
      rcases s.enter_cases L ecfg cfg limits i steady system with he | ⟨c, _, he⟩
      · rw [he]
      · rw [he]
        rfl
    | _ =>
      rw [List.filterMap_cons_none rfl, List.filterMap_nil, List.append_nil, ← ih]
      rfl

/-! ## A connection and its record -/

/-- A request in the engine is the one that its handler dispatched. -/
theorem promise_dispatched {cfg : ServerConfig} {e : Engine n} {c : Connection} {t : Nat}
    (h : c.Sound cfg e) (ht : c.stage.promise = some t) :
    ∃ r respond, Dispatches cfg c.client c.env r respond ∧
      e.enqueued[t]? = some { r with on_complete := some t } := by
  have hfits := handle_fits cfg c.client c.env
  have howns : ∀ {w : Work}, c.Owns cfg e w t → ∃ r respond,
      Dispatches cfg c.client c.env r respond ∧
        e.enqueued[t]? = some { r with on_complete := some t } := by
    intro w ho
    rw [ho.1] at hfits
    exact ⟨w.request, w.respond, hfits, ho.2⟩
  unfold Connection.Sound at h
  cases hstage : c.stage with
  | counting w => simp [hstage, Stage.promise] at ht
  | enqueuing w => simp [hstage, Stage.promise] at ht
  | waiting w t' =>
    simp only [hstage, Stage.promise, Option.some.injEq] at h ht
    exact howns (ht ▸ h)
  | leaving w t' result =>
    simp only [hstage, Stage.promise, Option.some.injEq] at h ht
    exact howns (ht ▸ h.1)
  | replied promise res =>
    simp only [hstage, Stage.promise] at h ht
    subst ht
    obtain ⟨w, result, ho, _⟩ := h
    exact howns ho

/-- The limiter let the client of a dispatched request through, as the tenant
of the request. -/
theorem Entry.Matches.allowed {cfg : ServerConfig} {client : ClientRequest} {env : Surroundings}
    {e : Entry} (h : e.Matches cfg (client, env)) {r : Request} {respond : Bytes → ClientResponse}
    (hd : Dispatches cfg client env r respond) :
    ∃ a, e.answer = some a ∧ a.allowed = true ∧ a.tenant_id = r.tenant_id := by
  have htenant : e.answer.map (fun a => a.tenant_id) = some r.tenant_id := by
    rw [h.answer, ← h.client]
    exact hd.tenant
  obtain ⟨a, ha, htenant⟩ := Option.map_eq_some_iff.mp htenant
  have hallowed : e.allowed = true := by
    have hallow := hd.allowed
    rw [show env.allow = fun _ => e.allowed from h.allow] at hallow
    exact hallow
  refine ⟨a, ha, ?_, htenant⟩
  simpa [Caller.allowed, ha] using hallowed

theorem Entry.Matches.denied {cfg : ServerConfig} {client : ClientRequest} {env : Surroundings}
    {e : Entry} (h : e.Matches cfg (client, env)) : client.isDenied env = e.denied := by
  have hallow : env.allow = fun _ => e.allowed := h.allow
  have htenant : client.tenant = e.answer.map (fun a => a.tenant_id) := by
    rw [h.answer, ← h.client]
  unfold ClientRequest.isDenied Caller.denied
  rw [htenant, hallow]
  cases ha : e.answer with
  | none => rfl
  | some a => simp [Caller.allowed, ha]

/-! ## The quota -/

/-- The call of the limiter was for this tenant and in this window. -/
def Answer.fallsIn (u : Bytes) (start stop : ℚ) (a : Answer) : Bool :=
  a.tenant_id = u && start ≤ a.now && a.now ≤ stop

/-- How many requests of a tenant the engine got, over both protocols, that
the limiter was asked about in the window. -/
def Gateway.handedIn (s : Gateway n) (u : Bytes) (start stop : ℚ) : Nat :=
  (s.node.connections.zip s.entered).countP
    (fun p => p.1.stage.promise.isSome && p.2.answer.any (Answer.fallsIn u start stop))

theorem grantedIn_eq (u : Bytes) (start stop : ℚ) (log : List Answer) :
    grantedIn u start stop log = log.countP (fun a => a.fallsIn u start stop && a.allowed) := by
  unfold grantedIn granted
  rw [List.countP_filter]
  apply List.countP_congr
  intro a _
  simp only [Answer.fallsIn, Bool.and_eq_true, decide_eq_true_eq]
  tauto

/-- Each request in the engine has a granted call of its own. -/
theorem handedIn_le {cfg : ServerConfig} {s : Gateway n} (hkept : s.Kept cfg)
    (hsound : s.node.Sound cfg) (u : Bytes) (start stop : ℚ) :
    s.handedIn u start stop ≤ grantedIn u start stop s.limiter.log := by
  have haligned := List.forall₂_map_left_iff.mp hkept.aligned
  rw [grantedIn_eq]
  calc s.handedIn u start stop
      ≤ (s.node.connections.zip s.entered).countP ((fun e : Entry => e.answer.any
          (fun a => a.fallsIn u start stop && a.allowed)) ∘ Prod.snd) := by
        apply List.countP_mono_left
        rintro ⟨c, e⟩ hmem hp
        simp only [Bool.and_eq_true, Option.isSome_iff_exists] at hp
        obtain ⟨⟨t, ht⟩, hfalls⟩ := hp
        have hc := hsound.each c (List.of_mem_zip hmem).1
        obtain ⟨r, respond, hd, _⟩ := promise_dispatched hc ht
        obtain ⟨a, ha, hallowed, _⟩ := (List.forall₂_zip haligned hmem).allowed hd
        simpa [ha, hallowed] using hfalls
    _ = s.entered.countP (fun e : Entry => e.answer.any
          (fun a => a.fallsIn u start stop && a.allowed)) := by
        rw [← List.countP_map, List.map_snd_zip haligned.length_eq.ge]
    _ = (s.entered.filterMap (fun e => e.answer)).countP
          (fun a => a.fallsIn u start stop && a.allowed) := by
        rw [List.countP_filterMap]
        apply List.countP_congr
        intro e _
        cases e.answer <;> simp
    _ ≤ s.limiter.log.countP (fun a => a.fallsIn u start stop && a.allowed) := by
        rw [← hkept.answers.countP_eq, List.countP_append]
        exact Nat.le_add_left _ _

/-- The quota from end to end. Every request that the engine gets, over HTTP or
gRPC, was let through by the limiter as its own tenant; and of the requests
that the limiter was asked about in a window of time, the engine never gets
more of one tenant than the burst and what the rate earns in the window. -/
theorem the_engine_gets_no_more_than_the_quota (L : Llama) (ecfg : EngineConfig)
    (cfg : ServerConfig) (limits : Limits) (hrate : 0 ≤ limits.rate_rps) (hburst : 0 ≤ limits.burst)
    (as : List Gateway.Action)
    (hsorted : (as.filterMap Gateway.Action.call).Pairwise (fun a b => a.now ≤ b.now)) :
    let s := (gateway L ecfg cfg limits).run as
    (∀ t r, s.node.engine.enqueued[t]? = some r → ∃ (j : Nat) (c : Connection) (e : Entry)
      (a : Answer), s.node.connections[j]? = some c ∧ c.stage.promise = some t ∧
        s.entered[j]? = some e ∧ e.answer = some a ∧ a.allowed = true ∧
        a.tenant_id = r.tenant_id) ∧
    ∀ u start stop, start ≤ stop → (s.handedIn u start stop : ℚ) ≤
      limits.burst + limits.rate_rps * (stop - start) := by
  intro s
  have hkept : s.Kept cfg := kept_run L ecfg cfg limits as
  have hsound : s.node.Sound cfg := gateway_sound L ecfg cfg limits as
  constructor
  · intro t r hr
    have ht : t ∈ s.node.connections.filterMap (fun c => c.stage.promise) := by
      rw [hsound.owners.mem_iff, List.mem_range]
      exact (List.getElem?_eq_some_iff.mp hr).1
    obtain ⟨c, hc, hpromise⟩ := List.mem_filterMap.mp ht
    obtain ⟨r', respond, hd, hget⟩ := promise_dispatched (hsound.each c hc) hpromise
    obtain ⟨j, hj⟩ := List.getElem?_of_mem hc
    have hstart : (s.node.connections.map Connection.start)[j]? = some (c.client, c.env) := by
      rw [List.getElem?_map, hj]
      rfl
    obtain ⟨e, he, hmatches⟩ := forall₂_getElem? hkept.aligned hstart
    obtain ⟨a, ha, hallowed, htenant⟩ := hmatches.allowed hd
    rw [hr, Option.some.injEq] at hget
    exact ⟨j, c, e, a, hj, hpromise, he, ha, hallowed, by rw [hget]; exact htenant⟩
  · intro u start stop hle
    have hbound := (booked_run hrate hburst u hle _ hsorted).bound
    rw [← gateway_limiter L ecfg cfg limits as] at hbound
    have hhanded := handedIn_le hkept hsound u start stop
    exact le_trans (by exact_mod_cast hhanded) hbound

/-- The quota of one request, asked for over both protocols in one moment. -/
def askedTwice : List Gateway.Action :=
  [.ask helloInfer 0, .ask (.grpcInfer { tenant_id := bytes "t1", payload := bytes "hello" }) 0,
    .enter 1 0 0, .enter 0 0 0, .go 0, .go 0, .go 1, .go 1]

set_option maxRecDepth 20000 in
theorem the_engine_gets_no_more_than_the_quota_asked_twice :
    let s := (gateway (byteLlama fun _ => 0) {} {} { rate_rps := 10, burst := 1 }).run askedTwice
    s.handedIn (bytes "t1") 0 1 = 1 ∧
      (s.handedIn (bytes "t1") 0 1 : ℚ) ≤ (1 : Int) + 10 * (1 - 0) :=
  ⟨by decide +kernel, (the_engine_gets_no_more_than_the_quota (byteLlama fun _ => 0) {} {}
    { rate_rps := 10, burst := 1 } (by decide +kernel) (by decide) askedTwice
    (by decide +kernel)).2 (bytes "t1") 0 1 (by decide +kernel)⟩

/-! ## The denials -/

def Stage.isRateLimited : Stage → Bool
  | .replied _ res => res.rateLimited
  | _ => false

/-- Only the limiter makes a handler say that the client is over its limit. -/
theorem isRateLimited_iff {cfg : ServerConfig} {e : Engine n} {c : Connection}
    (h : c.Sound cfg e) : c.stage.isRateLimited = c.client.isDenied c.env := by
  have hfits := handle_fits cfg c.client c.env
  have hdispatched : ∀ {w : Work}, c.client.handle cfg c.env = .dispatched w.request w.respond →
      c.client.isDenied c.env = false ∧ ∀ result, (w.respond result).rateLimited = false := by
    intro w hw
    rw [hw] at hfits
    refine ⟨?_, hfits.served⟩
    simp [ClientRequest.isDenied, hfits.tenant, hfits.allowed]
  unfold Connection.Sound at h
  cases hstage : c.stage with
  | counting w =>
    rw [hstage] at h
    exact (hdispatched h).1.symm
  | enqueuing w =>
    rw [hstage] at h
    exact (hdispatched h).1.symm
  | waiting w t =>
    rw [hstage] at h
    exact (hdispatched h.1).1.symm
  | leaving w t result =>
    rw [hstage] at h
    exact (hdispatched h.1.1).1.symm
  | replied promise res =>
    rw [hstage] at h
    cases promise with
    | none =>
      rcases h with hanswered | ⟨hescaped, rfl⟩
      · rw [hanswered] at hfits
        exact hfits
      · rw [hescaped] at hfits
        exact hfits.symm
    | some t =>
      obtain ⟨w, result, ho, _, rfl⟩ := h
      obtain ⟨hdenied, hserved⟩ := hdispatched ho.1
      rw [hdenied]
      exact hserved result

/-- Each call of the limiter was made by one handler. A client is told that it
is over its limit exactly when its own call was denied, and
`requests_rate_limited` is the number of these clients, over both protocols.
The other denied calls belong to handlers that are about to say so. -/
theorem every_denial_is_counted_and_told (L : Llama) (ecfg : EngineConfig) (cfg : ServerConfig)
    (limits : Limits) (as : List Gateway.Action) :
    let s := (gateway L ecfg cfg limits).run as
    (s.requests_rate_limited = s.node.connections.countP (fun c => c.stage.isRateLimited) ∧
    s.limiter.log.countP (fun a => !a.allowed) =
      s.requests_rate_limited + s.callers.countP Caller.denied) ∧
    (s.callers.filterMap Caller.answer ++
      s.entered.filterMap (fun e => e.answer)).Perm s.limiter.log ∧
    ∀ (j : Nat) (c : Connection), s.node.connections[j]? = some c → ∃ e : Entry,
      s.entered[j]? = some e ∧ e.client = c.client ∧
      e.answer.map (fun a => a.tenant_id) = c.client.tenant ∧
      c.stage.isRateLimited = e.denied := by
  intro s
  have hkept : s.Kept cfg := kept_run L ecfg cfg limits as
  have hsound : s.node.Sound cfg := gateway_sound L ecfg cfg limits as
  have haligned := List.forall₂_map_left_iff.mp hkept.aligned
  refine ⟨⟨?_, ?_⟩, hkept.answers, ?_⟩
  · rw [hkept.limited]
    refine (countP_forall₂ haligned ?_).symm
    intro c e hc hmatches
    rw [isRateLimited_iff (hsound.each c hc)]
    exact hmatches.denied
  · have hdenied : ∀ answer : Option Answer,
        ((answer.map (fun a => !a.allowed)).getD false) = answer.any (fun a => !a.allowed) := by
      intro answer
      cases answer <;> rfl
    rw [← hkept.answers.countP_eq, List.countP_append, List.countP_filterMap,
      List.countP_filterMap, hkept.limited, Nat.add_comm]
    simp only [hdenied]
    rfl
  · intro j c hj
    obtain ⟨e, he, hmatches⟩ := forall₂_getElem? haligned hj
    have hclient : c.client = e.client := hmatches.client
    refine ⟨e, he, hclient.symm, ?_, ?_⟩
    · rw [hclient]
      exact hmatches.answer
    · rw [isRateLimited_iff (hsound.each c (List.mem_of_getElem? hj))]
      exact hmatches.denied

end inference_server
