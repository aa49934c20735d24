-- What a client sees of a request that the engine could not finish. The
-- engine hands its result over as a text, whatever the exit, and no response
-- of either front end tells the exits apart.
import InferenceServer.EngineSteps
import InferenceServer.FrontEnds

namespace inference_server

open machine InferenceService

variable {n : Nat}

/-! ## The texts of the exits -/

/-- What the engine hands to `on_complete` when it gives a request up. -/
def Exit.errorText : Exit → Option Bytes
  | .tokenization_failed => some (bytes "\x7b\"error\":\"tokenization_failed\"\x7d")
  | .deadline_exceeded => some (bytes "\x7b\"error\":\"deadline_exceeded\"\x7d")
  | .decode_failed => some (bytes "\x7b\"error\":\"decode_failed\"\x7d")
  | .generated => none

/-- An answer of a failed exit carries the text of the exit. -/
def Event.Told : Event n → Prop
  | .completed _ exit result => ∀ text, exit.errorText = some text → result = text
  | _ => True

/-- All answers so far do. -/
def Engine.Told (e : Engine n) : Prop := ∀ ev ∈ e.trace, ev.Told

theorem told_append {e e' : Engine n} {evs : List (Event n)} (h : e.Told)
    (ht : e'.trace = e.trace ++ evs) (hevs : ∀ ev ∈ evs, ev.Told) : e'.Told := by
  intro ev hev
  rw [ht] at hev
  rcases List.mem_append.mp hev with hev | hev
  · exact h ev hev
  · exact hevs ev hev

theorem told_complete {e : Engine n} (h : e.Told) (req : Request) {exit : Exit} {result : Bytes}
    (hresult : ∀ text, exit.errorText = some text → result = text) :
    (e.complete req exit result).Told := by
  apply told_append h (by rw [Engine.complete_eq])
  intro ev hev
  rw [Option.mem_toList, Option.map_eq_some_iff] at hev
  obtain ⟨p, _, rfl⟩ := hev
  exact hresult

theorem told_released {e : Engine n} (h : e.Told) (sid : Fin n) (e' : Engine n)
    (ht : e'.trace = e.trace ++ [.released sid (e.occupied sid)]) : e'.Told := by
  apply told_append h ht
  intro ev hev
  rw [List.mem_singleton.mp hev]
  trivial

theorem told_answer {e : Engine n} (h : e.Told) (sid : Fin n) {exit : Exit} {result : Bytes}
    (hresult : ∀ text, exit.errorText = some text → result = text) :
    (e.answer sid exit result).Told :=
  told_released (told_complete h _ hresult) sid _ (Engine.retireSlot_trace _ sid)

theorem told_retireExpiredTurn (now : Int) {e : Engine n} (h : e.Told) (sid : Fin n) :
    (e.retireExpiredTurn now sid).Told := by
  rcases Engine.retireExpiredTurn_cases now e sid with ⟨_, he⟩ | ⟨_, _, he⟩
  · rw [he]
    exact h
  · rw [he]
    exact told_answer (e := e.countExpired.countTotalFor sid) h sid (fun _ ht => Option.some.inj ht)

theorem told_decodeFailedTurn {e : Engine n} (h : e.Told) (sid : Fin n) :
    (e.decodeFailedTurn sid).Told := by
  rcases Engine.decodeFailedTurn_cases e sid with ⟨_, he⟩ | ⟨_, he⟩
  · rw [he]
    exact h
  · rw [he]
    exact told_answer (e := e.countTotalFor sid) h sid (fun _ ht => Option.some.inj ht)

theorem told_log {e : Engine n} (h : e.Told) {ev : Event n} (hev : ev.Told) : (e.log ev).Told :=
  told_append h rfl (by simpa using hev)

theorem told_took (L : Llama) {e : Engine n} (h : e.Told) (sid : Fin n) (tok : Token) :
    (e.took L sid tok).Told := by
  unfold Engine.took
  split
  · exact told_log h trivial
  · have hev : (Event.sampled sid tok).Told := trivial
    exact told_log h hev

theorem told_sampleTurn (L : Llama) (cfg : EngineConfig) (cells : List (Cell n))
    (call : DecodeCall n) {e : Engine n} (h : e.Told) (sid : Fin n) :
    (e.sampleTurn L cfg cells call sid).Told := by
  rcases Engine.sampleTurn_cases L cfg cells call e sid with ⟨_, he⟩ | ⟨_, _, he⟩ | ⟨_, _, he⟩
  · rw [he]
    exact h
  · rw [he]
    have htook := told_took L h sid (llamaSamplerSample L cells call.batch (call.logit_pos sid))
    exact told_answer (e := Engine.countTotalFor _ sid) htook sid (fun _ ht => by cases ht)
  · rw [he]
    exact told_took L h sid _

theorem told_admitOne (L : Llama) {e : Engine n} (h : e.Told) (req : Request) :
    (e.admitOne L req).Told := by
  rcases Engine.admitOne_cases L e req with ⟨sid, _, he⟩ | ⟨_, he⟩
  · rw [he]
    have hseat : ((e.seat sid req).log (.acquired sid req)).Told :=
      told_log (e := e.seat sid req) h trivial
    have hset : ∀ toks,
        (((e.seat sid req).log (.acquired sid req)).setPrompt sid toks).Told := fun _ => hseat
    unfold Engine.admitTo
    simp only
    split
    · apply told_released (told_complete (hset _) _ ?_) sid _ (Engine.release_trace _ sid)
      exact fun _ ht => Option.some.inj ht
    · exact hseat
  · rw [he]
    exact told_log h trivial

/-- The loops of the engine, turn by turn. -/
theorem told_loop {α : Type} {turn : Engine n → α → Engine n}
    (hturn : ∀ {e}, e.Told → ∀ a, (turn e a).Told) (l : List α) {e : Engine n} (h : e.Told) :
    (l.foldl turn e).Told :=
  List.foldlRecOn l turn h (fun _ he a _ => hturn he a)

theorem told_collect {e : Engine n} (h : e.Told) : e.collect.Told := by
  rcases Engine.collect_cases e with ⟨_, he⟩ | ⟨_, _, he⟩ | ⟨_, _, he⟩
  · rw [he]
    exact h
  · rw [he]
    exact h
  · rw [he]
    exact told_append h rfl (by simp [Event.Told])

theorem told_decoded (L : Llama) (cfg : EngineConfig) {e : Engine n} (h : e.Told)
    (call : DecodeCall n) (o : DecodeOutcome) : (e.decoded L cfg call o).Told := by
  apply Engine.decoded_keeps (P := Engine.Told)
  · exact fun _ => h
  · exact fun cells _ sid he => told_sampleTurn L cfg cells call he sid
  · exact fun _ sid he => told_decodeFailedTurn he sid
  · exact fun _ _ _ he => he

theorem told_step (L : Llama) (cfg : EngineConfig) {e : Engine n} (h : e.Told)
    (a : Engine.Action) : (e.step L cfg a).Told := by
  cases a with
  | enqueue req => exact h
  | shutdown => exact h
  | tick env =>
    simp only [Engine.step]
    rcases e.tick_cases L cfg env with ⟨_, p, _, he⟩ | ⟨_, he⟩ | ⟨toAdmit, _, he⟩ | ⟨_, _, he⟩ |
      ⟨call, _, he⟩
    · rw [he]
      exact h
    · rw [he]
      exact h
    · rw [he]
      exact told_loop (told_retireExpiredTurn env.now) (List.finRange n)
        (told_loop (told_admitOne L) toAdmit h)
    · rw [he]
      exact told_collect h
    · rw [he]
      exact told_decoded L cfg h call env.decode

/-- Each failed request of each run is answered with the text of its exit. -/
theorem told_run (L : Llama) (cfg : EngineConfig) (as : List Engine.Action) :
    ((engine L cfg).run as).Told :=
  invariant (engine L cfg) Engine.Told (by simp [Engine.Told, engine, Engine.new])
    (fun _ a h => told_step L cfg h a) as

/-! ## What a client sees -/

/-- A request to one of the four endpoints, as it comes to the handler. The
header fields and the body of an HTTP request are those that httplib read and
took, and that the JSON parser read. -/
inductive ClientRequest where
  | infer (headers : List (Bytes × Bytes)) (parsed : Option Json)
  | chat (headers : List (Bytes × Bytes)) (parsed : Option Json)
  | grpcInfer (req : InferRequest)
  | grpcChat (req : ChatRequest)

inductive ClientResponse where
  | http (res : HttpResponse)
  | infer (reply : RpcReply InferResponse)
  | chat (reply : RpcReply ChatResponse)

/-- What the handler of the endpoint does, and httplib behind it. -/
def ClientRequest.handle (cfg : ServerConfig) (env : Surroundings) :
    ClientRequest → Reaction ClientResponse
  | .infer headers parsed =>
    (postInfer env parsed).reaction.map (fun res => .http (httplib.finish headers res))
  | .chat headers parsed =>
    (postChat cfg env headers parsed).reaction.map (fun res => .http (httplib.finish headers res))
  | .grpcInfer req => (InferenceService.infer env req).reaction.map .infer
  | .grpcChat req => (chatComplete env req).reaction.map .chat

/-- The response says that the request failed: another status than 200 or a
top-level `error` over HTTP, another status than OK or an `error` over gRPC. -/
def ClientResponse.failed : ClientResponse → Bool
  | .http res => res.status ≠ 200 || (res.body.map (Json.contains · "error")).getD false
  | .infer reply => reply.code ≠ .OK || !reply.response.error.isEmpty
  | .chat reply => reply.code ≠ .OK || !reply.response.error.isEmpty

/-- The model name that the response of `/v1/chat/completions` repeats is
UTF-8. It comes from the body or from the configuration. -/
def ClientRequest.Named (cfg : ServerConfig) : ClientRequest → Prop
  | .chat _ (some body) =>
    ∀ model, body.value Json.getString "model" cfg.model_name = .ok model → IsUtf8 model
  | _ => True

/-- The response can write the text: JSON only takes UTF-8. -/
def ClientRequest.Writes (result : Bytes) : ClientRequest → Prop
  | .infer _ _ => IsUtf8 result
  | .chat _ _ => IsUtf8 result
  | _ => True

/-- The client asks for parts of the response only. -/
def ClientRequest.ranged : ClientRequest → Bool
  | .infer headers _ | .chat headers _ => !(httplib.ranges headers).isEmpty
  | _ => false

/-! ## The four responses -/

theorem inferResult_dumps (result : Bytes) :
    (inferResult result).dumps = decide (IsUtf8 result) := by
  simp (disch := decide) [inferResult, Json.dumps, Json.dumpsFields, isUtf8_bytes]

theorem chatResult_dumps (id : Nat) (created : Int) (model content : Bytes) :
    (chatResult id created model content).dumps =
      (decide (IsUtf8 model) && decide (IsUtf8 content)) := by
  have hid : IsUtf8 (bytes "chatcmpl-" ++ bytes id.repr) :=
    (isUtf8_bytes (by decide)).append (isUtf8_repr id)
  simp (disch := decide) [chatResult, Json.dumps, Json.dumpsFields, Json.dumpsAll, isUtf8_bytes,
    hid]

/-- With ranges, a response has another status than 200. -/
theorem finish_ranged {headers : List (Bytes × Bytes)} (res : HttpResponse)
    (h : (httplib.ranges headers).isEmpty = false) :
    (httplib.finish headers res).status ≠ 200 := by
  by_cases h200 : res.status = 200
  · unfold httplib.finish
    simp only [h200, h, decide_true, Bool.not_false, Bool.and_self, if_true]
    split <;> simp
  · rw [httplib.finish_of_failure headers h200]
    exact h200

theorem finish_whole {headers : List (Bytes × Bytes)} (res : HttpResponse)
    (h : (httplib.ranges headers).isEmpty = true) : httplib.finish headers res = res := by
  unfold httplib.finish
  rw [h, Bool.not_true, Bool.and_false, if_neg Bool.false_ne_true]

/-- A response without a top-level `error` reports a failure only when it
cannot be written, or when only parts of it are asked for. -/
theorem dump_failed {headers : List (Bytes × Bytes)} {j : Json}
    (h : j.contains "error" = false) :
    (ClientResponse.http (httplib.finish headers (.dump j))).failed =
      (!j.dumps || !(httplib.ranges headers).isEmpty) := by
  cases hranges : (httplib.ranges headers).isEmpty with
  | false =>
    have hstatus := finish_ranged (.dump j) hranges
    simp [ClientResponse.failed, hstatus]
  | true =>
    rw [finish_whole _ hranges]
    unfold HttpResponse.dump
    cases j.dumps with
    | true => simp [ClientResponse.failed, h]
    | false => rfl

theorem map_dispatched {ρ σ : Type} {f : ρ → σ} {x : Reaction ρ} {r : Request}
    {respond : Bytes → σ} (h : x.map f = .dispatched r respond) :
    ∃ g, x = .dispatched r g ∧ respond = fun result => f (g result) := by
  cases x with
  | dispatched r' g =>
    cases h
    exact ⟨g, rfl, rfl⟩
  | answered res => cases h
  | escaped => cases h

theorem postInfer_dispatched {env : Surroundings} {parsed : Option Json} {r : Request}
    {respond : Bytes → HttpResponse}
    (h : (postInfer env parsed).reaction = .dispatched r respond) :
    ∃ body tenant_id, parsed = some body ∧ inferRequest env tenant_id body = .ok r ∧
      respond = fun result => .dump (inferResult result) := by
  unfold postInfer at h
  split at h
  · cases h
  · rename_i body
    split at h
    · cases h
    · rename_i tenant_id _
      split at h
      · cases h
      · split at h
        · cases h
        · rename_i hread
          cases h
          exact ⟨body, tenant_id, rfl, hread, rfl⟩

theorem postChat_dispatched {cfg : ServerConfig} {env : Surroundings}
    {headers : List (Bytes × Bytes)} {parsed : Option Json} {r : Request}
    {respond : Bytes → HttpResponse}
    (h : (postChat cfg env headers parsed).reaction = .dispatched r respond) :
    ∃ body messages model, parsed = some body ∧
      chatRequest env (chatTenant headers) body messages = .ok r ∧
      body.value Json.getString "model" cfg.model_name = .ok model ∧
      respond = fun content => .dump (chatResult r.id env.system_clock model content) := by
  unfold postChat at h
  split at h
  · cases h
  · rename_i body
    simp only at h
    split at h
    · cases h
    · split at h
      · rename_i messages _
        split at h
        · cases h
        · rename_i model hmodel
          split at h
          · cases h
          · rename_i hread
            cases h
            exact ⟨body, messages, model, rfl, hread, hmodel, rfl⟩
      · cases h

/-- A handler that gets a result reports a failure exactly when it cannot
write its response, or when only parts of it are asked for. -/
theorem failed_iff {cfg : ServerConfig} {env : Surroundings} {req : ClientRequest} {r : Request}
    {respond : Bytes → ClientResponse} (h : req.handle cfg env = .dispatched r respond)
    (result : Bytes) :
    (respond result).failed = true ↔
      ¬ (req.Named cfg ∧ req.Writes result ∧ req.ranged = false) := by
  cases req with
  | infer headers parsed =>
    obtain ⟨g, hg, rfl⟩ := map_dispatched h
    obtain ⟨_, _, _, _, rfl⟩ := postInfer_dispatched hg
    simp only
    rw [dump_failed rfl, inferResult_dumps]
    simp only [ClientRequest.Named, ClientRequest.Writes, ClientRequest.ranged, true_and,
      Bool.or_eq_true, Bool.not_eq_true', Bool.not_eq_false', decide_eq_false_iff_not, not_and_or,
      Bool.not_eq_true]
  | chat headers parsed =>
    obtain ⟨g, hg, rfl⟩ := map_dispatched h
    obtain ⟨body, _, model, rfl, _, hmodel, rfl⟩ := postChat_dispatched hg
    have hnamed : (ClientRequest.chat headers (some body)).Named cfg ↔ IsUtf8 model := by
      simp only [ClientRequest.Named, hmodel]
      exact ⟨fun hall => hall model rfl, fun hm m hm' => Except.ok.inj hm' ▸ hm⟩
    rw [hnamed]
    simp only
    rw [dump_failed rfl, chatResult_dumps]
    simp only [ClientRequest.Writes, ClientRequest.ranged, Bool.or_eq_true, Bool.not_eq_true',
      Bool.and_eq_false_iff, decide_eq_false_iff_not, not_and_or, Bool.not_eq_false', or_assoc]
    simp
  | grpcInfer req =>
    obtain ⟨g, hg, rfl⟩ := map_dispatched h
    unfold InferenceService.infer at hg
    simp only at hg
    split at hg
    · cases hg
    · cases hg
      simp [ClientResponse.failed, ClientRequest.Named, ClientRequest.Writes, ClientRequest.ranged]
  | grpcChat req =>
    obtain ⟨g, hg, rfl⟩ := map_dispatched h
    unfold chatComplete at hg
    simp only at hg
    split at hg
    · cases hg
    · cases hg
      simp [ClientResponse.failed, ClientRequest.Named, ClientRequest.Writes, ClientRequest.ranged]

/-! ## Every way to end a request -/

/-- A text of a failed exit is ASCII. -/
theorem isUtf8_errorText {exit : Exit} {text : Bytes} (h : exit.errorText = some text) :
    IsUtf8 text := by
  cases exit with
  | generated => cases h
  | _ =>
    cases h
    exact isUtf8_bytes (by decide)

/-- A response reports a failure exactly when the engine failed, if and only
if the engine did not fail, the response can write the text and the client asks
for all of it; or the engine failed, and the response cannot write the name of
its model or the client asks for parts of it. -/
theorem failures_show_iff (cfg : ServerConfig) (env : Surroundings) (req : ClientRequest)
    (r : Request) (respond : Bytes → ClientResponse)
    (hreq : req.handle cfg env = .dispatched r respond) (L : Llama) (ecfg : EngineConfig)
    (as : List Engine.Action) (promise : Nat) (exit : Exit) (result : Bytes)
    (hdone : Event.completed promise exit result ∈ ((engine L ecfg).run as).trace) :
    ((respond result).failed = true ↔ exit ≠ .generated) ↔
      (exit = .generated ∧ req.Named cfg ∧ req.Writes result ∧ req.ranged = false) ∨
        (exit ≠ .generated ∧ (¬ req.Named cfg ∨ req.ranged = true)) := by
  rw [failed_iff hreq]
  by_cases hexit : exit = .generated
  · simp [hexit]
  · have hwrites : req.Writes result := by
      obtain ⟨text, htext⟩ : ∃ text, exit.errorText = some text := by
        cases exit <;> first | exact ⟨_, rfl⟩ | exact absurd rfl hexit
      have hutf8 : IsUtf8 result := by
        rw [told_run L ecfg as _ hdone text htext]
        exact isUtf8_errorText htext
      cases req <;> first | exact hutf8 | trivial
    simp only [hexit, hwrites, not_false_eq_true, true_and, false_and, false_or, iff_true,
      not_and_or, Bool.not_eq_false, ne_eq]

/-! One request to `/infer`, answered in time and too late. -/

def helloInfer : ClientRequest :=
  .infer [] (some (inferBody {
    tenant_id := bytes "t1"
    payload := bytes "hello"
    deadline_ms := 5000 }))

/-- The request that the handler enqueues. -/
def helloWork : Request where
  id := 1
  tenant_id := bytes "t1"
  payload := bytes "hello"
  priority := .Normal
  enqueue_time := 0
  deadline := 5000

/-- The idle engine takes the request, and `retire_expired` reads the clock
`now`. The next iterations decode. -/
def helloRun (now : Int) : List Engine.Action :=
  .enqueue helloWork :: List.replicate 16 (.tick ⟨now, .ok⟩)

/-- Says `h` and ends. -/
def shortLlama : Llama := byteLlama (fun cached => if cached.length = 55 then 104 else 0)

theorem failures_show_iff_hello :
    ∃ respond, helloInfer.handle {} letThrough = .dispatched helloWork respond ∧
      ((respond (bytes "h")).failed = true ↔ Exit.generated ≠ .generated) :=
  ⟨_, rfl, (failures_show_iff {} letThrough helloInfer helloWork _ rfl shortLlama
    { max_slots := 1 } (helloRun 0) 0 .generated (bytes "h") (by decide +kernel)).mpr
      (Or.inl ⟨rfl, trivial, isUtf8_bytes (by decide), rfl⟩)⟩

/-- The engine gives the request up, and the client gets 200 with the text of
the exit as its result. -/
theorem a_late_request_gets_a_200 :
    ∃ respond result, helloInfer.handle {} letThrough = .dispatched helloWork respond ∧
      Event.completed 0 .deadline_exceeded result ∈
        ((engine shortLlama { max_slots := 1 }).run (helloRun 6000000000)).trace ∧
      ¬ ((respond result).failed = true ↔ Exit.deadline_exceeded ≠ .generated) := by
  refine ⟨_, bytes "\x7b\"error\":\"deadline_exceeded\"\x7d", rfl, by decide +kernel, ?_⟩
  decide +kernel

end inference_server
