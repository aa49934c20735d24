-- The HTTP front end (`src/server.cpp`): from the header lines and the parsed
-- body of a request to the request that goes to the engine, and from its
-- result to the response. In front of a handler and behind it stands
-- `process_request` of `httplib.h`.
import InferenceServer.HttpHeaders
import InferenceServer.Json

namespace inference_server

/-! ## What a handler does -/

/-- A handler answers at once, or hands a request to the engine and answers
with its result, or an exception leaves it. -/
inductive Reaction (ρ : Type) where
  | answered (res : ρ)
  | dispatched (r : Request) (respond : Bytes → ρ)
  | escaped

def Reaction.map {ρ σ : Type} (f : ρ → σ) : Reaction ρ → Reaction σ
  | .answered res => .answered (f res)
  | .dispatched r respond => .dispatched r (fun result => f (respond result))
  | .escaped => .escaped

/-- The tenant that a handler asked the rate limiter about, and what it did. -/
structure Handled (ρ : Type) where
  charged : Option Bytes
  reaction : Reaction ρ

/-- The request that the handler enqueued. -/
def Handled.enqueued {ρ : Type} (h : Handled ρ) : Option Request :=
  match h.reaction with
  | .dispatched r _ => some r
  | _ => none

/-- What a handler takes from the world around it: the answers of
`rate_limiter_.allow`, the next id and the two clocks. -/
structure Surroundings where
  allow : Bytes → Bool
  id : Nat
  steady_clock : Int
  system_clock : Int

/-! ## Requests and responses -/

/-- A POST request: its header lines, and what `json::parse` makes of its
body. The parser throws on a body that is not JSON. A body that `read_content`
does not take is answered with the status that it gives. -/
structure HttpRequest where
  lines : List Bytes
  body : Except Nat (Option Json)

/-- A response and the JSON of its body, if it has one. With the status 206
only some parts of its text are sent. -/
structure HttpResponse where
  status : Nat
  body : Option Json

/-- `json{{"error", ...}}` with a status of its own. -/
def HttpResponse.error (status : Nat) (error : Json) : HttpResponse :=
  { status := status, body := some (.object [(bytes "error", error)]) }

/-- `{"message": ..., "type": ...}`. -/
def openAiError (message type : String) : Json :=
  .object [(bytes "message", .string (bytes message)), (bytes "type", .string (bytes type))]

/-- `res.set_content(j.dump(), "application/json")` at the end of a handler,
with the status that a response without ranges gets then. An exception from
`dump` leaves the handler, and httplib answers 500. -/
def HttpResponse.dump (j : Json) : HttpResponse :=
  if j.dumps then { status := 200, body := some j } else { status := 500, body := none }

/-- What `Server` reads of its `ServerConfig`. -/
structure ServerConfig where
  model_name : Bytes := bytes "local-model"

/-! ## The handlers -/

def parsePriority (s : Bytes) : Priority :=
  if s = bytes "high" then .High else if s = bytes "low" then .Low else .Normal

/-- One message in ChatML. -/
def chatmlMessage (role content : Bytes) : Bytes :=
  bytes "<|im_start|>" ++ role ++ bytes "\n" ++ content ++ bytes "<|im_end|>\n"

/-- One turn of the loop of `build_chatml`. -/
def chatmlTurn (prompt : Bytes) (msg : Json) : Except JsonError Bytes := do
  let role ← msg.value Json.getString "role" (bytes "user")
  let content ← msg.value Json.getString "content" []
  return prompt ++ chatmlMessage role content

def buildChatml (messages : List Json) : Except JsonError Bytes := do
  let prompt ← messages.foldlM chatmlTurn []
  return prompt ++ bytes "<|im_start|>assistant\n"

/-- The `Request` of `/infer`, once its tenant is let through. -/
def inferRequest (env : Surroundings) (tenant_id : Bytes) (body : Json) :
    Except JsonError Request := do
  let payload ← body.value Json.getString "payload" []
  let priority ← body.value Json.getString "priority" (bytes "normal")
  let deadline ← body.value Json.getInt "deadline_ms" 5000
  let max_new_tokens ← body.value Json.getInt "max_new_tokens" 0
  return {
    id := env.id
    tenant_id := tenant_id
    payload := payload
    priority := parsePriority priority
    enqueue_time := env.steady_clock
    deadline := deadline.toInt
    max_new_tokens := max_new_tokens.toInt }

def inferResult (result : Bytes) : Json := .object [(bytes "result", .string result)]

/-- `POST /infer`. -/
def postInfer (env : Surroundings) (parsed : Option Json) : Handled HttpResponse :=
  match parsed with
  | none => ⟨none, .answered (.error 400 (.string (bytes "invalid JSON")))⟩
  | some body =>
    match body.value Json.getString "tenant_id" (bytes "default") with
    | .error _ => ⟨none, .escaped⟩
    | .ok tenant_id =>
      if !env.allow tenant_id then
        ⟨some tenant_id, .answered (.error 429 (.string (bytes "rate limit exceeded")))⟩
      else
        match inferRequest env tenant_id body with
        | .error _ => ⟨some tenant_id, .escaped⟩
        | .ok r => ⟨some tenant_id, .dispatched r (fun result => .dump (inferResult result))⟩

/-- The tenant from `Authorization: Bearer <key>` or `X-Tenant-ID`. -/
def chatTenant (headers : List (Bytes × Bytes)) : Bytes :=
  match httplib.headerValue headers "Authorization" with
  | some auth => if (bytes "Bearer ").isPrefixOf auth then auth.drop 7 else bytes "default"
  | none => (httplib.headerValue headers "X-Tenant-ID").getD (bytes "default")

/-- The `Request` of `/v1/chat/completions`. -/
def chatRequest (env : Surroundings) (tenant_id : Bytes) (body : Json) (messages : List Json) :
    Except JsonError Request := do
  let payload ← buildChatml messages
  let deadline ← body.value Json.getInt "timeout_ms" 30000
  let max_new_tokens ← body.value Json.getInt "max_tokens" 0
  return {
    id := env.id
    tenant_id := tenant_id
    payload := payload
    priority := .Normal
    enqueue_time := env.steady_clock
    deadline := deadline.toInt
    max_new_tokens := max_new_tokens.toInt }

/-- The response of `/v1/chat/completions`, in the shape of OpenAI. -/
def chatResult (id : Nat) (created : Int) (model content : Bytes) : Json :=
  .object [
    (bytes "id", .string (bytes "chatcmpl-" ++ bytes (toString id))),
    (bytes "object", .string (bytes "chat.completion")),
    (bytes "created", .integer created),
    (bytes "model", .string model),
    (bytes "choices", .array [.object [
      (bytes "index", .integer 0),
      (bytes "message", .object [
        (bytes "role", .string (bytes "assistant")),
        (bytes "content", .string content)]),
      (bytes "finish_reason", .string (bytes "stop"))]]),
    (bytes "usage", .object [
      (bytes "prompt_tokens", .integer 0),
      (bytes "completion_tokens", .integer 0),
      (bytes "total_tokens", .integer 0)])]

/-- `POST /v1/chat/completions`. -/
def postChat (cfg : ServerConfig) (env : Surroundings) (headers : List (Bytes × Bytes))
    (parsed : Option Json) : Handled HttpResponse :=
  match parsed with
  | none =>
    ⟨none, .answered (.error 400 (openAiError "invalid JSON" "invalid_request_error"))⟩
  | some body =>
    let tenant_id := chatTenant headers
    if !env.allow tenant_id then
      ⟨some tenant_id, .answered
        (.error 429 (openAiError "Rate limit exceeded" "rate_limit_error"))⟩
    else
      match body.field? "messages" with
      | some (.array messages) =>
        match body.value Json.getString "model" cfg.model_name with
        | .error _ => ⟨some tenant_id, .escaped⟩
        | .ok model =>
          match chatRequest env tenant_id body messages with
          | .error _ => ⟨some tenant_id, .escaped⟩
          | .ok r =>
            ⟨some tenant_id, .dispatched r (fun content =>
              .dump (chatResult r.id env.system_clock model content))⟩
      | _ =>
        ⟨some tenant_id, .answered (.error 400
          (openAiError "'messages' array is required" "invalid_request_error"))⟩

/-! ## Around the handlers -/

namespace httplib

/-- `process_request` behind a handler. For a request with ranges the status of
a success is 206, or 416 when the text has no such parts. -/
def finish (headers : List (Bytes × Bytes)) (res : HttpResponse) : HttpResponse :=
  if res.status = 200 && !(ranges headers).isEmpty then
    if rangeError ((res.body.map Json.size).getD 0) (ranges headers) then
      { status := 416, body := none }
    else { res with status := 206 }
  else res

theorem finish_of_failure (headers : List (Bytes × Bytes)) {res : HttpResponse}
    (h : res.status ≠ 200) : finish headers res = res := by
  unfold finish
  simp [h]

end httplib

/-- The request does not come to a handler. -/
def refused (status : Nat) : Handled HttpResponse :=
  ⟨none, .answered { status := status, body := none }⟩

/-- `process_request` around a handler: header fields that httplib cannot read
or does not take, and a body that it does not take, are answered at once. -/
def serveHttp (quality : Bytes → Bool)
    (handler : List (Bytes × Bytes) → Option Json → Handled HttpResponse) (req : HttpRequest) :
    Handled HttpResponse :=
  match httplib.readHeaders req.lines with
  | none => refused 400
  | some headers =>
    match httplib.refusal quality headers, req.body with
    | some status, _ => refused status
    | none, .error status => refused status
    | none, .ok parsed =>
      let handled := handler headers parsed
      ⟨handled.charged, handled.reaction.map (httplib.finish headers)⟩

end inference_server
