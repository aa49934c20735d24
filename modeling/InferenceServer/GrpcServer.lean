-- The gRPC front end (`src/grpc_server.cpp`), over the messages of
-- `proto/inference.proto`. A field that a client leaves out reads as empty or
-- zero.
import InferenceServer.HttpServer

namespace inference_server

/-! ## Messages -/

structure InferRequest where
  tenant_id : Bytes := []
  payload : Bytes := []
  priority : Bytes := []
  deadline_ms : Int32 := 0
  max_new_tokens : Int32 := 0

structure InferResponse where
  result : Bytes := []
  request_id : Nat := 0
  error : Bytes := []

structure ChatMessage where
  role : Bytes := []
  content : Bytes := []

structure ChatRequest where
  model : Bytes := []
  messages : List ChatMessage := []
  max_tokens : Int32 := 0
  tenant_id : Bytes := []
  deadline_ms : Int32 := 0

structure ChatChoice where
  index : Int32 := 0
  message : ChatMessage := {}
  finish_reason : Bytes := []

structure ChatResponse where
  id : Bytes := []
  model : Bytes := []
  choices : List ChatChoice := []
  error : Bytes := []

/-! ## The handlers -/

/-- The codes of `grpc::Status` that the handlers return. -/
inductive StatusCode where
  | OK
  | RESOURCE_EXHAUSTED
  deriving DecidableEq, Repr

/-- What a call returns: its status, and the response message. -/
structure RpcReply (μ : Type) where
  code : StatusCode := .OK
  message : Bytes := []
  response : μ

namespace InferenceService

/-- The tenant of a message, and the one for a message without. -/
def tenantOf (tenant_id : Bytes) : Bytes :=
  if tenant_id.isEmpty then bytes "default" else tenant_id

/-- The deadline of a message in milliseconds, or the one of the server. -/
def deadlineOf (deadline_ms : Int32) (server : Int) : Int :=
  if deadline_ms > 0 then deadline_ms.toInt else server

def priorityOf (s : Bytes) : Priority :=
  if s = bytes "high" then .High else if s = bytes "low" then .Low else .Normal

/-- `Infer`. -/
def infer (env : Surroundings) (req : InferRequest) : Handled (RpcReply InferResponse) :=
  let tenant_id := tenantOf req.tenant_id
  if !env.allow tenant_id then
    ⟨some tenant_id, .answered ⟨.RESOURCE_EXHAUSTED, bytes "rate limit exceeded", {}⟩⟩
  else
    let r : Request := {
      id := env.id
      tenant_id := tenant_id
      payload := req.payload
      priority := priorityOf req.priority
      enqueue_time := env.steady_clock
      deadline := deadlineOf req.deadline_ms 5000
      max_new_tokens := req.max_new_tokens.toInt }
    ⟨some tenant_id, .dispatched r (fun result =>
      { response := { result := result, request_id := r.id } })⟩

/-- The prompt of `ChatComplete`. -/
def promptOfMessages (messages : List ChatMessage) : Bytes :=
  messages.foldl (fun prompt msg => prompt ++ chatmlMessage msg.role msg.content) [] ++
    bytes "<|im_start|>assistant\n"

/-- `ChatComplete`. -/
def chatComplete (env : Surroundings) (req : ChatRequest) : Handled (RpcReply ChatResponse) :=
  let tenant_id := tenantOf req.tenant_id
  if !env.allow tenant_id then
    ⟨some tenant_id, .answered ⟨.RESOURCE_EXHAUSTED, bytes "rate limit exceeded", {}⟩⟩
  else
    let r : Request := {
      id := env.id
      tenant_id := tenant_id
      payload := promptOfMessages req.messages
      priority := .Normal
      enqueue_time := env.steady_clock
      deadline := deadlineOf req.deadline_ms 30000
      max_new_tokens := req.max_tokens.toInt }
    let choice (content : Bytes) : ChatChoice := {
      message := { role := bytes "assistant", content := content }
      finish_reason := bytes "stop" }
    ⟨some tenant_id, .dispatched r (fun content =>
      { response := {
          id := bytes "chatcmpl-grpc-" ++ bytes (toString r.id)
          model := if req.model.isEmpty then bytes "local-model" else req.model
          choices := [choice content] } })⟩

end InferenceService

end inference_server
