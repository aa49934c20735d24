-- Which JSON bodies the HTTP handlers can answer. Only the parse of a body is
-- guarded: a field of another type, a body that is no object, and a result that
-- is not UTF-8 end in an exception, and httplib answers a bare 500.
import InferenceServer.Failures

namespace inference_server

/-! ## Reading a field -/

/-- The computation throws nothing. -/
def Reads {ε α : Type} (x : Except ε α) : Prop := ∃ a, x = .ok a

theorem reads_ok {ε α : Type} (a : α) : Reads (.ok a : Except ε α) := ⟨a, rfl⟩

theorem reads_pure {ε α : Type} (a : α) : Reads (pure a : Except ε α) := ⟨a, rfl⟩

theorem not_reads_error {ε α : Type} (err : ε) : ¬ Reads (.error err : Except ε α) := nofun

/-- Both steps throw nothing, when the second one does not depend on what the
first one gave. -/
theorem reads_bind {ε α β : Type} {x : Except ε α} {f : α → Except ε β} {P : Prop}
    (h : ∀ a, Reads (f a) ↔ P) : Reads (x >>= f) ↔ Reads x ∧ P := by
  cases x with
  | error err => exact iff_of_false (not_reads_error err) (fun hx => not_reads_error err hx.1)
  | ok a =>
    have hbind : (Except.ok a >>= f) = f a := rfl
    rw [hbind, h a]
    exact ⟨fun hp => ⟨reads_ok a, hp⟩, And.right⟩

namespace Json

def IsObject : Json → Prop
  | .object _ => True
  | _ => False

/-- The field is a string, or it is not there. -/
def TextField (j : Json) (key : String) : Prop :=
  match j.field? key with
  | none | some (.string _) => True
  | _ => False

/-- The field is a number or a boolean, or it is not there. -/
def NumberField (j : Json) (key : String) : Prop :=
  match j.field? key with
  | none | some (.integer _) | some (.float _) | some (.boolean _) => True
  | _ => False

/-- The string in the field, or the default. -/
def textOr (j : Json) (key : String) (default : Bytes) : Bytes :=
  match j.field? key with
  | some (.string s) => s
  | _ => default

theorem value_text (j : Json) (key : String) (default : Bytes) :
    (j.IsObject ∧ j.TextField key ∧ j.value getString key default = .ok (j.textOr key default)) ∨
    (¬ (j.IsObject ∧ j.TextField key) ∧ ¬ Reads (j.value getString key default)) := by
  cases j with
  | object fields =>
    simp only [IsObject, TextField, textOr, value, field?, true_and]
    rcases fields.lookup (bytes key) with _ | field
    · exact Or.inl ⟨trivial, rfl⟩
    · cases field with
      | string s => exact Or.inl ⟨trivial, rfl⟩
      | _ => exact Or.inr ⟨id, not_reads_error _⟩
  | _ => exact Or.inr ⟨And.left, not_reads_error _⟩

theorem reads_text (j : Json) (key : String) (default : Bytes) :
    Reads (j.value getString key default) ↔ j.IsObject ∧ j.TextField key := by
  rcases j.value_text key default with ⟨hobj, htext, hread⟩ | ⟨hnot, hread⟩
  · exact iff_of_true ⟨_, hread⟩ ⟨hobj, htext⟩
  · exact iff_of_false hread hnot

theorem reads_number (j : Json) (key : String) (default : Int32) :
    Reads (j.value getInt key default) ↔ j.IsObject ∧ j.NumberField key := by
  cases j with
  | object fields =>
    simp only [IsObject, NumberField, value, field?, true_and]
    rcases fields.lookup (bytes key) with _ | field
    · exact iff_of_true (reads_ok _) trivial
    · cases field with
      | integer i => exact iff_of_true (reads_ok _) trivial
      | float x => exact iff_of_true (reads_ok _) trivial
      | boolean b => exact iff_of_true (reads_ok _) trivial
      | _ => exact iff_of_false (not_reads_error _) id
  | _ => exact iff_of_false (not_reads_error _) And.left

theorem isObject_of_field {j : Json} {key : String} {field : Json}
    (h : j.field? key = some field) : j.IsObject := by
  cases j with
  | object fields => trivial
  | _ => cases h

end Json

/-! ## Building the requests -/

/-- The fields that `/infer` reads once the tenant is let through. -/
def InferFields (body : Json) : Prop :=
  body.TextField "payload" ∧ body.TextField "priority" ∧ body.NumberField "deadline_ms" ∧
    body.NumberField "max_new_tokens"

theorem reads_inferRequest (env : Surroundings) (tenant_id : Bytes) {body : Json}
    (h : body.IsObject) : Reads (inferRequest env tenant_id body) ↔ InferFields body := by
  unfold inferRequest InferFields
  rw [reads_bind (fun _ => reads_bind (fun _ => reads_bind (fun _ => reads_bind (fun _ =>
    iff_of_true (reads_pure _) trivial))))]
  simp only [Json.reads_text, Json.reads_number, h, true_and, and_true]

/-- A message that `build_chatml` can read. -/
def MessageFields (msg : Json) : Prop :=
  msg.IsObject ∧ msg.TextField "role" ∧ msg.TextField "content"

theorem reads_chatmlTurn (prompt : Bytes) (msg : Json) :
    Reads (chatmlTurn prompt msg) ↔ MessageFields msg := by
  unfold chatmlTurn MessageFields
  rw [reads_bind (fun _ => reads_bind (fun _ => iff_of_true (reads_pure _) trivial))]
  simp only [Json.reads_text, and_true]
  tauto

theorem reads_buildChatml (messages : List Json) :
    Reads (buildChatml messages) ↔ ∀ msg ∈ messages, MessageFields msg := by
  have hloop : ∀ prompt, Reads (messages.foldlM chatmlTurn prompt) ↔
      ∀ msg ∈ messages, MessageFields msg := by
    induction messages with
    | nil =>
      intro prompt
      exact iff_of_true (reads_ok prompt) (by simp)
    | cons msg messages ih =>
      intro prompt
      rw [List.foldlM_cons, reads_bind ih, reads_chatmlTurn,
        List.forall_mem_cons]
  unfold buildChatml
  rw [reads_bind (fun _ => iff_of_true (reads_pure _) trivial), hloop, and_true]

/-- The fields that the chat handler reads of a body with messages. -/
def ChatFields (body : Json) (messages : List Json) : Prop :=
  (∀ msg ∈ messages, MessageFields msg) ∧ body.NumberField "timeout_ms" ∧
    body.NumberField "max_tokens"

theorem reads_chatRequest (env : Surroundings) (tenant_id : Bytes) {body : Json}
    (h : body.IsObject) (messages : List Json) :
    Reads (chatRequest env tenant_id body messages) ↔ ChatFields body messages := by
  unfold chatRequest ChatFields
  rw [reads_bind (fun _ => reads_bind (fun _ => reads_bind (fun _ =>
    iff_of_true (reads_pure _) trivial)))]
  simp only [reads_buildChatml, Json.reads_number, h, true_and, and_true]

/-! ## The answers -/

/-- One request goes to the engine and its result is sent, or none goes and
the client gets a JSON error with status 400 or 429. -/
def Proper (h : Handled HttpResponse) (result : Bytes) : Prop :=
  match h.reaction with
  | .answered res => (res.status = 400 ∨ res.status = 429) ∧
      ∃ error, res.body = some (.object [(bytes "error", error)])
  | .dispatched _ respond => (respond result).body ≠ none
  | .escaped => False

/-- The body of a response is there when `dump` throws nothing. -/
theorem dump_body (j : Json) : (HttpResponse.dump j).body ≠ none ↔ j.dumps = true := by
  unfold HttpResponse.dump
  cases j.dumps with
  | false => exact iff_of_false (fun h => h rfl) Bool.false_ne_true
  | true => exact iff_of_true (Option.some_ne_none _) rfl

/-- What `/infer` can answer: an object with a tenant that is a string. If the
tenant is let through, the other fields have their types, and the result is
UTF-8. -/
def InferAnswerable (env : Surroundings) (body : Json) (result : Bytes) : Prop :=
  body.IsObject ∧ body.TextField "tenant_id" ∧
    (env.allow (body.textOr "tenant_id" (bytes "default")) = true →
      InferFields body ∧ IsUtf8 result)

/-- What the chat handler can answer: if the tenant is let through and the body
has an array of messages, all fields have their types, and the name of the
model and the result are UTF-8. -/
def ChatAnswerable (cfg : ServerConfig) (env : Surroundings) (headers : List (Bytes × Bytes))
    (body : Json) (result : Bytes) : Prop :=
  env.allow (chatTenant headers) = true →
    ∀ messages, body.field? "messages" = some (.array messages) →
      body.TextField "model" ∧ ChatFields body messages ∧
        IsUtf8 (body.textOr "model" cfg.model_name) ∧ IsUtf8 result

theorem postInfer_proper_iff (env : Surroundings) (body : Json) (result : Bytes) :
    Proper (postInfer env (some body)) result ↔ InferAnswerable env body result := by
  unfold postInfer InferAnswerable
  rcases body.value_text "tenant_id" (bytes "default") with ⟨hobj, htext, hread⟩ | ⟨hnot, hread⟩
  · simp only [hread, hobj, htext, true_and]
    by_cases hallow : env.allow (body.textOr "tenant_id" (bytes "default")) = true
    · have hfields := reads_inferRequest env (body.textOr "tenant_id" (bytes "default")) hobj
      simp only [hallow, Bool.not_true, Bool.false_eq_true, if_false, forall_const]
      rw [← hfields]
      rcases inferRequest env (body.textOr "tenant_id" (bytes "default")) body with err | r
      · exact iff_of_false id (fun h => not_reads_error err h.1)
      · have hdump := dump_body (inferResult result)
        rw [inferResult_dumps, decide_eq_true_eq] at hdump
        simp only [Proper, hdump, reads_ok, true_and]
    · simp only [hallow, Bool.not_false, if_true]
      exact iff_of_true ⟨Or.inr rfl, _, rfl⟩ nofun
  · rcases hv : body.value Json.getString "tenant_id" (bytes "default") with err | tenant_id
    · simp only [hv]
      exact iff_of_false id (fun h => hnot ⟨h.1, h.2.1⟩)
    · exact absurd ⟨tenant_id, hv⟩ hread

theorem postChat_proper_iff (cfg : ServerConfig) (env : Surroundings)
    (headers : List (Bytes × Bytes)) (body : Json) (result : Bytes) :
    Proper (postChat cfg env headers (some body)) result ↔
      ChatAnswerable cfg env headers body result := by
  unfold postChat ChatAnswerable
  by_cases hallow : env.allow (chatTenant headers) = true
  · simp only [hallow, Bool.not_true, Bool.false_eq_true, if_false, forall_const]
    split
    · rename_i messages hfield
      have hobj := Json.isObject_of_field hfield
      have hmessages : ∀ P : List Json → Prop,
          (∀ ms, body.field? "messages" = some (.array ms) → P ms) ↔ P messages := by
        intro P
        refine ⟨fun h => h messages hfield, fun h ms hms => ?_⟩
        rw [hfield] at hms
        cases hms
        exact h
      rw [hmessages]
      rcases body.value_text "model" cfg.model_name with ⟨_, htext, hread⟩ | ⟨hnot, hread⟩
      · have hfields := reads_chatRequest env (chatTenant headers) hobj messages
        simp only [hread, htext, true_and]
        rw [← hfields]
        rcases chatRequest env (chatTenant headers) body messages with err | r
        · exact iff_of_false id (fun h => not_reads_error err h.1)
        · have hdump := dump_body
            (chatResult r.id env.system_clock (body.textOr "model" cfg.model_name) result)
          rw [chatResult_dumps, Bool.and_eq_true, decide_eq_true_eq, decide_eq_true_eq] at hdump
          simp only [Proper, hdump, reads_ok, true_and]
      · rcases hv : body.value Json.getString "model" cfg.model_name with err | model
        · exact iff_of_false id (fun h => hnot ⟨hobj, h.1⟩)
        · exact absurd ⟨model, hv⟩ hread
    · rename_i hnone
      exact iff_of_true ⟨Or.inl rfl, _, rfl⟩ (fun ms hms => absurd hms (hnone ms))
  · simp only [hallow, Bool.not_false, if_true]
    exact iff_of_true ⟨Or.inr rfl, _, rfl⟩ nofun

/-! ## The law of proper answers -/

/-- For each JSON body and each result of the engine, the handlers answer
properly exactly when the body and the result are such that nothing throws. -/
theorem bodies_get_a_proper_answer_iff (cfg : ServerConfig) (env : Surroundings)
    (headers : List (Bytes × Bytes)) (body : Json) (result : Bytes) :
    (Proper (postInfer env (some body)) result ↔ InferAnswerable env body result) ∧
      (Proper (postChat cfg env headers (some body)) result ↔
        ChatAnswerable cfg env headers body result) := by
  exact ⟨postInfer_proper_iff env body result, postChat_proper_iff cfg env headers body result⟩

/-- An empty array, and messages with a null among them. -/
theorem null_messages_escape :
    let env : Surroundings :=
      { allow := fun _ => true, id := 1, steady_clock := 0, system_clock := 0 }
    let messages : Json := .object [(bytes "messages", .array [.null])]
    ¬ Proper (postInfer env (some (.array []))) (bytes "hi") ∧
      ¬ Proper (postChat {} env [] (some messages)) (bytes "hi") := by
  exact ⟨id, id⟩

end inference_server
