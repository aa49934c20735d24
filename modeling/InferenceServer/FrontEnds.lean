-- The two front ends side by side. One request sent over HTTP and over gRPC
-- is the same request to the rate limiter and to the engine, unless the tenant
-- or the deadline is one that gRPC takes for a field left out, or a header
-- field cannot carry the tenant.
import InferenceServer.GrpcServer

namespace inference_server

open httplib InferenceService

/-! ## The same request twice -/

/-- The request without its id and its time, which are new each time. -/
def Request.work (r : Request) : Request := { r with id := 0, enqueue_time := 0 }

/-- Two handlers asked the rate limiter about the same tenant and enqueued
the same request, or both none. -/
def HandledAlike {ρ σ : Type} (a : Handled ρ) (b : Handled σ) : Prop :=
  a.charged = b.charged ∧ a.enqueued.map Request.work = b.enqueued.map Request.work

/-- The body of `/infer` with the five values of a gRPC message. -/
def inferBody (req : InferRequest) : Json :=
  .object [
    (bytes "tenant_id", .string req.tenant_id),
    (bytes "payload", .string req.payload),
    (bytes "priority", .string req.priority),
    (bytes "deadline_ms", .integer req.deadline_ms.toInt),
    (bytes "max_new_tokens", .integer req.max_new_tokens.toInt)]

def messageBody (msg : ChatMessage) : Json :=
  .object [(bytes "role", .string msg.role), (bytes "content", .string msg.content)]

/-- The body of `/v1/chat/completions` with the values of a gRPC message. The
tenant goes into a header field. -/
def chatBody (req : ChatRequest) : Json :=
  .object [
    (bytes "model", .string req.model),
    (bytes "messages", .array (req.messages.map messageBody)),
    (bytes "max_tokens", .integer req.max_tokens.toInt),
    (bytes "timeout_ms", .integer req.deadline_ms.toInt)]

/-- The two header fields that name a tenant. -/
inductive TenantHeader where
  | authorization
  | x_tenant_id
  deriving DecidableEq, Repr

/-- The line that a client sends for a tenant key. -/
def TenantHeader.line (key : Bytes) : TenantHeader → Bytes
  | .authorization => bytes "Authorization: Bearer " ++ key
  | .x_tenant_id => bytes "X-Tenant-ID: " ++ key

/-- The header field brings the key unchanged: it fits, its bytes may stand in
a field, and no blank at its ends gets lost. Without a key, `Bearer` counts as
no tenant. -/
def TenantHeader.carries (key : Bytes) : TenantHeader → Prop
  | .authorization => key = [] ∨ (key.length + 24 ≤ 8192 ∧ isFieldContent (bytes "Bearer " ++ key))
  | .x_tenant_id => key ≠ [] ∧ key.length + 15 ≤ 8192 ∧ isFieldContent key

instance (key : Bytes) (h : TenantHeader) : Decidable (h.carries key) := by
  cases h <;> unfold TenantHeader.carries <;> infer_instance

/-- The other lines of a request: httplib reads them and takes the request to
its handler, and they name no tenant. -/
def OtherLines (quality : Bytes → Bool) (lines : List Bytes) : Bool :=
  match readHeaders lines with
  | some headers => decide (lines.length < 100) && (refusal quality headers).isNone &&
      headers.all (fun h => !sameName h.1 "Authorization" && !sameName h.1 "X-Tenant-ID")
  | none => false

/-! ## `/infer` and `Infer` -/

theorem work_eq {r r' : Request} : r.work = r'.work ↔
    (r.tenant_id = r'.tenant_id ∧ r.payload = r'.payload ∧ r.priority = r'.priority ∧
      r.deadline = r'.deadline ∧ r.max_new_tokens = r'.max_new_tokens ∧
      r.on_complete = r'.on_complete) := by
  simp [Request.work]

theorem tenantOf_eq_self {tenant_id : Bytes} : tenantOf tenant_id = tenant_id ↔ tenant_id ≠ [] := by
  unfold tenantOf
  cases tenant_id with
  | nil => decide
  | cons b s => simp

/-- The server's own deadlines are positive, so a message keeps its deadline
only if that is positive too. -/
theorem deadlineOf_eq_self {d : Int32} {server : Int} (h : 0 < server) :
    d.toInt = deadlineOf d server ↔ 0 < d := by
  unfold deadlineOf
  have hpos : 0 < d ↔ 0 < d.toInt := Int32.lt_iff_toInt_lt
  by_cases hd : 0 < d
  · simp [hd]
  · simp only [gt_iff_lt, hd, if_false, iff_false]
    rw [hpos] at hd
    omega

/-- The fields of a body are read as they were written. -/
theorem inferRequest_inferBody (env : Surroundings) (tenant_id : Bytes) (req : InferRequest) :
    inferRequest env tenant_id (inferBody req) = .ok {
      id := env.id
      tenant_id := tenant_id
      payload := req.payload
      priority := priorityOf req.priority
      enqueue_time := env.steady_clock
      deadline := req.deadline_ms.toInt
      max_new_tokens := req.max_new_tokens.toInt } := by
  have hread : inferRequest env tenant_id (inferBody req) = .ok {
      id := env.id
      tenant_id := tenant_id
      payload := req.payload
      priority := parsePriority req.priority
      enqueue_time := env.steady_clock
      deadline := (Int32.ofInt req.deadline_ms.toInt).toInt
      max_new_tokens := (Int32.ofInt req.max_new_tokens.toInt).toInt } := rfl
  rw [hread, Int32.ofInt_toInt, Int32.ofInt_toInt]
  rfl

theorem postInfer_inferBody (env : Surroundings) (req : InferRequest) :
    (postInfer env (some (inferBody req))).charged = some req.tenant_id ∧
    (postInfer env (some (inferBody req))).enqueued =
      if env.allow req.tenant_id then some {
        id := env.id
        tenant_id := req.tenant_id
        payload := req.payload
        priority := priorityOf req.priority
        enqueue_time := env.steady_clock
        deadline := req.deadline_ms.toInt
        max_new_tokens := req.max_new_tokens.toInt }
      else none := by
  have htenant : (inferBody req).value Json.getString "tenant_id" (bytes "default") =
      .ok req.tenant_id := rfl
  simp only [postInfer, htenant, inferRequest_inferBody]
  cases env.allow req.tenant_id
  · exact ⟨rfl, rfl⟩
  · exact ⟨rfl, rfl⟩

theorem infer_eq (env : Surroundings) (req : InferRequest) :
    (infer env req).charged = some (tenantOf req.tenant_id) ∧
    (infer env req).enqueued =
      if env.allow (tenantOf req.tenant_id) then some {
        id := env.id
        tenant_id := tenantOf req.tenant_id
        payload := req.payload
        priority := priorityOf req.priority
        enqueue_time := env.steady_clock
        deadline := deadlineOf req.deadline_ms 5000
        max_new_tokens := req.max_new_tokens.toInt }
      else none := by
  simp only [infer]
  cases env.allow (tenantOf req.tenant_id)
  · exact ⟨rfl, rfl⟩
  · exact ⟨rfl, rfl⟩

theorem infer_agrees_iff (env env' : Surroundings) (req : InferRequest) :
    HandledAlike (postInfer env (some (inferBody req)))
        (infer { env' with allow := env.allow } req) ↔
      req.tenant_id ≠ [] ∧ (env.allow req.tenant_id = true → 0 < req.deadline_ms) := by
  obtain ⟨hcharged, henqueued⟩ := postInfer_inferBody env req
  obtain ⟨hcharged', henqueued'⟩ := infer_eq { env' with allow := env.allow } req
  unfold HandledAlike
  rw [hcharged, hcharged', henqueued, henqueued', Option.some.injEq, eq_comm, tenantOf_eq_self]
  apply and_congr_right
  intro htenant
  rw [tenantOf_eq_self.mpr htenant]
  by_cases hallow : env.allow req.tenant_id = true
  · simp only [hallow, if_true, Option.map_some, Option.some.injEq, work_eq, true_and, and_true,
      forall_const]
    exact deadlineOf_eq_self (by decide)
  · simp [hallow]

/-! ## What a header field brings -/

theorem rdropWhile_append {α : Type} (p : α → Bool) (a b : List α) :
    (a ++ b).rdropWhile p =
      if b.rdropWhile p = [] then a.rdropWhile p else a ++ b.rdropWhile p := by
  unfold List.rdropWhile
  rw [List.reverse_append, List.dropWhile_append]
  by_cases h : b.reverse.dropWhile p = []
  · simp [h]
  · simp [h]

/-- A blank in front of a value is dropped with the others. -/
theorem trim_blank (v : Bytes) :
    ((32 :: v).rdropWhile isSpaceOrTab).dropWhile isSpaceOrTab = trim v := by
  unfold trim
  rw [← List.singleton_append, rdropWhile_append]
  split
  · rename_i h
    rw [h]
    rfl
  · rfl

theorem isSpaceOrTab_of_vchar {c : UInt8} (h : isFieldVchar c = true) : isSpaceOrTab c = false := by
  unfold isSpaceOrTab
  by_contra hc
  simp only [Bool.or_eq_false_iff, decide_eq_false_iff_not, not_and_or, not_not] at hc
  rcases hc with rfl | rfl
  · revert h
    decide
  · revert h
    decide

theorem ne_colon_of_token {c : UInt8} (h : isTokenChar c = true) : c ≠ 58 := by
  rintro rfl
  revert h
  decide

/-- A text without blanks at its ends stays as it is. -/
theorem trim_of_isFieldContent {v : Bytes} (h : isFieldContent v = true) : trim v = v := by
  unfold isFieldContent at h
  simp only [Bool.and_eq_true] at h
  obtain ⟨⟨hhead, _⟩, hlast⟩ := h
  have hr : v.rdropWhile isSpaceOrTab = v := by
    rw [List.rdropWhile_eq_self_iff]
    intro hne
    rw [List.getLast?_eq_getLast_of_ne_nil hne] at hlast
    simpa using isSpaceOrTab_of_vchar hlast
  unfold trim
  rw [hr]
  cases v with
  | nil => rfl
  | cons c v =>
    rw [List.dropWhile_cons_of_neg]
    simpa using isSpaceOrTab_of_vchar hhead

/-- A line with a name, a colon and a blank brings the value without the
blanks at its ends. -/
theorem parseHeader_line {name : Bytes} (hname : isFieldName name = true) (v : Bytes) :
    parseHeader (name ++ bytes ": " ++ v) =
      if isFieldContent (trim v) then some (name, trim v) else none := by
  have hline : (name ++ bytes ": " ++ v).rdropWhile isSpaceOrTab =
      name ++ 58 :: (32 :: v).rdropWhile isSpaceOrTab := by
    have hsplit : name ++ bytes ": " ++ v = (name ++ [58]) ++ 32 :: v := by
      rw [show bytes ": " = [58, 32] from rfl]
      simp
    rw [hsplit, rdropWhile_append]
    split
    · rename_i h
      rw [h, List.rdropWhile_concat_neg _ _ _ (by decide)]
    · simp
  have hcolon : ∀ c ∈ name, decide (c ≠ 58) = true := by
    intro c hc
    simp only [isFieldName, Bool.and_eq_true, List.all_eq_true] at hname
    exact decide_eq_true (ne_colon_of_token (hname.2 c hc))
  unfold parseHeader
  rw [hline]
  simp only [List.takeWhile_append_of_pos hcolon, List.dropWhile_append_of_pos hcolon]
  rw [List.takeWhile_cons_of_neg (by simp), List.dropWhile_cons_of_neg (by simp)]
  simp only [List.append_nil, hname, trim_blank, Bool.true_and]

/-- The tenant that the handler takes from the header field, if httplib reads
the line. -/
def TenantHeader.received (key : Bytes) (h : TenantHeader) : Option Bytes :=
  match h with
  | .authorization =>
    let auth := trim (bytes "Bearer " ++ key)
    if key.length + 24 ≤ 8192 ∧ isFieldContent auth then
      some (if (bytes "Bearer ").isPrefixOf auth then auth.drop 7 else bytes "default")
    else none
  | .x_tenant_id =>
    if key.length + 15 ≤ 8192 ∧ isFieldContent (trim key) then some (trim key) else none

theorem readLine_authorization (key : Bytes) :
    readLine (TenantHeader.line key .authorization) =
      if key.length + 24 ≤ 8192 ∧ isFieldContent (trim (bytes "Bearer " ++ key)) then
        some (bytes "Authorization", trim (bytes "Bearer " ++ key)) else none := by
  have hline : TenantHeader.line key .authorization =
      bytes "Authorization" ++ bytes ": " ++ (bytes "Bearer " ++ key) := by
    rw [TenantHeader.line, ← List.append_assoc]
    rfl
  have hlen : (TenantHeader.line key .authorization).length + 2 = key.length + 24 := by
    have hstart : (bytes "Authorization: Bearer ").length = 22 := rfl
    rw [TenantHeader.line, List.length_append, hstart]
    omega
  unfold readLine
  rw [hlen, hline, parseHeader_line (by decide)]
  by_cases h : key.length + 24 ≤ 8192 <;> simp [h]

theorem readLine_x_tenant_id (key : Bytes) :
    readLine (TenantHeader.line key .x_tenant_id) =
      if key.length + 15 ≤ 8192 ∧ isFieldContent (trim key) then
        some (bytes "X-Tenant-ID", trim key) else none := by
  have hline : TenantHeader.line key .x_tenant_id = bytes "X-Tenant-ID" ++ bytes ": " ++ key := rfl
  have hlen : (TenantHeader.line key .x_tenant_id).length + 2 = key.length + 15 := by
    have hstart : (bytes "X-Tenant-ID: ").length = 13 := rfl
    rw [TenantHeader.line, List.length_append, hstart]
    omega
  unfold readLine
  rw [hlen, hline, parseHeader_line (by decide)]
  by_cases h : key.length + 15 ≤ 8192 <;> simp [h]

theorem starts_with_append (a key : Bytes) : a.isPrefixOf (a ++ key) = true := by
  rw [List.isPrefixOf_iff_prefix]
  exact List.prefix_append a key

theorem bearer_received_iff (key : Bytes) :
    TenantHeader.received key .authorization = some (tenantOf key) ↔
      TenantHeader.carries key .authorization := by
  by_cases hnil : key = []
  · subst hnil
    exact iff_of_true (by decide) (Or.inl rfl)
  · rw [tenantOf_eq_self.mpr hnil]
    simp only [TenantHeader.received, TenantHeader.carries, hnil, false_or]
    constructor
    · intro h
      split at h
      · rename_i hread
        obtain ⟨hlen, hcontent⟩ := hread
        have hkey := Option.some.inj h
        split at hkey
        · rename_i hstart
          obtain ⟨rest, hrest⟩ := List.isPrefixOf_iff_prefix.mp hstart
          have hdrop : rest = key := by
            rw [← hkey, ← hrest]
            rfl
          rw [← hrest, hdrop] at hcontent
          exact ⟨hlen, hcontent⟩
        · rename_i hstart
          rw [← hkey] at hstart
          exact absurd (by decide) hstart
      · cases h
    · rintro ⟨hlen, hcontent⟩
      rw [trim_of_isFieldContent hcontent, if_pos ⟨hlen, hcontent⟩,
        if_pos (starts_with_append _ key)]
      rfl

theorem x_tenant_id_received_iff (key : Bytes) :
    TenantHeader.received key .x_tenant_id = some (tenantOf key) ↔
      TenantHeader.carries key .x_tenant_id := by
  simp only [TenantHeader.received, TenantHeader.carries]
  constructor
  · intro h
    split at h
    · rename_i hread
      obtain ⟨hlen, hcontent⟩ := hread
      have htrim := Option.some.inj h
      have hne : key ≠ [] := by
        rintro rfl
        revert htrim
        decide
      rw [htrim, tenantOf_eq_self.mpr hne] at hcontent
      exact ⟨hne, hlen, hcontent⟩
    · cases h
  · rintro ⟨hne, hlen, hcontent⟩
    rw [trim_of_isFieldContent hcontent, if_pos ⟨hlen, hcontent⟩, tenantOf_eq_self.mpr hne]

/-- The handler charges the tenant that gRPC charges exactly when the header
field carries the key. -/
theorem received_iff (h : TenantHeader) (key : Bytes) :
    h.received key = some (tenantOf key) ↔ h.carries key := by
  cases h with
  | authorization => exact bearer_received_iff key
  | x_tenant_id => exact x_tenant_id_received_iff key

/-! ## All lines of a request -/

/-- The names of the two header fields. -/
def TenantHeader.name : TenantHeader → Bytes
  | .authorization => bytes "Authorization"
  | .x_tenant_id => bytes "X-Tenant-ID"

/-- A header field that is none of the two. -/
def NoTenant (h : Bytes × Bytes) : Prop :=
  sameName h.1 "Authorization" = false ∧ sameName h.1 "X-Tenant-ID" = false

/-- A field of one name is not found under another. -/
theorem headerValue_insert {a b : List (Bytes × Bytes)} {field : Bytes × Bytes} {key : String}
    (h : sameName field.1 key = false) :
    headerValue (a ++ field :: b) key = headerValue (a ++ b) key := by
  unfold headerValue
  rw [List.find?_append, List.find?_append, List.find?_cons, h]

theorem name_ne (header : TenantHeader) {key : String}
    (hkey : key ∈ ["Content-Length", "Transfer-Encoding", "Accept", "Range"]) :
    sameName header.name key = false := by
  revert key
  cases header <;> decide

/-- A field that names a tenant changes nothing in front of the handler. -/
theorem refusal_insert (quality : Bytes → Bool) {a b : List (Bytes × Bytes)} {v : Bytes}
    (header : TenantHeader) :
    refusal quality (a ++ (header.name, v) :: b) = refusal quality (a ++ b) := by
  have hsame : ∀ key ∈ ["Content-Length", "Transfer-Encoding", "Accept", "Range"],
      headerValue (a ++ (header.name, v) :: b) key = headerValue (a ++ b) key :=
    fun key hkey => headerValue_insert (name_ne header hkey)
  unfold refusal headerValueU64
  rw [hsame "Content-Length" (by simp), hsame "Transfer-Encoding" (by simp),
    hsame "Accept" (by simp), hsame "Range" (by simp)]

theorem oneContentLength_insert {a b : List (Bytes × Bytes)} {v : Bytes} (header : TenantHeader) :
    oneContentLength (a ++ (header.name, v) :: b) = oneContentLength (a ++ b) := by
  have hname : sameName header.name "Content-Length" = false := name_ne header (by simp)
  unfold oneContentLength
  rw [headerValue_insert hname, List.all_append, List.all_append, List.all_cons, hname,
    Bool.not_false, Bool.true_or, Bool.true_and]

/-- One line names a tenant, and httplib reads the others and takes them. -/
theorem readHeaders_line {quality : Bytes → Bool} {before after : List Bytes}
    (h : OtherLines quality (before ++ after) = true) (header : TenantHeader) {line : Bytes}
    (hline : ∀ field, readLine line = some field → field.1 = header.name) :
    ∃ a b, (∀ field ∈ a ++ b, NoTenant field) ∧ refusal quality (a ++ b) = none ∧
      readHeaders (before ++ line :: after) =
        (readLine line).map (fun field => a ++ field :: b) := by
  unfold OtherLines at h
  cases hread : readHeaders (before ++ after) with
  | none => simp [hread] at h
  | some headers =>
    simp only [hread, Bool.and_eq_true, decide_eq_true_eq, Option.isNone_iff_eq_none,
      List.all_eq_true, Bool.not_eq_true'] at h
    obtain ⟨⟨hlen, hrefusal⟩, hothers⟩ := h
    have hcount : (before ++ line :: after).length ≤ 100 := by
      simp only [List.length_append, List.length_cons] at hlen ⊢
      omega
    unfold readHeaders at hread ⊢
    rw [if_pos hlen.le, List.mapM_append] at hread
    rw [if_pos hcount, List.mapM_append, List.mapM_cons]
    cases ha : before.mapM readLine with
    | none => simp [ha] at hread
    | some a =>
      cases hb : after.mapM readLine with
      | none => simp [ha, hb] at hread
      | some b =>
        have hsplit : oneContentLength (a ++ b) = true ∧ a ++ b = headers := by
          simpa [ha, hb] using hread
        obtain ⟨hone, rfl⟩ := hsplit
        refine ⟨a, b, fun field hfield => hothers field hfield, hrefusal, ?_⟩
        cases hfield : readLine line with
        | none => rfl
        | some field =>
          obtain ⟨name, v⟩ := field
          obtain rfl : name = header.name := hline _ hfield
          simp [oneContentLength_insert header, hone]

/-- The one field of a name is found among the others. -/
theorem headerValue_of_others {a b : List (Bytes × Bytes)} (h : ∀ field ∈ a ++ b, NoTenant field)
    (field : Bytes × Bytes) {key : String} (hkey : key = "Authorization" ∨ key = "X-Tenant-ID") :
    headerValue (a ++ field :: b) key =
      if sameName field.1 key then some field.2 else none := by
  have hnone : ∀ l : List (Bytes × Bytes), (∀ x ∈ l, NoTenant x) →
      l.find? (fun x => sameName x.1 key) = none := by
    intro l hl
    rw [List.find?_eq_none]
    intro x hx
    obtain ⟨h1, h2⟩ := hl x hx
    rcases hkey with rfl | rfl
    · simp [h1]
    · simp [h2]
  unfold headerValue
  rw [List.find?_append, hnone a (fun x hx => h x (by simp [hx])), Option.none_or, List.find?_cons]
  by_cases hfield : sameName field.1 key = true
  · simp [hfield]
  · simp only [hfield]
    rw [hnone b (fun x hx => h x (by simp [hx]))]
    rfl

/-- A line for a tenant key brings the field of its name, if httplib reads it. -/
theorem readLine_name (header : TenantHeader) (key : Bytes) (field : Bytes × Bytes)
    (h : readLine (header.line key) = some field) : field.1 = header.name := by
  cases header with
  | authorization =>
    rw [readLine_authorization] at h
    split at h
    · cases h
      rfl
    · cases h
  | x_tenant_id =>
    rw [readLine_x_tenant_id] at h
    split at h
    · cases h
      rfl
    · cases h

/-- The tenant of a request is what its one header field brings, and nothing
stands in front of the handler. -/
theorem chatTenant_received {quality : Bytes → Bool} {before after : List Bytes}
    (h : OtherLines quality (before ++ after) = true) (header : TenantHeader) (key : Bytes) :
    (readHeaders (before ++ header.line key :: after)).map chatTenant = header.received key ∧
      ∀ headers, readHeaders (before ++ header.line key :: after) = some headers →
        refusal quality headers = none := by
  obtain ⟨a, b, hothers, hrefusal, hread⟩ := readHeaders_line h header (readLine_name header key)
  rw [hread]
  constructor
  · cases header with
    | authorization =>
      rw [readLine_authorization]
      unfold TenantHeader.received
      by_cases hok : key.length + 24 ≤ 8192 ∧ isFieldContent (trim (bytes "Bearer " ++ key))
      · simp only [hok, and_self, if_true, Option.map_some, chatTenant]
        have hname : sameName (bytes "Authorization") "Authorization" = true := by decide
        rw [headerValue_of_others hothers _ (Or.inl rfl), if_pos hname]
      · simp only [hok, if_false]
        rfl
    | x_tenant_id =>
      rw [readLine_x_tenant_id]
      unfold TenantHeader.received
      by_cases hok : key.length + 15 ≤ 8192 ∧ isFieldContent (trim key)
      · simp only [hok, and_self, if_true, Option.map_some, chatTenant]
        have hother : ¬ sameName (bytes "X-Tenant-ID") "Authorization" = true := by decide
        have hname : sameName (bytes "X-Tenant-ID") "X-Tenant-ID" = true := by decide
        rw [headerValue_of_others hothers _ (Or.inl rfl), if_neg hother,
          headerValue_of_others hothers _ (Or.inr rfl), if_pos hname]
        rfl
      · simp only [hok, if_false]
        rfl
  · intro headers hheaders
    obtain ⟨⟨name, v⟩, hfield, rfl⟩ := Option.map_eq_some_iff.mp hheaders
    obtain rfl : name = header.name := readLine_name header key _ hfield
    rw [refusal_insert quality header]
    exact hrefusal

/-! ## `/v1/chat/completions` and `ChatComplete` -/

theorem chatml_messages (messages : List ChatMessage) (prompt : Bytes) :
    (messages.map messageBody).foldlM chatmlTurn prompt = .ok
      (messages.foldl (fun prompt msg => prompt ++ chatmlMessage msg.role msg.content) prompt) := by
  induction messages generalizing prompt with
  | nil => rfl
  | cons msg messages ih =>
    have hturn : chatmlTurn prompt (messageBody msg) =
        .ok (prompt ++ chatmlMessage msg.role msg.content) := rfl
    rw [List.map_cons, List.foldlM_cons, hturn]
    exact ih _

/-- Both front ends make the same prompt of the same messages. -/
theorem buildChatml_messages (messages : List ChatMessage) :
    buildChatml (messages.map messageBody) = .ok (promptOfMessages messages) := by
  unfold buildChatml
  rw [chatml_messages]
  rfl

/-- The request that the gRPC message asks for, but for the tenant and the
deadline. -/
def chatWork (env : Surroundings) (tenant_id : Bytes) (deadline : Int) (req : ChatRequest) :
    Request where
  id := env.id
  tenant_id := tenant_id
  payload := promptOfMessages req.messages
  priority := .Normal
  enqueue_time := env.steady_clock
  deadline := deadline
  max_new_tokens := req.max_tokens.toInt

theorem chatRequest_chatBody (env : Surroundings) (tenant_id : Bytes) (req : ChatRequest) :
    chatRequest env tenant_id (chatBody req) (req.messages.map messageBody) =
      .ok (chatWork env tenant_id req.deadline_ms.toInt req) := by
  have hdeadline : (chatBody req).value Json.getInt "timeout_ms" 30000 =
      .ok (Int32.ofInt req.deadline_ms.toInt) := rfl
  have htokens : (chatBody req).value Json.getInt "max_tokens" 0 =
      .ok (Int32.ofInt req.max_tokens.toInt) := rfl
  unfold chatRequest
  rw [buildChatml_messages, hdeadline, htokens, Int32.ofInt_toInt, Int32.ofInt_toInt]
  rfl

theorem postChat_chatBody (cfg : ServerConfig) (env : Surroundings)
    (headers : List (Bytes × Bytes)) (req : ChatRequest) :
    (postChat cfg env headers (some (chatBody req))).charged = some (chatTenant headers) ∧
    (postChat cfg env headers (some (chatBody req))).enqueued =
      if env.allow (chatTenant headers) then
        some (chatWork env (chatTenant headers) req.deadline_ms.toInt req) else none := by
  have hmessages : (chatBody req).field? "messages" =
      some (.array (req.messages.map messageBody)) := rfl
  have hmodel : (chatBody req).value Json.getString "model" cfg.model_name = .ok req.model := rfl
  simp only [postChat, hmessages, hmodel, chatRequest_chatBody]
  cases env.allow (chatTenant headers)
  · exact ⟨rfl, rfl⟩
  · exact ⟨rfl, rfl⟩

theorem chatComplete_eq (env : Surroundings) (req : ChatRequest) :
    (chatComplete env req).charged = some (tenantOf req.tenant_id) ∧
    (chatComplete env req).enqueued =
      if env.allow (tenantOf req.tenant_id) then
        some (chatWork env (tenantOf req.tenant_id) (deadlineOf req.deadline_ms 30000) req)
      else none := by
  simp only [chatComplete]
  cases env.allow (tenantOf req.tenant_id)
  · exact ⟨rfl, rfl⟩
  · exact ⟨rfl, rfl⟩

/-- httplib does not touch the request that a handler enqueued. -/
theorem enqueued_map {ρ : Type} (charged : Option Bytes) (h : Handled ρ) (f : ρ → ρ) :
    Handled.enqueued ⟨charged, h.reaction.map f⟩ = h.enqueued := by
  unfold Handled.enqueued
  cases h.reaction <;> rfl

/-- Header lines that httplib takes make no difference to `/infer`. -/
theorem infer_served_iff (quality : Bytes → Bool) (env env' : Surroundings) {lines : List Bytes}
    {headers : List (Bytes × Bytes)} (hread : readHeaders lines = some headers)
    (hrefusal : refusal quality headers = none) (req : InferRequest) :
    HandledAlike
        (serveHttp quality (fun _ => postInfer env) ⟨lines, .ok (some (inferBody req))⟩)
        (infer { env' with allow := env.allow } req) ↔
      req.tenant_id ≠ [] ∧ (env.allow req.tenant_id = true → 0 < req.deadline_ms) := by
  rw [← infer_agrees_iff env env' req]
  unfold serveHttp HandledAlike
  simp only [hread, hrefusal, enqueued_map]

theorem chat_agrees_iff (quality : Bytes → Bool) (cfg : ServerConfig) (env env' : Surroundings)
    (header : TenantHeader) {before after : List Bytes}
    (hothers : OtherLines quality (before ++ after) = true) (req : ChatRequest) :
    HandledAlike
        (serveHttp quality (postChat cfg env)
          ⟨before ++ header.line req.tenant_id :: after, .ok (some (chatBody req))⟩)
        (chatComplete { env' with allow := env.allow } req) ↔
      header.carries req.tenant_id ∧
        (env.allow (tenantOf req.tenant_id) = true → 0 < req.deadline_ms) := by
  obtain ⟨hcharged', henqueued'⟩ := chatComplete_eq { env' with allow := env.allow } req
  obtain ⟨hreceived, hrefusal⟩ := chatTenant_received hothers header req.tenant_id
  rw [← received_iff, ← hreceived]
  unfold HandledAlike
  rw [hcharged', henqueued']
  unfold serveHttp
  cases hread : readHeaders (before ++ header.line req.tenant_id :: after) with
  | none => simp [refused]
  | some headers =>
    obtain ⟨hcharged, henqueued⟩ := postChat_chatBody cfg env headers req
    simp only [hrefusal headers hread, enqueued_map, hcharged, henqueued, Option.map_some,
      Option.some.injEq]
    apply and_congr_right
    intro htenant
    rw [htenant]
    by_cases hallow : env.allow (tenantOf req.tenant_id) = true
    · simp only [hallow, if_true, Option.map_some, Option.some.injEq, work_eq, chatWork, true_and,
        and_true, forall_const]
      exact deadlineOf_eq_self (by decide)
    · simp [hallow]

/-! ## Both pairs -/

/-- With header lines that httplib takes, `/infer` and `Infer` agree exactly
when the tenant is not empty and, if it is let through, the deadline is
positive. `/v1/chat/completions` and `ChatComplete` agree exactly when the
header field carries the tenant and, if it is let through, the deadline is
positive. -/
theorem the_protocols_agree_iff :
    (∀ (quality : Bytes → Bool) (env env' : Surroundings) (lines : List Bytes)
      (headers : List (Bytes × Bytes)) (req : InferRequest),
      readHeaders lines = some headers → refusal quality headers = none →
      (HandledAlike
          (serveHttp quality (fun _ => postInfer env) ⟨lines, .ok (some (inferBody req))⟩)
          (infer { env' with allow := env.allow } req) ↔
        req.tenant_id ≠ [] ∧ (env.allow req.tenant_id = true → 0 < req.deadline_ms))) ∧
    ∀ (quality : Bytes → Bool) (cfg : ServerConfig) (env env' : Surroundings)
      (header : TenantHeader) (before after : List Bytes) (req : ChatRequest),
      OtherLines quality (before ++ after) = true →
      (HandledAlike
          (serveHttp quality (postChat cfg env)
            ⟨before ++ header.line req.tenant_id :: after, .ok (some (chatBody req))⟩)
          (chatComplete { env' with allow := env.allow } req) ↔
        header.carries req.tenant_id ∧
          (env.allow (tenantOf req.tenant_id) = true → 0 < req.deadline_ms)) := by
  refine ⟨?_, ?_⟩
  · intro quality env env' lines headers req hread hrefusal
    exact infer_served_iff quality env env' hread hrefusal req
  · intro quality cfg env env' header before after req hothers
    exact chat_agrees_iff quality cfg env env' header hothers req

/-- A rate limiter that lets every call through. -/
def letThrough : Surroundings where
  allow := fun _ => true
  id := 1
  steady_clock := 0
  system_clock := 0

/-- One user turn, to be answered within a second. -/
def aliceChat : ChatRequest where
  messages := [{ role := bytes "user", content := bytes "hello" }]
  tenant_id := bytes "alice"
  deadline_ms := 1000

/-- The same values for `/infer`. -/
def aliceInfer : InferRequest where
  tenant_id := bytes "alice"
  payload := bytes "hello"
  deadline_ms := 1000

theorem the_protocols_agree_iff_alice :
    HandledAlike
      (serveHttp (fun _ => true) (fun _ => postInfer letThrough)
        ⟨[bytes "Host: localhost", bytes "Content-Length: 91"],
          .ok (some (inferBody aliceInfer))⟩)
      (infer { letThrough with id := 7 } aliceInfer) ∧
    HandledAlike
      (serveHttp (fun _ => true) (postChat {} letThrough)
        ⟨[bytes "Host: localhost", bytes "Accept: */*"] ++
            TenantHeader.line (bytes "alice") .authorization ::
          [bytes "Content-Type: application/json", bytes "Content-Length: 92"],
          .ok (some (chatBody aliceChat))⟩)
      (chatComplete { letThrough with id := 7 } aliceChat) :=
  ⟨(the_protocols_agree_iff.1 (fun _ => true) letThrough { letThrough with id := 7 }
      [bytes "Host: localhost", bytes "Content-Length: 91"]
      [(bytes "Host", bytes "localhost"), (bytes "Content-Length", bytes "91")] aliceInfer
      (by decide +kernel) (by decide +kernel)).mpr ⟨by decide +kernel, by decide +kernel⟩,
    (the_protocols_agree_iff.2 (fun _ => true) {} letThrough { letThrough with id := 7 }
      .authorization [bytes "Host: localhost", bytes "Accept: */*"]
      [bytes "Content-Type: application/json", bytes "Content-Length: 92"] aliceChat
      (by decide +kernel)).mpr ⟨by decide +kernel, by decide +kernel⟩⟩

/-- A deadline of 0 is 0 over HTTP and 5000 over gRPC, an empty tenant is the
empty one over HTTP and `default` over gRPC, and a blank before an
`X-Tenant-ID` gets lost. -/
theorem the_protocols_differ :
    ¬ HandledAlike
        (postInfer letThrough (some (inferBody { tenant_id := bytes "t1" })))
        (infer letThrough { tenant_id := bytes "t1" }) ∧
      ¬ HandledAlike
        (postInfer letThrough (some (inferBody { deadline_ms := 100 })))
        (infer letThrough { deadline_ms := 100 }) ∧
      ¬ HandledAlike
        (serveHttp (fun _ => true) (postChat {} letThrough)
          ⟨[TenantHeader.line (bytes " alice") .x_tenant_id],
            .ok (some (chatBody { aliceChat with tenant_id := bytes " alice" }))⟩)
        (chatComplete letThrough { aliceChat with tenant_id := bytes " alice" }) := by
  refine ⟨?_, ?_, ?_⟩
  · intro h
    have hdeadline := congrArg (Option.map Request.deadline) h.2
    revert hdeadline
    decide +kernel
  · intro h
    have htenant := h.1
    revert htenant
    decide +kernel
  · intro h
    have htenant := h.1
    revert htenant
    decide +kernel

end inference_server
