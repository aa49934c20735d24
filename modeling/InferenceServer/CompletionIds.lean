-- The ids that clients are given. The two protocols count their requests
-- apart, so a number is given twice, and still no two chat completions carry
-- the same `id`, and no two calls of `Infer` the same `request_id`.
import InferenceServer.AdmittedRequests

namespace inference_server

open machine

variable {n : Nat}

/-! ## Names and numbers -/

/-- The `id` of a chat completion. -/
def completionName (http : Bool) (id : Nat) : Bytes :=
  bytes (if http then "chatcmpl-" else "chatcmpl-grpc-") ++ bytes (toString id)

theorem isDigit_of_mem_repr {id : Nat} {c : Char} (hc : c ∈ id.repr.toList) :
    48 ≤ c.toNat ∧ c.toNat ≤ 57 := by
  rw [Nat.toList_repr] at hc
  have hdigit := Nat.isDigit_of_mem_toDigits (by decide) (by decide) hc
  simp only [Char.isDigit, Bool.and_eq_true, decide_eq_true_eq] at hdigit
  exact hdigit

theorem repr_bytes (id : Nat) :
    (bytes id.repr).map (fun b => Char.ofNat b.toNat) = Nat.toDigits 10 id := by
  unfold bytes
  rw [List.map_map, ← Nat.toList_repr]
  refine (List.map_congr_left ?_).trans (List.map_id _)
  intro c hc
  have hle := (isDigit_of_mem_repr hc).2
  have hbyte : c.toNat.toUInt8.toNat = c.toNat := by
    rw [Nat.toUInt8_eq, UInt8.toNat_ofNat']
    omega
  simp only [Function.comp_apply, hbyte, Char.ofNat_toNat, id_eq]

theorem repr_bytes_inj {i j : Nat} (h : bytes i.repr = bytes j.repr) : i = j := by
  have hdigits : Nat.toDigits 10 i = Nat.toDigits 10 j := by
    rw [← repr_bytes, ← repr_bytes, h]
  calc i = Nat.ofDigitChars 10 (Nat.toDigits 10 i) 0 := Nat.ofDigitChars_ten_toDigits.symm
    _ = Nat.ofDigitChars 10 (Nat.toDigits 10 j) 0 := by rw [hdigits]
    _ = j := Nat.ofDigitChars_ten_toDigits

/-- A number never reads like the letters of the other protocol. -/
theorem repr_not_grpc (i : Nat) (rest : Bytes) : bytes i.repr ≠ bytes "grpc-" ++ rest := by
  intro h
  have hg : (103 : UInt8) ∈ bytes i.repr := by
    rw [h]
    exact List.mem_append_left _ (by decide)
  obtain ⟨c, hc, hbyte⟩ := List.mem_map.mp hg
  have hdigit := isDigit_of_mem_repr hc
  have hnat := congrArg UInt8.toNat hbyte
  rw [Nat.toUInt8_eq, UInt8.toNat_ofNat'] at hnat
  have h103 : (103 : UInt8).toNat = 103 := rfl
  omega

theorem completionName_inj {http http' : Bool} {i j : Nat}
    (h : completionName http i = completionName http' j) : http = http' ∧ i = j := by
  have hgrpc : bytes "chatcmpl-grpc-" = bytes "chatcmpl-" ++ bytes "grpc-" := by decide
  unfold completionName at h
  cases http <;> cases http'
  · exact ⟨rfl, repr_bytes_inj (List.append_cancel_left h)⟩
  · simp only [Bool.false_eq_true, if_false, if_true, hgrpc, List.append_assoc] at h
    exact absurd (List.append_cancel_left h).symm (repr_not_grpc j _)
  · simp only [Bool.false_eq_true, if_false, if_true, hgrpc, List.append_assoc] at h
    exact absurd (List.append_cancel_left h) (repr_not_grpc i _)
  · exact ⟨rfl, repr_bytes_inj (List.append_cancel_left h)⟩

/-! ## What the responses carry -/

/-- The `id` of the completion, as the client reads it from the whole text. -/
def ClientResponse.completionId : ClientResponse → Option Bytes
  | .http res =>
    match res.body.bind (fun body => body.field? "id") with
    | some (.string id) => some id
    | _ => none
  | .infer _ => none
  | .chat reply => if reply.response.id.isEmpty then none else some reply.response.id

/-- The `request_id` of an answered `Infer`. The field of any other reads as 0. -/
def ClientResponse.requestId : ClientResponse → Option Nat
  | .infer reply => if reply.response.request_id = 0 then none else some reply.response.request_id
  | _ => none

def Stage.completionId : Stage → Option Bytes
  | .replied _ res => res.completionId
  | _ => none

def Stage.requestId : Stage → Option Nat
  | .replied _ res => res.requestId
  | _ => none

/-- httplib gives no other `id` than the handler. -/
theorem finish_completion {headers : List (Bytes × Bytes)} {res : HttpResponse} {name : Bytes}
    (h : (ClientResponse.http (httplib.finish headers res)).completionId = some name) :
    (ClientResponse.http res).completionId = some name := by
  unfold httplib.finish at h
  split at h
  · split at h
    · cases h
    · exact h
  · exact h

theorem error_no_completion (headers : List (Bytes × Bytes)) (status : Nat) (error : Json) :
    (ClientResponse.http (httplib.finish headers (.error status error))).completionId = none := by
  have hfield : ((Json.object [(bytes "error", error)]).field? "id") = none := by
    simp [Json.field?, bytes]
  have hnone : (ClientResponse.http (.error status error)).completionId = none := by
    simp [ClientResponse.completionId, HttpResponse.error, hfield]
  rw [Option.eq_none_iff_forall_ne_some]
  intro name hname
  rw [finish_completion hname] at hnone
  cases hnone

theorem dump_completion {headers : List (Bytes × Bytes)} {j : Json} {name : Bytes}
    (h : (ClientResponse.http (httplib.finish headers (.dump j))).completionId = some name) :
    j.field? "id" = some (.string name) := by
  have hid := finish_completion h
  unfold HttpResponse.dump at hid
  cases hdumps : j.dumps with
  | false => simp [hdumps, ClientResponse.completionId] at hid
  | true =>
    simp only [hdumps, if_true, ClientResponse.completionId, Option.bind_some] at hid
    split at hid
    · rename_i id hfield
      rw [Option.some.injEq] at hid
      rw [hfield, hid]
    · cases hid

theorem inferResult_id (result : Bytes) : (inferResult result).field? "id" = none := by
  simp [inferResult, Json.field?, bytes]

theorem chatResult_id (id : Nat) (created : Int) (model content : Bytes) :
    (chatResult id created model content).field? "id" =
      some (.string (completionName true id)) := by
  simp [chatResult, Json.field?, completionName]

/-- Only a dispatched request gives ids to its client, and they are its own. -/
def Reaction.Names (client : ClientRequest) : Reaction ClientResponse → Prop
  | .answered res => res.completionId = none ∧ res.requestId = none
  | .dispatched r respond => ∀ result,
    (∀ id, (respond result).completionId = some id → id = completionName client.overHttp r.id) ∧
    ∀ id, (respond result).requestId = some id → client.overHttp = false ∧ id = r.id
  | .escaped => True

theorem handle_names (cfg : ServerConfig) (client : ClientRequest) (env : Surroundings) :
    (client.handle cfg env).Names client := by
  cases client with
  | infer headers parsed =>
    simp only [ClientRequest.handle, postInfer]
    split
    · exact ⟨error_no_completion headers _ _, rfl⟩
    · split
      · trivial
      · split
        · exact ⟨error_no_completion headers _ _, rfl⟩
        · split
          · trivial
          · intro result
            constructor
            · intro id hid
              have hfield := dump_completion hid
              rw [inferResult_id] at hfield
              cases hfield
            · intro id hid
              cases hid
  | chat headers parsed =>
    simp only [ClientRequest.handle, postChat]
    split
    · exact ⟨error_no_completion headers _ _, rfl⟩
    · split
      · exact ⟨error_no_completion headers _ _, rfl⟩
      · split
        · split
          · trivial
          · split
            · trivial
            · intro result
              constructor
              · intro id hid
                have hfield := dump_completion hid
                rw [chatResult_id, Option.some.injEq, Json.string.injEq] at hfield
                exact hfield.symm
              · intro id hid
                cases hid
        · exact ⟨error_no_completion headers _ _, rfl⟩
  | grpcInfer req =>
    simp only [ClientRequest.handle, InferenceService.infer]
    split
    · exact ⟨rfl, rfl⟩
    · intro result
      constructor
      · intro id hid
        cases hid
      · intro id hid
        simp only [ClientResponse.requestId] at hid
        split at hid
        · cases hid
        · rw [Option.some.injEq] at hid
          exact ⟨rfl, hid.symm⟩
  | grpcChat req =>
    simp only [ClientRequest.handle, InferenceService.chatComplete]
    split
    · exact ⟨rfl, rfl⟩
    · intro result
      constructor
      · intro id hid
        simp only [ClientResponse.completionId] at hid
        split at hid
        · cases hid
        · rw [Option.some.injEq] at hid
          exact hid.symm
      · intro id hid
        cases hid

/-- What a client is given belongs to the id that its handler took. -/
theorem given_ids {cfg : ServerConfig} {e : Engine n} {c : Connection} (h : c.Sound cfg e) :
    (∀ name, c.stage.completionId = some name →
      (∃ r respond, Dispatches cfg c.client c.env r respond) ∧
        name = completionName c.client.overHttp c.env.id) ∧
    ∀ id, c.stage.requestId = some id →
      (∃ r respond, Dispatches cfg c.client c.env r respond) ∧
        c.client.overHttp = false ∧ id = c.env.id := by
  have hfits := handle_fits cfg c.client c.env
  have hnames := handle_names cfg c.client c.env
  unfold Connection.Sound at h
  cases hstage : c.stage with
  | replied promise res =>
    rw [hstage] at h
    cases promise with
    | none =>
      rcases h with hanswered | ⟨_, rfl⟩
      · rw [hanswered] at hnames
        refine ⟨fun name hname => ?_, fun id hid => ?_⟩
        · rw [show (Stage.replied none res).completionId = none from hnames.1] at hname
          cases hname
        · rw [show (Stage.replied none res).requestId = none from hnames.2] at hid
          cases hid
      · exact ⟨nofun, nofun⟩
    | some t =>
      obtain ⟨w, result, ho, _, rfl⟩ := h
      rw [ho.1] at hfits hnames
      have hd : Dispatches cfg c.client c.env w.request w.respond := hfits
      obtain ⟨hcompletion, hrequest⟩ := hnames result
      refine ⟨fun name hname => ⟨⟨_, _, hd⟩, ?_⟩, fun id hid => ⟨⟨_, _, hd⟩, ?_⟩⟩
      · rw [← hd.id]
        exact hcompletion name hname
      · rw [← hd.id]
        exact hrequest id hid
  | _ => exact ⟨nofun, nofun⟩

/-! ## No id is given twice -/

/-- Clients of one protocol whose requests were dispatched have taken different
ids. -/
theorem dispatched_apart {cfg : ServerConfig} {s : Gateway n} (h : s.Kept cfg)
    (hfew : s.node.connections.length < 2 ^ 64) {i j : Nat} {c c' : Connection}
    (hi : s.node.connections[i]? = some c) (hj : s.node.connections[j]? = some c')
    (hc : ∃ r respond, Dispatches cfg c.client c.env r respond)
    (hc' : ∃ r respond, Dispatches cfg c'.client c'.env r respond)
    (hhttp : c.client.overHttp = c'.client.overHttp) (hid : c.env.id = c'.env.id) : i = j := by
  have haligned := List.forall₂_map_left_iff.mp h.aligned
  have hentry : ∀ {k : Nat} {d : Connection}, s.node.connections[k]? = some d →
      (∃ r respond, Dispatches cfg d.client d.env r respond) →
      ∃ e, s.entered[k]? = some e ∧ e.client.overHttp = d.client.overHttp ∧
        e.id = some d.env.id := by
    rintro k d hk ⟨r, respond, hd⟩
    obtain ⟨e, he, hmatches⟩ := forall₂_getElem? haligned hk
    have hclient : d.client = e.client := hmatches.client
    obtain ⟨a, ha, hallowed, _⟩ := hmatches.allowed hd
    have htakes : e.client.takesId cfg e.allowed = true := by
      rw [← hclient, show e.allowed = true by simp [Caller.allowed, ha, hallowed]]
      exact hd.takesId
    refine ⟨e, he, by rw [hclient], ?_⟩
    rw [hmatches.id, if_pos htakes]
    rfl
  obtain ⟨e, he, hehttp, heid⟩ := hentry hi hc
  obtain ⟨e', he', hehttp', heid'⟩ := hentry hj hc'
  have hnodup : (s.ids c.client.overHttp).Nodup := by
    rw [(h.ids c.client.overHttp).1]
    apply countUp_nodup
    have hlen : (s.ids c.client.overHttp).length ≤ s.entered.length :=
      List.length_filterMap_le _ _
    have := haligned.length_eq
    omega
  apply eq_of_filterMap_nodup hnodup he he'
  · rw [if_pos hehttp]
    exact heid
  · rw [if_pos (hehttp'.trans hhttp.symm), hid]
    exact heid'

/-- As long as fewer than 2^64 clients have come, no two chat completions that
were sent carry the same `id`, over whichever protocols, and no two calls of
`Infer` are given the same `request_id`. -/
theorem no_id_is_given_twice (L : Llama) (ecfg : EngineConfig) (cfg : ServerConfig)
    (limits : Limits) (as : List Gateway.Action)
    (hfew : ((gateway L ecfg cfg limits).run as).node.connections.length < 2 ^ 64) :
    let s := (gateway L ecfg cfg limits).run as
    (s.node.connections.filterMap (fun c => c.stage.completionId)).Nodup ∧
      (s.node.connections.filterMap (fun c => c.stage.requestId)).Nodup := by
  intro s
  have hkept : s.Kept cfg := kept_run L ecfg cfg limits as
  have hsound : s.node.Sound cfg := gateway_sound L ecfg cfg limits as
  have hids : ∀ {k : Nat} {c : Connection}, s.node.connections[k]? = some c →
      c.Sound cfg s.node.engine := fun hk => hsound.each _ (List.mem_of_getElem? hk)
  constructor
  · apply filterMap_nodup
    intro i j c c' name hi hj hname hname'
    obtain ⟨hd, hc⟩ := (given_ids (hids hi)).1 name hname
    obtain ⟨hd', hc'⟩ := (given_ids (hids hj)).1 name hname'
    obtain ⟨hhttp, hid⟩ := completionName_inj (hc.symm.trans hc')
    exact dispatched_apart hkept hfew hi hj hd hd' hhttp hid
  · apply filterMap_nodup
    intro i j c c' id hi hj hid hid'
    obtain ⟨hd, hhttp, hc⟩ := (given_ids (hids hi)).2 id hid
    obtain ⟨hd', hhttp', hc'⟩ := (given_ids (hids hj)).2 id hid'
    exact dispatched_apart hkept hfew hi hj hd hd' (hhttp.trans hhttp'.symm) (hc.symm.trans hc')

/-- The limits that `main` starts with. -/
def startingLimits : Limits := { rate_rps := 10, burst := 20 }

/-- One chat over each protocol, both with the first number of their counter. -/
def oneChatEach : List Gateway.Action :=
  [.ask (.chat [] (some (.object [(bytes "messages", .array [])]))) 0, .ask (.grpcChat {}) 0,
    .enter 1 0 0, .enter 0 0 0, .go 0, .go 0, .go 1, .go 1] ++
    List.replicate 8 (.tick ⟨0, .ok⟩) ++ [.go 0, .go 0, .go 1, .go 1]

set_option maxRecDepth 20000 in
theorem no_id_is_given_twice_one_each :
    let s := (gateway (byteLlama fun _ => 0) { max_slots := 2 } {} startingLimits).run oneChatEach
    s.node.connections.filterMap (fun c => c.stage.completionId) =
      [bytes "chatcmpl-grpc-1", bytes "chatcmpl-1"] ∧
    (s.node.connections.filterMap (fun c => c.stage.completionId)).Nodup ∧
      (s.node.connections.filterMap (fun c => c.stage.requestId)).Nodup :=
  ⟨by decide +kernel, no_id_is_given_twice (byteLlama fun _ => 0) { max_slots := 2 } {}
    startingLimits oneChatEach (by decide +kernel)⟩

end inference_server
