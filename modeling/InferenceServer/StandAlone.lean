-- Continuous batching gives each request the answer that it would get alone.
-- Who shares the batch, who held the slot before, what failed and when: none
-- of it shows in a generated answer.
import InferenceServer.Coherence

namespace inference_server

open machine generation

variable {n : Nat}

/-! ## Generation of one request alone -/

/-- The tokens that a request gets at most. The limit is looked at behind a
token, so a limit below 1 is one of 1. -/
def EngineConfig.tokens (cfg : EngineConfig) (req : Request) : Nat := (max (cfg.limit req) 1).toNat

theorem tokens_eq {cfg : EngineConfig} (hmax : 1 ≤ cfg.max_tokens) (req : Request) :
    cfg.tokens req = (cfg.limit req).toNat := by
  have hlimit := limit_pos cfg req hmax
  unfold EngineConfig.tokens
  omega

/-- The answer of a request that is generated alone: the pieces of the
tokens that follow its prompt, up to the end of the generation or the limit. -/
def standAlone (L : Llama) (cfg : EngineConfig) (req : Request) : Bytes :=
  (generate L.pick L.llama_vocab_is_eog (cfg.tokens req) (promptOf L req.payload)).flatMap
    (pieceOf L)

section standAlone

variable {L : Llama} {cfg : EngineConfig} {v : SlotView}

theorem running_prompt (h : Running L cfg v) :
    generate L.pick L.llama_vocab_is_eog (cfg.tokens v.slot.request) v.prompt =
      generate L.pick L.llama_vocab_is_eog (cfg.tokens v.slot.request)
        (promptOf L v.slot.request.payload) := by
  rw [h.prompt]

theorem running_below (h : Running L cfg v) : v.sampled.length < cfg.tokens v.slot.request := by
  have hbelow := h.below
  rw [h.generated] at hbelow
  unfold EngineConfig.tokens
  omega

/-- A sequence that picks an end token has its whole answer. -/
theorem result_at_stop (h : Running L cfg v)
    (hstop : L.llama_vocab_is_eog (L.pick v.seen) = true) :
    v.result = standAlone L cfg v.slot.request := by
  have hlen := running_below h
  have hgen := generate_at_stop h.chain hstop (Nat.le_of_lt hlen)
  rw [running_prompt h] at hgen
  rw [standAlone, hgen]
  exact h.result

/-- A sequence that picks its last token before the limit has its whole
answer with that token. -/
theorem result_at_limit (h : Running L cfg v)
    (hgo : L.llama_vocab_is_eog (L.pick v.seen) = false)
    (hlimit : ((v.generated + 1 : Nat) : Int) ≥ cfg.limit v.slot.request) :
    v.result ++ pieceOf L (L.pick v.seen) = standAlone L cfg v.slot.request := by
  have hlen := running_below h
  have hchain : Chain L.pick L.llama_vocab_is_eog v.prompt (v.sampled ++ [L.pick v.seen]) :=
    .snoc h.chain rfl hgo
  have hfull : (v.sampled ++ [L.pick v.seen]).length = cfg.tokens v.slot.request := by
    rw [h.generated] at hlimit
    rw [List.length_append, List.length_singleton]
    unfold EngineConfig.tokens at hlen ⊢
    omega
  have hgen := generate_at_limit hchain hfull
  rw [running_prompt h] at hgen
  rw [standAlone, hgen, List.flatMap_append, ← h.result]
  simp

end standAlone

/-! ## The generated answers of a run -/

/-- A call of `on_complete` by the sampling loop, with its promise. -/
def Event.generated? : Event n → Option (Nat × Bytes)
  | .completed promise .generated result => some (promise, result)
  | _ => none

/-- The answers that the sampling loop gave so far. -/
def Engine.generatedAnswers (e : Engine n) : List (Nat × Bytes) :=
  e.trace.filterMap Event.generated?

theorem mem_generatedAnswers (e : Engine n) (promise : Nat) (result : Bytes) :
    (promise, result) ∈ e.generatedAnswers ↔ .completed promise .generated result ∈ e.trace := by
  unfold Engine.generatedAnswers
  rw [List.mem_filterMap]
  constructor
  · rintro ⟨ev, hev, heq⟩
    unfold Event.generated? at heq
    split at heq
    · cases heq
      exact hev
    · cases heq
  · intro h
    exact ⟨_, h, rfl⟩

theorem generatedAnswers_log (e : Engine n) (ev : Event n) :
    (e.log ev).generatedAnswers = e.generatedAnswers ++ ev.generated?.toList := by
  unfold Engine.generatedAnswers Engine.log
  rw [List.filterMap_append]
  rcases h : ev.generated? with _ | _ <;> simp [h]

/-- No exit but the sampling loop gives a generated answer. -/
theorem generatedAnswers_complete (e : Engine n) (req : Request) {exit : Exit} (result : Bytes)
    (h : exit ≠ .generated) :
    (e.complete req exit result).generatedAnswers = e.generatedAnswers := by
  unfold Engine.complete
  split
  · rw [generatedAnswers_log]
    cases exit
    case generated => exact absurd rfl h
    all_goals simp [Event.generated?]
  · rfl

theorem generatedAnswers_release (e : Engine n) (sid : Fin n) :
    (e.release sid).generatedAnswers = e.generatedAnswers := by
  simp [Engine.generatedAnswers, Event.generated?]

theorem generatedAnswers_retireSlot (e : Engine n) (sid : Fin n) :
    (e.retireSlot sid).generatedAnswers = e.generatedAnswers := by
  simp [Engine.generatedAnswers, Event.generated?]

theorem generatedAnswers_answer (e : Engine n) (sid : Fin n) {exit : Exit} (result : Bytes)
    (h : exit ≠ .generated) : (e.answer sid exit result).generatedAnswers = e.generatedAnswers :=
  (generatedAnswers_retireSlot _ sid).trans (generatedAnswers_complete e _ result h)

theorem generatedAnswers_admitOne (L : Llama) (e : Engine n) (req : Request) :
    (e.admitOne L req).generatedAnswers = e.generatedAnswers := by
  rcases e.admitOne_cases L req with ⟨i, _, he⟩ | ⟨_, he⟩
  · rw [he]
    have hlog : ((e.seat i req).log (.acquired i req)).generatedAnswers = e.generatedAnswers := by
      rw [generatedAnswers_log]
      exact List.append_nil _
    unfold Engine.admitTo
    simp only
    split
    · rw [generatedAnswers_release, generatedAnswers_complete _ _ _ (by simp)]
      exact hlog
    · exact hlog
  · rw [he, generatedAnswers_log]
    exact List.append_nil _

theorem generatedAnswers_retireExpiredTurn (now : Int) (e : Engine n) (sid : Fin n) :
    (e.retireExpiredTurn now sid).generatedAnswers = e.generatedAnswers := by
  rcases e.retireExpiredTurn_cases now sid with ⟨_, he⟩ | ⟨_, _, he⟩
  · rw [he]
  · rw [he, generatedAnswers_answer _ _ _ (by simp)]
    rfl

theorem generatedAnswers_decodeFailedTurn (e : Engine n) (sid : Fin n) :
    (e.decodeFailedTurn sid).generatedAnswers = e.generatedAnswers := by
  rcases e.decodeFailedTurn_cases sid with ⟨_, he⟩ | ⟨_, he⟩
  · rw [he]
  · rw [he, generatedAnswers_answer _ _ _ (by simp)]
    rfl

theorem generatedAnswers_took (L : Llama) (e : Engine n) (sid : Fin n) (tok : Token) :
    (e.took L sid tok).generatedAnswers = e.generatedAnswers := by
  have hlog : (e.log (.sampled sid tok)).generatedAnswers = e.generatedAnswers := by
    rw [generatedAnswers_log]
    exact List.append_nil _
  unfold Engine.took
  split
  · exact hlog
  · exact hlog

theorem generatedAnswers_collect (e : Engine n) :
    e.collect.generatedAnswers = e.generatedAnswers := by
  rcases e.collect_cases with ⟨_, he⟩ | ⟨_, _, he⟩ | ⟨_, _, he⟩
  · rw [he]
    rfl
  · rw [he]
    rfl
  · rw [he]
    exact (generatedAnswers_log e (.submitted e.build.batch)).trans (List.append_nil _)

/-! ## Faithful answers -/

/-- Each generated answer so far went to a request that was enqueued, and is
its answer alone. -/
def Faithful (L : Llama) (cfg : EngineConfig) (e : Engine n) : Prop :=
  ∀ a ∈ e.generatedAnswers, ∃ req, e.enqueued[a.1]? = some req ∧ a.2 = standAlone L cfg req

theorem Faithful.congr {L : Llama} {cfg : EngineConfig} {e e' : Engine n} (h : Faithful L cfg e)
    (hg : e'.generatedAnswers = e.generatedAnswers) (hq : e'.enqueued = e.enqueued) :
    Faithful L cfg e' := by
  unfold Faithful at *
  rw [hg, hq]
  exact h

/-- One answer of the sampling loop. -/
theorem faithful_answer {L : Llama} {cfg : EngineConfig} {e : Engine n} (h : Faithful L cfg e)
    (sid : Fin n) (hreq : e.Known (e.request sid)) {result : Bytes}
    (hresult : result = standAlone L cfg (e.request sid)) :
    Faithful L cfg (e.answer sid .generated result) := by
  obtain ⟨t, ht, henq⟩ := hreq
  intro a ha
  unfold Engine.answer at ha ⊢
  rw [generatedAnswers_retireSlot, Engine.complete, ht, generatedAnswers_log, List.mem_append] at ha
  rw [Engine.retireSlot_enqueued, Engine.complete_enqueued]
  rcases ha with ha | ha
  · exact h a ha
  · simp only [Event.generated?, Option.toList_some, List.mem_singleton] at ha
    subst ha
    exact ⟨e.request sid, henq, hresult⟩

section sampling

variable {L : Llama} {cfg : EngineConfig}

/-- A slot that is answered after its pick has its whole answer. -/
theorem took_result {e : Engine n} {sid : Fin n}
    (hrun : Running L cfg (e.view sid))
    (hdone : L.llama_vocab_is_eog (L.pick (e.view sid).seen) = true ∨
      (((e.took L sid (L.pick (e.view sid).seen)).tokens_generated sid : Nat) : Int) ≥
        cfg.limit ((e.took L sid (L.pick (e.view sid).seen)).request sid)) :
    (e.took L sid (L.pick (e.view sid).seen)).results sid =
      standAlone L cfg (e.request sid) := by
  have htook : (e.took L sid (L.pick (e.view sid).seen)).view sid =
      tookView L (e.view sid) (L.pick (e.view sid).seen) := by rw [view_took, if_pos rfl]
  have hres := congrArg SlotView.result htook
  have hgen := congrArg SlotView.generated htook
  have hreq := congrArg (fun v => v.slot.request) htook
  generalize hpick : L.pick (e.view sid).seen = tok at *
  change (e.took L sid tok).results sid = _ at hres
  change (e.took L sid tok).tokens_generated sid = _ at hgen
  change (e.took L sid tok).request sid = _ at hreq
  rw [hres]
  rw [hgen, hreq] at hdone
  unfold tookView at hdone ⊢
  by_cases heos : L.llama_vocab_is_eog tok = true
  · -- the end token adds nothing to the result
    simp only [heos, if_true]
    exact result_at_stop hrun (by rw [hpick]; exact heos)
  · have hgo : L.llama_vocab_is_eog tok = false := by simpa using heos
    simp only [hgo, Bool.false_eq_true, if_false, false_or] at hdone ⊢
    have hlimit := result_at_limit hrun (by rw [hpick]; exact hgo) hdone
    rw [hpick] at hlimit
    exact hlimit

/-- One turn of the sampling loop, on a slot whose decode succeeded. -/
theorem faithful_sampleTurn {cells : List (Cell n)}
    {call : DecodeCall n} {e : Engine n} {sid : Fin n} (h : Faithful L cfg e)
    (hacc : Accounts e []) (hdec : Decoded L cfg (e.view sid))
    (htok : llamaSamplerSample L cells call.batch (call.logit_pos sid) = L.pick (e.view sid).seen) :
    Faithful L cfg (e.sampleTurn L cfg cells call sid) := by
  have hcases := e.sampleTurn_cases L cfg cells call sid
  rw [htok] at hcases
  have hsame := sameHolders_took L e sid (L.pick (e.view sid).seen)
  have htook : Faithful L cfg (e.took L sid (L.pick (e.view sid).seen)) :=
    h.congr (generatedAnswers_took L e sid _) (enqueued_of_shared (shared_took L e sid _))
  have hknown := (accounts_took L hacc sid (L.pick (e.view sid).seen)).known_slots sid
    ((hsame.occupied sid).trans hdec.occupied)
  rcases hcases with ⟨_, he⟩ | ⟨_, hdone, he⟩ | ⟨_, _, he⟩
  · rw [he]
    exact h
  · rw [he]
    have hcount : Faithful L cfg ((e.took L sid (L.pick (e.view sid).seen)).countTotalFor sid) :=
      htook.congr rfl rfl
    apply faithful_answer hcount sid hknown
    rw [took_result hdec.toRunning hdone]
    exact congrArg (standAlone L cfg) (hsame.request sid).symm
  · rw [he]
    exact htook

/-- The sampling loop, after a decode that succeeded. -/
theorem faithful_decoded {e : Engine n} {call : DecodeCall n}
    (h : Faithful L cfg e) (hacc : Accounts e [])
    (hview : ∀ sid, Idle (e.view sid) ∨ InBatch L cfg (e.view sid)) (hcall : CallOk e call) :
    Faithful L cfg (e.decoded L cfg call .ok) := by
  have hloop := loop_ready Engine.view (Engine.sampleTurn L cfg (e.fill call).cells call)
    (fun i v => Decoded L cfg v ∧
      llamaSamplerSample L (e.fill call).cells call.batch (call.logit_pos i) = L.pick v.seen)
    (fun e' => Faithful L cfg e' ∧ Accounts e' [])
    (fun e' i j hji => by rw [view_sampleTurn, if_neg hji])
    (fun e' i hq hr => ⟨faithful_sampleTurn hq.1 hq.2 hr.1 hr.2,
      accounts_sampleTurn L cfg _ call e' i [] hq.2⟩)
    call.active hcall.nodup (e.fill call)
    ⟨h.congr rfl rfl, hacc.congr (.refl _) rfl rfl rfl⟩ ?_
  · exact hloop.1.congr rfl rfl
  · intro sid hsid
    rcases hview sid with hi | hb
    · exact absurd hi (not_idle ((hcall.active sid).mp hsid))
    · exact ⟨decoded_of_inBatch hcall hb, sample_eq_pick hcall hb⟩

end sampling

/-! ## Every run -/

/-- Only the tick after a decode that succeeded gives generated answers. -/
theorem generatedAnswers_tick (L : Llama) (cfg : EngineConfig) (e : Engine n) (env : Engine.Env) :
    (e.tick L cfg env).generatedAnswers = e.generatedAnswers ∨
      ∃ call, e.place = .decode call ∧ e.tick L cfg env = e.decoded L cfg call .ok := by
  rcases e.tick_cases L cfg env with ⟨_, p, _, he⟩ | ⟨_, he⟩ | ⟨toAdmit, _, he⟩ | ⟨_, _, he⟩ |
    ⟨call, hp, he⟩
  · left
    rw [he]
    rfl
  · left
    rw [he]
    rfl
  · left
    rw [he]
    have hadmit := loop_same Engine.generatedAnswers _ (generatedAnswers_admitOne L) toAdmit e
    exact (loop_same Engine.generatedAnswers _
      (generatedAnswers_retireExpiredTurn env.now) _ _).trans hadmit
  · left
    rw [he, generatedAnswers_collect]
  · cases ho : env.decode with
    | ok =>
      rw [ho] at he
      exact Or.inr ⟨call, hp, he⟩
    | failed cached =>
      left
      rw [he, ho]
      exact loop_same Engine.generatedAnswers _ generatedAnswers_decodeFailedTurn _ _

theorem faithful_tick {L : Llama} {cfg : EngineConfig} (e : Engine n)
    (env : Engine.Env) (hb : Balanced e) (hc : Coherent L cfg e) (h : Faithful L cfg e) :
    Faithful L cfg (e.tick L cfg env) := by
  rcases generatedAnswers_tick L cfg e env with hnone | ⟨call, hp, he⟩
  · exact h.congr hnone (tick_enqueued L cfg e env)
  · have hacc := hb.accounts
    obtain ⟨hview, hcall⟩ := hc.at_decode hp
    rw [hp] at hacc
    rw [he]
    exact faithful_decoded h hacc hview hcall

theorem faithful_step {L : Llama} {cfg : EngineConfig} (e : Engine n)
    (a : Engine.Action) (hb : Balanced e) (hc : Coherent L cfg e) (h : Faithful L cfg e) :
    Faithful L cfg (e.step L cfg a) := by
  cases a with
  | enqueue req =>
    intro ans hans
    obtain ⟨r, hr, hresult⟩ := h ans hans
    refine ⟨r, ?_, hresult⟩
    have hlt := known_lt hr
    exact (List.getElem?_append_left hlt).trans hr
  | shutdown => exact h.congr rfl rfl
  | tick env => exact faithful_tick e env hb hc h

/-- Every run of the engine gives faithful answers. -/
theorem faithful_run (L : Llama) (cfg : EngineConfig) (as : List Engine.Action) :
    Faithful L cfg ((engine L cfg).run as) := by
  apply invariant_under _ (fun e => Balanced e ∧ Coherent L cfg e) (Faithful L cfg)
    (fun as => ⟨balanced_run L cfg as, coherent_run L cfg as⟩)
  · intro a ha
    cases ha
  · intro e a hq h
    exact faithful_step e a hq.1 hq.2 h

/-! ## The law of refinement -/

/-- Whenever the sampling loop completes a request, its callback gets the
pieces of the tokens that follow its own prompt, up to the first end token or
up to its limit. Nothing else of the run shows. -/
theorem a_generated_answer_is_the_answer_alone (L : Llama) (cfg : EngineConfig)
    (tokens : Bytes → List Token) (hmax : 1 ≤ cfg.max_tokens) (htokens : L.Tokenizes tokens)
    (hpiece : ∀ tok, (L.llama_token_to_piece tok).length ≤ 256) (as : List Engine.Action)
    (promise : Nat) (result : Bytes)
    (h : .completed promise .generated result ∈ ((engine L cfg).run as).trace) :
    ∃ req, ((engine L cfg).run as).enqueued[promise]? = some req ∧
      result = (generate L.pick L.llama_vocab_is_eog (cfg.limit req).toNat
        (tokens (formatted req.payload))).flatMap L.llama_token_to_piece := by
  obtain ⟨req, hreq, hresult⟩ :=
    faithful_run L cfg as (promise, result) ((mem_generatedAnswers _ promise result).mpr h)
  refine ⟨req, hreq, ?_⟩
  rw [← promptOf_eq htokens, ← pieceOf_eq hpiece, ← tokens_eq hmax]
  exact hresult

/-- A request in ChatML with a limit of its own. -/
def chatPrompt (text : String) (max_new_tokens : Int) : Request :=
  { helloRequest with
    payload := bytes "<|im_start|>" ++ bytes text
    max_new_tokens := max_new_tokens }

/-- Three prompts for two slots. The first two share a batch, and the third
gets the slot of the second while the first goes on. -/
def chatRun : List Engine.Action :=
  [.enqueue (chatPrompt "hi" 3), .enqueue (chatPrompt "" 1), .enqueue (chatPrompt "you" 2)] ++
    List.replicate 16 (.tick ⟨0, .ok⟩)

/-- A model whose tokens tell the number of tokens before them. -/
def countingLlama : Llama := byteLlama (fun cached => (cached.length : Int) + 50)

theorem a_generated_answer_is_the_answer_alone_chat :
    let L := countingLlama
    let cfg : EngineConfig := { max_slots := 2 }
    let e := (engine L cfg).run chatRun
    (.acquired 1 { chatPrompt "" 1 with on_complete := some 1 } ∈ e.trace ∧
      .acquired 1 { chatPrompt "you" 2 with on_complete := some 2 } ∈ e.trace) ∧
    ∀ p ∈ [(0, "@AB"), (1, ">"), (2, "AB")], ∃ req, e.enqueued[p.1]? = some req ∧
      bytes p.2 = (generate L.pick L.llama_vocab_is_eog (cfg.limit req).toNat
        (byteTokens (formatted req.payload))).flatMap L.llama_token_to_piece := by
  intro L cfg e
  have hanswers : ∀ p ∈ [(0, "@AB"), (1, ">"), (2, "AB")],
      .completed p.1 .generated (bytes p.2) ∈ e.trace := by decide +kernel
  refine ⟨by decide +kernel, ?_⟩
  intro p hp
  exact a_generated_answer_is_the_answer_alone countingLlama cfg byteTokens (by decide)
    (tokenizes_byteLlama _) (fun _ => by simp [countingLlama, byteLlama]) chatRun p.1 (bytes p.2)
    (hanswers p hp)

end inference_server
