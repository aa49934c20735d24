-- The slot table and the five parallel arrays agree. When `engine_loop`
-- collects the active slots, each occupied slot can be decoded and each free
-- slot is clean, whichever of the exits freed it.
import InferenceServer.Coherence

namespace inference_server

open machine

variable {n : Nat}

/-! ## One slot -/

/-- An occupied slot that the build loop and the sampling loop can work on. -/
structure Engine.Decodable (cfg : EngineConfig) (e : Engine n) (sid : Fin n) : Prop where
  sampler : e.samplers sid ≠ none
  prompt : e.prompt_tokens sid ≠ []
  below : (e.tokens_generated sid : Int) < cfg.limit (e.request sid)
  in_prefill : e.in_prefill sid = true ↔ e.tokens_generated sid = 0

/-- A free slot with nothing left in the arrays but its last prompt. -/
structure Engine.Clean (e : Engine n) (sid : Fin n) : Prop where
  sampler : e.samplers sid = none
  result : e.results sid = []
  generated : e.tokens_generated sid = 0
  in_prefill : e.in_prefill sid = false

section slot

variable {L : Llama} {cfg : EngineConfig} {e : Engine n} {sid : Fin n}

theorem decodable_of_running (hmax : 1 ≤ cfg.max_tokens) (h : Running L cfg (e.view sid)) :
    e.Decodable cfg sid := by
  have hlimit := limit_pos cfg (e.request sid) hmax
  have hsampler : e.samplers sid = some .greedy := h.sampler
  have hbelow : (e.tokens_generated sid : Int) < max (cfg.limit (e.request sid)) 1 := h.below
  have hgen : e.tokens_generated sid = (e.sampledOf sid).length := h.generated
  have hpre : e.in_prefill sid = (e.sampledOf sid).isEmpty := h.in_prefill
  refine ⟨?_, h.prompt_ne, ?_, ?_⟩
  · rw [hsampler]
    exact Option.some_ne_none _
  · omega
  · rw [hpre, hgen, List.isEmpty_iff, List.length_eq_zero_iff]

theorem clean_of_idle (h : Idle (e.view sid)) : e.Clean sid :=
  ⟨h.sampler, h.result, h.generated, h.in_prefill⟩

end slot

/-! ## The turns of the loops -/

/-- In the admit loop, a slot that `acquire` gives out has no sampler. -/
theorem no_sampler_to_free {L : Llama} {cfg : EngineConfig} {e : Engine n}
    (h : ∀ sid, Idle (e.view sid) ∨ Live L cfg (e.view sid)) (l : List Request) (req : Request)
    {slots : KVSlotManager n} {sid : Fin n}
    (hacq : (l.foldl (Engine.admitOne L) e).slots.acquire req = (slots, some sid)) :
    (l.foldl (Engine.admitOne L) e).samplers sid = none := by
  have hfree : (l.foldl (Engine.admitOne L) e).occupied sid = false := by
    rcases KVSlotManager.acquire_cases _ req with ⟨i, hi, hi'⟩ | ⟨_, hfull⟩
    · rw [hacq] at hi'
      cases hi'
      exact hi
    · rw [hacq] at hfull
      cases hfull
  rcases admit_ok L cfg l e h sid with hidle | hlive
  · exact hidle.sampler
  · have hocc := hlive.occupied
    rw [← view_occupied, hfree] at hocc
    cases hocc

/-- The turns of other slots do not touch the view of a slot that the sampling
loop has yet to visit. -/
theorem view_before_turn (L : Llama) (cfg : EngineConfig) {e : Engine n} {call : DecodeCall n}
    (hcall : CallOk e call) {l₁ l₂ : List (Fin n)} {sid : Fin n}
    (hl : call.active = l₁ ++ sid :: l₂) :
    (l₁.foldl (Engine.sampleTurn L cfg (e.fill call).cells call) (e.fill call)).view sid =
      (e.fill call).view sid := by
  have hnodup := hcall.nodup
  rw [hl, List.nodup_middle, List.nodup_cons] at hnodup
  obtain ⟨hout, hrest⟩ := hnodup
  rw [loop_rows Engine.view (Engine.sampleTurn L cfg (e.fill call).cells call) _
    (view_sampleTurn L cfg (e.fill call).cells call) l₁ (List.nodup_append.mp hrest).1]
  exact if_neg (fun hmem => hout (List.mem_append_left _ hmem))

theorem Coherent.at_admission {L : Llama} {cfg : EngineConfig} {e : Engine n}
    (h : Coherent L cfg e) {toAdmit : List Request} (hp : e.place = .admission toAdmit) :
    ∀ sid, Idle (e.view sid) ∨ Live L cfg (e.view sid) := by
  unfold Coherent at h
  rw [hp] at h
  exact fun sid => (h sid).idle_or_live

/-! ## The law of the occupied slots -/

/-- When the active slots are collected, each occupied slot has a sampler, a
prompt and room below its limit, and is in prefill exactly before its first
token. Each free slot is clean. So there is a token to decode whenever a slot
is active, each turn of the sampling loop has a sampler and a row of its own
sequence, and no admission overwrites a sampler. -/
theorem occupied_slots_are_decodable (L : Llama) (cfg : EngineConfig) (hmax : 1 ≤ cfg.max_tokens)
    (as : List Engine.Action) :
    let e := (engine L cfg).run as
    (∀ now, e.place = .collect now →
      (∀ sid, (e.occupied sid = true → e.Decodable cfg sid) ∧
        (e.occupied sid = false → e.Clean sid)) ∧
      (e.active ≠ [] → (e.active.map e.slotTokens).sum ≠ 0)) ∧
    (∀ call, e.place = .decode call → ∀ l₁ sid l₂, call.active = l₁ ++ sid :: l₂ →
      let s := l₁.foldl (Engine.sampleTurn L cfg (e.fill call).cells call) (e.fill call)
      s.occupied sid = true ∧ s.samplers sid ≠ none ∧ 0 ≤ call.logit_pos sid ∧
        ∃ x, call.batch[(call.logit_pos sid).toNat]? = some x ∧ x.logits = true ∧
          x.seq_id = sid) ∧
    ∀ toAdmit, e.place = .admission toAdmit → ∀ l₁ req l₂, toAdmit = l₁ ++ req :: l₂ →
      let s := l₁.foldl (Engine.admitOne L) e
      ∀ slots sid, s.slots.acquire req = (slots, some sid) → s.samplers sid = none := by
  intro e
  have hcoh := coherent_run L cfg as
  refine ⟨?_, ?_, ?_⟩
  · intro now hp
    have hat := hcoh.at_collect hp
    refine ⟨fun sid => ⟨fun hocc => ?_, fun hfree => ?_⟩, tokens_pos hat⟩
    · exact decodable_of_running hmax (hcoh.running hocc)
    · rcases hat sid with hidle | hlive
      · exact clean_of_idle hidle
      · have hocc := hlive.occupied
        rw [← view_occupied, hfree] at hocc
        cases hocc
  · intro call hp l₁ sid l₂ hl s
    obtain ⟨hviews, hcall⟩ := hcoh.at_decode hp
    have hview : s.view sid = (e.fill call).view sid := view_before_turn L cfg hcall hl
    have hocc : e.occupied sid = true := by
      apply (hcall.active sid).mp
      rw [hl]
      exact List.mem_append_right _ List.mem_cons_self
    have hrun := (decoded_of_inBatch hcall ((hviews sid).resolve_left (not_idle hocc))).toRunning
    rw [← hview] at hrun
    obtain ⟨x, h0, hrow, hlog, hseq, _⟩ := hcall.row sid hocc
    exact ⟨hrun.occupied, (decodable_of_running hmax hrun).sampler, h0, x, hrow, hlog, hseq⟩
  · intro toAdmit hp l₁ req l₂ _ s slots sid hacq
    exact no_sampler_to_free (hcoh.at_admission hp) l₁ req hacq

def Place.collects : Place n → Bool
  | .collect _ => true
  | _ => false

theorem Place.collects_iff (p : Place n) : p.collects = true ↔ ∃ now, p = .collect now := by
  cases p <;> simp [collects]

/-- Two requests for three slots, and a third one when the second has its only
token. -/
def secondBatch : List Engine.Action :=
  [.enqueue { helloRequest with max_new_tokens := 3 },
    .enqueue { helloRequest with max_new_tokens := 1 }] ++
    List.replicate 6 (.tick ⟨0, .ok⟩) ++ .enqueue helloRequest ::
    List.replicate 3 (.tick ⟨0, .ok⟩)

/-- The first slot is in its generation, the second one is used again, and the
third one is free. -/
theorem the_second_batch_is_decodable :
    let cfg : EngineConfig := { max_slots := 3 }
    let e := (engine (byteLlama (fun _ => 97)) cfg).run secondBatch
    (e.occupied 0 = true ∧ e.tokens_generated 0 = 1 ∧ e.Decodable cfg 0) ∧
    (.released 1 true ∈ e.trace ∧ e.occupied 1 = true ∧ e.tokens_generated 1 = 0 ∧
      e.Decodable cfg 1) ∧
    e.occupied 2 = false ∧ e.Clean 2 := by
  intro cfg e
  have hcollects : e.place.collects = true := by decide +kernel
  have hfirst : e.occupied 0 = true ∧ e.tokens_generated 0 = 1 := by decide +kernel
  have hsecond : .released 1 true ∈ e.trace ∧ e.occupied 1 = true ∧ e.tokens_generated 1 = 0 := by
    decide +kernel
  have hfree : e.occupied 2 = false := by decide +kernel
  obtain ⟨now, hplace⟩ := e.place.collects_iff.mp hcollects
  have hslots := ((occupied_slots_are_decodable _ cfg (by decide) secondBatch).1 now hplace).1
  exact ⟨⟨hfirst.1, hfirst.2, (hslots 0).1 hfirst.1⟩,
    ⟨hsecond.1, hsecond.2.1, hsecond.2.2, (hslots 1).1 hsecond.2.1⟩, hfree, (hslots 2).2 hfree⟩

end inference_server
