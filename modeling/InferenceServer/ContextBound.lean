-- What the context has to hold. At each decode the cache holds the prompt and
-- the generated tokens of every occupied slot, and `n_ctx` has room for one
-- share per slot. No check keeps a request within its share.
import InferenceServer.Coherence
import InferenceServer.Admission
import Mathlib.Algebra.BigOperators.Ring.Finset

namespace inference_server

open machine generation

variable {n : Nat}

/-! ## Room and demand -/

/-- The tokens that the constructor reserves for one slot. -/
def EngineConfig.share (cfg : EngineConfig) : Int := cfg.max_tokens + 256

/-- `n_ctx`, as the constructor computes it. -/
def EngineConfig.n_ctx (cfg : EngineConfig) : Int := cfg.max_slots * cfg.share

/-- `n_batch` is set to `n_ctx`. -/
def EngineConfig.n_batch (cfg : EngineConfig) : Int := cfg.n_ctx

/-- A decode call, if the thread stands at one, fits the context: its batch
fits `n_batch`, and with it the cells of all active sequences fit `n_ctx`. -/
def Engine.FitsContext (cfg : EngineConfig) (e : Engine n) : Prop :=
  ∀ call, e.place = .decode call →
    (call.batch.length : Int) ≤ cfg.n_batch ∧
    (((e.fill call).cells.filter (fun c => e.occupied c.seq_id)).length : Int) ≤ cfg.n_ctx

/-- The request fits its share of the context: the tokenizer refuses it, or
its prompt and all but the last of its tokens fit. -/
def Llama.FitsShare (L : Llama) (cfg : EngineConfig) (req : Request) : Prop :=
  promptOf L req.payload = [] ∨
    (promptOf L req.payload).length + (max (cfg.limit req) 1 - 1) ≤ cfg.share

/-- The cells that a slot needs for a decode. -/
def Engine.demand (e : Engine n) (sid : Fin n) : Nat :=
  if e.occupied sid then (e.prompt_tokens sid).length + e.tokens_generated sid else 0

/-! ## The demand of a decode call -/

section demand

variable {L : Llama} {cfg : EngineConfig} {e : Engine n} {call : DecodeCall n}

theorem positioned_length (toks : List Token) : (positioned toks).length = toks.length := by
  simp [positioned]

theorem cellsOf_fill (h : Coherent L cfg e) (hp : e.place = .decode call) (sid : Fin n) :
    (cellsOf (e.fill call).cells sid).length = e.demand sid := by
  obtain ⟨hview, hcall⟩ := h.at_decode hp
  unfold Engine.demand
  rcases hview sid with hi | hb
  · have hcells : cellsOf (e.fill call).cells sid = [] := (idle_fill hcall hi).cells
    rw [view_occupied, hi.free, hcells]
    rfl
  · have hcells : cellsOf (e.fill call).cells sid = positioned (e.view sid).seen :=
      (decoded_of_inBatch hcall hb).cells
    have hgen : e.tokens_generated sid = (e.view sid).sampled.length := hb.generated
    rw [view_occupied, hb.occupied, if_pos rfl, hcells, positioned_length, hgen]
    exact List.length_append

/-- After the decode, the cache holds what the slots demand. -/
theorem fill_length (h : Coherent L cfg e) (hp : e.place = .decode call) :
    (e.fill call).cells.length = ∑ sid, e.demand sid := by
  rw [length_eq_sum_filter Cell.seq_id]
  apply Finset.sum_congr rfl
  intro sid _
  rw [← cellsOf_fill h hp, cellsOf, List.length_map]

/-- All of these cells belong to active sequences. -/
theorem fill_occupied (h : Coherent L cfg e) (hp : e.place = .decode call) :
    (e.fill call).cells.filter (fun c => e.occupied c.seq_id) = (e.fill call).cells := by
  rw [List.filter_eq_self]
  intro c hc
  by_contra hfree
  have hlen := cellsOf_fill h hp c.seq_id
  unfold Engine.demand at hlen
  rw [if_neg hfree, List.length_eq_zero_iff, cellsOf, List.map_eq_nil_iff,
    List.filter_eq_nil_iff] at hlen
  simpa using hlen c hc

theorem batch_le_fill (e : Engine n) (call : DecodeCall n) :
    call.batch.length ≤ (e.fill call).cells.length := by
  simp [Engine.fill]

/-- A decode call fits the context exactly when the demand of its slots does. -/
theorem fitsContext_iff (h : Coherent L cfg e) (hp : e.place = .decode call) :
    e.FitsContext cfg ↔ ((∑ sid, e.demand sid : Nat) : Int) ≤ cfg.n_ctx := by
  have hlen := fill_length h hp
  have hbatch := batch_le_fill e call
  constructor
  · intro hfit
    have hcells := (hfit call hp).2
    rw [fill_occupied h hp, hlen] at hcells
    exact hcells
  · intro hsum call' hp'
    have hsame : call' = call := by
      rw [hp] at hp'
      cases hp'
      rfl
    subst hsame
    rw [fill_occupied h hp, hlen]
    refine ⟨?_, hsum⟩
    unfold EngineConfig.n_batch
    omega

end demand

/-! ## Requests within their share -/

/-- Every request ever enqueued was given to `enqueue`, which only replaced
its callback. -/
theorem enqueued_run (L : Llama) (cfg : EngineConfig) (as : List Engine.Action) :
    ∀ r ∈ ((engine L cfg).run as).enqueued,
      ∃ req t, .enqueue req ∈ as ∧ r = { req with on_complete := some t } := by
  induction as using List.reverseRecOn with
  | nil =>
    intro r hr
    cases hr
  | append_singleton as a ih =>
    have hold : ∀ r ∈ ((engine L cfg).run as).enqueued,
        ∃ req t, .enqueue req ∈ as ++ [a] ∧ r = { req with on_complete := some t } := by
      intro r hr
      obtain ⟨req, t, hmem, heq⟩ := ih r hr
      exact ⟨req, t, List.mem_append_left _ hmem, heq⟩
    rw [run_snoc]
    cases a with
    | enqueue req =>
      intro r hr
      rcases List.mem_append.mp hr with hr | hr
      · exact hold r hr
      · exact ⟨req, _, by simp, List.mem_singleton.mp hr⟩
    | shutdown => exact hold
    | tick env =>
      intro r hr
      have htick := tick_enqueued L cfg ((engine L cfg).run as) env
      exact hold r (htick ▸ hr)

/-- A slot whose request fits its share demands at most the share. -/
theorem demand_le {L : Llama} {cfg : EngineConfig} {e : Engine n} {sid : Fin n}
    (h : InBatch L cfg (e.view sid)) (hfit : L.FitsShare cfg (e.request sid)) :
    (e.demand sid : Int) ≤ cfg.share := by
  have hocc : e.occupied sid = true := h.occupied
  have hprompt : e.prompt_tokens sid = promptOf L (e.request sid).payload := h.prompt
  have hne : e.prompt_tokens sid ≠ [] := h.prompt_ne
  have hbelow : (e.tokens_generated sid : Int) < max (cfg.limit (e.request sid)) 1 := h.below
  unfold Engine.demand
  rw [if_pos hocc]
  rcases hfit with hnone | hle
  · exact absurd (hprompt.trans hnone) hne
  · rw [← hprompt] at hle
    omega

/-- A state whose occupied slots have requests that fit their share fits the
context. -/
theorem fits_of_shares {L : Llama} {cfg : EngineConfig} {e : Engine cfg.max_slots}
    (hcoh : Coherent L cfg e) (hall : ∀ call, e.place = .decode call →
      ∀ sid, e.occupied sid = true → L.FitsShare cfg (e.request sid)) :
    e.FitsContext cfg := by
  by_cases hcall : ∃ call, e.place = .decode call
  · obtain ⟨call, hp⟩ := hcall
    rw [fitsContext_iff hcoh hp]
    obtain ⟨hview, hok⟩ := hcoh.at_decode hp
    have hslot : ∀ sid, e.occupied sid = true → (e.demand sid : Int) ≤ cfg.share := by
      intro sid hocc
      rcases hview sid with hi | hb
      · exact absurd hi (not_idle hocc)
      · exact demand_le hb (hall call hp sid hocc)
    obtain ⟨sid0, hsid0⟩ := List.exists_mem_of_ne_nil _ hok.nonempty
    have hshare : 0 ≤ cfg.share := by
      have := hslot sid0 ((hok.active sid0).mp hsid0)
      omega
    have hsum : ∑ sid, (e.demand sid : Int) ≤ ∑ _sid : Fin cfg.max_slots, cfg.share := by
      apply Finset.sum_le_sum
      intro sid _
      by_cases hocc : e.occupied sid = true
      · exact hslot sid hocc
      · have hzero : e.demand sid = 0 := if_neg hocc
        rw [hzero]
        exact hshare
    rw [Finset.sum_const, Finset.card_univ, Fintype.card_fin, nsmul_eq_mul] at hsum
    rw [Nat.cast_sum]
    exact hsum
  · intro call hp
    exact absurd ⟨call, hp⟩ hcall

/-- A slot's request was given to `enqueue`. -/
theorem holder_enqueued (L : Llama) (cfg : EngineConfig) (as : List Engine.Action)
    (sid : Fin cfg.max_slots) (hocc : ((engine L cfg).run as).occupied sid = true) :
    ∃ req t, .enqueue req ∈ as ∧
      ((engine L cfg).run as).request sid = { req with on_complete := some t } := by
  obtain ⟨t, _, hreq⟩ := (balanced_run L cfg as).accounts.known_slots sid hocc
  exact enqueued_run L cfg as _ (List.mem_of_getElem? hreq)

/-! ## Requests that are late at once -/

/-- The clock readings of a run are those of one steady clock: none is below
an earlier one, or below the `enqueue_time` of a request that came before it. -/
def SteadyClock (as : List Engine.Action) : Prop :=
  ∀ before env after, as = before ++ .tick env :: after →
    (∀ req, .enqueue req ∈ before → req.enqueue_time ≤ env.now) ∧
    ∀ env', .tick env' ∈ before → env'.now ≤ env.now

/-- No request with a negative deadline comes as far as to a decode. -/
def Engine.Timely (e : Engine n) : Prop :=
  ((∃ now, e.place = .collect now) ∨ ∃ call, e.place = .decode call) →
    ∀ sid, e.occupied sid = true → 0 ≤ (e.request sid).deadline

theorem SteadyClock.of_snoc {as : List Engine.Action} {a : Engine.Action}
    (h : SteadyClock (as ++ [a])) : SteadyClock as := by
  intro before env after has
  apply h before env (after ++ [a])
  rw [has, List.append_assoc]
  rfl

/-- What `retire_expired` leaves in a slot is not late. -/
theorem dueTime_of_kept {e : Engine n} {sid : Fin n} {now : Int}
    (hocc : (e.retireExpired now).occupied sid = true) :
    now ≤ ((e.retireExpired now).request sid).dueTime := by
  rw [view_occupied, view_retireExpired] at hocc
  rw [view_request, view_retireExpired]
  unfold expiredView at hocc ⊢
  split at hocc
  · cases hocc
  · rename_i hkept
    rw [if_neg hkept]
    by_contra hlate
    exact hkept ⟨hocc, by omega⟩

theorem timely_collect {e : Engine n} (h : e.Timely) {now : Int} (hp : e.place = .collect now) :
    e.collect.Timely := by
  have hslots := h (Or.inl ⟨now, hp⟩)
  rcases e.collect_cases with ⟨_, he⟩ | ⟨_, _, he⟩ | ⟨_, _, he⟩
  · rw [he]
    rintro (⟨_, hp'⟩ | ⟨_, hp'⟩) <;> cases hp'
  · rw [he]
    rintro (⟨_, hp'⟩ | ⟨_, hp'⟩) <;> cases hp'
  · rw [he]
    intro _ sid hocc
    rw [calling_occupied] at hocc
    have hreq : e.calling.request sid = e.request sid := (sameHolders_build e).request sid
    rw [hreq]
    exact hslots sid hocc

theorem timely_tick {L : Llama} {cfg : EngineConfig} {e : Engine n} {env : Engine.Env}
    (h : e.Timely) (hclock : ∀ sid, (e.tick L cfg env).occupied sid = true →
      ((e.tick L cfg env).request sid).enqueue_time ≤ env.now) :
    (e.tick L cfg env).Timely := by
  rcases e.tick_cases L cfg env with ⟨_, p, hmoves, he⟩ | ⟨_, he⟩ | ⟨toAdmit, _, he⟩ |
    ⟨now, hp, he⟩ | ⟨call, _, he⟩
  · rw [he]
    rcases hmoves with ⟨rfl, _⟩ | rfl | ⟨rfl, _⟩ <;> rintro (⟨_, hp⟩ | ⟨_, hp⟩) <;> cases hp
  · rw [he]
    rintro (⟨_, hp⟩ | ⟨_, hp⟩) <;> cases hp
  · intro _ sid hocc
    have hnow := hclock sid hocc
    have hdue : env.now ≤ ((e.tick L cfg env).request sid).dueTime := by
      rw [he] at hocc ⊢
      exact dueTime_of_kept hocc
    unfold Request.dueTime at hdue
    omega
  · rw [he]
    exact timely_collect h hp
  · rw [he]
    have hplace : (e.decoded L cfg call env.decode).place = .top := by
      cases env.decode <;> rfl
    rintro (⟨_, hp⟩ | ⟨_, hp⟩) <;> cases hplace.symm.trans hp

theorem timely_run (L : Llama) (cfg : EngineConfig) {as : List Engine.Action}
    (h : SteadyClock as) : ((engine L cfg).run as).Timely := by
  induction as using List.reverseRecOn with
  | nil => rintro (⟨_, hp⟩ | ⟨_, hp⟩) <;> cases hp
  | append_singleton as a ih =>
    have hold := ih h.of_snoc
    have hknown := holder_enqueued L cfg (as ++ [a])
    rw [run_snoc] at hknown ⊢
    cases a with
    | enqueue req => exact hold
    | shutdown => exact hold
    | tick env =>
      apply timely_tick hold
      intro sid hocc
      obtain ⟨req, t, hmem, hreq⟩ := hknown sid hocc
      have hmem' : .enqueue req ∈ as := by simpa using hmem
      exact (congrArg Request.enqueue_time hreq).trans_le ((h as env [] rfl).1 req hmem')

/-! ## A crowd of one oversized request -/

/-- The same tokenizer, with a model that never ends a generation. -/
def Llama.endless (L : Llama) : Llama :=
  { L with next := fun _ => 0, llama_vocab_is_eog := fun _ => false }

/-- A slot with a copy of `req` is not retired before the request is late. -/
theorem view_in_time {req : Request} {e : Engine n} {sid : Fin n} {now : Int}
    (hnow : now ≤ req.dueTime) (hreq : ∃ t, e.request sid = { req with on_complete := some t }) :
    (e.retireExpired now).view sid = e.view sid := by
  obtain ⟨t, ht⟩ := hreq
  have hdue : (e.view sid).slot.request.dueTime = req.dueTime := by
    rw [← view_request, ht]
    rfl
  rw [view_retireExpired]
  apply if_neg
  rintro ⟨_, hlate⟩
  omega

/-- Every slot decodes a copy of `req`, and has `k` tokens so far. -/
structure Crowded (L : Llama) (cfg : EngineConfig) (req : Request) (k : Nat) (e : Engine n) :
    Prop where
  balanced : Balanced e
  coherent : Coherent L cfg e
  copies : ∀ r ∈ e.enqueued, ∃ t, r = { req with on_complete := some t }
  running : e.running = true
  occupied : ∀ sid, e.occupied sid = true
  generated : ∀ sid, e.tokens_generated sid = k

section crowded

variable {L : Llama} {cfg : EngineConfig} {req : Request} {k : Nat} {e : Engine n}

theorem Crowded.request (h : Crowded L cfg req k e) (sid : Fin n) :
    ∃ t, e.request sid = { req with on_complete := some t } := by
  obtain ⟨t, _, hr⟩ := h.balanced.accounts.known_slots sid (h.occupied sid)
  exact h.copies _ (List.mem_of_getElem? hr)

theorem Crowded.free_count (h : Crowded L cfg req k e) : e.slots.free_count = 0 := by
  have hcount : e.slots.free_count = e.slots.freeSlots := h.balanced.accounts.counted
  rw [hcount, e.slots.freeSlots_eq_zero.mpr h.occupied]
  rfl

theorem Crowded.tick (h : Crowded L cfg req k e) (env : Engine.Env) (k' : Nat)
    (hocc : ∀ sid, (e.tick L cfg env).occupied sid = true)
    (hgen : ∀ sid, (e.tick L cfg env).tokens_generated sid = k') :
    Crowded L cfg req k' (e.tick L cfg env) where
  balanced := balanced_tick L cfg e env h.balanced
  coherent := coherent_tick L cfg e env h.coherent
  copies r hr := h.copies r (tick_enqueued L cfg e env ▸ hr)
  running := (tick_running L cfg e env).trans h.running
  occupied := hocc
  generated := hgen

/-- The thread goes on to the decode. -/
theorem crowded_collect (h : Crowded L cfg req k e) (hn : 0 < n) {now : Int}
    (hp : e.place = .collect now) (env : Engine.Env) :
    Crowded L cfg req k (e.tick L cfg env) ∧ ∃ call, (e.tick L cfg env).place = .decode call := by
  have hview := h.coherent.at_collect hp
  have hact : e.active ≠ [] := List.ne_nil_of_mem ((mem_active e ⟨0, hn⟩).mpr (h.occupied _))
  have htick : e.tick L cfg env = e.calling := by
    rw [Engine.tick_collect L cfg env hp]
    rcases e.collect_cases with ⟨hnil, _⟩ | ⟨_, h0, _⟩ | ⟨_, _, he⟩
    · exact absurd hnil hact
    · exact absurd h0 (tokens_pos hview hact)
    · exact he
  refine ⟨h.tick env k ?_ ?_, ?_⟩
  · intro sid
    rw [htick, calling_occupied]
    exact h.occupied sid
  · intro sid
    rw [htick]
    exact h.generated sid
  · rw [htick]
    exact ⟨_, rfl⟩

/-- Every slot gets one more token, as long as that is below the limit. -/
theorem crowded_decode (h : Crowded L.endless cfg req k e) {call : DecodeCall n}
    (hp : e.place = .decode call) (hk : ((k + 1 : Nat) : Int) < cfg.limit req) (now : Int) :
    Crowded L.endless cfg req (k + 1) (e.tick L.endless cfg ⟨now, .ok⟩) ∧
      (e.tick L.endless cfg ⟨now, .ok⟩).place = .top := by
  obtain ⟨_, hcall⟩ := h.coherent.at_decode hp
  have htick : e.tick L.endless cfg ⟨now, .ok⟩ = e.decoded L.endless cfg call .ok :=
    Engine.tick_decode L.endless cfg ⟨now, .ok⟩ hp
  have hview : ∀ sid, (e.decoded L.endless cfg call .ok).view sid =
      appendView L.endless { (e.fill call).view sid with
        sampled := ((e.fill call).view sid).sampled ++ [llamaSamplerSample L.endless
          (e.fill call).cells call.batch (call.logit_pos sid)] }
        (llamaSamplerSample L.endless (e.fill call).cells call.batch (call.logit_pos sid)) := by
    intro sid
    rw [view_decoded L.endless cfg hcall, if_pos ((hcall.active sid).mpr (h.occupied sid))]
    obtain ⟨t, ht⟩ := h.request sid
    have hocc : ((e.fill call).view sid).slot.occupied = true := h.occupied sid
    have hreq : ((e.fill call).view sid).slot.request = { req with on_complete := some t } := ht
    have hgen : ((e.fill call).view sid).generated = k := h.generated sid
    have hlimit : cfg.limit { req with on_complete := some t } = cfg.limit req := rfl
    generalize llamaSamplerSample L.endless (e.fill call).cells call.batch (call.logit_pos sid) =
      tok
    have heog : L.endless.llama_vocab_is_eog tok = false := rfl
    unfold sampleView
    simp only [hocc, heog, Bool.not_true, Bool.false_eq_true, if_false, false_or]
    apply if_neg
    simp only [appendView, hgen, hreq, hlimit]
    omega
  refine ⟨h.tick ⟨now, .ok⟩ (k + 1) ?_ ?_, ?_⟩
  · intro sid
    rw [htick, view_occupied, hview]
    exact h.occupied sid
  · intro sid
    rw [htick]
    have hgen := congrArg SlotView.generated (hview sid)
    exact hgen.trans (congrArg (· + 1) (h.generated sid))
  · rw [htick]
    rfl

/-- From the top of the loop to the next `collect`, with nothing to admit
and nobody late. -/
theorem crowded_top (h : Crowded L cfg req k e) (hn : 0 < n) (hp : e.place = .top)
    (env : Engine.Env) :
    Crowded L cfg req k (e.tick L cfg env) ∧ (e.tick L cfg env).place = .drain := by
  have htick : e.tick L cfg env = { e with place := .drain } := by
    unfold Engine.tick
    rw [hp]
    simp only [h.running, Bool.not_true, Bool.false_eq_true, if_false]
    rw [if_neg]
    rw [h.free_count]
    omega
  refine ⟨h.tick env k ?_ ?_, ?_⟩
  · rw [htick]
    exact h.occupied
  · rw [htick]
    exact h.generated
  · rw [htick]

theorem crowded_drain (h : Crowded L cfg req k e) (hp : e.place = .drain) (env : Engine.Env) :
    Crowded L cfg req k (e.tick L cfg env) ∧ (e.tick L cfg env).place = .admission [] := by
  have htick : e.tick L cfg env = { e with place := .admission [] } := by
    rw [Engine.tick_drain L cfg env hp, h.free_count]
    rfl
  refine ⟨h.tick env k ?_ ?_, ?_⟩
  · rw [htick]
    exact h.occupied
  · rw [htick]
    exact h.generated
  · rw [htick]

theorem crowded_admission (h : Crowded L cfg req k e) (hp : e.place = .admission [])
    (env : Engine.Env) (hnow : env.now ≤ req.dueTime) :
    Crowded L cfg req k (e.tick L cfg env) ∧ (e.tick L cfg env).place = .collect env.now := by
  have htick : e.tick L cfg env =
      { e.retireExpired env.now with place := .collect env.now } :=
    Engine.tick_admission L cfg env hp
  have hview : ∀ sid, (e.tick L cfg env).view sid = e.view sid := by
    intro sid
    rw [htick]
    exact view_in_time hnow (h.request sid)
  refine ⟨h.tick env k ?_ ?_, ?_⟩
  · intro sid
    rw [view_occupied, hview]
    exact h.occupied sid
  · intro sid
    have hgen := congrArg SlotView.generated (hview sid)
    exact hgen.trans (h.generated sid)
  · rw [htick]

end crowded

/-! ## How the slots fill up -/

section start

variable {L : Llama} {cfg : EngineConfig} {req : Request}

/-- A slot that was never sampled. -/
def Fresh (L : Llama) (cfg : EngineConfig) (v : SlotView) : Prop :=
  Idle v ∨ (Live L cfg v ∧ v.sampled = [])

theorem admit_fresh (l : List Request) (e : Engine n) (h : ∀ sid, Fresh L cfg (e.view sid)) :
    ∀ sid, Fresh L cfg ((l.foldl (Engine.admitOne L) e).view sid) := by
  apply List.foldlRecOn l (Engine.admitOne L)
    (motive := fun e : Engine n => ∀ sid, Fresh L cfg (e.view sid)) h
  intro e he r _
  refine admitOne_keeps (P := Fresh L cfg) (fun _ => Or.inl) (fun _ hl hs => Or.inr ⟨hl, hs⟩) ?_
    e r he
  rintro v (hi | ⟨hl, _⟩) hfree
  · exact hi
  · rw [hl.occupied] at hfree
    cases hfree

/-- The clock that is late for no copy of `req`, and a decode that succeeds. -/
def onTime (req : Request) : Engine.Env := ⟨req.dueTime, .ok⟩

/-- One copy of `req` for each slot, then some ticks. -/
def crowdRun (slots : Nat) (req : Request) (ticks : Nat) : List Engine.Action :=
  List.replicate slots (.enqueue req) ++ List.replicate ticks (.tick (onTime req))

theorem crowdRun_add (slots : Nat) (req : Request) (a b : Nat) :
    (engine L cfg).run (crowdRun slots req (a + b)) =
      (List.replicate b (.tick (onTime req))).foldl (engine L cfg).step
        ((engine L cfg).run (crowdRun slots req a)) := by
  rw [← run_append, crowdRun, crowdRun, List.append_assoc, List.replicate_append_replicate]

theorem enqueue_all (L : Llama) (cfg : EngineConfig) (req : Request) (m : Nat) :
    let e := (engine L cfg).run (List.replicate m (.enqueue req))
    e.place = .top ∧ e.running = true ∧ e.slots = .new cfg.max_slots ∧ e.pending.length = m ∧
      e.trace = [] ∧ ∀ r ∈ e.enqueued, ∃ t, r = { req with on_complete := some t } := by
  induction m with
  | zero =>
    refine ⟨rfl, rfl, rfl, rfl, rfl, ?_⟩
    intro r hr
    cases hr
  | succ m ih =>
    obtain ⟨g1, g2, g3, g4, g5, g6⟩ := ih
    rw [List.replicate_succ', run_snoc]
    refine ⟨g1, g2, g3, ?_, g5, ?_⟩
    · exact List.length_append.trans (congrArg (· + 1) g4)
    · intro r hr
      rcases List.mem_append.mp hr with hr | hr
      · exact g6 r hr
      · exact ⟨_, List.mem_singleton.mp hr⟩

/-- Three ticks take all requests out of the queue. -/
theorem crowd_drains (L : Llama) (req : Request) (hn : 0 < cfg.max_slots) :
    let e := (engine L cfg).run (crowdRun cfg.max_slots req 3)
    e.running = true ∧ e.slots = .new cfg.max_slots ∧
      ∃ l, e.place = .admission l ∧ l.length = cfg.max_slots := by
  obtain ⟨g1, g2, g3, g4, _, _⟩ := enqueue_all L cfg req cfg.max_slots
  have hrun : (engine L cfg).run (crowdRun cfg.max_slots req 3) =
      (List.replicate 3 (.tick (onTime req))).foldl (engine L cfg).step
        ((engine L cfg).run (List.replicate cfg.max_slots (.enqueue req))) := by
    rw [← run_append]
    rfl
  rw [hrun]
  generalize (engine L cfg).run (List.replicate cfg.max_slots (.enqueue req)) = e at *
  have hcount : e.slots.free_count = cfg.max_slots := by rw [g3]; rfl
  have hne : e.pending.isEmpty = false := by
    rw [← Bool.not_eq_true, List.isEmpty_iff, ← List.length_eq_zero_iff]
    omega
  have h1 : (engine L cfg).step e (.tick (onTime req)) = { e with place := .wait } := by
    change e.tick L cfg (onTime req) = _
    unfold Engine.tick
    rw [g1]
    simp only [g2, hcount, Bool.not_true, Bool.false_eq_true, if_false, if_true]
  have h2 : (engine L cfg).step { e with place := .wait } (.tick (onTime req)) =
      { e with place := .drain } := by
    change Engine.tick L cfg { e with place := .wait } (onTime req) = _
    unfold Engine.tick
    simp only [g2, hne, Bool.not_true, Bool.not_false, Bool.true_or, Bool.false_eq_true, if_false,
      if_true]
  have h3 : (engine L cfg).step { e with place := .drain } (.tick (onTime req)) =
      { e with pending := [], place := .admission e.pending } := by
    change Engine.tick L cfg { e with place := .drain } (onTime req) = _
    unfold Engine.tick
    simp only [hcount, drainLoop_eq, Int.toNat_natCast]
    rw [List.take_of_length_le (by omega), List.drop_of_length_le (by omega)]
    rfl
  simp only [List.replicate, List.foldl_cons, List.foldl_nil, h1, h2, h3]
  exact ⟨g2, g3, e.pending, rfl, g4⟩

theorem enqueue_of_crowdRun {slots ticks : Nat} {req req' : Request}
    (h : .enqueue req' ∈ crowdRun slots req ticks) : req' = req := by
  rcases List.mem_append.mp h with hm | hm
  · exact Engine.Action.enqueue.inj (List.eq_of_mem_replicate hm)
  · cases List.eq_of_mem_replicate hm

theorem tick_of_crowdRun {slots ticks : Nat} {req : Request} {env : Engine.Env}
    (h : .tick env ∈ crowdRun slots req ticks) : env = onTime req := by
  rcases List.mem_append.mp h with hm | hm
  · cases List.eq_of_mem_replicate hm
  · exact Engine.Action.tick.inj (List.eq_of_mem_replicate hm)

theorem copies_of_crowdRun (L : Llama) (cfg : EngineConfig) (slots : Nat) (req : Request)
    (ticks : Nat) : ∀ r ∈ ((engine L cfg).run (crowdRun slots req ticks)).enqueued,
      ∃ t, r = { req with on_complete := some t } := by
  intro r hr
  obtain ⟨req', t, hmem, heq⟩ := enqueued_run L cfg _ r hr
  exact ⟨t, enqueue_of_crowdRun hmem ▸ heq⟩

/-- As many requests as there are slots, all with a prompt, fill the free slots. -/
theorem crowd_seats (cfg : EngineConfig) {e : Engine n} {l : List Request} (h : Accounts e l)
    (hlen : l.length = n) (hidle : ∀ sid, Idle (e.view sid))
    (hprompts : ∀ r ∈ l, promptOf L r.payload ≠ []) :
    let e' := l.foldl (Engine.admitOne L) e
    (∀ sid, e'.occupied sid = true) ∧
      ∀ sid, Live L cfg (e'.view sid) ∧ (e'.view sid).sampled = [] := by
  have hcount : e.slots.free_count = e.slots.freeSlots := h.counted
  have hall : e.slots.freeSlots = n :=
    e.slots.freeSlots_eq_n.mpr (fun sid => (hidle sid).free)
  have hfills := admit_fills l e h (by omega) hprompts
  have hacc := accounts_admission L l e h (by omega)
  have hfresh : ∀ sid, Fresh L cfg ((l.foldl (Engine.admitOne L) e).view sid) :=
    admit_fresh l e (fun sid => Or.inl (hidle sid))
  have hocc : ∀ sid, (l.foldl (Engine.admitOne L) e).occupied sid = true := by
    apply (KVSlotManager.freeSlots_eq_zero _).mp
    have hleft := hacc.counted
    unfold KVSlotManager.Counted at hleft
    omega
  refine ⟨hocc, ?_⟩
  intro sid
  rcases hfresh sid with hi | hl
  · exact absurd hi (not_idle (hocc sid))
  · exact hl

/-- Slots that nobody has used yet are idle when the admit loop begins. -/
theorem idle_of_new (h : Coherent L cfg e) {l : List Request} (hp : e.place = .admission l)
    (hslots : e.slots = .new n) (sid : Fin n) : Idle (e.view sid) := by
  have hfree : e.occupied sid = false := by
    unfold Engine.occupied
    rw [hslots]
    rfl
  unfold Coherent at h
  rw [hp] at h
  rcases h sid with hi | ⟨hl, _⟩
  · exact hi
  · have hocc : e.occupied sid = true := hl.occupied
    rw [hfree] at hocc
    cases hocc

/-- After four ticks every slot has a copy of `req`, before its prefill. -/
theorem crowd_start (L : Llama) (cfg : EngineConfig) (hn : 0 < cfg.max_slots)
    (hprompt : promptOf L req.payload ≠ []) :
    let e := (engine L cfg).run (crowdRun cfg.max_slots req 4)
    Crowded L cfg req 0 e ∧ e.place = .collect req.dueTime := by
  obtain ⟨hrunning, hslots, l, hp, hlen⟩ := crowd_drains L req hn
  have hbal := balanced_run L cfg (crowdRun cfg.max_slots req 3)
  have hcoh := coherent_run L cfg (crowdRun cfg.max_slots req 3)
  have hcopies := copies_of_crowdRun L cfg cfg.max_slots req 3
  rw [crowdRun_add _ _ 3 1]
  generalize (engine L cfg).run (crowdRun cfg.max_slots req 3) = e at *
  change Crowded L cfg req 0 (e.tick L cfg (onTime req)) ∧
    (e.tick L cfg (onTime req)).place = .collect req.dueTime
  have htick : e.tick L cfg (onTime req) =
      { (l.foldl (Engine.admitOne L) e).retireExpired req.dueTime with
        place := .collect req.dueTime } := Engine.tick_admission L cfg (onTime req) hp
  have hacc : Accounts e l := by
    have hbooks := hbal.accounts
    rw [hp] at hbooks
    exact hbooks
  have hprompts : ∀ r ∈ l, promptOf L r.payload ≠ [] := by
    intro r hr
    obtain ⟨t, _, hget⟩ := hacc.known r (List.mem_append_right _ hr)
    obtain ⟨t', rfl⟩ := hcopies r (List.mem_of_getElem? hget)
    exact hprompt
  obtain ⟨hocc, hlive⟩ := crowd_seats cfg hacc hlen (idle_of_new hcoh hp hslots) hprompts
  have hroom : (l.length : Int) ≤ e.slots.free_count := by
    rw [hslots, hlen]
    exact Int.le_refl _
  have hacc' := accounts_admission L l e hacc hroom
  have henq : (l.foldl (Engine.admitOne L) e).enqueued = e.enqueued :=
    enqueued_of_shared (loop_same Engine.shared _ (shared_admitOne L) l e)
  generalize l.foldl (Engine.admitOne L) e = e1 at *
  have hview : ∀ sid, (e.tick L cfg (onTime req)).view sid = e1.view sid := by
    intro sid
    obtain ⟨t, _, hget⟩ := hacc'.known_slots sid (hocc sid)
    rw [henq] at hget
    rw [htick]
    exact view_in_time (Int.le_refl _) (hcopies _ (List.mem_of_getElem? hget))
  refine ⟨⟨balanced_tick L cfg e _ hbal, coherent_tick L cfg e _ hcoh, ?_, ?_, ?_, ?_⟩, ?_⟩
  · rw [tick_enqueued]
    exact hcopies
  · rw [tick_running]
    exact hrunning
  · intro sid
    rw [view_occupied, hview]
    exact hocc sid
  · intro sid
    have hgen := congrArg SlotView.generated (hview sid)
    apply hgen.trans
    rw [(hlive sid).1.generated, (hlive sid).2]
    rfl
  · rw [htick]

/-- All slots get their tokens in lockstep: at the `collect` after `k` rounds
each has `k`. -/
theorem crowd_round (hn : 0 < cfg.max_slots) (hprompt : promptOf L req.payload ≠ []) (k : Nat)
    (hk : (k : Int) ≤ max (cfg.limit req) 1 - 1) :
    let e := (engine L.endless cfg).run (crowdRun cfg.max_slots req (4 + 5 * k))
    Crowded L.endless cfg req k e ∧ e.place = .collect req.dueTime := by
  induction k with
  | zero => exact crowd_start L.endless cfg hn hprompt
  | succ k ih =>
    obtain ⟨h0, hp0⟩ := ih (by omega)
    have hadd : 4 + 5 * (k + 1) = (4 + 5 * k) + 5 := by omega
    rw [hadd, crowdRun_add]
    generalize (engine L.endless cfg).run (crowdRun cfg.max_slots req (4 + 5 * k)) = e at *
    obtain ⟨h1, call, hp1⟩ := crowded_collect h0 hn hp0 (onTime req)
    obtain ⟨h2, hp2⟩ := crowded_decode h1 hp1 (by omega) req.dueTime
    obtain ⟨h3, hp3⟩ := crowded_top h2 hn hp2 (onTime req)
    obtain ⟨h4, hp4⟩ := crowded_drain h3 hp3 (onTime req)
    exact crowded_admission h4 hp4 (onTime req) (Int.le_refl _)

/-- A crowd at a decode demands the prompt and the tokens so far, once for
each slot. -/
theorem crowd_demand {k : Nat} {e : Engine n} (h : Crowded L cfg req k e) {call : DecodeCall n}
    (hp : e.place = .decode call) :
    ∑ sid, e.demand sid = n * ((promptOf L req.payload).length + k) := by
  obtain ⟨hview, _⟩ := h.coherent.at_decode hp
  have hone : ∀ sid, e.demand sid = (promptOf L req.payload).length + k := by
    intro sid
    obtain ⟨t, ht⟩ := h.request sid
    have hprompt : e.prompt_tokens sid = promptOf L req.payload := by
      rcases hview sid with hi | hb
      · exact absurd hi (not_idle (h.occupied sid))
      · have hslot : e.prompt_tokens sid = promptOf L (e.request sid).payload := hb.prompt
        rw [hslot, ht]
    unfold Engine.demand
    rw [if_pos (h.occupied sid), hprompt, h.generated]
  simp [hone]

/-- One oversized request, a copy of it for each slot, overflows the context. -/
theorem oversized_overflows (hn : 0 < cfg.max_slots) (hbig : ¬ L.FitsShare cfg req) :
    ∃ ticks, ¬ ((engine L.endless cfg).run (crowdRun cfg.max_slots req ticks)).FitsContext cfg := by
  unfold Llama.FitsShare at hbig
  push Not at hbig
  obtain ⟨hprompt, hshare⟩ := hbig
  obtain ⟨k, hk⟩ : ∃ k : Nat, (k : Int) = max (cfg.limit req) 1 - 1 :=
    ⟨(max (cfg.limit req) 1 - 1).toNat, by omega⟩
  obtain ⟨h0, hp0⟩ := crowd_round (L := L) hn hprompt k (by omega)
  refine ⟨(4 + 5 * k) + 1, ?_⟩
  rw [crowdRun_add]
  generalize (engine L.endless cfg).run (crowdRun cfg.max_slots req (4 + 5 * k)) = e at *
  obtain ⟨h1, call, hp1⟩ := crowded_collect h0 hn hp0 (onTime req)
  change ¬ (e.tick L.endless cfg (onTime req)).FitsContext cfg
  rw [fitsContext_iff h1.coherent hp1, crowd_demand h1 hp1]
  have hlen : (promptOf L.endless req.payload).length = (promptOf L req.payload).length := rfl
  unfold EngineConfig.n_ctx
  rw [hlen]
  push_cast
  rw [not_le]
  apply Int.mul_lt_mul_of_pos_left _ (by exact_mod_cast hn)
  omega

end start

/-! ## The law of the context -/

/-- The crowd runs on a clock that stands still at its due time. -/
theorem steady_crowdRun {req : Request} (hdeadline : 0 ≤ req.deadline) (slots ticks : Nat) :
    SteadyClock (crowdRun slots req ticks) := by
  intro before env after has
  have hmem : ∀ a ∈ before, a ∈ crowdRun slots req ticks := by
    intro a ha
    rw [has]
    exact List.mem_append_left _ ha
  have htick : .tick env ∈ crowdRun slots req ticks := by
    rw [has]
    exact List.mem_append_right _ List.mem_cons_self
  obtain rfl := tick_of_crowdRun htick
  refine ⟨?_, ?_⟩
  · intro req' hreq'
    rw [enqueue_of_crowdRun (hmem _ hreq')]
    change req.enqueue_time ≤ req.enqueue_time + req.deadline * 1000000
    omega
  · intro env' henv'
    rw [tick_of_crowdRun (hmem _ henv')]

theorem fits_of_no_slots (L : Llama) (cfg : EngineConfig) (h0 : cfg.max_slots = 0)
    (as : List Engine.Action) : ((engine L cfg).run as).FitsContext cfg := by
  intro call hp
  obtain ⟨_, hcall⟩ := (coherent_run L cfg as).at_decode hp
  obtain ⟨sid, _⟩ := List.exists_mem_of_ne_nil _ hcall.nonempty
  exact (Fin.cast h0 sid).elim0

/-- A request whose crowds fit, whatever the model says, fits its share. -/
theorem share_of_crowd {L : Llama} {cfg : EngineConfig} {req : Request} (hslots : cfg.max_slots ≠ 0)
    (hfits : ∀ (next : List (Nat × Token) → Token) (eog : Token → Bool) (ticks : Nat),
      ((engine { L with next := next, llama_vocab_is_eog := eog } cfg).run
        (crowdRun cfg.max_slots req ticks)).FitsContext cfg) :
    L.FitsShare cfg req := by
  by_contra hbig
  obtain ⟨ticks, hover⟩ := oversized_overflows (Nat.pos_of_ne_zero hslots) hbig
  exact hover (hfits (fun _ => 0) (fun _ => false) ticks)

/-- Take any set of requests that clients may send, as often as they like.
Every decode call of every run fits the context, whatever the model and the
clock say, exactly when each of the requests fits its share. On a steady clock
those with a negative deadline are late at once and need not fit. -/
theorem every_decode_fits_only_with_requests_within_their_share (L : Llama) (cfg : EngineConfig)
    (ok : Request → Prop) :
    ((∀ (next : List (Nat × Token) → Token) (eog : Token → Bool) (as : List Engine.Action),
      (∀ req, .enqueue req ∈ as → ok req) →
      ((engine { L with next := next, llama_vocab_is_eog := eog } cfg).run as).FitsContext cfg) ↔
    cfg.max_slots = 0 ∨ ∀ req, ok req → L.FitsShare cfg req) ∧
    ((∀ (next : List (Nat × Token) → Token) (eog : Token → Bool) (as : List Engine.Action),
      SteadyClock as → (∀ req, .enqueue req ∈ as → ok req) →
      ((engine { L with next := next, llama_vocab_is_eog := eog } cfg).run as).FitsContext cfg) ↔
    cfg.max_slots = 0 ∨ ∀ req, ok req → 0 ≤ req.deadline → L.FitsShare cfg req) := by
  refine ⟨⟨?_, ?_⟩, ?_, ?_⟩
  · intro hfits
    rw [or_iff_not_imp_left]
    intro hslots req hok
    exact share_of_crowd hslots (fun next eog ticks =>
      hfits next eog _ (fun _ hmem => enqueue_of_crowdRun hmem ▸ hok))
  · intro hshare next eog as hall
    rcases hshare with h0 | hshare
    · exact fits_of_no_slots _ cfg h0 as
    · apply fits_of_shares (coherent_run _ cfg as)
      intro _ _ sid hocc
      obtain ⟨req, t, hmem, hreq⟩ := holder_enqueued _ cfg as sid hocc
      rw [hreq]
      exact hshare req (hall req hmem)
  · intro hfits
    rw [or_iff_not_imp_left]
    intro hslots req hok hdeadline
    exact share_of_crowd hslots (fun next eog ticks =>
      hfits next eog _ (steady_crowdRun hdeadline _ ticks)
        (fun _ hmem => enqueue_of_crowdRun hmem ▸ hok))
  · intro hshare next eog as hsteady hall
    rcases hshare with h0 | hshare
    · exact fits_of_no_slots _ cfg h0 as
    · apply fits_of_shares (coherent_run _ cfg as)
      intro call hp sid hocc
      have hdeadline := timely_run _ cfg hsteady (Or.inr ⟨call, hp⟩) sid hocc
      obtain ⟨req, t, hmem, hreq⟩ := holder_enqueued _ cfg as sid hocc
      rw [hreq] at hdeadline ⊢
      exact hshare req (hall req hmem) hdeadline

/-- A prompt of 400 letters. -/
def longRequest : Request := { helloRequest with payload := List.replicate 400 97 }

theorem formatted_length (payload : Bytes) : payload.length ≤ (formatted payload).length := by
  unfold formatted
  split
  · exact Nat.le_refl _
  · simp only [List.length_append]
    omega

/-- With one slot and 128 tokens, `n_ctx` is 384, and the fifth tick submits
the long prompt. -/
theorem a_long_prompt_overflows_the_context :
    ¬ ((engine (byteLlama (fun _ => 0)) { max_slots := 1, max_tokens := 128 }).run
      (crowdRun 1 longRequest 5)).FitsContext { max_slots := 1, max_tokens := 128 } := by
  have hlen : 400 ≤ (promptOf (byteLlama (fun _ => 0)) longRequest.payload).length := by
    rw [promptOf_eq (tokenizes_byteLlama _), byteTokens, List.length_map]
    have hpayload : longRequest.payload.length = 400 := List.length_replicate
    have := formatted_length longRequest.payload
    omega
  have hne : promptOf (byteLlama (fun _ => 0)) longRequest.payload ≠ [] := by
    intro h0
    rw [h0] at hlen
    cases hlen
  obtain ⟨h0, hp0⟩ := crowd_start _ { max_slots := 1, max_tokens := 128 } Nat.one_pos hne
  rw [crowdRun_add 1 longRequest 4 1]
  generalize (engine (byteLlama fun _ => 0) { max_slots := 1, max_tokens := 128 }).run
    (crowdRun 1 longRequest 4) = e at *
  obtain ⟨h1, call, hp1⟩ := crowded_collect h0 Nat.one_pos hp0 (onTime longRequest)
  refine (not_congr (fitsContext_iff h1.coherent hp1)).mpr ?_
  rw [crowd_demand h1 hp1]
  have hctx : EngineConfig.n_ctx { max_slots := 1, max_tokens := 128 } = 384 := by decide
  rw [hctx]
  push_cast
  omega

end inference_server
