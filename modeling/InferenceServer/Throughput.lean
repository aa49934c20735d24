-- Continuous batching is list scheduling. Counted in calls of `llama_decode`,
-- the engine gives the requests, in their order of arrival, to the slot that
-- gets free first, and it never falls behind that plan, whatever fails,
-- expires or arrives meanwhile.
import InferenceServer.SlotLoads

namespace inference_server

open machine generation list_scheduling

variable {n : Nat} {L : Llama} {cfg : EngineConfig}

/-! ## One tick of the plan -/

/-- While requests wait, a tick gives those that leave the queue to the slots
that get free first. -/
theorem ahead_tick (hn : 0 < n) {e : Engine n} (hb : Balanced e) (hcoh : Coherent L cfg e)
    (hcalled : Called e) (env : Engine.Env) :
    ∃ taken, e.pending = taken ++ (e.tick L cfg env).pending ∧
      ((e.tick L cfg env).pending ≠ [] → Ahead ((e.tick L cfg env).loads L cfg)
        (schedule (e.loads L cfg) (taken.map (plannedOf L cfg)))) := by
  rcases e.tick_cases L cfg env with ⟨hbd, p, hp, he⟩ | ⟨hp, he⟩ | ⟨toAdmit, hp, he⟩ |
    ⟨now, hp, he⟩ | ⟨call, hp, he⟩
  · rw [he]
    refine ⟨[], rfl, fun _ => ?_⟩
    rw [loads_moved hbd hp]
    exact .refl _
  · rw [he]
    refine ⟨e.pending.take e.slots.free_count.toNat, (List.take_append_drop _ _).symm, ?_⟩
    intro hleft
    rw [loads_drain hn hcoh hb hp hleft]
    exact .refl _
  · rw [he]
    refine ⟨[], (pending_of_shared (shared_admission L env.now toAdmit e)).symm, fun _ => ?_⟩
    exact (loads_admission hn hb hp env.now).1
  · have hshared := pending_of_shared (shared_collect e)
    rw [he]
    refine ⟨[], hshared.symm, fun _ => ?_⟩
    rcases e.collect_cases with ⟨_, hc⟩ | ⟨hne, h0, _⟩ | ⟨_, _, hc⟩
    · rw [hc]
      exact loads_skipped hp
    · exact absurd h0 (tokens_pos (hcoh.at_collect hp) hne)
    · rw [hc, loads_calling hp]
      exact .refl _
  · have hshared := pending_of_shared (shared_decoded L cfg e call env.decode)
    rw [he]
    exact ⟨[], hshared.symm, fun _ => (loads_decoded hcoh hcalled hp env.decode).1⟩

/-! ## The slots during a tick -/

/-- After the admit loop, a slot is as it was or holds a request that was
drained, with all its calls in front of it. -/
theorem admission_left (l : List Request) (e : Engine n) (hacc : Accounts e l)
    (hroom : (l.length : Int) ≤ e.slots.free_count) (sid : Fin n)
    (hocc : (l.foldl (Engine.admitOne L) e).occupied sid = true) :
    (l.foldl (Engine.admitOne L) e).view sid = e.view sid ∨
      ∃ r ∈ l, (l.foldl (Engine.admitOne L) e).request sid = r ∧
        ((l.foldl (Engine.admitOne L) e).view sid).decodesLeft L cfg = plannedOf L cfg r := by
  induction l generalizing e with
  | nil => exact Or.inl rfl
  | cons r l ih =>
    obtain ⟨i, _, hnew⟩ := admitOne_view (L := L) e r hacc hroom
    obtain ⟨hacc', hroom'⟩ := accounts_admitOne L e r l hacc hroom
    rcases ih _ hacc' hroom' hocc with hsame | ⟨r', hr', hreq, hleft⟩
    · have hview : (e.admitOne L r).view sid = e.view sid ∨
          (e.admitOne L r).view sid = admittedView L (seatedView (e.view i) r) := by
        rw [hnew, Function.update_apply]
        split
        · exact Or.inr rfl
        · exact Or.inl rfl
      rw [view_occupied] at hocc
      rw [view_request]
      rw [List.foldl_cons] at hocc ⊢
      rw [hsame] at hocc ⊢
      rcases hview with hv | hv
      · exact Or.inl hv
      · right
        rw [hv] at hocc ⊢
        by_cases hprompt : promptOf L r.payload = []
        · have hfree : (admittedView L (seatedView (e.view i) r)).slot = {} := by
            unfold admittedView
            exact congrArg SlotView.slot (if_pos ((promptOf_eq_nil L _).mp hprompt))
          rw [hfree] at hocc
          cases hocc
        · obtain ⟨hleft, hslot⟩ := decodesLeft_admitted (v := e.view i) r hprompt
          refine ⟨r, by simp, ?_, hleft⟩
          rw [hslot]
          rfl
    · exact Or.inr ⟨r', List.mem_cons_of_mem r hr', hreq, hleft⟩

theorem tookView_request (v : SlotView) (tok : Token) :
    (tookView L v tok).slot.request = v.slot.request := by
  unfold tookView
  simp only
  split <;> rfl

/-- A slot that stays occupied through its sample holds the same request. -/
theorem sampleView_request {v : SlotView} {tok : Token}
    (h : (sampleView L cfg tok v).slot.occupied = true) (hocc : v.slot.occupied = true) :
    (sampleView L cfg tok v).slot.request = v.slot.request := by
  have hcases : sampleView L cfg tok v = (tookView L v tok).retired ∨
      sampleView L cfg tok v = tookView L v tok := by
    unfold sampleView
    simp only [hocc, Bool.not_true, Bool.false_eq_true, if_false]
    exact (ite_eq_or_eq _ _ _)
  rcases hcases with hretired | htook
  · rw [hretired] at h
    cases h
  · rw [htook]
    exact tookView_request v tok

/-- A slot that is occupied after a decode had the same request before, and
took one call. -/
theorem decoded_left {e : Engine n} {call : DecodeCall n} (hcoh : Coherent L cfg e)
    (hp : e.place = .decode call) {o : DecodeOutcome} {sid : Fin n}
    (hocc : (e.decoded L cfg call o).occupied sid = true) :
    e.occupied sid = true ∧ (e.decoded L cfg call o).request sid = e.request sid ∧
      ((e.decoded L cfg call o).view sid).decodesLeft L cfg + 1 =
        (e.view sid).decodesLeft L cfg := by
  obtain ⟨hview, hcall⟩ := hcoh.at_decode hp
  cases o with
  | failed cached =>
    rw [view_occupied, (idle_failed hview hcall cached sid).free] at hocc
    cases hocc
  | ok =>
    have hleft := (decodesLeft_decoded hcoh hp sid).1
    rw [view_occupied] at hocc
    rw [view_request, hleft]
    rw [view_decoded L cfg hcall] at hocc ⊢
    split at hocc
    · rename_i hm
      have hold := (hcall.active sid).mp hm
      have hreq := sampleView_request hocc hold
      have hpos := decodesLeft_pos (hcoh.running hold)
      rw [if_pos hm]
      exact ⟨hold, hreq, by omega⟩
    · rename_i hm
      exact absurd ((hcall.active sid).mpr hocc) hm

/-- Where a slot stands in the plan: a slot that is occupied after a tick holds
what it held and is free when it was to be, or it starts a drained request. -/
theorem tick_freeAt {e : Engine n} (hb : Balanced e) (hcoh : Coherent L cfg e)
    (hcalled : Called e) (env : Engine.Env) {sid : Fin n}
    (hocc : (e.tick L cfg env).occupied sid = true) :
    (e.occupied sid = true ∧ (e.tick L cfg env).request sid = e.request sid ∧
      (e.tick L cfg env).freeAt L cfg sid = e.freeAt L cfg sid) ∨
    ∃ r ∈ e.place.drained, (e.tick L cfg env).request sid = r ∧
      (e.tick L cfg env).freeAt L cfg sid = e.returned + plannedOf L cfg r := by
  rcases e.tick_cases L cfg env with ⟨hbd, p, hp, he⟩ | ⟨hp, he⟩ | ⟨toAdmit, hp, he⟩ |
    ⟨now, hp, he⟩ | ⟨call, hp, he⟩
  · rw [he] at hocc ⊢
    refine Or.inl ⟨hocc, rfl, ?_⟩
    unfold Engine.freeAt
    rw [returned_moved hbd hp]
    rfl
  · have hret : e.returned = e.calls := by
      apply returned_open
      rw [hp]
      rfl
    rw [he] at hocc ⊢
    refine Or.inl ⟨hocc, rfl, ?_⟩
    unfold Engine.freeAt
    rw [hret]
    rfl
  · have hacc := hb.accounts
    have hroom := hb.room
    have hview : (e.tick L cfg env).view sid = (toAdmit.foldl (Engine.admitOne L) e).view sid := by
      have hexp := view_retireExpired env.now (toAdmit.foldl (Engine.admitOne L) e) sid
      rw [he] at hocc ⊢
      change ((toAdmit.foldl (Engine.admitOne L) e).retireExpired env.now).occupied sid =
        true at hocc
      change ((toAdmit.foldl (Engine.admitOne L) e).retireExpired env.now).view sid = _
      rw [view_occupied, hexp] at hocc
      rw [hexp]
      unfold expiredView at hocc ⊢
      split at hocc
      · cases hocc
      · rename_i hgo
        rw [if_neg hgo]
    have hret : (e.tick L cfg env).returned = e.returned := by
      rw [he]
      exact returned_admission hp env.now
    rw [view_occupied, hview] at hocc
    rw [hp] at hacc hroom ⊢
    unfold Engine.freeAt
    rw [hret, view_request, hview]
    rcases admission_left toAdmit e hacc hroom sid hocc with
      hsame | ⟨r, hr, hholds, hcost⟩
    · rw [hsame] at hocc ⊢
      exact Or.inl ⟨hocc, rfl, rfl⟩
    · exact Or.inr ⟨r, hr, hholds, by rw [hcost]⟩
  · rcases e.collect_cases with ⟨_, hc⟩ | ⟨hne, h0, _⟩ | ⟨_, _, hc⟩
    · rw [he, hc] at hocc ⊢
      refine Or.inl ⟨hocc, rfl, ?_⟩
      unfold Engine.freeAt
      rw [returned_skipped hp]
      rfl
    · exact absurd h0 (tokens_pos (hcoh.at_collect hp) hne)
    · rw [he, hc] at hocc ⊢
      refine Or.inl ⟨(calling_occupied e sid).symm.trans hocc, ?_, ?_⟩
      · exact (sameHolders_build e).request sid
      · unfold Engine.freeAt
        rw [returned_calling hp, decodesLeft_calling]
  · rw [he] at hocc ⊢
    obtain ⟨hold, hreq, hleft⟩ := decoded_left hcoh hp hocc
    refine Or.inl ⟨hold, hreq, ?_⟩
    have hret : (e.decoded L cfg call env.decode).returned = e.returned + 1 :=
      returned_decoded hcalled hp env.decode
    unfold Engine.freeAt
    omega

/-- Only a drain leaves drained requests behind, and no call returns in it. -/
theorem tick_drained {e : Engine n} (env : Engine.Env) {r : Request}
    (hr : r ∈ (e.tick L cfg env).place.drained) :
    e.place = .drain ∧ r ∈ e.pending.take e.slots.free_count.toNat ∧
      (e.tick L cfg env).returned = e.returned := by
  rcases e.tick_cases L cfg env with ⟨hbd, p, hp, he⟩ | ⟨hp, he⟩ | ⟨toAdmit, hp, he⟩ |
    ⟨now, hp, he⟩ | ⟨call, hp, he⟩
  · rw [he, movesTo_drained hp] at hr
    cases hr
  · have hret : e.returned = e.calls := by
      apply returned_open
      rw [hp]
      rfl
    rw [he] at hr ⊢
    exact ⟨hp, hr, hret.symm⟩
  · rw [he] at hr
    cases hr
  · rw [he, collect_drained] at hr
    cases hr
  · rw [he, decoded_drained] at hr
    cases hr

/-! ## On track -/

/-- The request with the promise `t` is due by the `due`-th return of a call,
wherever it is. -/
structure OnTrack (L : Llama) (cfg : EngineConfig) (t due : Nat) (e : Engine n) : Prop where
  waits : ∀ before r after, e.pending = before ++ r :: after → r.on_complete = some t →
    finish (e.loads L cfg) (before.map (plannedOf L cfg)) (plannedOf L cfg r) ≤ due
  drained : ∀ r ∈ e.place.drained, r.on_complete = some t →
    e.returned + plannedOf L cfg r ≤ due
  seated : ∀ sid, e.occupied sid = true → (e.request sid).on_complete = some t →
    e.freeAt L cfg sid ≤ due

/-- A request that leaves the queue starts at once. -/
theorem onTrack_taken (hn : 0 < n) {e : Engine n} {t due : Nat} (h : OnTrack L cfg t due e)
    {r : Request} (hr : r ∈ e.pending) (ht : r.on_complete = some t) :
    e.returned + plannedOf L cfg r ≤ due := by
  obtain ⟨before, after, hsplit⟩ := List.append_of_mem hr
  have hfinish := h.waits before r after hsplit ht
  have hne : e.loads L cfg ≠ [] := loads_ne_nil hn e
  have hsoon := (ahead_schedule hne (before.map (plannedOf L cfg))).le_of_le missed_le_loads _
    (soonest_spec (schedule_ne_nil hne _)).1
  have hle := returned_le_missed e
  unfold finish at hfinish
  omega

theorem onTrack_tick (hn : 0 < n) {e : Engine n} {t due : Nat} (hb : Balanced e)
    (hcoh : Coherent L cfg e) (hcalled : Called e) (h : OnTrack L cfg t due e)
    (env : Engine.Env) : OnTrack L cfg t due (e.tick L cfg env) := by
  refine ⟨?_, ?_, ?_⟩
  · intro before r after hsplit ht
    obtain ⟨taken, hpending, hahead⟩ := ahead_tick hn hb hcoh hcalled env
    have hold : e.pending = (taken ++ before) ++ r :: after := by
      rw [hpending, hsplit, List.append_assoc]
    have hdue := h.waits (taken ++ before) r after hold ht
    rw [List.map_append, finish_append] at hdue
    have hle := (hahead (by simp [hsplit])).finish (loads_ne_nil hn _)
      (schedule_ne_nil (loads_ne_nil hn e) _) (before.map (plannedOf L cfg)) (plannedOf L cfg r)
    exact hle.trans hdue
  · intro r hr ht
    obtain ⟨_, htaken, hret⟩ := tick_drained env hr
    rw [hret]
    exact onTrack_taken hn h (List.mem_of_mem_take htaken) ht
  · intro sid hocc ht
    rcases tick_freeAt hb hcoh hcalled env hocc with ⟨hold, hreq, hfree⟩ | ⟨r, hr, hreq, hfree⟩
    · rw [hfree]
      exact h.seated sid hold (hreq ▸ ht)
    · rw [hfree]
      exact h.drained r hr (hreq ▸ ht)

/-- A request that comes later stands behind the one with the promise `t`. -/
theorem split_before_new {e : Engine n} {t : Nat} (ht : t < e.enqueued.length) {req : Request}
    {before after : List Request} {r : Request}
    (hsplit : e.pending ++ [{ req with on_complete := some e.enqueued.length }] =
      before ++ r :: after) (hr : r.on_complete = some t) :
    ∃ rest, e.pending = before ++ r :: rest := by
  rcases List.eq_nil_or_concat after with rfl | ⟨rest, last, rfl⟩
  · obtain ⟨_, hlast⟩ := List.append_inj' hsplit rfl
    cases hlast
    cases hr
    exact absurd ht (Nat.lt_irrefl _)
  · rw [List.concat_eq_append, ← List.cons_append, ← List.append_assoc] at hsplit
    exact ⟨rest, (List.append_inj' hsplit rfl).1⟩

theorem onTrack_step (hn : 0 < n) {e : Engine n} {t due : Nat} (hb : Balanced e)
    (hcoh : Coherent L cfg e) (hcalled : Called e) (ht : t < e.enqueued.length)
    (h : OnTrack L cfg t due e) (a : Engine.Action) : OnTrack L cfg t due (e.step L cfg a) := by
  cases a with
  | tick env => exact onTrack_tick hn hb hcoh hcalled h env
  | shutdown => exact ⟨h.waits, h.drained, h.seated⟩
  | enqueue req =>
    refine ⟨?_, h.drained, h.seated⟩
    intro before r after hsplit hr
    obtain ⟨rest, hold⟩ := split_before_new ht hsplit hr
    exact h.waits before r rest hold hr

/-! ## From a request in the queue to its answer -/

/-- A promise is in the queue at most once. -/
theorem same_before {before before' after after' : List Request} {r r' : Request} {t : Nat}
    (hone : inQueue (before ++ r :: after) t ≤ 1) (hr : r.on_complete = some t)
    (hr' : r'.on_complete = some t) (h : before ++ r :: after = before' ++ r' :: after') :
    before = before' ∧ r = r' := by
  have hpos : ∀ {q : Request} {l : List Request}, q ∈ l → q.on_complete = some t →
      0 < inQueue l t := fun hq hqt => inQueue_pos_iff.mpr ⟨_, hq, hqt⟩
  rcases List.append_eq_append_iff.mp h with ⟨mid, hb, ha⟩ | ⟨mid, hb, ha⟩
  · cases mid with
    | nil =>
      obtain ⟨hreq, _⟩ := List.cons.inj ha
      exact ⟨by simpa using hb.symm, hreq⟩
    | cons q mid =>
      obtain ⟨rfl, hafter⟩ := List.cons.inj ha
      have hmem : r' ∈ after := by
        rw [hafter]
        simp
      have hlater := hpos hmem hr'
      rw [inQueue_append, inQueue_cons, if_pos hr] at hone
      omega
  · cases mid with
    | nil =>
      obtain ⟨hreq, _⟩ := List.cons.inj ha
      exact ⟨by simpa using hb, hreq.symm⟩
    | cons q mid =>
      obtain ⟨rfl, _⟩ := List.cons.inj ha
      have hmem : r' ∈ before := by
        rw [hb]
        simp
      have hearlier := hpos hmem hr'
      rw [inQueue_append, inQueue_cons, if_pos hr] at hone
      omega

/-- Where a request can be while it waits in the queue: nowhere else. -/
theorem only_waiting {e : Engine n} (hb : Balanced e) {r : Request} {t : Nat}
    (hr : r ∈ e.pending) (ht : r.on_complete = some t) :
    inQueue e.pending t = 1 ∧ inQueue e.place.drained t = 0 ∧ e.slots.inSlots t = 0 ∧
      e.answered t = 0 := by
  have hpos : 0 < inQueue e.pending t := inQueue_pos_iff.mpr ⟨r, hr, ht⟩
  have hledger := hb.accounts.ledger t
  split at hledger <;> omega

theorem onTrack_start {e : Engine n} (hb : Balanced e) {before after : List Request} {r : Request}
    {t : Nat} (hsplit : e.pending = before ++ r :: after) (ht : r.on_complete = some t) :
    OnTrack L cfg t
      (finish (e.loads L cfg) (before.map (plannedOf L cfg)) (plannedOf L cfg r)) e := by
  have hmem : r ∈ e.pending := by
    rw [hsplit]
    simp
  obtain ⟨hone, hdrained, hslots, _⟩ := only_waiting hb hmem ht
  refine ⟨?_, ?_, ?_⟩
  · intro before' r' after' hsplit' ht'
    rw [hsplit] at hone hsplit'
    obtain ⟨rfl, rfl⟩ := same_before hone.le ht ht' hsplit'
    exact Nat.le_refl _
  · intro q hq hqt
    have hpos := inQueue_pos_iff.mpr ⟨q, hq, hqt⟩
    omega
  · intro sid hocc hholds
    have hpos : 0 < e.slots.inSlots t := inSlots_pos_iff.mpr ⟨sid, hocc, hholds⟩
    omega

/-- A request on track that is not answered is not due yet. -/
theorem onTrack_due (hn : 0 < n) {e : Engine n} {t due : Nat} (hb : Balanced e)
    (hcoh : Coherent L cfg e) (ht : t < e.enqueued.length) (h : OnTrack L cfg t due e)
    (hopen : e.answered t = 0) : e.returned < due := by
  have hledger := hb.accounts.ledger t
  rw [if_pos ht, hopen] at hledger
  rcases Nat.eq_zero_or_pos (inQueue e.pending t) with hq | hq
  · rcases Nat.eq_zero_or_pos (inQueue e.place.drained t) with hd | hd
    · obtain ⟨sid, hocc, hholds⟩ :=
        inSlots_pos_iff.mp (show 0 < e.slots.inSlots t by omega)
      have hdue := h.seated sid hocc hholds
      have hpos := decodesLeft_pos (hcoh.running hocc)
      unfold Engine.freeAt at hdue
      omega
    · obtain ⟨r, hr, hrt⟩ := inQueue_pos_iff.mp hd
      have hdue := h.drained r hr hrt
      have hpos := plannedOf_pos L cfg r
      omega
  · obtain ⟨r, hr, hrt⟩ := inQueue_pos_iff.mp hq
    have hdue := onTrack_taken hn h hr hrt
    have hpos := plannedOf_pos L cfg r
    omega

/-- What the steps use of a run. -/
theorem lawful_run (L : Llama) (cfg : EngineConfig) (as : List Engine.Action) :
    Balanced ((engine L cfg).run as) ∧ Coherent L cfg ((engine L cfg).run as) ∧
      Called ((engine L cfg).run as) :=
  ⟨balanced_run L cfg as, coherent_run L cfg as, called_run L cfg as⟩

theorem promise_lt {e : Engine n} (hb : Balanced e) {r : Request} {t : Nat}
    (hr : r ∈ e.pending) (ht : r.on_complete = some t) : t < e.enqueued.length := by
  obtain ⟨t', ht', hknown⟩ := hb.accounts.known r (List.mem_append_left _ hr)
  rw [ht] at ht'
  cases ht'
  exact known_lt hknown

theorem enqueued_grows {e : Engine n} {t : Nat} (ht : t < e.enqueued.length)
    (a : Engine.Action) : t < (e.step L cfg a).enqueued.length := by
  cases a with
  | enqueue req =>
    change t < (e.enqueued ++ _).length
    rw [List.length_append]
    omega
  | shutdown => exact ht
  | tick env =>
    change t < (e.tick L cfg env).enqueued.length
    rwa [tick_enqueued]

/-- From a request in the queue on, every run keeps it on track. -/
theorem onTrack_run (L : Llama) (cfg : EngineConfig) (hslots : 0 < cfg.max_slots)
    (as bs : List Engine.Action) {before after : List Request} {r : Request} {t : Nat}
    (hpending : ((engine L cfg).run as).pending = before ++ r :: after)
    (ht : r.on_complete = some t) :
    t < ((engine L cfg).run (as ++ bs)).enqueued.length ∧
      OnTrack L cfg t (finish (((engine L cfg).run as).loads L cfg) (before.map (plannedOf L cfg))
        (plannedOf L cfg r)) ((engine L cfg).run (as ++ bs)) := by
  have hmem : r ∈ ((engine L cfg).run as).pending := by
    rw [hpending]
    simp
  apply invariant_after (engine L cfg) (fun _ _ => True)
    (fun e => Balanced e ∧ Coherent L cfg e ∧ Called e)
    (fun e => t < e.enqueued.length ∧ OnTrack L cfg t _ e) (lawful_run L cfg) ?_ as bs
    ⟨promise_lt (balanced_run L cfg as) hmem ht, onTrack_start (balanced_run L cfg as) hpending ht⟩
    (meets_true _ _ _)
  rintro e a ⟨hb, hcoh, hcalled⟩ - ⟨hlt, htrack⟩
  exact ⟨enqueued_grows hlt a, onTrack_step hslots hb hcoh hcalled hlt htrack a⟩

theorem returned_lt_finish (L : Llama) (cfg : EngineConfig) (hslots : 0 < cfg.max_slots)
    (as bs : List Engine.Action) {before after : List Request} {r : Request} {t : Nat}
    (hpending : ((engine L cfg).run as).pending = before ++ r :: after)
    (ht : r.on_complete = some t) (hopen : ((engine L cfg).run (as ++ bs)).answered t = 0) :
    ((engine L cfg).run (as ++ bs)).returned <
      finish (((engine L cfg).run as).loads L cfg) (before.map (plannedOf L cfg))
        (plannedOf L cfg r) := by
  obtain ⟨hlt, htrack⟩ := onTrack_run L cfg hslots as bs hpending ht
  exact onTrack_due hslots (balanced_run L cfg _) (coherent_run L cfg _) hlt htrack hopen

/-- A request that waits in the queue, at any moment of any run: plan the slots
as they are and the requests before it, each on the slot that gets free first,
and then the request itself. As long as it is not answered, fewer calls of
`llama_decode` have returned than that plan needs, whatever fails, expires or
is enqueued in the meantime. -/
theorem the_engine_never_falls_behind_the_plan (L : Llama) (cfg : EngineConfig)
    (hslots : 0 < cfg.max_slots) (as bs : List Engine.Action) (before : List Request)
    (r : Request) (after : List Request) (t : Nat)
    (hpending : ((engine L cfg).run as).pending = before ++ r :: after)
    (ht : r.on_complete = some t) (hopen : ((engine L cfg).run (as ++ bs)).answered t = 0) :
    ((engine L cfg).run (as ++ bs)).returned <
      finish (((engine L cfg).run as).loads L cfg) (before.map (plannedOf L cfg))
        (plannedOf L cfg r) :=
  returned_lt_finish L cfg hslots as bs hpending ht hopen

/-- Requests of 3, 1 and 2 tokens for two slots. -/
def unevenWork (k : Int) : Request :=
  { helloRequest with payload := bytes "<|im_start|>", max_new_tokens := k }

def unevenRun : List Engine.Action :=
  [.enqueue (unevenWork 3), .enqueue (unevenWork 1), .enqueue (unevenWork 2)]

def unevenConfig : EngineConfig := { max_slots := 2 }

set_option maxRecDepth 20000 in
/-- After two calls, and in the third one, the last request is not answered. -/
theorem the_engine_never_falls_behind_the_plan_uneven :
    ((engine countingLlama unevenConfig).run
      (unevenRun ++ List.replicate 15 (.tick ⟨0, .ok⟩))).returned <
      finish (((engine countingLlama unevenConfig).run unevenRun).loads countingLlama unevenConfig)
        [3, 1] 2 :=
  the_engine_never_falls_behind_the_plan countingLlama unevenConfig (by decide) unevenRun
    (List.replicate 15 (.tick ⟨0, .ok⟩))
    [{ unevenWork 3 with on_complete := some 0 }, { unevenWork 1 with on_complete := some 1 }]
    { unevenWork 2 with on_complete := some 2 } [] 2 (by decide +kernel) rfl (by decide +kernel)

end inference_server
