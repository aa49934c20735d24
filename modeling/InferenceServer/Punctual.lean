-- When nothing goes wrong, the plan is exact. A request is answered with the
-- very call of `llama_decode` at which list scheduling ends it, neither later
-- nor earlier.
import InferenceServer.Throughput

namespace inference_server

open machine generation list_scheduling

variable {n : Nat} {L : Llama} {cfg : EngineConfig}

/-! ## A tick on which nothing goes wrong -/

/-- The decode succeeds, and no request is late or without a prompt. -/
def Untroubled (L : Llama) (e : Engine n) : Engine.Action → Prop
  | .tick env => env.decode = .ok ∧
      ∀ r ∈ e.enqueued, promptOf L r.payload ≠ [] ∧ env.now ≤ r.dueTime
  | .enqueue _ | .shutdown => True

instance (e : Engine n) (a : Engine.Action) : Decidable (Untroubled L e a) :=
  match a with
  | .tick env => inferInstanceAs (Decidable (env.decode = .ok ∧
      ∀ r ∈ e.enqueued, promptOf L r.payload ≠ [] ∧ env.now ≤ r.dueTime))
  | .enqueue _ | .shutdown => isTrue trivial

/-- When each slot is free, with the drained requests in their slots. -/
def Engine.planned (L : Llama) (cfg : EngineConfig) (e : Engine n) : List Nat :=
  schedule (slotLoads L cfg e.returned e.view) (e.place.drained.map (plannedOf L cfg))

/-- No slot is left out of the batch that is closed. -/
def Engine.Full (L : Llama) (cfg : EngineConfig) (e : Engine n) : Prop :=
  e.place.closed = true → ∀ x ∈ e.planned L cfg, e.returned < x

theorem known_mem {e : Engine n} {r : Request} (h : e.Known r) : r ∈ e.enqueued := by
  obtain ⟨t, _, hr⟩ := h
  exact List.mem_of_getElem? hr

section untroubled

variable {e : Engine n} {env : Engine.Env}

/-- After the admit loop no request is late. -/
theorem admission_untroubled (hu : Untroubled L e (.tick env)) (hb : Balanced e) {l : List Request}
    (hp : e.place = .admission l) :
    (∀ r ∈ l, promptOf L r.payload ≠ []) ∧
    ∀ sid, (l.foldl (Engine.admitOne L) e).occupied sid = true →
      env.now ≤ ((l.foldl (Engine.admitOne L) e).request sid).dueTime := by
  have hacc := hb.accounts
  have hroom := hb.room
  rw [hp] at hacc hroom
  refine ⟨?_, ?_⟩
  · intro r hr
    exact (hu.2 r (known_mem (hacc.known r (List.mem_append_right _ hr)))).1
  · intro sid hocc
    have hmem := known_mem ((accounts_admission L l e hacc hroom).known_slots sid hocc)
    have hsame : (l.foldl (Engine.admitOne L) e).enqueued = e.enqueued :=
      enqueued_of_shared (loop_same Engine.shared _ (shared_admitOne L) l e)
    rw [hsame] at hmem
    exact (hu.2 _ hmem).2

theorem admission_full (hn : 0 < n) (hb : Balanced e) {l : List Request}
    (hp : e.place = .admission l) (hfull : e.Full L cfg)
    (hprompts : ∀ r ∈ l, promptOf L r.payload ≠ [])
    (hlate : ∀ sid, (l.foldl (Engine.admitOne L) e).occupied sid = true →
      env.now ≤ ((l.foldl (Engine.admitOne L) e).request sid).dueTime) :
    Engine.Full L cfg { (l.foldl (Engine.admitOne L) e).retireExpired env.now with
      place := .collect env.now } := by
  have hacc := hb.accounts
  have hroom := hb.room
  have hclosed : e.place.closed = true := by
    rw [hp]
    rfl
  have hold := hfull hclosed
  unfold Engine.planned at hold
  rw [hp] at hacc hroom hold
  have hback : Ahead (schedule (slotLoads L cfg e.returned e.view) (l.map (plannedOf L cfg)))
      (slotLoads L cfg e.returned (l.foldl (Engine.admitOne L) e).view) :=
    (slotLoads_admission hn l e hacc hroom).2 hprompts
  rw [← view_not_late hlate] at hback
  intro _
  rw [returned_admission hp env.now]
  unfold Engine.planned
  rw [returned_admission hp env.now]
  exact hback.le_of_le (t := e.returned + 1) hold

theorem active_of_full (hn : 0 < n) {now : Int} (hp : e.place = .collect now)
    (hfull : e.Full L cfg) : e.active ≠ [] := by
  intro hnil
  have hfree : e.occupied ⟨0, hn⟩ = false := by
    have hmem := mem_active e ⟨0, hn⟩
    rw [hnil] at hmem
    simpa using hmem
  have hload : e.returned ∈ e.planned L cfg := by
    unfold Engine.planned
    rw [hp]
    exact List.mem_map.mpr ⟨⟨0, hn⟩, List.mem_finRange _, by rw [decodesLeft_free hfree]; rfl⟩
  have hclosed : e.place.closed = true := by
    rw [hp]
    rfl
  exact absurd (hfull hclosed _ hload) (Nat.lt_irrefl _)

theorem planned_calling {now : Int} (hp : e.place = .collect now) :
    e.calling.planned L cfg = e.planned L cfg := by
  unfold Engine.planned slotLoads
  simp only [decodesLeft_calling, returned_calling hp]
  rw [hp]
  rfl

/-- The other direction of the plan: while requests wait, a tick on which
nothing goes wrong is not ahead of it either. -/
theorem behind_tick (hn : 0 < n) (hb : Balanced e) (hcoh : Coherent L cfg e)
    (hcalled : Called e) (hu : Untroubled L e (.tick env)) :
    ∃ taken, e.pending = taken ++ (e.tick L cfg env).pending ∧
      ((e.tick L cfg env).pending ≠ [] → e.Full L cfg → (e.tick L cfg env).Full L cfg ∧
        Ahead (schedule (e.loads L cfg) (taken.map (plannedOf L cfg)))
          ((e.tick L cfg env).loads L cfg)) := by
  rcases e.tick_cases L cfg env with ⟨hbd, p, hp, he⟩ | ⟨hp, he⟩ | ⟨toAdmit, hp, he⟩ |
    ⟨now, hp, he⟩ | ⟨call, hp, he⟩
  · rw [he]
    refine ⟨[], rfl, fun _ _ => ⟨?_, ?_⟩⟩
    · intro hclosed
      rw [movesTo_open hp] at hclosed
      cases hclosed
    · rw [loads_moved hbd hp]
      exact .refl _
  · rw [he]
    refine ⟨e.pending.take e.slots.free_count.toNat, (List.take_append_drop _ _).symm, ?_⟩
    intro hleft _
    refine ⟨fun _ => drain_full hn hcoh hb hleft, ?_⟩
    rw [loads_drain hn hcoh hb hp hleft]
    exact .refl _
  · obtain ⟨hprompts, hlate⟩ := admission_untroubled hu hb hp
    rw [he]
    refine ⟨[], (pending_of_shared (shared_admission L env.now toAdmit e)).symm, ?_⟩
    intro _ hfull
    refine ⟨?_, ?_⟩
    · exact admission_full hn hb hp hfull hprompts hlate
    · exact (loads_admission hn hb hp env.now).2 hprompts hlate
  · have hshared := pending_of_shared (shared_collect e)
    rw [he]
    refine ⟨[], hshared.symm, fun _ hfull => ?_⟩
    rcases e.collect_cases with ⟨hnil, hc⟩ | ⟨hne, h0, _⟩ | ⟨_, _, hc⟩
    · -- a slot that holds nothing would have been left out
      exact absurd hnil (active_of_full hn hp hfull)
    · exact absurd h0 (tokens_pos (hcoh.at_collect hp) hne)
    · rw [hc, loads_calling hp]
      refine ⟨?_, .refl _⟩
      have hclosed : e.place.closed = true := by
        rw [hp]
        rfl
      have hplanned : e.calling.planned L cfg = e.planned L cfg := planned_calling hp
      intro _
      rw [hplanned, returned_calling hp]
      exact hfull hclosed
  · have hshared := pending_of_shared (shared_decoded L cfg e call env.decode)
    rw [he]
    refine ⟨[], hshared.symm, fun _ _ => ⟨?_, ?_⟩⟩
    · rw [hu.1]
      exact nofun
    · rw [(loads_decoded hcoh hcalled hp env.decode).2 hu.1]
      exact .refl _

/-! ## Nobody is answered before the plan says so -/

/-- The tick that admits answers nobody. -/
theorem admission_answered (hu : Untroubled L e (.tick env)) (hb : Balanced e) {l : List Request}
    (hp : e.place = .admission l) {t : Nat} (ht : t < e.enqueued.length)
    (hopen : e.answered t = 0) : (e.tick L cfg env).answered t = 0 := by
  obtain ⟨hprompts, hlate⟩ := admission_untroubled hu hb hp
  have hbooks := (balanced_tick L cfg e env hb).accounts.ledger t
  have hledger := hb.accounts.ledger t
  have hacc := hb.accounts
  have hroom := hb.room
  rw [tick_enqueued, if_pos ht] at hbooks
  rw [if_pos ht, hopen] at hledger
  rw [hp] at hacc hroom hledger
  have hpending : (e.tick L cfg env).pending = e.pending := by
    rw [Engine.tick_admission L cfg env hp]
    exact pending_of_shared (shared_admission L env.now l e)
  have hkept : ∀ sid, (l.foldl (Engine.admitOne L) e).occupied sid = true →
      (e.tick L cfg env).occupied sid = true ∧
        (e.tick L cfg env).request sid = (l.foldl (Engine.admitOne L) e).request sid := by
    intro sid hocc
    have hview : (e.tick L cfg env).view sid = (l.foldl (Engine.admitOne L) e).view sid := by
      rw [Engine.tick_admission L cfg env hp]
      exact congrFun (view_not_late hlate) sid
    rw [view_occupied, view_request, hview]
    exact ⟨hocc, rfl⟩
  have hseated : ∀ sid, (l.foldl (Engine.admitOne L) e).occupied sid = true →
      ((l.foldl (Engine.admitOne L) e).request sid).on_complete = some t →
      0 < (e.tick L cfg env).slots.inSlots t := by
    intro sid hocc hholds
    obtain ⟨hocc', hreq⟩ := hkept sid hocc
    exact inSlots_pos_iff.mpr ⟨sid, hocc', by rw [← hholds, ← hreq]; rfl⟩
  have hholders := admission_holders (L := L) l e hacc hroom
  have hsomewhere : 0 < inQueue e.pending t ∨ 0 < (e.tick L cfg env).slots.inSlots t := by
    rcases Nat.eq_zero_or_pos (e.slots.inSlots t) with hs | hs
    · rcases Nat.eq_zero_or_pos (inQueue l t) with hd | hd
      · left
        simp only [Place.drained] at hledger
        omega
      · obtain ⟨r, hr, hrt⟩ := inQueue_pos_iff.mp hd
        obtain ⟨sid, hocc, hholds⟩ := hholders.seated r hr (hprompts r hr)
        exact Or.inr (hseated sid hocc (hholds.symm ▸ hrt))
    · obtain ⟨sid, hocc, hholds⟩ := inSlots_pos_iff.mp hs
      obtain ⟨hocc', hreq⟩ := hholders.kept sid hocc
      exact Or.inr (hseated sid hocc' (by rw [hreq]; exact hholds))
  rw [hpending] at hbooks
  omega

theorem answered_collect (e : Engine n) (t : Nat) : e.collect.answered t = e.answered t := by
  rcases e.collect_cases with ⟨_, hc⟩ | ⟨_, _, hc⟩ | ⟨_, _, hc⟩
  · rw [hc]
    rfl
  · rw [hc]
    rfl
  · rw [hc]
    simp [Engine.calling, Engine.answered, List.countP_append, Event.answers]

/-- A decode answers the requests whose slots it frees. -/
theorem decoded_answered (hb : Balanced e) (hcoh : Coherent L cfg e) (hcalled : Called e)
    {call : DecodeCall n} (hp : e.place = .decode call) (hu : Untroubled L e (.tick env)) {t : Nat}
    (ht : t < e.enqueued.length) (hopen : e.answered t = 0)
    (hdone : 0 < (e.tick L cfg env).answered t) :
    ∃ sid, e.occupied sid = true ∧ (e.request sid).on_complete = some t ∧
      e.freeAt L cfg sid ≤ (e.tick L cfg env).returned := by
  have hbooks := (balanced_tick L cfg e env hb).accounts.ledger t
  have hledger := hb.accounts.ledger t
  rw [tick_enqueued, if_pos ht] at hbooks
  rw [if_pos ht, hopen, hp] at hledger
  have he : e.tick L cfg env = e.decoded L cfg call .ok := by
    rw [Engine.tick_decode L cfg env hp, hu.1]
  have hpending : (e.tick L cfg env).pending = e.pending := by
    rw [he]
    exact pending_of_shared (shared_decoded L cfg e call .ok)
  simp only [Place.drained, inQueue_nil] at hledger
  rw [hpending] at hbooks
  obtain ⟨sid, hocc, hholds⟩ := inSlots_pos_iff.mp (show 0 < e.slots.inSlots t by omega)
  refine ⟨sid, hocc, hholds, ?_⟩
  have hgone : (e.tick L cfg env).occupied sid = false := by
    by_contra hc
    rw [Bool.not_eq_false] at hc
    rcases tick_freeAt hb hcoh hcalled env hc with ⟨_, hreq, _⟩ | ⟨r, hr, _⟩
    · have hpos : 0 < (e.tick L cfg env).slots.inSlots t :=
        inSlots_pos_iff.mpr ⟨sid, hc, (congrArg Request.on_complete hreq).trans hholds⟩
      omega
    · rw [hp] at hr
      cases hr
  have hleft := (decodesLeft_decoded hcoh hp sid).1
  rw [← he, decodesLeft_free hgone] at hleft
  have hret : (e.decoded L cfg call .ok).returned = e.returned + 1 :=
    returned_decoded hcalled hp .ok
  rw [← he] at hret
  unfold Engine.freeAt
  omega

/-- A tick returns at most from one call, and never takes one back. -/
theorem returned_tick (hcoh : Coherent L cfg e) (hcalled : Called e) :
    e.returned ≤ (e.tick L cfg env).returned := by
  rcases e.tick_cases L cfg env with ⟨hbd, p, hp, he⟩ | ⟨hp, he⟩ | ⟨toAdmit, hp, he⟩ |
    ⟨now, hp, he⟩ | ⟨call, hp, he⟩
  · rw [he, returned_moved hbd hp]
  · have hret : e.returned = e.calls := by
      apply returned_open
      rw [hp]
      rfl
    rw [he, hret]
    exact Nat.le_refl _
  · rw [he, returned_admission hp env.now]
  · rcases e.collect_cases with ⟨_, hc⟩ | ⟨hne, h0, _⟩ | ⟨_, _, hc⟩
    · rw [he, hc, returned_skipped hp]
    · exact absurd h0 (tokens_pos (hcoh.at_collect hp) hne)
    · rw [he, hc, returned_calling hp]
  · rw [he, returned_decoded hcalled hp]
    exact Nat.le_succ _

/-- The request with the promise `t` is not due before the `due`-th return of
a call, wherever it is. -/
structure OnTime (L : Llama) (cfg : EngineConfig) (t due : Nat) (e : Engine n) : Prop where
  full : 0 < inQueue e.pending t → e.Full L cfg
  waits : ∀ before r after, e.pending = before ++ r :: after → r.on_complete = some t →
    due ≤ finish (e.loads L cfg) (before.map (plannedOf L cfg)) (plannedOf L cfg r)
  drained : ∀ r ∈ e.place.drained, r.on_complete = some t →
    due ≤ e.returned + plannedOf L cfg r
  seated : ∀ sid, e.occupied sid = true → (e.request sid).on_complete = some t →
    due ≤ e.freeAt L cfg sid
  done : 0 < e.answered t → due ≤ e.returned

variable {t due : Nat}

/-- A request that the drain takes starts with the next call. -/
theorem onTime_taken (hn : 0 < n) (hb : Balanced e) (hcoh : Coherent L cfg e)
    (hp : e.place = .drain) (h : OnTime L cfg t due e) {r : Request}
    (hr : r ∈ e.pending.take e.slots.free_count.toNat) (ht : r.on_complete = some t) :
    due ≤ e.returned + plannedOf L cfg r := by
  obtain ⟨before, after, hsplit⟩ := List.append_of_mem hr
  have hpending :
      e.pending = before ++ r :: (after ++ e.pending.drop e.slots.free_count.toNat) := by
    conv_lhs => rw [← List.take_append_drop e.slots.free_count.toNat e.pending, hsplit]
    simp
  have hcount : e.slots.free_count = e.slots.freeSlots := hb.accounts.counted
  have hlen := congrArg List.length hsplit
  rw [List.length_take, List.length_append, List.length_cons] at hlen
  have hloads : e.loads L cfg = slotLoads L cfg e.returned e.view := by
    apply loads_open
    · rw [hp]
      rfl
    · rw [hp]
      rfl
  have hdue := h.waits before r _ hpending ht
  rw [hloads] at hdue
  have hsoon : soonest (schedule (slotLoads L cfg e.returned e.view)
      (before.map (plannedOf L cfg))) = e.returned := by
    apply soonest_schedule (slotLoads_ne_nil hn _ _) le_slotLoads
    rw [freeBy_slotLoads hcoh, List.length_map]
    omega
  unfold finish at hdue
  rwa [hsoon] at hdue

theorem onTime_tick (hn : 0 < n) (hb : Balanced e) (hcoh : Coherent L cfg e)
    (hcalled : Called e) (hlt : t < e.enqueued.length) (h : OnTime L cfg t due e)
    (hu : Untroubled L e (.tick env)) : OnTime L cfg t due (e.tick L cfg env) := by
  obtain ⟨taken, hpending, hbehind⟩ := behind_tick hn hb hcoh hcalled hu
  have hwas : 0 < inQueue (e.tick L cfg env).pending t → 0 < inQueue e.pending t := by
    intro hpos
    rw [hpending, inQueue_append]
    omega
  have hnonempty : 0 < inQueue (e.tick L cfg env).pending t →
      (e.tick L cfg env).pending ≠ [] := by
    intro hpos hnil
    rw [hnil] at hpos
    exact absurd hpos (Nat.lt_irrefl 0)
  have hfull : 0 < inQueue (e.tick L cfg env).pending t → (e.tick L cfg env).Full L cfg :=
    fun hpos => (hbehind (hnonempty hpos) (h.full (hwas hpos))).1
  have hwaits : ∀ before r after, (e.tick L cfg env).pending = before ++ r :: after →
      r.on_complete = some t → due ≤ finish ((e.tick L cfg env).loads L cfg)
        (before.map (plannedOf L cfg)) (plannedOf L cfg r) := by
    intro before r after hsplit ht
    have hpos : 0 < inQueue (e.tick L cfg env).pending t := by
      apply inQueue_pos_iff.mpr
      rw [hsplit]
      exact ⟨r, by simp, ht⟩
    have hold : e.pending = (taken ++ before) ++ r :: after := by
      rw [hpending, hsplit, List.append_assoc]
    have hdue := h.waits (taken ++ before) r after hold ht
    rw [List.map_append, finish_append] at hdue
    have hahead := (hbehind (hnonempty hpos) (h.full (hwas hpos))).2
    exact hdue.trans (hahead.finish (schedule_ne_nil (loads_ne_nil hn e) _) (loads_ne_nil hn _) _ _)
  refine ⟨hfull, hwaits, ?_, ?_, ?_⟩
  · intro r hr ht
    obtain ⟨hp, htaken, hret⟩ := tick_drained env hr
    rw [hret]
    exact onTime_taken hn hb hcoh hp h htaken ht
  · intro sid hocc ht
    rcases tick_freeAt hb hcoh hcalled env hocc with ⟨hold, hreq, hfree⟩ | ⟨r, hr, hreq, hfree⟩
    · rw [hfree]
      exact h.seated sid hold (hreq ▸ ht)
    · rw [hfree]
      exact h.drained r hr (hreq ▸ ht)
  · intro hdone
    have hle : e.returned ≤ (e.tick L cfg env).returned := returned_tick hcoh hcalled
    rcases Nat.eq_zero_or_pos (e.answered t) with hopen | hpos
    · rcases e.tick_cases L cfg env with ⟨_, p, _, he⟩ | ⟨_, he⟩ | ⟨toAdmit, hp, _⟩ |
        ⟨_, _, he⟩ | ⟨call, hp, _⟩
      · rw [he] at hdone
        exact absurd hopen hdone.ne'
      · rw [he] at hdone
        exact absurd hopen hdone.ne'
      · exact absurd (admission_answered hu hb hp hlt hopen) hdone.ne'
      · rw [he, answered_collect] at hdone
        exact absurd hopen hdone.ne'
      · obtain ⟨sid, hocc, hholds, hfree⟩ := decoded_answered hb hcoh hcalled hp hu hlt hopen hdone
        exact (h.seated sid hocc hholds).trans hfree
    · exact (h.done hpos).trans hle

/-- A request that comes later changes nothing for the one before. -/
theorem onTime_step (hn : 0 < n) (hb : Balanced e) (hcoh : Coherent L cfg e)
    (hcalled : Called e) (hlt : t < e.enqueued.length) (h : OnTime L cfg t due e)
    (a : Engine.Action) (hu : Untroubled L e a) : OnTime L cfg t due (e.step L cfg a) := by
  cases a with
  | tick env => exact onTime_tick hn hb hcoh hcalled hlt h hu
  | shutdown => exact ⟨h.full, h.waits, h.drained, h.seated, h.done⟩
  | enqueue req =>
    refine ⟨?_, ?_, h.drained, h.seated, h.done⟩
    · intro hpos
      apply h.full
      change 0 < inQueue (e.pending ++ [_]) t at hpos
      rw [inQueue_append, inQueue_cons, inQueue_nil] at hpos
      split at hpos
      · rename_i hnew
        cases hnew
        exact absurd hlt (Nat.lt_irrefl _)
      · exact hpos
    · intro before r after hsplit hr
      obtain ⟨rest, hold⟩ := split_before_new hlt hsplit hr
      exact h.waits before r rest hold hr

theorem onTime_start (hb : Balanced e) (hboundary : e.place.boundary = true)
    {before after : List Request} {r : Request} (hsplit : e.pending = before ++ r :: after)
    (ht : r.on_complete = some t) : OnTime L cfg t
      (finish (e.loads L cfg) (before.map (plannedOf L cfg)) (plannedOf L cfg r)) e := by
  have hmem : r ∈ e.pending := by
    rw [hsplit]
    simp
  obtain ⟨hone, hdrained, hslots, hopen⟩ := only_waiting hb hmem ht
  refine ⟨?_, ?_, ?_, ?_, ?_⟩
  · intro _ hclosed
    rw [boundary_open hboundary] at hclosed
    cases hclosed
  · intro before' r' after' hsplit' ht'
    rw [hsplit] at hone hsplit'
    obtain ⟨rfl, rfl⟩ := same_before hone.le ht ht' hsplit'
    exact Nat.le_refl _
  · rw [boundary_drained hboundary]
    simp
  · intro sid hocc hholds
    have hpos : 0 < e.slots.inSlots t := inSlots_pos_iff.mpr ⟨sid, hocc, hholds⟩
    omega
  · intro hpos
    omega

end untroubled

/-! ## The law of list scheduling -/

/-- Between two iterations, with a request in the queue, and as long as no
decode fails and no request is late or refused by the tokenizer: the request
is answered if and only if as many calls of `llama_decode` have returned as
the plan needs, which gives each request in turn to the slot that gets free
first. What is enqueued later does not matter. -/
theorem an_untroubled_engine_is_the_list_scheduler (L : Llama) (cfg : EngineConfig)
    (hslots : 0 < cfg.max_slots) (as bs : List Engine.Action) (before : List Request)
    (r : Request) (after : List Request) (t : Nat)
    (hboundary : ((engine L cfg).run as).place.boundary = true)
    (hpending : ((engine L cfg).run as).pending = before ++ r :: after)
    (ht : r.on_complete = some t)
    (hbs : (engine L cfg).Meets (Untroubled L) ((engine L cfg).run as) bs) :
    0 < ((engine L cfg).run (as ++ bs)).answered t ↔
      finish (((engine L cfg).run as).loads L cfg) (before.map (plannedOf L cfg))
        (plannedOf L cfg r) ≤ ((engine L cfg).run (as ++ bs)).returned := by
  constructor
  · have hmem : r ∈ ((engine L cfg).run as).pending := by
      rw [hpending]
      simp
    have hstart : OnTime L cfg t (finish (((engine L cfg).run as).loads L cfg)
        (before.map (plannedOf L cfg)) (plannedOf L cfg r)) ((engine L cfg).run as) :=
      onTime_start (balanced_run L cfg as) hboundary hpending ht
    have hrun := invariant_after (engine L cfg) (Untroubled L)
      (fun e => Balanced e ∧ Coherent L cfg e ∧ Called e)
      (fun e => t < e.enqueued.length ∧ OnTime L cfg t _ e) (lawful_run L cfg) ?_ as bs
      ⟨promise_lt (balanced_run L cfg as) hmem ht, hstart⟩ hbs
    · exact hrun.2.done
    · rintro e a ⟨hb, hcoh, hcalled⟩ hu ⟨hlt, htime⟩
      exact ⟨enqueued_grows hlt a, onTime_step hslots hb hcoh hcalled hlt htime a hu⟩
  · intro hdue
    by_contra hopen
    have hkeeps := returned_lt_finish L cfg hslots as bs hpending ht (Nat.eq_zero_of_not_pos hopen)
    omega

set_option maxRecDepth 20000 in
/-- The third request is answered with the third call. -/
theorem an_untroubled_engine_is_the_list_scheduler_uneven :
    0 < ((engine countingLlama unevenConfig).run
      (unevenRun ++ List.replicate 16 (.tick ⟨0, .ok⟩))).answered 2 ↔
      finish (((engine countingLlama unevenConfig).run unevenRun).loads countingLlama unevenConfig)
        [3, 1] 2 ≤ ((engine countingLlama unevenConfig).run
          (unevenRun ++ List.replicate 16 (.tick ⟨0, .ok⟩))).returned :=
  an_untroubled_engine_is_the_list_scheduler countingLlama unevenConfig (by decide) unevenRun
    (List.replicate 16 (.tick ⟨0, .ok⟩))
    [{ unevenWork 3 with on_complete := some 0 }, { unevenWork 1 with on_complete := some 1 }]
    { unevenWork 2 with on_complete := some 2 } [] 2 rfl (by decide +kernel) rfl
    (by decide +kernel)

end inference_server
