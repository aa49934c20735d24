-- No request starves. One that waits in the queue is answered within a number
-- of ticks that its place in the queue and the plan of the slots fix, however
-- many requests come after it.
import InferenceServer.Draining
import InferenceServer.Records
import InferenceServer.Throughput

namespace inference_server

open machine list_scheduling

variable {n : Nat} {L : Llama} {cfg : EngineConfig} {e : Engine n} {t due : Nat}

/-! ## A place in the queue -/

/-- The place of the request with the promise `t`, counted from one, and 0
where it is not in the queue. -/
def turnOf (t : Nat) : List Request → Nat
  | [] => 0
  | r :: rs =>
    if r.on_complete = some t then 1 else if turnOf t rs = 0 then 0 else turnOf t rs + 1

theorem turnOf_absent {rs : List Request} (h : inQueue rs t = 0) : turnOf t rs = 0 := by
  induction rs with
  | nil => rfl
  | cons r rs ih =>
    rw [inQueue_cons] at h
    split at h
    · omega
    · rename_i hne
      simp [turnOf, hne, ih h]

theorem turnOf_pos {rs : List Request} (h : 0 < inQueue rs t) : 0 < turnOf t rs := by
  induction rs with
  | nil => cases h
  | cons r rs ih =>
    rw [inQueue_cons] at h
    unfold turnOf
    split
    · exact Nat.one_pos
    · rename_i hne
      rw [if_neg hne] at h
      have hpos := ih h
      rw [if_neg hpos.ne']
      omega

/-- What comes later takes nobody's place. -/
theorem turnOf_before {rs qs : List Request} (h : inQueue qs t = 0) :
    turnOf t (rs ++ qs) = turnOf t rs := by
  induction rs with
  | nil => exact turnOf_absent h
  | cons r rs ih => simp only [List.cons_append, turnOf, ih]

theorem turnOf_behind {rs qs : List Request} (h : inQueue rs t = 0) (hq : 0 < inQueue qs t) :
    turnOf t (rs ++ qs) = rs.length + turnOf t qs := by
  induction rs with
  | nil => simp
  | cons r rs ih =>
    rw [inQueue_cons] at h
    split at h
    · omega
    · rename_i hne
      have hpos := turnOf_pos hq
      simp only [List.cons_append, turnOf, ih h, List.length_cons]
      rw [if_neg hne, if_neg (by omega)]
      omega

theorem turnOf_split (before after : List Request) {r : Request}
    (hr : r.on_complete = some t) : turnOf t (before ++ r :: after) ≤ before.length + 1 := by
  induction before with
  | nil => simp [turnOf, hr]
  | cons q before ih =>
    simp only [List.cons_append, turnOf, List.length_cons]
    split
    · omega
    · split <;> omega

/-! ## How long a request can still wait -/

/-- The ticks to the end of the iteration. One that answers nobody and calls
nothing leaves all slots free, so it goes on to the next one. -/
def Engine.stretch (t : Nat) (e : Engine n) : Nat :=
  match e.place with
  | .top => 6
  | .wait => 5
  | .drain => 4
  | .admission toAdmit =>
    if e.slots.inSlots t = 0 ∧ (toAdmit ≠ [] ∨ e.active = []) then 8 else 3
  | .collect _ => if e.active = [] then 7 else 2
  | .decode _ => 1
  | .exited => 0

/-- How many ticks the request with the promise `t` can wait for its answer,
when it is due at the `due`-th return of a call. -/
def Engine.patience (due t : Nat) (e : Engine n) : Nat :=
  6 * (due - e.returned) + 5 * turnOf t e.pending + (if e.active = [] then 0 else 5) +
    e.stretch t

theorem le_patience (due : Nat) (e : Engine n) : 6 * (due - e.returned) ≤ e.patience due t := by
  unfold Engine.patience
  omega

theorem patience_le (due : Nat) (e : Engine n) :
    e.patience due t ≤ 6 * (due - e.returned) + 5 * turnOf t e.pending + 13 := by
  have hstretch : e.stretch t ≤ 8 := by
    unfold Engine.stretch
    split <;> (try split) <;> omega
  unfold Engine.patience
  split <;> omega

theorem active_nil_iff (e : Engine n) : e.active = [] ↔ ∀ sid, e.occupied sid = false := by
  rw [List.eq_nil_iff_forall_not_mem]
  simp only [mem_active, Bool.not_eq_true]

/-- Where an open promise is. -/
theorem open_places (hb : Balanced e) (ht : t < e.enqueued.length) (hopen : e.answered t = 0) :
    inQueue e.pending t + inQueue e.place.drained t + e.slots.inSlots t = 1 := by
  have hledger := hb.accounts.ledger t
  rw [if_pos ht, hopen] at hledger
  omega

theorem active_of_seated (h : 0 < e.slots.inSlots t) : e.active ≠ [] := by
  obtain ⟨sid, hocc, _⟩ := inSlots_pos_iff.mp h
  intro hnil
  have hfree := (active_nil_iff e).mp hnil sid
  rw [Engine.occupied, hocc] at hfree
  cases hfree

theorem busy_of_open (hb : Balanced e) (ht : t < e.enqueued.length) (hopen : e.answered t = 0) :
    e.Busy := by
  have hplaces := open_places hb ht hopen
  rcases Nat.eq_zero_or_pos (inQueue e.pending t) with hq | hq
  · rcases Nat.eq_zero_or_pos (inQueue e.place.drained t) with hd | hd
    · obtain ⟨sid, hocc, _⟩ := inSlots_pos_iff.mp (show 0 < e.slots.inSlots t by omega)
      exact Or.inr (Or.inr ⟨sid, hocc⟩)
    · obtain ⟨r, hr, _⟩ := inQueue_pos_iff.mp hd
      exact Or.inr (Or.inl (List.ne_nil_of_mem hr))
  · obtain ⟨r, hr, _⟩ := inQueue_pos_iff.mp hq
    exact Or.inl (List.ne_nil_of_mem hr)

/-! ## Each tick costs patience -/

theorem patience_top (h : Working L cfg e) (hp : e.place = .top) (env : Engine.Env) :
    (e.tick L cfg env).patience due t < e.patience due t := by
  have hret : e.returned = e.calls := returned_open (by rw [hp]; rfl)
  obtain ⟨p, hp', he⟩ := working_top h hp env
  rw [he]
  unfold Engine.patience Engine.stretch
  rw [hret, hp]
  rcases hp' with rfl | rfl
  · exact Nat.add_lt_add_left (show 5 < 6 by decide) _
  · exact Nat.add_lt_add_left (show 4 < 6 by decide) _

theorem patience_wait (h : Working L cfg e) (hp : e.place = .wait) (hbusy : e.Busy)
    (env : Engine.Env) : (e.tick L cfg env).patience due t < e.patience due t := by
  have hret : e.returned = e.calls := returned_open (by rw [hp]; rfl)
  rw [working_wait h hp hbusy env]
  unfold Engine.patience Engine.stretch
  rw [hret, hp]
  exact Nat.add_lt_add_left (show 4 < 5 by decide) _

/-- A drain takes the request, or one before it, or finds all slots taken. -/
theorem patience_drain (hn : 0 < n) (h : Working L cfg e) (hp : e.place = .drain)
    (hopen : inQueue e.pending t + e.slots.inSlots t = 1) (env : Engine.Env) :
    (e.tick L cfg env).patience due t < e.patience due t := by
  have hret : e.returned = e.calls := returned_open (by rw [hp]; rfl)
  have hcount : e.slots.free_count = e.slots.freeSlots := h.balanced.accounts.counted
  rw [Engine.tick_drain L cfg env hp]
  generalize hk : e.slots.free_count.toNat = k
  have hsplit := List.take_append_drop k e.pending
  have hqueue := inQueue_append (e.pending.take k) (e.pending.drop k) t
  rw [hsplit] at hqueue
  unfold Engine.patience Engine.stretch
  rw [hret, hp]
  simp only
  change 6 * (due - e.calls) + 5 * turnOf t (e.pending.drop k) + (if e.active = [] then 0 else 5) +
    (if e.slots.inSlots t = 0 ∧ (e.pending.take k ≠ [] ∨ e.active = []) then 8 else 3) < _
  have hle : (if e.slots.inSlots t = 0 ∧ (e.pending.take k ≠ [] ∨ e.active = []) then 8
      else 3) ≤ 8 := by
    split <;> omega
  rcases Nat.eq_zero_or_pos (e.slots.inSlots t) with hout | hin
  · rcases Nat.eq_zero_or_pos (inQueue (e.pending.drop k) t) with hgone | hleft
    · have hbefore : 0 < turnOf t e.pending := turnOf_pos (by omega)
      rw [turnOf_absent hgone]
      omega
    · have hnone : inQueue (e.pending.take k) t = 0 := by omega
      have hturn := turnOf_behind hnone hleft
      rw [hsplit] at hturn
      by_cases htaken : e.pending.take k = []
      · -- nothing is taken although requests wait: no slot is free
        have hk0 : k = 0 := by
          rcases List.take_eq_nil_iff.mp htaken with h0 | h0
          · exact h0
          · rw [h0] at hleft
            simp at hleft
        have hbusy : e.active ≠ [] := by
          intro hnil
          have hall := (e.slots.freeSlots_eq_n).mpr ((active_nil_iff e).mp hnil)
          omega
        have hno : ¬ (e.slots.inSlots t = 0 ∧ (e.pending.take k ≠ [] ∨ e.active = [])) :=
          fun hc => hc.2.elim (fun hne => hne htaken) hbusy
        rw [if_neg hno]
        rw [htaken, List.length_nil] at hturn
        omega
      · have hlen := List.length_pos_of_ne_nil htaken
        omega
  · have hturn : turnOf t (e.pending.drop k) = 0 := turnOf_absent (by omega)
    rw [hturn, if_neg (by omega : ¬ (e.slots.inSlots t = 0 ∧ _))]
    omega

/-- A request that is seated or drained sits in a slot after the admission,
unless it was answered in it. -/
theorem patience_admission {l : List Request} (hp : e.place = .admission l) (env : Engine.Env)
    (hold : inQueue e.pending t + inQueue l t + e.slots.inSlots t = 1)
    (hnew : inQueue e.pending t + (e.tick L cfg env).slots.inSlots t = 1) :
    (e.tick L cfg env).patience due t < e.patience due t := by
  have hpending : (e.tick L cfg env).pending = e.pending := by
    rw [Engine.tick_admission L cfg env hp]
    exact pending_of_shared (shared_admission L env.now l e)
  have hret : (e.tick L cfg env).returned = e.returned := by
    rw [Engine.tick_admission L cfg env hp]
    exact returned_admission hp env.now
  have hplace : (e.tick L cfg env).place = .collect env.now := by
    rw [Engine.tick_admission L cfg env hp]
  have hseated : 0 < (e.tick L cfg env).slots.inSlots t → (e.tick L cfg env).active ≠ [] :=
    active_of_seated
  have hwas : 0 < e.slots.inSlots t → e.active ≠ [] := active_of_seated
  unfold Engine.patience Engine.stretch
  rw [hpending, hret, hplace, hp]
  simp only
  by_cases hin : e.slots.inSlots t = 0
  · by_cases hall : l ≠ [] ∨ e.active = []
    · have hlong : e.slots.inSlots t = 0 ∧ (l ≠ [] ∨ e.active = []) := ⟨hin, hall⟩
      rw [if_pos hlong]
      split <;> omega
    · have hshort : ¬ (e.slots.inSlots t = 0 ∧ (l ≠ [] ∨ e.active = [])) := fun hc => hall hc.2
      obtain ⟨_, ha⟩ := not_or.mp hall
      rw [if_neg hshort, if_neg ha]
      split <;> omega
  · have hshort : ¬ (e.slots.inSlots t = 0 ∧ (l ≠ [] ∨ e.active = [])) := fun hc => hin hc.1
    have ha := hwas (by omega)
    have hb := hseated (by omega)
    simp only [if_neg hshort, if_neg ha, if_neg hb]
    omega

theorem patience_collect (hcoh : Coherent L cfg e) {now : Int} (hp : e.place = .collect now)
    (env : Engine.Env) : (e.tick L cfg env).patience due t < e.patience due t := by
  rw [Engine.tick_collect L cfg env hp]
  unfold Engine.patience Engine.stretch
  rw [pending_of_shared (shared_collect e)]
  rcases e.collect_cases with ⟨hnil, hc⟩ | ⟨hne, h0, _⟩ | ⟨hne, _, hc⟩
  · have hsame : e.collect.active = [] := by
      rw [hc]
      exact hnil
    rw [hsame, hnil, hc, returned_skipped hp, hp]
    exact Nat.add_lt_add_left (show 6 < 7 by decide) _
  · exact absurd h0 (tokens_pos (hcoh.at_collect hp) hne)
  · have hsame : e.collect.active = e.active := by
      rw [hc]
      unfold Engine.active
      rw [funext (calling_occupied e)]
    rw [hsame, hc, returned_calling hp, hp]
    simp only [if_neg hne]
    exact Nat.add_lt_add_left (show 1 < 2 by decide) _

theorem patience_decode (hcoh : Coherent L cfg e) (hcalled : Called e) {call : DecodeCall n}
    (hp : e.place = .decode call) (env : Engine.Env)
    (hdue : (e.tick L cfg env).returned < due) :
    (e.tick L cfg env).patience due t < e.patience due t := by
  rw [Engine.tick_decode L cfg env hp] at hdue ⊢
  have hret : (e.decoded L cfg call env.decode).returned = e.returned + 1 :=
    returned_decoded hcalled hp env.decode
  have hactive : e.active = [] → (e.decoded L cfg call env.decode).active = [] := by
    rw [active_nil_iff, active_nil_iff]
    intro hfree sid
    by_contra hocc
    rw [Bool.not_eq_false] at hocc
    have hold := (decoded_left hcoh hp hocc).1
    rw [hfree sid] at hold
    cases hold
  have hplace : (e.decoded L cfg call env.decode).place = .top := by
    cases env.decode <;> rfl
  unfold Engine.patience Engine.stretch
  rw [pending_of_shared (shared_decoded L cfg e call env.decode), hplace, hp]
  rw [hret] at hdue ⊢
  simp only
  by_cases hnil : e.active = []
  · rw [if_pos hnil, if_pos (hactive hnil)]
    omega
  · rw [if_neg hnil]
    split <;> omega

/-- As long as the promise is open, each tick costs patience. -/
theorem patience_tick (hn : 0 < n) (h : Working L cfg e) (hcalled : Called e)
    (ht : t < e.enqueued.length) (htrack : OnTrack L cfg t due e) (env : Engine.Env)
    (hopen : e.answered t = 0) (hstill : (e.tick L cfg env).answered t = 0) :
    (e.tick L cfg env).patience due t < e.patience due t := by
  have hplaces := open_places h.balanced ht hopen
  have hb' := (working_tick h env).balanced
  have ht' : t < (e.tick L cfg env).enqueued.length := by rwa [tick_enqueued]
  cases hp : e.place with
  | top => exact patience_top h hp env
  | wait => exact patience_wait h hp (busy_of_open h.balanced ht hopen) env
  | drain =>
    rw [hp] at hplaces
    exact patience_drain hn h hp hplaces env
  | admission l =>
    have hnew := open_places hb' ht' hstill
    have hpending : (e.tick L cfg env).pending = e.pending := by
      rw [Engine.tick_admission L cfg env hp]
      exact pending_of_shared (shared_admission L env.now l e)
    have hdrained : (e.tick L cfg env).place.drained = [] := by
      rw [Engine.tick_admission L cfg env hp]
      rfl
    rw [hpending, hdrained] at hnew
    rw [hp] at hplaces
    exact patience_admission hp env hplaces hnew
  | collect now => exact patience_collect h.coherent hp env
  | decode call =>
    have htrack' := onTrack_tick hn h.balanced h.coherent hcalled htrack env
    have hcoh' := (working_tick h env).coherent
    exact patience_decode h.coherent hcalled hp env (onTrack_due hn hb' hcoh' ht' htrack' hstill)
  | exited => exact absurd hp h.not_exited

/-! ## The law of waiting -/

/-- Somebody else's step: a request that comes later, or a shutdown. -/
theorem patience_step (L : Llama) (cfg : EngineConfig) (due : Nat) {e : Engine n}
    (ht : t < e.enqueued.length) (a : Engine.Action) (ha : ∀ env, a ≠ .tick env) :
    (e.step L cfg a).patience due t = e.patience due t ∧
      (e.step L cfg a).answered t = e.answered t := by
  cases a with
  | tick env => exact absurd rfl (ha env)
  | shutdown => exact ⟨rfl, rfl⟩
  | enqueue req =>
    refine ⟨?_, rfl⟩
    have hother : inQueue [{ req with on_complete := some e.enqueued.length }] t = 0 := by
      rw [inQueue_cons, inQueue_nil, if_neg]
      simp only [Option.some.injEq]
      omega
    change 6 * (due - e.returned) + 5 * turnOf t (e.pending ++ [_]) + _ + e.stretch t = _
    rw [turnOf_before hother]
    rfl

def Engine.Action.isTick : Engine.Action → Bool
  | .tick _ => true
  | .enqueue _ | .shutdown => false

theorem answered_grows (L : Llama) (cfg : EngineConfig) (e : Engine n) (a : Engine.Action)
    (t : Nat) : e.answered t ≤ (e.step L cfg a).answered t := by
  obtain ⟨rest, hrest⟩ := (recalls_step L cfg e a).1
  unfold Engine.answered
  rw [← hrest, List.countP_append]
  exact Nat.le_add_right _ _

theorem running_before (L : Llama) (cfg : EngineConfig) (e : Engine n) (a : Engine.Action)
    (h : (e.step L cfg a).running = true) : e.running = true := by
  cases a with
  | enqueue req => exact h
  | shutdown => cases h
  | tick env => exact (tick_running L cfg e env).symm.trans h

/-- What a run with the promise open has cost. -/
theorem patience_run (L : Llama) (cfg : EngineConfig) (hslots : 0 < cfg.max_slots)
    (as bs : List Engine.Action)
    (htrack : ∀ bs, t < ((engine L cfg).run (as ++ bs)).enqueued.length ∧
      OnTrack L cfg t due ((engine L cfg).run (as ++ bs)))
    (hrunning : ((engine L cfg).run (as ++ bs)).running = true)
    (hopen : ((engine L cfg).run (as ++ bs)).answered t = 0) :
    ((engine L cfg).run (as ++ bs)).patience due t + bs.countP Engine.Action.isTick ≤
      ((engine L cfg).run as).patience due t := by
  induction bs using List.reverseRecOn with
  | nil => simp
  | append_singleton bs b ih =>
    obtain ⟨hlt, htracked⟩ := htrack bs
    obtain ⟨hb, hcoh, hcalled⟩ := lawful_run L cfg (as ++ bs)
    have hstanding := standing_run L cfg (as ++ bs)
    rw [← List.append_assoc, run_snoc] at hrunning hopen ⊢
    change (Engine.step L cfg _ b).running = true at hrunning
    change (Engine.step L cfg _ b).answered t = 0 at hopen
    change (Engine.step L cfg _ b).patience due t + _ ≤ _
    generalize (engine L cfg).run (as ++ bs) = e at *
    have hran := running_before L cfg e b hrunning
    have hwas : e.answered t = 0 := Nat.le_zero.mp (hopen ▸ answered_grows L cfg e b t)
    have hpaid := ih hran hwas
    rw [List.countP_append]
    cases b with
    | tick env =>
      have hcost := patience_tick hslots ⟨hb, hcoh, hstanding, hran⟩ hcalled hlt htracked env hwas
        hopen
      change (e.tick L cfg env).patience due t + (bs.countP Engine.Action.isTick + 1) ≤ _
      omega
    | enqueue req =>
      have hsame := (patience_step L cfg due hlt (.enqueue req) nofun).1
      rw [hsame]
      exact hpaid
    | shutdown => cases hrunning

/-- A request that waits in the queue, at any moment of any run: six ticks for
each call of `llama_decode` that its plan still takes, five for each request
before it and 18 more, and it is answered, whatever else is enqueued in the
meantime, as long as nobody shuts the engine down. -/
theorem no_request_starves (L : Llama) (cfg : EngineConfig) (hslots : 0 < cfg.max_slots)
    (as bs : List Engine.Action) (before : List Request) (r : Request) (after : List Request)
    (t : Nat) (hpending : ((engine L cfg).run as).pending = before ++ r :: after)
    (ht : r.on_complete = some t)
    (hrunning : ((engine L cfg).run (as ++ bs)).running = true)
    (hticks : 6 * (finish (((engine L cfg).run as).loads L cfg) (before.map (plannedOf L cfg))
        (plannedOf L cfg r) - ((engine L cfg).run as).returned) + 5 * before.length + 18 ≤
      bs.countP Engine.Action.isTick) :
    0 < ((engine L cfg).run (as ++ bs)).answered t := by
  by_contra hnot
  have hopen : ((engine L cfg).run (as ++ bs)).answered t = 0 := by omega
  have htrack := fun bs => onTrack_run L cfg hslots as bs hpending ht
  have hpaid := patience_run L cfg hslots as bs htrack hrunning hopen
  have hdue := returned_lt_finish L cfg hslots as bs hpending ht hopen
  have hleast := le_patience (t := t) (finish (((engine L cfg).run as).loads L cfg)
    (before.map (plannedOf L cfg)) (plannedOf L cfg r)) ((engine L cfg).run (as ++ bs))
  have hmost := patience_le (t := t) (finish (((engine L cfg).run as).loads L cfg)
    (before.map (plannedOf L cfg)) (plannedOf L cfg r)) ((engine L cfg).run as)
  have hturn := turnOf_split before after ht
  rw [hpending] at hmost
  omega

/-- A caller that comes back after each tick. -/
def insistent : List Engine.Action :=
  (List.replicate 46 [.tick ⟨0, .ok⟩, .enqueue (unevenWork 3)]).flatten

set_option maxRecDepth 20000 in
/-- The plan takes three calls: 46 ticks are enough for the last one of
`unevenRun`, although 46 requests come after it. -/
theorem no_request_starves_uneven :
    0 < ((engine countingLlama unevenConfig).run (unevenRun ++ insistent)).answered 2 :=
  no_request_starves countingLlama unevenConfig (by decide) unevenRun insistent
    [{ unevenWork 3 with on_complete := some 0 }, { unevenWork 1 with on_complete := some 1 }]
    { unevenWork 2 with on_complete := some 2 } [] 2 (by decide +kernel) rfl (by decide +kernel)
    (by decide +kernel)

end inference_server
