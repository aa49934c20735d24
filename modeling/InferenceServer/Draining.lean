-- An engine that gets no more requests comes to rest. Each iteration with work
-- left takes at least one token off what the slots and the queue still owe,
-- whatever the model samples, whichever decodes fail and whatever the clock
-- reads.
import InferenceServer.Backlog
import InferenceServer.Shutdown

namespace inference_server

open machine

variable {n : Nat}

/-! ## The work that is left -/

/-- The tokens that the sequence of a slot may still get. -/
def Engine.owed (cfg : EngineConfig) (e : Engine n) (sid : Fin n) : Nat :=
  if e.occupied sid then (cfg.limit (e.request sid) - e.tokens_generated sid).toNat else 0

/-- One for the admission of each request, and its limit of tokens. -/
def owedQueue (cfg : EngineConfig) (rs : List Request) : Nat :=
  (rs.map (fun r => (cfg.limit r).toNat + 1)).sum

/-- What the slots and the requests that wait for one still owe. -/
def Engine.work (cfg : EngineConfig) (e : Engine n) : Nat :=
  ∑ sid, e.owed cfg sid + owedQueue cfg (e.pending ++ e.place.drained)

/-- There is something to do. -/
def Engine.Busy (e : Engine n) : Prop :=
  e.pending ≠ [] ∨ e.place.drained ≠ [] ∨ ∃ sid, e.occupied sid = true

/-- What a view owes. -/
def SlotView.owed (cfg : EngineConfig) (v : SlotView) : Nat :=
  if v.slot.occupied then (cfg.limit v.slot.request - v.generated).toNat else 0

theorem owed_eq (cfg : EngineConfig) (e : Engine n) (sid : Fin n) :
    e.owed cfg sid = (e.view sid).owed cfg := rfl

@[simp] theorem owedQueue_nil (cfg : EngineConfig) : owedQueue cfg [] = 0 := rfl

theorem owedQueue_append (cfg : EngineConfig) (rs qs : List Request) :
    owedQueue cfg (rs ++ qs) = owedQueue cfg rs + owedQueue cfg qs := by
  simp [owedQueue]

theorem owed_free {cfg : EngineConfig} {v : SlotView} (h : v.slot.occupied = false) :
    v.owed cfg = 0 := by
  simp [SlotView.owed, h]

/-- A running sequence owes a token. -/
theorem owed_pos {L : Llama} {cfg : EngineConfig} (hmax : 1 ≤ cfg.max_tokens) {v : SlotView}
    (h : Running L cfg v) : 0 < v.owed cfg := by
  have hbelow := h.below
  have hlimit := limit_pos cfg v.slot.request hmax
  unfold SlotView.owed
  rw [if_pos h.occupied]
  omega

/-! ## What each part of an iteration takes off -/

/-- Admission takes one off for each request. -/
theorem work_admitOne (L : Llama) (cfg : EngineConfig) (e : Engine n) (req : Request) :
    ∑ sid, (e.admitOne L req).owed cfg sid + 1 ≤ ∑ sid, e.owed cfg sid + owedQueue cfg [req] := by
  simp only [owed_eq, owedQueue, List.map_cons, List.map_nil, List.sum_cons, List.sum_nil]
  rcases e.admitOne_cases L req with ⟨i, hi, he⟩ | ⟨_, he⟩
  · have hview : (e.admitOne L req).view =
        Function.update e.view i (admittedView L (seatedView (e.view i) req)) := by
      funext j
      rw [he, view_admitTo, view_seat, if_pos rfl, view_seat, Function.update_apply]
      split <;> rfl
    have hsum := sum_update e.view i (admittedView L (seatedView (e.view i) req))
      (SlotView.owed cfg)
    have hold : (e.view i).owed cfg = 0 := owed_free hi
    have hnew : (admittedView L (seatedView (e.view i) req)).owed cfg ≤ (cfg.limit req).toNat := by
      unfold admittedView
      simp only
      split
      · simp [SlotView.owed]
      · simp [SlotView.owed, seatedView]
    rw [hview]
    omega
  · have hview : (e.admitOne L req).view = e.view := by
      funext j
      rw [he, view_log]
      rfl
    rw [hview]
    omega

theorem work_admission (L : Llama) (cfg : EngineConfig) (l : List Request) (e : Engine n) :
    ∑ sid, (l.foldl (Engine.admitOne L) e).owed cfg sid + l.length ≤
      ∑ sid, e.owed cfg sid + owedQueue cfg l := by
  induction l generalizing e with
  | nil => simp
  | cons r l ih =>
    have hone := work_admitOne L cfg e r
    have hrest := ih (e.admitOne L r)
    have hsplit : owedQueue cfg (r :: l) = owedQueue cfg [r] + owedQueue cfg l :=
      owedQueue_append cfg [r] l
    rw [List.foldl_cons, List.length_cons, hsplit]
    omega

/-- A retired slot owes nothing any more. -/
theorem owed_expired (cfg : EngineConfig) (now : Int) (v : SlotView) :
    (expiredView now v).owed cfg ≤ v.owed cfg ∧
      ((expiredView now v).slot.occupied = false → (expiredView now v).owed cfg = 0) := by
  refine ⟨?_, owed_free⟩
  unfold expiredView
  split
  · simp [SlotView.owed, SlotView.retired]
  · exact Nat.le_refl _

theorem work_expired (cfg : EngineConfig) (now : Int) (e : Engine n) :
    ∑ sid, (e.retireExpired now).owed cfg sid ≤ ∑ sid, e.owed cfg sid := by
  apply Finset.sum_le_sum
  intro sid _
  rw [owed_eq, owed_eq, view_retireExpired]
  exact (owed_expired cfg now _).1

/-- A running sequence is still there after the expiry check, or its work is
gone. -/
theorem work_expired_lt {L : Llama} {cfg : EngineConfig} (hmax : 1 ≤ cfg.max_tokens) (now : Int)
    {e : Engine n} {sid : Fin n} (h : Running L cfg (e.view sid))
    (hgone : (e.retireExpired now).occupied sid = false) :
    ∑ sid, (e.retireExpired now).owed cfg sid < ∑ sid, e.owed cfg sid := by
  apply Finset.sum_lt_sum
  · intro j _
    rw [owed_eq, owed_eq, view_retireExpired]
    exact (owed_expired cfg now _).1
  · refine ⟨sid, Finset.mem_univ sid, ?_⟩
    rw [view_occupied, view_retireExpired] at hgone
    rw [owed_eq, owed_eq, view_retireExpired, (owed_expired cfg now _).2 hgone]
    exact owed_pos hmax h

/-- A sampled token ends the sequence, or takes one off. -/
theorem owed_sampled {L : Llama} {cfg : EngineConfig} (hmax : 1 ≤ cfg.max_tokens) {v : SlotView}
    (h : Running L cfg v) (tok : Token) : (sampleView L cfg tok v).owed cfg < v.owed cfg := by
  have hpos := owed_pos hmax h
  have hretired : ∀ w : SlotView, w.retired.owed cfg = 0 := fun _ => rfl
  unfold sampleView
  simp only [h.occupied, Bool.not_true, Bool.false_eq_true, if_false]
  split
  · rename_i heog
    simp only [heog, true_or, if_true, hretired]
    exact hpos
  · rename_i heog
    simp only [heog, Bool.false_eq_true, false_or]
    split
    · rw [hretired]
      exact hpos
    · rename_i hgo
      simp only [SlotView.owed, appendView, h.occupied, if_true] at hgo hpos ⊢
      push_cast at hgo ⊢
      omega

/-- Each decode takes something off. -/
theorem work_decoded {L : Llama} {cfg : EngineConfig} (hmax : 1 ≤ cfg.max_tokens) {e : Engine n}
    {call : DecodeCall n} (hview : ∀ sid, Idle (e.view sid) ∨ InBatch L cfg (e.view sid))
    (hcall : CallOk e call) (o : DecodeOutcome) :
    ∑ sid, (e.decoded L cfg call o).owed cfg sid < ∑ sid, e.owed cfg sid := by
  obtain ⟨sid0, hsid0⟩ := List.exists_mem_of_ne_nil _ hcall.nonempty
  have hslot : ∀ sid, (e.decoded L cfg call o).owed cfg sid ≤ e.owed cfg sid ∧
      (sid ∈ call.active → (e.decoded L cfg call o).owed cfg sid < e.owed cfg sid) := by
    intro sid
    have hrun : sid ∈ call.active → Running L cfg (e.view sid) := fun hm =>
      ((hview sid).resolve_left (not_idle ((hcall.active sid).mp hm))).toRunning
    rw [owed_eq, owed_eq]
    cases o with
    | failed cached =>
      have hzero : ((e.decoded L cfg call (.failed cached)).view sid).owed cfg = 0 :=
        owed_free (idle_failed hview hcall cached sid).free
      rw [hzero]
      exact ⟨Nat.zero_le _, fun hm => owed_pos hmax (hrun hm)⟩
    | ok =>
      have hfill : ((e.fill call).view sid).owed cfg = (e.view sid).owed cfg := rfl
      rw [view_decoded L cfg hcall]
      split
      · rename_i hm
        have hdec := decoded_of_inBatch hcall
          ((hview sid).resolve_left (not_idle ((hcall.active sid).mp hm)))
        have hlt := owed_sampled hmax hdec.toRunning
          (llamaSamplerSample L (e.fill call).cells call.batch (call.logit_pos sid))
        exact ⟨hlt.le, fun _ => hlt⟩
      · rename_i hm
        exact ⟨hfill.le, fun hm' => absurd hm' hm⟩
  apply Finset.sum_lt_sum
  · exact fun sid _ => (hslot sid).1
  · exact ⟨sid0, Finset.mem_univ sid0, (hslot sid0).2 hsid0⟩

/-! ## The ticks of an iteration -/

theorem work_place (cfg : EngineConfig) (e : Engine n) {p : Place n}
    (hp : p.drained = e.place.drained) : Engine.work cfg { e with place := p } = e.work cfg := by
  unfold Engine.work
  rw [hp]
  rfl

/-- The drain moves requests, and owes as much after it as before. -/
theorem work_drain (cfg : EngineConfig) {e : Engine n} (hp : e.place = .drain) (k : Nat) :
    Engine.work cfg { e with pending := e.pending.drop k, place := .admission (e.pending.take k) } =
      e.work cfg := by
  have hsplit : owedQueue cfg (e.pending.drop k ++ e.pending.take k) = owedQueue cfg e.pending := by
    rw [owedQueue_append, Nat.add_comm, ← owedQueue_append, List.take_append_drop]
  have hold : e.place.drained = [] := by
    rw [hp]
    rfl
  unfold Engine.work
  rw [hold, List.append_nil, ← hsplit]
  rfl

/-- An admission takes off one for each drained request. Afterwards a slot is
occupied, or something was taken off, or there was nothing to do. -/
theorem work_admission_tick {L : Llama} {cfg : EngineConfig} (hmax : 1 ≤ cfg.max_tokens)
    {e : Engine n} (hcoh : Coherent L cfg e) {l : List Request} (hp : e.place = .admission l)
    (env : Engine.Env) :
    let e' := e.tick L cfg env
    e'.work cfg + l.length ≤ e.work cfg ∧
    ((∃ sid, e'.occupied sid = true) ∨ e'.work cfg < e.work cfg ∨
      l = [] ∧ ∀ sid, e.occupied sid = false) := by
  intro e'
  have he' : e' = { (l.foldl (Engine.admitOne L) e).retireExpired env.now with
      place := .collect env.now } := Engine.tick_admission L cfg env hp
  have hpending : e'.pending = e.pending := by
    rw [he']
    exact pending_of_shared (shared_admission L env.now l e)
  have howed : e'.work cfg = ∑ sid, ((l.foldl (Engine.admitOne L) e).retireExpired
      env.now).owed cfg sid + owedQueue cfg e.pending := by
    unfold Engine.work
    rw [hpending, he']
    simp only [Place.drained, List.append_nil]
    rfl
  have hwork : e.work cfg =
      ∑ sid, e.owed cfg sid + (owedQueue cfg e.pending + owedQueue cfg l) := by
    unfold Engine.work
    rw [hp, owedQueue_append]
    rfl
  have hadm := work_admission L cfg l e
  have hexp := work_expired cfg env.now (l.foldl (Engine.admitOne L) e)
  refine ⟨by omega, ?_⟩
  by_cases hl : l = []
  · subst hl
    by_cases hnone : ∀ sid, e.occupied sid = false
    · exact Or.inr (Or.inr ⟨rfl, hnone⟩)
    · simp only [not_forall, Bool.not_eq_false] at hnone
      obtain ⟨sid, hocc⟩ := hnone
      by_cases hkept : (e.retireExpired env.now).occupied sid = true
      · refine Or.inl ⟨sid, ?_⟩
        rw [he']
        exact hkept
      · have hlt := work_expired_lt hmax env.now (hcoh.running hocc) (by simpa using hkept)
        refine Or.inr (Or.inl ?_)
        simp only [List.foldl_nil, owedQueue_nil] at *
        omega
  · have hpos := List.length_pos_of_ne_nil hl
    exact Or.inr (Or.inl (by omega))

/-- With an occupied slot the thread goes on to a decode, and with none it
goes back to the top. It never turns back from an occupied slot. -/
theorem work_collect_tick {L : Llama} {cfg : EngineConfig} {e : Engine n}
    (hcoh : Coherent L cfg e) {now : Int} (hp : e.place = .collect now) (env : Engine.Env) :
    let e' := e.tick L cfg env
    e'.work cfg = e.work cfg ∧ (∀ sid, e'.occupied sid = e.occupied sid) ∧
    ((∃ sid, e.occupied sid = true) ∧ (∃ call, e'.place = .decode call) ∨
      (∀ sid, e.occupied sid = false) ∧ e'.place = .top) := by
  intro e'
  have he' : e' = e.collect := Engine.tick_collect L cfg env hp
  have hview := hcoh.at_collect hp
  have hold : e.place.drained = [] := by
    rw [hp]
    rfl
  rcases e.collect_cases with ⟨hnil, hc⟩ | ⟨hne, h0, _⟩ | ⟨hne, _, hc⟩
  · rw [he', hc]
    refine ⟨work_place cfg e hold.symm, fun _ => rfl, Or.inr ⟨?_, rfl⟩⟩
    intro sid
    have hmem := mem_active e sid
    rw [hnil] at hmem
    simpa using hmem
  · exact absurd h0 (tokens_pos hview hne)
  · have hsame := sameHolders_build e
    rw [he', hc]
    refine ⟨?_, hsame.occupied, Or.inl ⟨?_, _, rfl⟩⟩
    · unfold Engine.work
      rw [hold]
      congr 1
      apply Finset.sum_congr rfl
      intro sid _
      have hocc : e.calling.occupied sid = e.occupied sid := hsame.occupied sid
      have hreq : e.calling.request sid = e.request sid := hsame.request sid
      unfold Engine.owed
      rw [hocc, hreq]
      rfl
    · obtain ⟨sid, hmem⟩ := List.exists_mem_of_ne_nil _ hne
      exact ⟨sid, (mem_active e sid).mp hmem⟩

/-- A decode takes something off and ends the iteration. -/
theorem work_decode_tick {L : Llama} {cfg : EngineConfig} (hmax : 1 ≤ cfg.max_tokens)
    {e : Engine n} (hcoh : Coherent L cfg e) {call : DecodeCall n} (hp : e.place = .decode call)
    (env : Engine.Env) :
    let e' := e.tick L cfg env
    e'.work cfg < e.work cfg ∧ e'.place = .top := by
  intro e'
  have he' : e' = e.decoded L cfg call env.decode := Engine.tick_decode L cfg env hp
  have hpending : e'.pending = e.pending := by
    rw [he']
    exact pending_of_shared (shared_decoded L cfg e call env.decode)
  have hdrained : e'.place.drained = e.place.drained := by
    rw [he', decoded_drained, hp]
    rfl
  obtain ⟨hview, hcall⟩ := hcoh.at_decode hp
  have hlt := work_decoded hmax hview hcall env.decode
  refine ⟨?_, ?_⟩
  · unfold Engine.work
    rw [hpending, hdrained, he']
    omega
  · rw [he']
    cases env.decode <;> rfl

/-! ## Where the thread stands still -/

/-- The thread waits only with all slots free, and leaves the loop only after
a shutdown. -/
structure Standing (e : Engine n) : Prop where
  waits : e.place = .wait → e.slots.free_count = n
  exits : e.place = .exited → e.running = false

theorem standing_tick (L : Llama) (cfg : EngineConfig) (e : Engine n) (env : Engine.Env)
    (h : Standing e) : Standing (e.tick L cfg env) := by
  rcases e.tick_cases L cfg env with ⟨_, p, hp, he⟩ | ⟨_, he⟩ | ⟨_, _, he⟩ | ⟨_, _, he⟩ |
    ⟨call, _, he⟩
  · rw [he]
    rcases hp with ⟨rfl, hwait⟩ | rfl | ⟨rfl, hexit⟩
    · exact ⟨fun _ => hwait.elim h.waits id, nofun⟩
    · exact ⟨nofun, nofun⟩
    · exact ⟨nofun, fun _ => hexit.elim h.exits id⟩
  · rw [he]
    exact ⟨nofun, nofun⟩
  · rw [he]
    exact ⟨nofun, nofun⟩
  · rw [he]
    rcases e.collect_cases with ⟨_, hc⟩ | ⟨_, _, hc⟩ | ⟨_, _, hc⟩
    all_goals
      rw [hc]
      exact ⟨nofun, nofun⟩
  · rw [he]
    cases env.decode <;> exact ⟨nofun, nofun⟩

theorem standing_run (L : Llama) (cfg : EngineConfig) (as : List Engine.Action) :
    Standing ((engine L cfg).run as) := by
  apply invariant (engine L cfg) Standing
  · exact ⟨nofun, nofun⟩
  · intro e a h
    cases a with
    | enqueue req => exact ⟨h.waits, h.exits⟩
    | shutdown => exact ⟨h.waits, fun _ => rfl⟩
    | tick env => exact standing_tick L cfg e env h

/-! ## What an iteration can still cost -/

/-- The requests that the next admission finds first. -/
def Engine.queued (e : Engine n) : List Request :=
  match e.place with
  | .admission toAdmit => toAdmit
  | .top | .wait | .drain => e.pending
  | .collect _ | .decode _ | .exited => []

/-- With all slots free, the iteration that admits takes off two: one for the
admission, and one for the decode. -/
def Engine.credit (e : Engine n) : Nat :=
  if e.queued ≠ [] ∧ ∀ sid, e.occupied sid = false then 1 else 0

/-- There is a credit only for a request to admit. -/
theorem credit_le_queued (e : Engine n) : e.credit ≤ e.queued.length := by
  unfold Engine.credit
  split
  · rename_i h
    exact List.length_pos_of_ne_nil h.1
  · exact Nat.zero_le _

theorem credit_zero {e : Engine n} (h : e.queued = []) : e.credit = 0 := by
  have hle := credit_le_queued e
  rw [h, List.length_nil] at hle
  exact Nat.le_zero.mp hle

/-- With nothing drained and all slots free, what there is to do waits in the
queue. -/
theorem Engine.Busy.pending {e : Engine n} (h : e.Busy) (hd : e.place.drained = [])
    (hfree : ∀ sid, e.occupied sid = false) : e.pending ≠ [] := by
  rcases h with hq | hd' | ⟨sid, hocc⟩
  · exact hq
  · exact absurd hd hd'
  · rw [hfree sid] at hocc
    cases hocc

/-- How far the thread is from the end of an iteration. -/
def Place.phase : Place n → Nat
  | .top => 5
  | .wait => 4
  | .drain => 3
  | .admission _ => 2
  | .collect _ => 1
  | .decode _ | .exited => 0

def Place.isTop : Place n → Bool
  | .top => true
  | _ => false

/-- The engine in a run that is not shut down. -/
structure Working (L : Llama) (cfg : EngineConfig) (e : Engine n) : Prop where
  balanced : Balanced e
  coherent : Coherent L cfg e
  standing : Standing e
  running : e.running = true

theorem working_tick {L : Llama} {cfg : EngineConfig} {e : Engine n} (h : Working L cfg e)
    (env : Engine.Env) : Working L cfg (e.tick L cfg env) where
  balanced := balanced_tick L cfg e env h.balanced
  coherent := coherent_tick L cfg e env h.coherent
  standing := standing_tick L cfg e env h.standing
  running := (tick_running L cfg e env).trans h.running

section budget

variable {L : Llama} {cfg : EngineConfig} {e : Engine n}

/-- While there is something to do, more is owed than the credit. -/
theorem credit_lt_work (hmax : 1 ≤ cfg.max_tokens) (hcoh : Coherent L cfg e) (hbusy : e.Busy) :
    e.credit < e.work cfg := by
  have hslots : ∀ sid, e.occupied sid = true → 0 < ∑ sid, e.owed cfg sid := by
    intro sid hocc
    apply Finset.sum_pos'
    · simp
    · exact ⟨sid, Finset.mem_univ sid, owed_pos hmax (hcoh.running hocc)⟩
  have hqueue : ∀ r ∈ e.pending ++ e.place.drained,
      2 ≤ owedQueue cfg (e.pending ++ e.place.drained) := by
    intro r hr
    have hlimit := limit_pos cfg r hmax
    have hle : (cfg.limit r).toNat + 1 ≤ owedQueue cfg (e.pending ++ e.place.drained) :=
      List.single_le_sum (by simp) _ (List.mem_map_of_mem hr)
    omega
  unfold Engine.work Engine.credit
  rcases hbusy with hp | hd | ⟨sid, hocc⟩
  · obtain ⟨r, hr⟩ := List.exists_mem_of_ne_nil _ hp
    have := hqueue r (List.mem_append_left _ hr)
    split <;> omega
  · obtain ⟨r, hr⟩ := List.exists_mem_of_ne_nil _ hd
    have := hqueue r (List.mem_append_right _ hr)
    split <;> omega
  · have := hslots sid hocc
    rw [if_neg]
    · omega
    · rintro ⟨_, hfree⟩
      rw [hfree] at hocc
      cases hocc

/-- What the work is worth in iterations. -/
def Engine.budget (cfg : EngineConfig) (e : Engine n) : Nat := e.work cfg - e.credit

theorem budget_place {p : Place n} (hd : p.drained = e.place.drained)
    (hq : Engine.queued { e with place := p } = e.queued) :
    Engine.budget cfg { e with place := p } = e.budget cfg := by
  unfold Engine.budget Engine.credit
  rw [work_place cfg e hd, hq]
  rfl

theorem Working.not_exited (h : Working L cfg e) : e.place ≠ .exited := by
  intro hp
  have hstopped := h.standing.exits hp
  rw [h.running] at hstopped
  cases hstopped

theorem Working.all_free (h : Working L cfg e) (hfree : e.slots.free_count = n) (sid : Fin n) :
    e.occupied sid = false := by
  have hcount : e.slots.free_count = e.slots.freeSlots := h.balanced.accounts.counted
  exact (e.slots.freeSlots_eq_n).mp (by omega) sid

theorem Working.free_count (h : Working L cfg e) (hfree : ∀ sid, e.occupied sid = false) :
    e.slots.free_count = n := by
  have hcount : e.slots.free_count = e.slots.freeSlots := h.balanced.accounts.counted
  have := (e.slots.freeSlots_eq_n).mpr hfree
  omega

/-- What the thread does while it admits nothing yet. -/
theorem working_top (h : Working L cfg e) (hp : e.place = .top) (env : Engine.Env) :
    ∃ p : Place n, (p = .wait ∨ p = .drain) ∧ e.tick L cfg env = { e with place := p } := by
  unfold Engine.tick
  rw [hp]
  simp only [h.running, Bool.not_true, Bool.false_eq_true, if_false]
  split
  · exact ⟨.wait, Or.inl rfl, rfl⟩
  · exact ⟨.drain, Or.inr rfl, rfl⟩

theorem working_wait (h : Working L cfg e) (hp : e.place = .wait) (hbusy : e.Busy)
    (env : Engine.Env) : e.tick L cfg env = { e with place := .drain } := by
  have hpending : e.pending ≠ [] := by
    apply hbusy.pending
    · rw [hp]
      rfl
    · exact h.all_free (h.standing.waits hp)
  unfold Engine.tick
  rw [hp]
  simp [h.running, hpending]

/-- With all slots free, a drain of a queue that is not empty takes a
request. -/
theorem drain_takes (hn : 1 ≤ n) (h : Working L cfg e) (hfree : ∀ sid, e.occupied sid = false)
    (hpending : e.pending ≠ []) : e.pending.take e.slots.free_count.toNat ≠ [] := by
  have hcount := h.free_count hfree
  intro hnil
  rcases List.take_eq_nil_iff.mp hnil with h0 | h0
  · omega
  · exact hpending h0

theorem credit_drain (hn : 1 ≤ n) (h : Working L cfg e) (hp : e.place = .drain) :
    e.credit ≤ Engine.credit { e with
      pending := e.pending.drop e.slots.free_count.toNat
      place := .admission (e.pending.take e.slots.free_count.toNat) } := by
  unfold Engine.credit
  split
  · rename_i hc
    obtain ⟨hq, hfree⟩ := hc
    rw [if_pos]
    have hpending : e.pending ≠ [] := by
      simpa [Engine.queued, hp] using hq
    exact ⟨drain_takes hn h hfree hpending, hfree⟩
  · exact Nat.zero_le _

/-- A tick ended the iteration and took one off the budget, or it brought the
end of the iteration closer. -/
def Engine.Pays (cfg : EngineConfig) (e e' : Engine n) : Prop :=
  (e'.place.isTop = true ∧ e'.budget cfg + 1 ≤ e.budget cfg) ∨
    (e'.place.isTop = false ∧ e'.budget cfg ≤ e.budget cfg ∧ e'.place.phase < e.place.phase)

/-- The thread moves on, and finds the same requests there. -/
theorem pays_move {p : Place n} (hd : p.drained = e.place.drained)
    (hq : Engine.queued { e with place := p } = e.queued) (htop : p.isTop = false)
    (hphase : p.phase < e.place.phase) : e.Pays cfg { e with place := p } :=
  Or.inr ⟨htop, (budget_place hd hq).le, hphase⟩

theorem pays_drain (hn : 1 ≤ n) (h : Working L cfg e) (hp : e.place = .drain)
    (env : Engine.Env) : e.Pays cfg (e.tick L cfg env) := by
  have hwork := work_drain cfg hp e.slots.free_count.toNat
  have hmore := credit_drain hn h hp
  unfold Engine.Pays Engine.budget
  rw [Engine.tick_drain L cfg env hp, hwork, hp]
  exact Or.inr ⟨rfl, by omega, by simp [Place.phase]⟩

theorem pays_admission (hmax : 1 ≤ cfg.max_tokens) (h : Working L cfg e) {l : List Request}
    (hp : e.place = .admission l) (env : Engine.Env) : e.Pays cfg (e.tick L cfg env) := by
  have hwork := (work_admission_tick hmax h.coherent hp env).1
  have hplace : (e.tick L cfg env).place = .collect env.now :=
    congrArg Engine.place (Engine.tick_admission L cfg env hp)
  have hqueued : e.queued = l := by
    unfold Engine.queued
    rw [hp]
  have hfound := credit_le_queued e
  rw [hqueued] at hfound
  unfold Engine.Pays Engine.budget
  rw [hplace, hp]
  exact Or.inr ⟨rfl, by omega, by simp [Place.phase]⟩

/-- The thread goes on to a decode, or back to the top with a credit for the
next iteration. -/
theorem pays_collect (hmax : 1 ≤ cfg.max_tokens) (h : Working L cfg e) (hbusy : e.Busy)
    {now : Int} (hp : e.place = .collect now) (env : Engine.Env) :
    e.Pays cfg (e.tick L cfg env) := by
  have hcredit := credit_lt_work hmax h.coherent hbusy
  have hqueued : e.queued = [] := by
    unfold Engine.queued
    rw [hp]
  have hnone := credit_zero hqueued
  unfold Engine.Pays Engine.budget
  obtain ⟨hwork, hocc, ⟨_, call, hplace⟩ | ⟨hfree, hplace⟩⟩ := work_collect_tick h.coherent hp env
  · rw [hplace, hp]
    exact Or.inr ⟨rfl, by omega, by simp [Place.phase]⟩
  · have hpending : e.pending ≠ [] := by
      apply hbusy.pending _ hfree
      rw [hp]
      rfl
    have hkept : (e.tick L cfg env).pending = e.pending := by
      rw [Engine.tick_collect L cfg env hp]
      exact pending_of_shared (shared_collect e)
    have hone : (e.tick L cfg env).credit = 1 := by
      unfold Engine.credit Engine.queued
      rw [hplace]
      apply if_pos
      refine ⟨?_, fun sid => (hocc sid).trans (hfree sid)⟩
      rw [hkept]
      exact hpending
    rw [hplace]
    exact Or.inl ⟨rfl, by omega⟩

theorem pays_decode (hmax : 1 ≤ cfg.max_tokens) (h : Working L cfg e) {call : DecodeCall n}
    (hp : e.place = .decode call) (env : Engine.Env) : e.Pays cfg (e.tick L cfg env) := by
  have hqueued : e.queued = [] := by
    unfold Engine.queued
    rw [hp]
  have hnone := credit_zero hqueued
  obtain ⟨hwork, hplace⟩ := work_decode_tick hmax h.coherent hp env
  unfold Engine.Pays Engine.budget
  rw [hplace]
  exact Or.inl ⟨rfl, by omega⟩

/-- One tick with something to do. -/
theorem tick_pays (hn : 1 ≤ n) (hmax : 1 ≤ cfg.max_tokens) (h : Working L cfg e)
    (hbusy : e.Busy) (env : Engine.Env) : e.Pays cfg (e.tick L cfg env) := by
  cases hp : e.place with
  | top =>
    obtain ⟨p, hmoved, he⟩ := working_top h hp env
    rw [he]
    apply pays_move
    · rw [hp]
      rcases hmoved with rfl | rfl <;> rfl
    · unfold Engine.queued
      rw [hp]
      rcases hmoved with rfl | rfl <;> rfl
    · rcases hmoved with rfl | rfl <;> rfl
    · rw [hp]
      rcases hmoved with rfl | rfl <;> simp [Place.phase]
  | wait =>
    rw [working_wait h hp hbusy env]
    apply pays_move
    · rw [hp]
      rfl
    · unfold Engine.queued
      rw [hp]
    · rfl
    · rw [hp]
      simp [Place.phase]
  | drain => exact pays_drain hn h hp env
  | admission toAdmit => exact pays_admission hmax h hp env
  | collect now => exact pays_collect hmax h hbusy hp env
  | decode call => exact pays_decode hmax h hp env
  | exited => exact absurd hp h.not_exited

/-! ## No iteration for nothing -/

/-- No tick adds work. -/
theorem tick_work_le (hmax : 1 ≤ cfg.max_tokens) (h : Working L cfg e) (env : Engine.Env) :
    (e.tick L cfg env).work cfg ≤ e.work cfg := by
  rcases e.tick_cases L cfg env with ⟨hb, p, hp, he⟩ | ⟨hp, he⟩ | ⟨l, hp, _⟩ | ⟨now, hp, _⟩ |
    ⟨call, hp, _⟩
  · rw [he]
    apply le_of_eq
    apply work_place
    rw [boundary_drained hb]
    exact movesTo_drained hp
  · rw [he]
    exact (work_drain cfg hp _).le
  · have hwork := (work_admission_tick hmax h.coherent hp env).1
    omega
  · exact (work_collect_tick h.coherent hp env).1.le
  · exact (work_decode_tick hmax h.coherent hp env).1.le

/-- The iteration under way has yet to take something off. -/
def Engine.Pressing (e : Engine n) : Prop :=
  e.place ≠ .top ∧ (e.queued ≠ [] ∨ ∃ sid, e.occupied sid = true)

/-- An iteration that starts with something to do is pressing. -/
theorem pressing_top (h : Working L cfg e) (hp : e.place = .top) (hbusy : e.Busy)
    (env : Engine.Env) :
    (e.tick L cfg env).work cfg ≤ e.work cfg ∧ (e.tick L cfg env).Pressing := by
  obtain ⟨p, hmoved, he⟩ := working_top h hp env
  have hdrained : e.place.drained = [] := by
    rw [hp]
    rfl
  rw [he]
  refine ⟨(work_place cfg e ?_).le, ?_, ?_⟩
  · rw [hdrained]
    rcases hmoved with rfl | rfl <;> rfl
  · rcases hmoved with rfl | rfl <;> nofun
  · have hqueued : Engine.queued { e with place := p } = e.pending := by
      rcases hmoved with rfl | rfl <;> rfl
    rcases hbusy with hq | hd | hocc
    · exact Or.inl (hqueued.symm ▸ hq)
    · exact absurd hdrained hd
    · exact Or.inr hocc

/-- A pressing iteration takes something off, or presses on. -/
theorem pressing_tick (hn : 1 ≤ n) (hmax : 1 ≤ cfg.max_tokens) (h : Working L cfg e)
    (hpress : e.Pressing) (env : Engine.Env) :
    (e.tick L cfg env).work cfg < e.work cfg ∨
      (e.tick L cfg env).work cfg ≤ e.work cfg ∧ (e.tick L cfg env).Pressing := by
  have hle := tick_work_le hmax h env
  obtain ⟨hnot, hreason⟩ := hpress
  unfold Engine.queued at hreason
  cases hp : e.place with
  | top => exact absurd hp hnot
  | wait =>
    rw [hp] at hreason
    have hbusy : e.Busy := hreason.imp_right Or.inr
    have he := working_wait h hp hbusy env
    rw [he] at hle ⊢
    exact Or.inr ⟨hle, nofun, hreason⟩
  | drain =>
    rw [hp] at hreason
    have he := Engine.tick_drain L cfg env hp
    rw [he] at hle ⊢
    refine Or.inr ⟨hle, nofun, ?_⟩
    by_cases hocc : ∃ sid, e.occupied sid = true
    · exact Or.inr hocc
    · have hfree : ∀ sid, e.occupied sid = false := by simpa using hocc
      exact Or.inl (drain_takes hn h hfree (hreason.resolve_right hocc))
  | admission toAdmit =>
    rw [hp] at hreason
    have hplace : (e.tick L cfg env).place = .collect env.now :=
      congrArg Engine.place (Engine.tick_admission L cfg env hp)
    rcases (work_admission_tick hmax h.coherent hp env).2 with hocc | hless | ⟨hnil, hfree⟩
    · refine Or.inr ⟨hle, ?_, Or.inr hocc⟩
      rw [hplace]
      nofun
    · exact Or.inl hless
    · rcases hreason with hne | ⟨sid, hocc⟩
      · exact absurd hnil hne
      · rw [hfree sid] at hocc
        cases hocc
  | collect now =>
    rw [hp] at hreason
    obtain ⟨sid, hsid⟩ := hreason.resolve_left (fun hne => hne rfl)
    obtain ⟨_, hocc, ⟨_, call, hplace⟩ | ⟨hfree, _⟩⟩ := work_collect_tick h.coherent hp env
    · refine Or.inr ⟨hle, ?_, Or.inr ⟨sid, (hocc sid).trans hsid⟩⟩
      rw [hplace]
      nofun
    · rw [hfree sid] at hsid
      cases hsid
  | decode call => exact Or.inl (work_decode_tick hmax h.coherent hp env).1
  | exited => exact absurd hp h.not_exited

end budget

/-! ## The law of draining -/

/-- The state after the first ticks of a stream, with no action of a caller
between them. -/
def Engine.after (L : Llama) (cfg : EngineConfig) (e : Engine n) (envs : Nat → Engine.Env) :
    Nat → Engine n
  | 0 => e
  | m + 1 => (e.after L cfg envs m).tick L cfg (envs m)

/-- How many iterations the first `m` ticks belong to: a tick begins another
one when it is the first of all, or leaves the top of the loop. -/
def Engine.iterations (L : Llama) (cfg : EngineConfig) (e : Engine n) (envs : Nat → Engine.Env)
    (m : Nat) : Nat :=
  (List.range m).countP (fun i => i = 0 || (e.after L cfg envs i).place.isTop)

section draining

variable {L : Llama} {cfg : EngineConfig} {e : Engine n}

theorem working_after (h : Working L cfg e) (envs : Nat → Engine.Env) (m : Nat) :
    Working L cfg (e.after L cfg envs m) := by
  induction m with
  | zero => exact h
  | succ m ih => exact working_tick ih (envs m)

/-- The iterations so far were paid from the budget. -/
theorem iterations_paid (hn : 1 ≤ n) (hmax : 1 ≤ cfg.max_tokens) (h : Working L cfg e)
    (envs : Nat → Engine.Env) (m : Nat) (hbusy : ∀ i < m, (e.after L cfg envs i).Busy) :
    e.iterations L cfg envs (m + 1) + (e.after L cfg envs m).budget cfg ≤ 1 + e.budget cfg := by
  induction m with
  | zero => simp [Engine.iterations, Engine.after]
  | succ m ih =>
    have hbefore := ih (fun i hi => hbusy i (by omega))
    have hcount : e.iterations L cfg envs (m + 1 + 1) = e.iterations L cfg envs (m + 1) +
        if (e.after L cfg envs (m + 1)).place.isTop then 1 else 0 := by
      unfold Engine.iterations
      rw [List.range_succ, List.countP_append, List.countP_singleton]
      simp
    have htick := tick_pays hn hmax (working_after h envs m) (hbusy m (by omega)) (envs m)
    rw [hcount]
    rcases htick with ⟨htop, hpaid⟩ | ⟨htop, hpaid, _⟩
    · rw [show (e.after L cfg envs (m + 1)).place.isTop = true from htop, if_pos rfl]
      change _ + 1 + (Engine.tick L cfg (e.after L cfg envs m) (envs m)).budget cfg ≤ _
      omega
    · rw [show (e.after L cfg envs (m + 1)).place.isTop = false from htop]
      change _ + 0 + (Engine.tick L cfg (e.after L cfg envs m) (envs m)).budget cfg ≤ _
      omega

/-- The engine runs out of work, within as many iterations as it owed. -/
theorem drained_within (hn : 1 ≤ n) (hmax : 1 ≤ cfg.max_tokens) (h : Working L cfg e)
    (envs : Nat → Engine.Env) :
    ∃ m, ¬ (e.after L cfg envs m).Busy ∧ e.iterations L cfg envs m ≤ e.work cfg := by
  obtain ⟨m, hgoal, hbusy⟩ := reaches (e.after L cfg envs)
    (fun e => 6 * e.budget cfg + e.place.phase) (fun e => ¬ e.Busy) (by
      intro i hi
      have htick := tick_pays hn hmax (working_after h envs i) (not_not.mp hi) (envs i)
      change 6 * (Engine.tick L cfg (e.after L cfg envs i) (envs i)).budget cfg +
        (Engine.tick L cfg (e.after L cfg envs i) (envs i)).place.phase < _
      rcases htick with ⟨htop, hpaid⟩ | ⟨_, hpaid, hphase⟩
      · have hfive : (Engine.tick L cfg (e.after L cfg envs i) (envs i)).place.phase ≤ 5 := by
          unfold Place.phase
          split <;> omega
        omega
      · omega)
  refine ⟨m, hgoal, ?_⟩
  cases m with
  | zero => simp [Engine.iterations]
  | succ m =>
    have hlast := not_not.mp (hbusy m (by omega))
    have hpaid := iterations_paid hn hmax h envs m (fun i hi => not_not.mp (hbusy i (by omega)))
    have hrest := credit_lt_work hmax (working_after h envs m).coherent hlast
    unfold Engine.budget at hpaid
    omega

/-- From the top with something to do to the next top, something is taken
off. -/
theorem work_drops (hn : 1 ≤ n) (hmax : 1 ≤ cfg.max_tokens) (h : Working L cfg e)
    (envs : Nat → Engine.Env) {i j : Nat} (hij : i < j)
    (hi : (e.after L cfg envs i).place = .top) (hj : (e.after L cfg envs j).place = .top)
    (hbusy : (e.after L cfg envs i).Busy) :
    (e.after L cfg envs j).work cfg < (e.after L cfg envs i).work cfg := by
  have hpress : ∀ k, i < k →
      (e.after L cfg envs k).work cfg < (e.after L cfg envs i).work cfg ∨
      (e.after L cfg envs k).work cfg ≤ (e.after L cfg envs i).work cfg ∧
        (e.after L cfg envs k).Pressing := by
    intro k hk
    induction k, hk using Nat.le_induction with
    | base => exact Or.inr (pressing_top (working_after h envs i) hi hbusy (envs i))
    | succ k _ ih =>
      have hwork := working_after h envs k
      have hle := tick_work_le hmax hwork (envs k)
      change (Engine.tick L cfg (e.after L cfg envs k) (envs k)).work cfg < _ ∨
        (Engine.tick L cfg (e.after L cfg envs k) (envs k)).work cfg ≤ _ ∧
          (Engine.tick L cfg (e.after L cfg envs k) (envs k)).Pressing
      rcases ih with hless | ⟨hsame, hpress⟩
      · exact Or.inl (by omega)
      · rcases pressing_tick hn hmax hwork hpress (envs k) with hless | ⟨_, hpress'⟩
        · exact Or.inl (by omega)
        · exact Or.inr ⟨by omega, hpress'⟩
  rcases hpress j hij with hless | ⟨_, hnot, _⟩
  · exact hless
  · exact absurd hj hnot

end draining

/-- From any state of a run that was not shut down, with no further request:
within as many iterations as the slots and the queue owe tokens and
admissions, the queue is empty, all slots are free and every request was
answered. And no iteration with something to do leaves the work as it was. -/
theorem the_engine_drains (L : Llama) (cfg : EngineConfig) (hslots : 1 ≤ cfg.max_slots)
    (hmax : 1 ≤ cfg.max_tokens) (as : List Engine.Action)
    (hrun : ((engine L cfg).run as).running = true) (envs : Nat → Engine.Env) :
    let e := (engine L cfg).run as
    let s := e.after L cfg envs
    (∃ m, (s m).pending = [] ∧ (∀ sid, (s m).occupied sid = false) ∧ (s m).AllAnswered ∧
      e.iterations L cfg envs m ≤ e.work cfg) ∧
    ∀ i j, i < j → (s i).place = .top → (s j).place = .top → (s i).Busy →
      (s j).work cfg < (s i).work cfg := by
  intro e s
  have hwork : Working L cfg e :=
    ⟨balanced_run L cfg as, coherent_run L cfg as, standing_run L cfg as, hrun⟩
  refine ⟨?_, fun i j hij hi hj hbusy => work_drops hslots hmax hwork envs hij hi hj hbusy⟩
  obtain ⟨m, hidle, hcount⟩ := drained_within hslots hmax hwork envs
  unfold Engine.Busy at hidle
  simp only [not_or, not_not, not_exists, Bool.not_eq_true] at hidle
  obtain ⟨hpending, hdrained, hfree⟩ := hidle
  have hacc := (working_after hwork envs m).balanced.accounts
  rw [hdrained] at hacc
  exact ⟨m, hpending, hfree, (allAnswered_iff hacc).mpr ⟨by simpa using hpending, hfree⟩, hcount⟩

/-- A full engine with a backlog and a model that never ends a generation, a
clock that stands still and decodes that all fail but the first. -/
theorem the_engine_drains_failing :
    let e := (engine (byteLlama fun _ => 104) { max_slots := 1, max_tokens := 2 }).run
      [.enqueue helloRequest, .enqueue lowRequest]
    let envs : Nat → Engine.Env := fun i => ⟨0, if i < 8 then .ok else .failed 0⟩
    let s := e.after (byteLlama fun _ => 104) { max_slots := 1, max_tokens := 2 } envs
    (∃ m, (s m).pending = [] ∧ (∀ sid, (s m).occupied sid = false) ∧ (s m).AllAnswered ∧
      e.iterations (byteLlama fun _ => 104) { max_slots := 1, max_tokens := 2 } envs m ≤
        e.work { max_slots := 1, max_tokens := 2 }) ∧
    ∀ i j, i < j → (s i).place = .top → (s j).place = .top → (s i).Busy →
      (s j).work { max_slots := 1, max_tokens := 2 } <
        (s i).work { max_slots := 1, max_tokens := 2 } :=
  the_engine_drains (byteLlama fun _ => 104) { max_slots := 1, max_tokens := 2 } (by decide)
    (by decide) [.enqueue helloRequest, .enqueue lowRequest] rfl
    (fun i => ⟨0, if i < 8 then .ok else .failed 0⟩)

end inference_server
