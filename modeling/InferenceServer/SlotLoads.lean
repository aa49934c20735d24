-- The slots as the machines of a list scheduler. A slot is busy for as many
-- calls of `llama_decode` as its sequence still takes, and each tick of the
-- engine thread either leaves these loads as they are, or gives the requests
-- that it takes from the queue to the slots that are free first.
import InferenceServer.Backlog
import InferenceServer.DecodeCalls
import InferenceServer.Lib.ListScheduling

namespace inference_server

open machine generation list_scheduling

variable {n : Nat}

/-! ## The slots as machines -/

/-- When each slot is free, with `d` calls returned so far. -/
def slotLoads (L : Llama) (cfg : EngineConfig) (d : Nat) (views : Fin n → SlotView) : List Nat :=
  (List.finRange n).map (fun sid => d + (views sid).decodesLeft L cfg)

/-- When each slot is free for the requests in the queue. The drained requests
come first, and a batch that is closed is missed. -/
def Engine.loads (L : Llama) (cfg : EngineConfig) (e : Engine n) : List Nat :=
  (schedule (slotLoads L cfg e.returned e.view) (e.place.drained.map (plannedOf L cfg))).map
    (fun x => max x e.missed)

section machines

variable {L : Llama} {cfg : EngineConfig}

theorem slotLoads_ne_nil (hn : 0 < n) (d : Nat) (views : Fin n → SlotView) :
    slotLoads L cfg d views ≠ [] := by
  apply List.ne_nil_of_length_pos
  simpa [slotLoads] using hn

theorem le_slotLoads {d : Nat} {views : Fin n → SlotView} :
    ∀ x ∈ slotLoads L cfg d views, d ≤ x := by
  intro x hx
  obtain ⟨sid, _, rfl⟩ := List.mem_map.mp hx
  exact Nat.le_add_right _ _

theorem loads_ne_nil (hn : 0 < n) (e : Engine n) : e.loads L cfg ≠ [] := by
  unfold Engine.loads
  rw [ne_eq, List.map_eq_nil_iff]
  exact schedule_ne_nil (slotLoads_ne_nil hn _ _) _

theorem loads_length (hn : 0 < n) (e : Engine n) : (e.loads L cfg).length = n := by
  unfold Engine.loads
  rw [List.length_map, schedule_length (slotLoads_ne_nil hn _ _), slotLoads, List.length_map,
    List.length_finRange]

theorem slotLoads_sum (d : Nat) (views : Fin n → SlotView) :
    (slotLoads L cfg d views).sum = n * d + ∑ sid, (views sid).decodesLeft L cfg := by
  unfold slotLoads
  rw [← Fin.sum_univ_def, Finset.sum_add_distrib]
  simp

theorem missed_le_loads {e : Engine n} : ∀ x ∈ e.loads L cfg, e.missed ≤ x := by
  intro x hx
  obtain ⟨y, _, rfl⟩ := List.mem_map.mp hx
  exact le_max_right _ _

theorem returned_le_missed (e : Engine n) : e.returned ≤ e.missed := by
  unfold Engine.missed
  split <;> omega

theorem map_max_of_le {l : List Nat} {t : Nat} (h : ∀ x ∈ l, t ≤ x) :
    l.map (fun x => max x t) = l := by
  conv_rhs => rw [← List.map_id l]
  apply List.map_congr_left
  intro x hx
  exact max_eq_left (h x hx)

/-- While the queue is open, the loads are those of the slots. -/
theorem loads_open {e : Engine n} (hclosed : e.place.closed = false)
    (hd : e.place.drained = []) : e.loads L cfg = slotLoads L cfg e.returned e.view := by
  have hmissed : e.missed = e.returned := by
    unfold Engine.missed
    rw [hclosed]
    rfl
  unfold Engine.loads
  rw [hd, hmissed]
  exact map_max_of_le le_slotLoads

/-- The free slots are those that are free at once. -/
theorem freeBy_slotLoads {e : Engine n} (hcoh : Coherent L cfg e) (d : Nat) :
    freeBy (slotLoads L cfg d e.view) d = e.slots.freeSlots := by
  unfold slotLoads KVSlotManager.freeSlots
  rw [freeBy_table]
  apply Finset.sum_congr rfl
  intro sid _
  by_cases hocc : (e.slots.slots sid).occupied = true
  · have hpos := decodesLeft_pos (hcoh.running hocc)
    rw [if_pos hocc, if_neg (by omega)]
  · have hzero : (e.view sid).decodesLeft L cfg = 0 :=
      decodesLeft_free (Bool.eq_false_iff.mpr hocc)
    rw [if_neg hocc, hzero, if_pos (by omega)]

theorem returned_open {e : Engine n} (hclosed : e.place.closed = false) :
    e.returned = e.calls := by
  unfold Engine.returned
  split
  · rename_i hp
    rw [hp] at hclosed
    cases hclosed
  · rfl

/-! ## One tick of the slots -/

theorem boundary_open {p : Place n} (h : p.boundary = true) : p.closed = false := by
  cases p <;> simp_all [Place.boundary, Place.closed]

theorem movesTo_open {e : Engine n} {p : Place n} (h : e.MovesTo p) : p.closed = false := by
  rcases h with ⟨rfl, _⟩ | rfl | ⟨rfl, _⟩
  all_goals rfl

theorem returned_moved {e : Engine n} (hb : e.place.boundary = true) {p : Place n}
    (hp : e.MovesTo p) : Engine.returned { e with place := p } = e.returned := by
  rw [returned_open (boundary_open hb)]
  exact returned_open (movesTo_open hp)

/-- Between two iterations the thread only moves. -/
theorem loads_moved {e : Engine n} (hb : e.place.boundary = true) {p : Place n}
    (hp : e.MovesTo p) : Engine.loads L cfg { e with place := p } = e.loads L cfg := by
  rw [loads_open (boundary_open hb) (boundary_drained hb),
    loads_open (movesTo_open hp) (movesTo_drained hp), returned_moved hb hp]
  rfl

/-- A drain that leaves requests behind uses up all free slots. -/
theorem drain_full (hn : 0 < n) {e : Engine n} (hcoh : Coherent L cfg e) (hb : Balanced e)
    (hleft : e.pending.drop e.slots.free_count.toNat ≠ []) :
    ∀ x ∈ schedule (slotLoads L cfg e.calls e.view)
      ((e.pending.take e.slots.free_count.toNat).map (plannedOf L cfg)), e.calls < x := by
  have hcount : e.slots.free_count = e.slots.freeSlots := hb.accounts.counted
  have hlen := List.length_pos_of_ne_nil hleft
  rw [List.length_drop] at hlen
  apply schedule_takes_all (slotLoads_ne_nil hn _ _) le_slotLoads
  · intro c hc
    obtain ⟨req, _, rfl⟩ := List.mem_map.mp hc
    exact Nat.lt_add_of_pos_right (plannedOf_pos L cfg req)
  · rw [freeBy_slotLoads hcoh e.calls, List.length_map, List.length_take]
    omega

/-- So it dispatches the requests that it takes. -/
theorem loads_drain (hn : 0 < n) {e : Engine n} (hcoh : Coherent L cfg e) (hb : Balanced e)
    (hp : e.place = .drain) (hleft : e.pending.drop e.slots.free_count.toNat ≠ []) :
    Engine.loads L cfg { e with
        pending := e.pending.drop e.slots.free_count.toNat
        place := .admission (e.pending.take e.slots.free_count.toNat) } =
      schedule (e.loads L cfg)
        ((e.pending.take e.slots.free_count.toNat).map (plannedOf L cfg)) := by
  have hclosed : e.place.closed = false := by
    rw [hp]
    rfl
  have hdrained : e.place.drained = [] := by
    rw [hp]
    rfl
  rw [loads_open hclosed hdrained, returned_open hclosed]
  exact map_max_of_le (drain_full hn hcoh hb hleft)

/-- One turn of the admit loop changes the view of one free slot. -/
theorem admitOne_view (e : Engine n) (req : Request) {l : List Request}
    (hacc : Accounts e (req :: l)) (hroom : ((req :: l).length : Int) ≤ e.slots.free_count) :
    ∃ i, e.occupied i = false ∧ (e.admitOne L req).view =
      Function.update e.view i (admittedView L (seatedView (e.view i) req)) := by
  rcases e.admitOne_cases L req with ⟨i, hi, he⟩ | ⟨hfull, _⟩
  · refine ⟨i, hi, ?_⟩
    funext j
    rw [he, view_admitTo, view_seat, if_pos rfl, view_seat, Function.update_apply]
    split <;> rfl
  · have hcount : e.slots.free_count = e.slots.freeSlots := hacc.counted
    have hzero := e.slots.freeSlots_eq_zero.mpr hfull
    simp only [List.length_cons] at hroom
    omega

/-- A request with a prompt is dispatched to a slot that is free at once, and
one without a prompt leaves the slots as they were. -/
theorem slotLoads_admitOne {d : Nat} {e : Engine n} (req : Request) {l : List Request}
    (hacc : Accounts e (req :: l)) (hroom : ((req :: l).length : Int) ≤ e.slots.free_count) :
    (promptOf L req.payload = [] →
      slotLoads L cfg d (e.admitOne L req).view = slotLoads L cfg d e.view) ∧
    (promptOf L req.payload ≠ [] → (slotLoads L cfg d (e.admitOne L req).view).Perm
      (dispatch (slotLoads L cfg d e.view) (plannedOf L cfg req))) := by
  obtain ⟨i, hi, hnew⟩ := admitOne_view (L := L) e req hacc hroom
  have hold : (e.view i).decodesLeft L cfg = 0 := decodesLeft_free hi
  have hrow : (fun sid => d + ((e.admitOne L req).view sid).decodesLeft L cfg) =
      Function.update (fun sid => d + (e.view sid).decodesLeft L cfg) i
        (d + (admittedView L (seatedView (e.view i) req)).decodesLeft L cfg) := by
    funext sid
    rw [hnew, Function.update_apply, Function.update_apply]
    split <;> rfl
  refine ⟨?_, ?_⟩
  · intro hnone
    have hfree : (admittedView L (seatedView (e.view i) req)).decodesLeft L cfg = 0 := by
      apply decodesLeft_free
      unfold admittedView
      exact congrArg (fun v : SlotView => v.slot.occupied) (if_pos ((promptOf_eq_nil L _).mp hnone))
    unfold slotLoads
    rw [hrow, hfree, ← hold, Function.update_eq_self]
  · intro hsome
    have hsoon : soonest (slotLoads L cfg d e.view) = d := by
      apply soonest_eq
      · exact List.mem_map.mpr ⟨i, List.mem_finRange i, by rw [hold]; rfl⟩
      · exact le_slotLoads
    unfold dispatch
    rw [hsoon]
    unfold slotLoads
    rw [hrow, (decodesLeft_admitted req hsome).1]
    have hperm := perm_update (fun sid => d + (e.view sid).decodesLeft L cfg)
      (List.nodup_finRange n) (List.mem_finRange i) (d + plannedOf L cfg req)
    rwa [hold] at hperm

/-- The admit loop is never behind the plan, and dispatches every request that
has a prompt. -/
theorem slotLoads_admission {d : Nat} (hn : 0 < n) (l : List Request) (e : Engine n)
    (hacc : Accounts e l) (hroom : (l.length : Int) ≤ e.slots.free_count) :
    Ahead (slotLoads L cfg d (l.foldl (Engine.admitOne L) e).view)
      (schedule (slotLoads L cfg d e.view) (l.map (plannedOf L cfg))) ∧
    ((∀ r ∈ l, promptOf L r.payload ≠ []) →
      Ahead (schedule (slotLoads L cfg d e.view) (l.map (plannedOf L cfg)))
        (slotLoads L cfg d (l.foldl (Engine.admitOne L) e).view)) := by
  induction l generalizing e with
  | nil => exact ⟨.refl _, fun _ => .refl _⟩
  | cons r l ih =>
    obtain ⟨hnone, hsome⟩ := slotLoads_admitOne (d := d) r hacc hroom
    obtain ⟨hacc', hroom'⟩ := accounts_admitOne L e r l hacc hroom
    obtain ⟨hahead, hsame⟩ := ih _ hacc' hroom'
    have hne : slotLoads L cfg d e.view ≠ [] := slotLoads_ne_nil hn d _
    have hne' : slotLoads L cfg d (e.admitOne L r).view ≠ [] := slotLoads_ne_nil hn d _
    have hone : Ahead (slotLoads L cfg d (e.admitOne L r).view)
        (dispatch (slotLoads L cfg d e.view) (plannedOf L cfg r)) := by
      by_cases hprompt : promptOf L r.payload = []
      · rw [hnone hprompt]
        exact ahead_dispatch hne _
      · exact ahead_of_perm (hsome hprompt)
    refine ⟨hahead.trans (hone.schedule hne' (dispatch_ne_nil _ _) _), ?_⟩
    intro hprompts
    have hback : Ahead (dispatch (slotLoads L cfg d e.view) (plannedOf L cfg r))
        (slotLoads L cfg d (e.admitOne L r).view) :=
      ahead_of_perm (hsome (hprompts r (by simp))).symm
    exact (hback.schedule (dispatch_ne_nil _ _) hne' _).trans
      (hsame (fun r' hr' => hprompts r' (List.mem_cons_of_mem r hr')))

/-- While the queue is closed, a slot is at best free for the next call. -/
theorem loads_closed {e : Engine n} (hclosed : e.place.closed = true) :
    e.loads L cfg = (schedule (slotLoads L cfg e.returned e.view)
      (e.place.drained.map (plannedOf L cfg))).map (fun x => max x (e.returned + 1)) := by
  have hmissed : e.missed = e.returned + 1 := by
    unfold Engine.missed
    rw [if_pos hclosed]
  unfold Engine.loads
  rw [hmissed]

theorem loads_started {e : Engine n} (hclosed : e.place.closed = true)
    (hd : e.place.drained = []) : e.loads L cfg = (List.finRange n).map
      (fun sid => max (e.returned + (e.view sid).decodesLeft L cfg) (e.returned + 1)) := by
  rw [loads_closed hclosed, hd, slotLoads]
  exact List.map_map

/-- The expiry check leaves slots alone that are in time. -/
theorem view_not_late {e : Engine n} {now : Int}
    (h : ∀ sid, e.occupied sid = true → now ≤ (e.request sid).dueTime) :
    (e.retireExpired now).view = e.view := by
  funext sid
  rw [view_retireExpired]
  apply if_neg
  rintro ⟨hocc, hlate⟩
  exact absurd hlate (not_lt.mpr (h sid hocc))

theorem returned_admission {e : Engine n} {l : List Request} (hp : e.place = .admission l)
    (now : Int) : Engine.returned { (l.foldl (Engine.admitOne L) e).retireExpired now with
      place := .collect now } = e.returned := by
  have hadmit := loop_same Engine.calls _ (calls_admitOne L) l e
  have hexpire := loop_same Engine.calls _ (calls_retireExpiredTurn now) (List.finRange n)
    (l.foldl (Engine.admitOne L) e)
  have hold : e.returned = e.calls := by
    unfold Engine.returned
    rw [hp]
  exact (hexpire.trans hadmit).trans hold.symm

/-- The admission of the drained requests, and the expiry check. -/
theorem loads_admission (hn : 0 < n) {e : Engine n} (hb : Balanced e) {l : List Request}
    (hp : e.place = .admission l) (now : Int) :
    let e1 := l.foldl (Engine.admitOne L) e
    let e' : Engine n := { e1.retireExpired now with place := .collect now }
    Ahead (e'.loads L cfg) (e.loads L cfg) ∧
    ((∀ r ∈ l, promptOf L r.payload ≠ []) →
      (∀ sid, e1.occupied sid = true → now ≤ (e1.request sid).dueTime) →
      Ahead (e.loads L cfg) (e'.loads L cfg)) := by
  intro e1 e'
  have hacc := hb.accounts
  have hroom := hb.room
  rw [hp] at hacc hroom
  obtain ⟨hahead, hback⟩ := slotLoads_admission (L := L) (d := e.returned) hn l e
    hacc hroom
  have hclosed : e.place.closed = true := by
    rw [hp]
    rfl
  have hcalls : e'.returned = e.returned := returned_admission hp now
  have hview : ∀ sid, e'.view sid = expiredView now (e1.view sid) :=
    fun sid => view_retireExpired now e1 sid
  have hnew : e'.loads L cfg =
      (slotLoads L cfg e.returned e'.view).map (fun x => max x (e.returned + 1)) := by
    rw [loads_closed rfl, hcalls]
    rfl
  have hold : e.loads L cfg = (schedule (slotLoads L cfg e.returned e.view)
      (l.map (plannedOf L cfg))).map (fun x => max x (e.returned + 1)) := by
    rw [loads_closed hclosed, hp]
    rfl
  rw [hnew, hold]
  refine ⟨?_, ?_⟩
  · apply Ahead.max
    apply Ahead.trans _ hahead
    apply ahead_of_le
    intro sid _
    rw [hview]
    exact Nat.add_le_add_left (decodesLeft_expired now) _
  · intro hprompts hlate
    have hsame : e'.view = e1.view := view_not_late hlate
    rw [hsame]
    exact (hback hprompts).max _

theorem decodesLeft_calling (e : Engine n) (sid : Fin n) :
    (e.calling.view sid).decodesLeft L cfg = (e.view sid).decodesLeft L cfg := by
  rw [view_calling]
  split
  · rfl
  · rfl

theorem returned_calling {e : Engine n} {now : Int} (hp : e.place = .collect now) :
    e.calling.returned = e.returned := by
  have hold : e.returned = e.calls := by
    unfold Engine.returned
    rw [hp]
  rw [hold]
  exact congrArg (· - 1) (calls_calling e)

theorem returned_skipped {e : Engine n} {now : Int} (hp : e.place = .collect now) :
    Engine.returned { e with place := .top } = e.returned := by
  unfold Engine.returned
  rw [hp]
  rfl

/-- With an active slot, the slots are as free at the call as they were. -/
theorem loads_calling {e : Engine n} {now : Int} (hp : e.place = .collect now) :
    e.calling.loads L cfg = e.loads L cfg := by
  have hclosed : e.place.closed = true := by
    rw [hp]
    rfl
  have hloads : slotLoads L cfg e.returned e.calling.view = slotLoads L cfg e.returned e.view := by
    unfold slotLoads
    simp only [decodesLeft_calling]
  rw [loads_closed hclosed, loads_closed rfl, returned_calling hp, hloads, hp]
  rfl

/-- Without one, the queue is open again. -/
theorem loads_skipped {e : Engine n} {now : Int} (hp : e.place = .collect now) :
    Ahead (Engine.loads L cfg { e with place := .top }) (e.loads L cfg) := by
  have hclosed : e.place.closed = true := by
    rw [hp]
    rfl
  have hdrained : e.place.drained = [] := by
    rw [hp]
    rfl
  rw [loads_started hclosed hdrained, loads_open rfl rfl, returned_skipped hp]
  apply ahead_of_le
  intro sid _
  exact le_max_left _ _

/-- A decode takes one call off each active slot, and a free slot has missed
it. A failed decode frees all slots. -/
theorem decodesLeft_decoded {e : Engine n} {call : DecodeCall n} (hcoh : Coherent L cfg e)
    (hp : e.place = .decode call) (sid : Fin n) :
    ((e.decoded L cfg call .ok).view sid).decodesLeft L cfg = (e.view sid).decodesLeft L cfg - 1 ∧
    ∀ cached, ((e.decoded L cfg call (.failed cached)).view sid).decodesLeft L cfg = 0 := by
  obtain ⟨hview, hcall⟩ := hcoh.at_decode hp
  refine ⟨?_, fun cached => decodesLeft_free (idle_failed hview hcall cached sid).free⟩
  rw [view_decoded L cfg hcall]
  rcases hview sid with hidle | hbatch
  · have hfree : e.occupied sid = false := hidle.free
    have hnot : sid ∉ call.active := by
      intro hm
      rw [(hcall.active sid).mp hm] at hfree
      cases hfree
    rw [if_neg hnot, decodesLeft_free (idle_fill hcall hidle).free, decodesLeft_free hidle.free]
  · have hpick := sample_eq_pick hcall hbatch
    have hcells : (e.fill call).cells = e.cells ++ call.batch.map BatchEntry.cell := rfl
    have hseen : (e.view sid).seen = ((e.fill call).view sid).seen := rfl
    have hleft : ((e.fill call).view sid).decodesLeft L cfg = (e.view sid).decodesLeft L cfg := rfl
    rw [if_pos ((hcall.active sid).mpr hbatch.occupied), hcells, hpick, hseen, ← hleft,
      ← decodesLeft_sampled (decoded_of_inBatch hcall hbatch)]
    rfl

theorem returned_decoded {e : Engine n} {call : DecodeCall n} (hcalled : Called e)
    (hp : e.place = .decode call) (o : DecodeOutcome) :
    (e.decoded L cfg call o).returned = e.returned + 1 := by
  have hpos := hcalled call hp
  have hold : e.returned = e.calls - 1 := by
    unfold Engine.returned
    rw [hp]
  have hnew : (e.decoded L cfg call o).returned = e.calls := by
    rw [← calls_decoded L cfg e call o]
    cases o <;> rfl
  omega

/-- A decode that succeeds keeps the plan, and one that fails frees all slots
for it. -/
theorem loads_decoded {e : Engine n} {call : DecodeCall n} (hcoh : Coherent L cfg e)
    (hcalled : Called e) (hp : e.place = .decode call) (o : DecodeOutcome) :
    Ahead ((e.decoded L cfg call o).loads L cfg) (e.loads L cfg) ∧
    (o = .ok → (e.decoded L cfg call o).loads L cfg = e.loads L cfg) := by
  have hclosed : e.place.closed = true := by
    rw [hp]
    rfl
  have hopen : (e.decoded L cfg call o).place.closed = false := by
    cases o <;> rfl
  have hold : e.loads L cfg = (List.finRange n).map
      (fun sid => max (e.returned + (e.view sid).decodesLeft L cfg) (e.returned + 1)) := by
    apply loads_started hclosed
    rw [hp]
    rfl
  rw [loads_open hopen (decoded_drained L cfg e call o), hold, returned_decoded hcalled hp]
  unfold slotLoads
  refine ⟨?_, ?_⟩
  · apply ahead_of_le
    intro sid _
    obtain ⟨hok, hfailed⟩ := decodesLeft_decoded hcoh hp sid
    cases o with
    | ok =>
      rw [hok]
      omega
    | failed cached =>
      rw [hfailed]
      omega
  · rintro rfl
    apply List.map_congr_left
    intro sid _
    rw [(decodesLeft_decoded hcoh hp sid).1]
    omega

end machines

end inference_server
