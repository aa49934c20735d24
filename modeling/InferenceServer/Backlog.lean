-- The backlog behind the slots. A drain takes the front of the queue, one
-- request for each slot that is free at that moment, in the order of arrival.
-- The rest waits unseen until the next drain, whatever its priority, whatever
-- its deadline, and whatever slots come free in between.
import InferenceServer.Admission
import InferenceServer.Coherence

namespace inference_server

open machine

variable {n : Nat}

/-! ## The drain -/

instance (p : Place n) : Decidable (p = .drain) :=
  match p with
  | .drain => isTrue rfl
  | .top | .wait | .admission _ | .collect _ | .decode _ | .exited => isFalse nofun

/-- The queue holds the last requests that were enqueued, in the order of
their arrival. -/
theorem queue_in_order (L : Llama) (cfg : EngineConfig) (as : List Engine.Action) :
    ((engine L cfg).run as).pending <:+ ((engine L cfg).run as).enqueued := by
  apply invariant (engine L cfg) (fun e => e.pending <:+ e.enqueued)
  · exact List.suffix_refl []
  · intro e a h
    cases a with
    | enqueue req =>
      obtain ⟨gone, hgone⟩ := h
      refine ⟨gone, ?_⟩
      change gone ++ (e.pending ++ _) = e.enqueued ++ _
      rw [← List.append_assoc, hgone]
    | shutdown => exact h
    | tick env =>
      change (e.tick L cfg env).pending <:+ (e.tick L cfg env).enqueued
      rw [tick_enqueued]
      rcases tick_shared L cfg e env with ⟨_, he⟩ | he
      · have hpending : (e.tick L cfg env).pending = e.pending.drop e.slots.free_count.toNat :=
          congrArg Prod.fst he
        rw [hpending]
        exact (List.drop_suffix _ _).trans h
      · rw [pending_of_shared he]
        exact h

/-! ## The order of admission -/

/-- The value of the enumerator. -/
def Priority.value : Priority → Nat
  | .Low => 0
  | .Normal => 1
  | .High => 2

/-- The request comes first: it has the higher priority, or the same one and
no later deadline. -/
def Request.RanksAtLeast (x y : Request) : Prop :=
  y.priority.value < x.priority.value ∨ x.priority = y.priority ∧ x.dueTime ≤ y.dueTime

instance (x y : Request) : Decidable (x.RanksAtLeast y) :=
  inferInstanceAs (Decidable (_ ∨ _))

/-- How many requests have left the queue. -/
def Engine.left (e : Engine n) : Nat := e.enqueued.length - e.pending.length

/-- The queue is what arrived after the requests that have left it. -/
theorem pending_eq (L : Llama) (cfg : EngineConfig) (as : List Engine.Action) :
    let e := (engine L cfg).run as
    e.pending = e.enqueued.drop e.left := by
  intro e
  obtain ⟨gone, hgone⟩ : e.pending <:+ e.enqueued := queue_in_order L cfg as
  have hleft : e.left = gone.length := by
    unfold Engine.left
    rw [← hgone, List.length_append]
    omega
  rw [hleft, ← hgone, List.drop_left]

/-- A drain with `k` free slots takes the next `k` requests that arrived. So
each request that it takes ranks at least as high as each one that it leaves
waiting if and only if the arrivals were in that order across the cut. -/
theorem a_drain_follows_the_ranks_iff_the_arrivals_do (L : Llama) (cfg : EngineConfig)
    (as : List Engine.Action) (env : Engine.Env)
    (hd : ((engine L cfg).run as).place = .drain) :
    let e := (engine L cfg).run as
    let e' := (engine L cfg).run (as ++ [.tick env])
    let k := e.slots.free_count.toNat
    (∀ x ∈ e'.place.drained, ∀ y ∈ e'.pending, x.RanksAtLeast y) ↔
      ∀ x ∈ (e.enqueued.drop e.left).take k, ∀ y ∈ e.enqueued.drop (e.left + k),
        x.RanksAtLeast y := by
  intro e e' k
  have he' : e' = { e with pending := e.pending.drop k, place := .admission (e.pending.take k) } :=
    (run_snoc _ _ _).trans (Engine.tick_drain L cfg env hd)
  have hpending : e.pending = e.enqueued.drop e.left := pending_eq L cfg as
  have htaken : e'.place.drained = (e.enqueued.drop e.left).take k := by
    rw [he', ← hpending]
    rfl
  have hleft : e'.pending = e.enqueued.drop (e.left + k) := by
    rw [he', ← List.drop_drop, ← hpending]
  rw [htaken, hleft]

/-- A request of low priority. -/
def lowRequest : Request := { helloRequest with priority := .Low }

/-- A request of high priority that arrives after one of low priority. -/
def lowThenHigh : List Engine.Action :=
  [.enqueue lowRequest, .enqueue { helloRequest with priority := .High }, .tick ⟨0, .ok⟩,
    .tick ⟨0, .ok⟩]

/-- With one slot, the request of low priority is taken and the one of high
priority is left waiting. -/
theorem a_drain_takes_low_before_high :
    let M := engine (byteLlama fun _ => 104) { max_slots := 1 }
    (M.run lowThenHigh).place = .drain ∧
    ¬ ∀ x ∈ (M.run (lowThenHigh ++ [.tick ⟨0, .ok⟩])).place.drained,
      ∀ y ∈ (M.run (lowThenHigh ++ [.tick ⟨0, .ok⟩])).pending, x.RanksAtLeast y := by
  intro M
  exact ⟨by decide +kernel, by decide +kernel⟩

theorem a_drain_follows_the_ranks_low_then_high :
    let e := (engine (byteLlama fun _ => 104) { max_slots := 1 }).run lowThenHigh
    let e' := (engine (byteLlama fun _ => 104) { max_slots := 1 }).run
      (lowThenHigh ++ [.tick ⟨0, .ok⟩])
    let k := e.slots.free_count.toNat
    (∀ x ∈ e'.place.drained, ∀ y ∈ e'.pending, x.RanksAtLeast y) ↔
      ∀ x ∈ (e.enqueued.drop e.left).take k, ∀ y ∈ e.enqueued.drop (e.left + k),
        x.RanksAtLeast y :=
  a_drain_follows_the_ranks_iff_the_arrivals_do (byteLlama fun _ => 104) { max_slots := 1 }
    lowThenHigh ⟨0, .ok⟩ (by decide +kernel)

/-! ## From a drain to the expiry check -/

/-- Between two ticks the callers only lengthen the queue, by requests with
new promises, and stop the engine. -/
theorem callers_between (L : Llama) (cfg : EngineConfig) (others : List Engine.Action)
    (h : ∀ env, .tick env ∉ others) (e : Engine n) :
    ∃ late running, (∀ r ∈ late, ∃ t, r.on_complete = some t ∧ e.enqueued.length ≤ t) ∧
      others.foldl (Engine.step L cfg) e = { e with
        pending := e.pending ++ late, enqueued := e.enqueued ++ late, running := running } := by
  induction others generalizing e with
  | nil => exact ⟨[], e.running, by simp, by simp⟩
  | cons a others ih =>
    obtain ⟨late, running, hnew, he⟩ :=
      ih (fun env hm => h env (List.mem_cons_of_mem _ hm)) (e.step L cfg a)
    rw [List.foldl_cons, he]
    cases a with
    | enqueue req =>
      refine ⟨{ req with on_complete := some e.enqueued.length } :: late, running, ?_, ?_⟩
      · intro r hr
        rcases List.mem_cons.mp hr with rfl | hr
        · exact ⟨_, rfl, Nat.le_refl _⟩
        · obtain ⟨t, ht, hle⟩ := hnew r hr
          simp only [Engine.step, List.length_append, List.length_singleton] at hle
          exact ⟨t, ht, by omega⟩
      · simp [Engine.step]
    | shutdown => exact ⟨late, running, hnew, rfl⟩
    | tick env => exact absurd List.mem_cons_self (h env)

/-- The slots that `retire_expired` leaves occupied, and their requests. -/
theorem retireExpired_holders (now : Int) (e : Engine n) (sid : Fin n) :
    ((e.retireExpired now).occupied sid = true ↔
      e.occupied sid = true ∧ now ≤ (e.request sid).dueTime) ∧
    ((e.retireExpired now).occupied sid = true →
      (e.retireExpired now).request sid = e.request sid) := by
  simp only [view_occupied, view_request, view_retireExpired]
  unfold expiredView
  split
  · rename_i h
    constructor
    · constructor
      · intro hc
        cases hc
      · rintro ⟨_, hle⟩
        omega
    · intro hc
      cases hc
  · rename_i h
    refine ⟨⟨fun hocc => ⟨hocc, ?_⟩, And.left⟩, fun _ => rfl⟩
    by_contra hle
    exact h ⟨hocc, not_le.mp hle⟩

/-- The state before the admit loop of an iteration whose drain took `k`
requests from the queue of `e`, and what the callers added since. -/
def Engine.admitting (e : Engine n) (k : Nat) (late : List Request) (running : Bool) : Engine n :=
  { e with
    pending := e.pending.drop k ++ late
    enqueued := e.enqueued ++ late
    running := running
    place := .admission (e.pending.take k) }

/-- A run from a drain to the return of `retire_expired`. -/
theorem iteration_cases (L : Llama) (cfg : EngineConfig) (as others : List Engine.Action)
    (env0 env : Engine.Env) (hd : ((engine L cfg).run as).place = .drain)
    (hothers : ∀ env', .tick env' ∉ others) :
    let e := (engine L cfg).run as
    let k := e.slots.free_count.toNat
    ∃ late running, (∀ r ∈ late, ∃ t, r.on_complete = some t ∧ e.enqueued.length ≤ t) ∧
      let e1 := e.admitting k late running
      Balanced e1 ∧ (engine L cfg).run (as ++ .tick env0 :: others) = e1 ∧
      (engine L cfg).run (as ++ .tick env0 :: others ++ [.tick env]) =
        { ((e.pending.take k).foldl (Engine.admitOne L) e1).retireExpired env.now with
          place := .collect env.now } := by
  intro e k
  have hdrain : e.tick L cfg env0 = { e with
      pending := e.pending.drop k, place := .admission (e.pending.take k) } :=
    Engine.tick_drain L cfg env0 hd
  obtain ⟨late, running, hnew, hbetween⟩ :=
    callers_between L cfg others hothers (e.tick L cfg env0)
  rw [tick_enqueued] at hnew
  have hrun : (engine L cfg).run (as ++ .tick env0 :: others) = e.admitting k late running := by
    rw [run_append, List.foldl_cons]
    apply hbetween.trans
    rw [hdrain]
    rfl
  refine ⟨late, running, hnew, hrun ▸ balanced_run L cfg _, hrun, ?_⟩
  rw [run_snoc, hrun]
  rfl

/-! ## Late requests -/

/-- The queue is what an earlier queue left, and then newer requests, and the
slots hold requests in time. Then the late ones among the older requests are
all answered if and only if none of them was left. -/
theorem late_answered_iff {e : Engine n} {now : Int} {older left late : List Request}
    (hacc : Accounts e []) (hqueue : e.pending = left ++ late) (hall : e.enqueued = older ++ late)
    (hleft : ∀ r ∈ left, ∃ t, r.on_complete = some t ∧ older[t]? = some r)
    (hlate : ∀ r ∈ late, ∃ t, r.on_complete = some t ∧ older.length ≤ t)
    (hslots : ∀ sid, e.occupied sid = true → now ≤ (e.request sid).dueTime) :
    (∀ t r, older[t]? = some r → r.dueTime < now → 0 < e.answered t) ↔
      ∀ r ∈ left, now ≤ r.dueTime := by
  constructor
  · intro hanswered r hr
    by_contra hdue
    obtain ⟨t, ht, hget⟩ := hleft r hr
    have hans := hanswered t r hget (not_le.mp hdue)
    have hwaits : 0 < inQueue e.pending t :=
      inQueue_pos_iff.mpr ⟨r, hqueue ▸ List.mem_append_left _ hr, ht⟩
    have hledger := hacc.ledger t
    split at hledger <;> omega
  · intro hnone t r hget hdue
    obtain ⟨hlt, _⟩ := List.getElem?_eq_some_iff.mp hget
    have hget' : e.enqueued[t]? = some r := by
      rw [hall, List.getElem?_append_left hlt, hget]
    have hsame : ∀ q, e.Known q → q.on_complete = some t → q = r := by
      rintro q ⟨t', ht', hq⟩ ht
      rw [ht] at ht'
      cases ht'
      rw [hget'] at hq
      exact (Option.some.inj hq).symm
    rcases one_place hacc t (known_lt hget') with ⟨hq, _⟩ | ⟨_, hs, _⟩ | ⟨_, _, hans⟩
    · -- what still waits was left by the drain, or came after it
      obtain ⟨q, hmem, ht⟩ := inQueue_pos_iff.mp (by omega : 0 < inQueue e.pending t)
      have hqr := hsame q (hacc.known q (List.mem_append_left _ hmem)) ht
      rw [hqueue] at hmem
      rcases List.mem_append.mp hmem with hmem | hmem
      · have hin_time := hnone q hmem
        rw [hqr] at hin_time
        omega
      · obtain ⟨t', ht', hle⟩ := hlate q hmem
        rw [ht] at ht'
        cases ht'
        exact absurd hlt (not_lt.mpr hle)
    · obtain ⟨sid, hocc, ht⟩ := inSlots_pos_iff.mp (by omega : 0 < e.slots.inSlots t)
      have hin_time := hslots sid hocc
      rw [hsame _ (hacc.known_slots sid hocc) ht] at hin_time
      omega
    · omega

/-- After `retire_expired` of an iteration, each late request that was
enqueued before the drain is answered if and only if the drain left no late
request behind in the queue. -/
theorem late_requests_are_answered_iff_none_is_left_in_the_queue (L : Llama) (cfg : EngineConfig)
    (as others : List Engine.Action) (env0 env : Engine.Env)
    (hd : ((engine L cfg).run as).place = .drain) (hothers : ∀ env', .tick env' ∉ others) :
    let e := (engine L cfg).run as
    let e' := (engine L cfg).run (as ++ .tick env0 :: others ++ [.tick env])
    (∀ t r, e.enqueued[t]? = some r → r.dueTime < env.now → 0 < e'.answered t) ↔
      ∀ r ∈ e.pending.drop e.slots.free_count.toNat, env.now ≤ r.dueTime := by
  intro e e'
  have hbooks := (balanced_run L cfg as).accounts
  have hacc : Accounts e' e'.place.drained := (balanced_run L cfg _).accounts
  obtain ⟨late, running, hnew, _, _, he'⟩ := iteration_cases L cfg as others env0 env hd hothers
  change e' = _ at he'
  have hshared := shared_admission L env.now (e.pending.take e.slots.free_count.toNat)
    (e.admitting e.slots.free_count.toNat late running)
  have hplace : e'.place.drained = [] := by
    rw [he']
    rfl
  rw [hplace] at hacc
  apply late_answered_iff hacc
  · rw [he']
    exact pending_of_shared hshared
  · rw [he']
    exact enqueued_of_shared hshared
  · intro r hr
    exact hbooks.known r (List.mem_append_left _ (List.mem_of_mem_drop hr))
  · exact hnew
  · intro sid hocc
    rw [he'] at hocc ⊢
    obtain ⟨hkept, hreq⟩ := retireExpired_holders env.now ((e.pending.take
      e.slots.free_count.toNat).foldl (Engine.admitOne L)
      (e.admitting e.slots.free_count.toNat late running)) sid
    exact (hreq hocc).symm ▸ (hkept.mp hocc).2

/-- Two requests on one slot. The first generates without end. The second
waits behind it until it is late. -/
def lateBehindLong : List Engine.Action :=
  [.enqueue { helloRequest with deadline := 60000 }, .enqueue helloRequest] ++
    List.replicate 7 (.tick ⟨1, .ok⟩)

/-- Six seconds later, the second request is one second late, and it still
waits after `retire_expired`. -/
theorem a_late_request_waits_behind_a_long_one :
    let M := engine (byteLlama fun _ => 104) { max_slots := 1 }
    let e := M.run lateBehindLong
    let e' := M.run (lateBehindLong ++ .tick ⟨1, .ok⟩ :: [] ++ [.tick ⟨6000000000, .ok⟩])
    e.place = .drain ∧
    ¬ ∀ t r, e.enqueued[t]? = some r → r.dueTime < 6000000000 → 0 < e'.answered t := by
  intro M e e'
  refine ⟨by decide +kernel, fun h => ?_⟩
  have hlate : e.enqueued[1]? = some { helloRequest with on_complete := some 1 } := by
    decide +kernel
  have hans : ¬ 0 < e'.answered 1 := by decide +kernel
  exact hans (h 1 _ hlate (by decide))

theorem late_requests_are_answered_iff_behind_long :
    let e := (engine (byteLlama fun _ => 104) { max_slots := 1 }).run lateBehindLong
    let e' := (engine (byteLlama fun _ => 104) { max_slots := 1 }).run
      (lateBehindLong ++ .tick ⟨1, .ok⟩ :: [] ++ [.tick ⟨6000000000, .ok⟩])
    (∀ t r, e.enqueued[t]? = some r → r.dueTime < 6000000000 → 0 < e'.answered t) ↔
      ∀ r ∈ e.pending.drop e.slots.free_count.toNat, 6000000000 ≤ r.dueTime :=
  late_requests_are_answered_iff_none_is_left_in_the_queue (byteLlama fun _ => 104)
    { max_slots := 1 } lateBehindLong [] ⟨1, .ok⟩ ⟨6000000000, .ok⟩ (by decide +kernel) (by simp)

/-! ## Empty slots -/

theorem active_length_lt (e : Engine n) :
    e.active.length < n ↔ ∃ sid, e.occupied sid = false := by
  have h := List.length_filter_lt_length_iff_exists (p := e.occupied) (l := List.finRange n)
  rw [List.length_finRange] at h
  unfold Engine.active
  rw [h]
  simp

/-- How many sequences the decode call has, if the thread stands at one. -/
def Place.batchSize : Place n → Option Nat
  | .decode call => some call.active.length
  | _ => none

theorem batchSize_some {p : Place n} {k : Nat} (h : p.batchSize = some k) :
    ∃ call, p = .decode call ∧ call.active.length = k := by
  cases p with
  | decode call => exact ⟨call, rfl, Option.some.inj h⟩
  | top | wait | drain | admission _ | collect _ | exited => cases h

/-- A decode call has the occupied slots in its batch. -/
theorem collect_active {e : Engine n} {call : DecodeCall n} (h : e.collect.place = .decode call) :
    call.active = e.active := by
  rcases e.collect_cases with ⟨_, he⟩ | ⟨_, _, he⟩ | ⟨_, _, he⟩
  · rw [he] at h
    cases h
  · rw [he] at h
    cases h
  · rw [he] at h
    cases h
    rfl

/-- The callers do not change which slots a decode call has in its batch. -/
theorem decode_active (L : Llama) (cfg : EngineConfig) {others : List Engine.Action}
    (hothers : ∀ v, .tick v ∉ others) {e : Engine n} {now : Int} (hp : e.place = .collect now)
    {env : Engine.Env} {call : DecodeCall n}
    (hcall : ((others.foldl (Engine.step L cfg) e).tick L cfg env).place = .decode call) :
    call.active = e.active := by
  obtain ⟨late, running, _, he⟩ := callers_between L cfg others hothers e
  generalize others.foldl (Engine.step L cfg) e = e' at he hcall
  have hp' : e'.place = .collect now := by
    rw [he]
    exact hp
  have hsame : e'.active = e.active := by
    rw [he]
    rfl
  rw [Engine.tick_collect L cfg env hp'] at hcall
  exact (collect_active hcall).trans hsame

/-- With more requests waiting than free slots, every slot is occupied after
`retire_expired` exactly when the tokenizer took each drained request, and no
request is late. -/
theorem all_seated_iff (L : Llama) (now : Int) {e e1 : Engine n} {l : List Request}
    (hacc : Accounts e1 l) (hfull : (l.length : Int) = e1.slots.free_count)
    (hslots : e1.slots = e.slots) :
    (∀ sid, ((l.foldl (Engine.admitOne L) e1).retireExpired now).occupied sid = true) ↔
      (∀ r ∈ l, promptOf L r.payload ≠ [] ∧ now ≤ r.dueTime) ∧
      ∀ sid, e.occupied sid = true → now ≤ (e.request sid).dueTime := by
  have hocc1 : ∀ sid, e1.occupied sid = e.occupied sid := by
    intro sid
    unfold Engine.occupied
    rw [hslots]
  have hreq1 : ∀ sid, e1.request sid = e.request sid := by
    intro sid
    unfold Engine.request
    rw [hslots]
  have hadm := admission_holders (L := L) l e1 hacc (by omega)
  have hcounted : (l.foldl (Engine.admitOne L) e1).slots.free_count =
      (l.foldl (Engine.admitOne L) e1).slots.freeSlots :=
    (accounts_admission L l e1 hacc (by omega)).counted
  generalize l.foldl (Engine.admitOne L) e1 = e2 at *
  have hcount := hadm.count
  constructor
  · intro hall
    have hboth := fun sid => ((retireExpired_holders now e2 sid).1.mp (hall sid))
    have hzero : e2.slots.freeSlots = 0 := by
      rw [KVSlotManager.freeSlots_eq_zero]
      exact fun sid => (hboth sid).1
    refine ⟨?_, ?_⟩
    · intro r hr
      have hnone : l.countP (fun r => promptOf L r.payload = []) = 0 := by omega
      have hsome : promptOf L r.payload ≠ [] := by
        rw [List.countP_eq_zero] at hnone
        simpa using hnone r hr
      obtain ⟨sid, _, hreq⟩ := hadm.seated r hr hsome
      exact ⟨hsome, hreq ▸ (hboth sid).2⟩
    · intro sid hocc
      obtain ⟨_, hreq⟩ := hadm.kept sid ((hocc1 sid).trans hocc)
      rw [hreq1] at hreq
      exact hreq ▸ (hboth sid).2
  · rintro ⟨hdrained, hseated⟩ sid
    have hnone : l.countP (fun r => promptOf L r.payload = []) = 0 := by
      rw [List.countP_eq_zero]
      intro r hr
      simpa using (hdrained r hr).1
    have hocc : e2.occupied sid = true := by
      apply (KVSlotManager.freeSlots_eq_zero e2.slots).mp
      omega
    refine (retireExpired_holders now e2 sid).1.mpr ⟨hocc, ?_⟩
    rcases hadm.holder sid hocc with ⟨hold, hreq⟩ | hmem
    · rw [hreq, hreq1]
      exact hseated sid ((hocc1 sid).symm.trans hold)
    · exact (hdrained _ hmem).2

/-- A decode call with a free slot finds the queue of its drain empty in
exactly two cases: there was a free slot for each waiting request, or the
tokenizer took each drained request and nobody was late. Only then can no
request wait while a slot stays empty through a decode. -/
theorem no_slot_stays_empty_iff (L : Llama) (cfg : EngineConfig)
    (as others others' : List Engine.Action) (env0 env env' : Engine.Env)
    (hd : ((engine L cfg).run as).place = .drain) (hothers : ∀ v, .tick v ∉ others)
    (hothers' : ∀ v, .tick v ∉ others') (call : DecodeCall cfg.max_slots)
    (hcall : ((engine L cfg).run
      (as ++ .tick env0 :: others ++ [.tick env] ++ others' ++ [.tick env'])).place =
        .decode call) :
    let e := (engine L cfg).run as
    let k := e.slots.free_count.toNat
    (call.active.length < cfg.max_slots →
      ((engine L cfg).run (as ++ [.tick env0])).pending = []) ↔
      e.pending.length ≤ k ∨
      (∀ r ∈ e.pending.take k, promptOf L r.payload ≠ [] ∧ env.now ≤ r.dueTime) ∧
      ∀ sid, e.occupied sid = true → env.now ≤ (e.request sid).dueTime := by
  intro e k
  have hbooks := (balanced_run L cfg as).accounts
  obtain ⟨late, running, _, hbal, _, he2⟩ := iteration_cases L cfg as others env0 env hd hothers
  have hdrain : ((engine L cfg).run (as ++ [.tick env0])).pending = e.pending.drop k := by
    rw [run_snoc]
    exact congrArg Engine.pending (Engine.tick_drain L cfg env0 hd)
  have hnonneg := hbooks.free_nonneg
  have hacc : Accounts (e.admitting k late running) (e.pending.take k) := hbal.accounts
  rw [run_snoc, run_append, he2] at hcall
  have hactive := decode_active L cfg hothers' rfl hcall
  have hlt : call.active.length < cfg.max_slots ↔ ∃ sid, (((e.pending.take k).foldl
      (Engine.admitOne L) (e.admitting k late running)).retireExpired env.now).occupied sid =
        false := by
    rw [hactive]
    exact active_length_lt _
  rw [hlt, hdrain, List.drop_eq_nil_iff]
  by_cases hle : e.pending.length ≤ k
  · simp [hle]
  · have hfull : ((e.pending.take k).length : Int) =
        (e.admitting k late running).slots.free_count := by
      rw [List.length_take, Nat.min_eq_left (by omega)]
      exact Int.toNat_of_nonneg hnonneg
    have hall := all_seated_iff L env.now (e := e) hacc hfull rfl
    simp only [hle, imp_false, not_exists, Bool.not_eq_false, false_or]
    exact hall

/-- Three requests on two slots. The first generates without end, and the
second is late when it is admitted. -/
def lateInFront : List Engine.Action :=
  [.enqueue { helloRequest with deadline := 60000 }, .enqueue { helloRequest with deadline := 0 },
    .enqueue helloRequest, .tick ⟨0, .ok⟩, .tick ⟨0, .ok⟩]

/-- The second request leaves its slot before the decode, and the third one
waits through it. -/
theorem a_slot_stays_empty_behind_a_late_request :
    let M := engine (byteLlama fun _ => 104) { max_slots := 2 }
    let e := M.run (lateInFront ++ .tick ⟨0, .ok⟩ :: [] ++ [.tick ⟨1, .ok⟩] ++ [] ++
      [.tick ⟨1, .ok⟩])
    (M.run lateInFront).place = .drain ∧
    ∃ call, e.place = .decode call ∧ ¬ (call.active.length < 2 →
      (M.run (lateInFront ++ [.tick ⟨0, .ok⟩])).pending = []) := by
  intro M e
  have hsize : e.place.batchSize = some 1 := by decide +kernel
  have hwaits : (M.run (lateInFront ++ [.tick ⟨0, .ok⟩])).pending ≠ [] := by decide +kernel
  obtain ⟨call, hcall, hlen⟩ := batchSize_some hsize
  exact ⟨by decide +kernel, call, hcall, fun h => hwaits (h (by omega))⟩

theorem no_slot_stays_empty_iff_late_in_front :
    let M := engine (byteLlama fun _ => 104) { max_slots := 2 }
    let e := M.run lateInFront
    let e' := M.run (lateInFront ++ .tick ⟨0, .ok⟩ :: [] ++ [.tick ⟨1, .ok⟩] ++ [] ++
      [.tick ⟨1, .ok⟩])
    let k := e.slots.free_count.toNat
    ∃ call : DecodeCall 2, e'.place = .decode call ∧
      ((call.active.length < 2 →
        (M.run (lateInFront ++ [.tick ⟨0, .ok⟩])).pending = []) ↔
      e.pending.length ≤ k ∨
      (∀ r ∈ e.pending.take k, promptOf (byteLlama fun _ => 104) r.payload ≠ [] ∧
        1 ≤ r.dueTime) ∧
      ∀ sid, e.occupied sid = true → 1 ≤ (e.request sid).dueTime) := by
  intro M e e' k
  have hsize : e'.place.batchSize = some 1 := by decide +kernel
  obtain ⟨call, hcall, _⟩ := batchSize_some hsize
  exact ⟨call, hcall, no_slot_stays_empty_iff (byteLlama fun _ => 104) { max_slots := 2 }
    lateInFront [] [] ⟨0, .ok⟩ ⟨1, .ok⟩ ⟨1, .ok⟩ (by decide +kernel) (by simp) (by simp) call hcall⟩

end inference_server
