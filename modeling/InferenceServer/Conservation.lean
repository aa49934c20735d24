-- No request is lost and none is answered twice. Each request that was ever
-- enqueued is in the queue, in the drained vector, in one slot, or answered,
-- and the count of free slots is right through every step.
import InferenceServer.EngineSteps

namespace inference_server

open machine

variable {n : Nat}

/-! ## Where a request can be -/

/-- How many requests of a list carry the promise `t`. -/
def inQueue (rs : List Request) (t : Nat) : Nat := rs.countP (fun r => r.on_complete = some t)

/-- 1 when the slot is occupied by a request with the promise `t`. -/
def Slot.holds (s : Slot) (t : Nat) : Nat :=
  if s.occupied ∧ s.request.on_complete = some t then 1 else 0

/-- How many occupied slots hold a request with the promise `t`. -/
def KVSlotManager.inSlots (m : KVSlotManager n) (t : Nat) : Nat := ∑ i, (m.slots i).holds t

/-- The event is a call of `on_complete` on the promise `t`. -/
def Event.answers (t : Nat) : Event n → Bool
  | .completed promise _ _ => promise = t
  | _ => false

/-- How often `on_complete` of the promise `t` was called. -/
def Engine.answered (e : Engine n) (t : Nat) : Nat := e.trace.countP (Event.answers t)

/-- The request was enqueued, and its promise says where. -/
def Engine.Known (e : Engine n) (r : Request) : Prop :=
  ∃ t, r.on_complete = some t ∧ e.enqueued[t]? = some r

theorem known_lt {e : Engine n} {r : Request} {t : Nat} (h : e.enqueued[t]? = some r) :
    t < e.enqueued.length := by
  by_contra hc
  rw [List.getElem?_eq_none (by omega)] at h
  cases h

theorem inQueue_append (rs qs : List Request) (t : Nat) :
    inQueue (rs ++ qs) t = inQueue rs t + inQueue qs t := List.countP_append

theorem inQueue_cons (r : Request) (rs : List Request) (t : Nat) :
    inQueue (r :: rs) t = inQueue rs t + if r.on_complete = some t then 1 else 0 := by
  simp [inQueue, List.countP_cons]

@[simp] theorem inQueue_nil (t : Nat) : inQueue [] t = 0 := rfl

theorem inSlots_update (m : KVSlotManager n) (i : Fin n) (s : Slot) (c : Int) (t : Nat) :
    KVSlotManager.inSlots ⟨Function.update m.slots i s, c⟩ t + (m.slots i).holds t =
      m.inSlots t + s.holds t :=
  sum_update m.slots i s (fun s : Slot => s.holds t)

@[simp] theorem holds_free (t : Nat) : Slot.holds {} t = 0 := by simp [Slot.holds]

theorem holds_of_free {s : Slot} (h : s.occupied = false) (t : Nat) : s.holds t = 0 := by
  simp [Slot.holds, h]

theorem holds_of_occupied {s : Slot} (h : s.occupied = true) (t : Nat) :
    s.holds t = if s.request.on_complete = some t then 1 else 0 := by
  simp [Slot.holds, h]

theorem inQueue_pos_iff {rs : List Request} {t : Nat} :
    0 < inQueue rs t ↔ ∃ r ∈ rs, r.on_complete = some t := by
  simp [inQueue, List.countP_pos_iff]

theorem inSlots_pos_iff {m : KVSlotManager n} {t : Nat} : 0 < m.inSlots t ↔
    ∃ i, (m.slots i).occupied = true ∧ (m.slots i).request.on_complete = some t := by
  constructor
  · intro h
    by_contra hc
    have hzero : m.inSlots t = 0 := by
      apply Finset.sum_eq_zero
      intro i _
      exact if_neg (fun hi => hc ⟨i, hi⟩)
    omega
  · rintro ⟨i, hi⟩
    apply Finset.sum_pos'
    · simp
    · exact ⟨i, Finset.mem_univ i, by simp [Slot.holds, hi]⟩

/-! ## The invariant -/

/-- The books of the engine, with `drained` the requests that left the queue
and did not reach a slot yet. -/
structure Accounts (e : Engine n) (drained : List Request) : Prop where
  counted : e.slots.Counted
  ledger : ∀ t, inQueue e.pending t + inQueue drained t + e.slots.inSlots t + e.answered t =
    if t < e.enqueued.length then 1 else 0
  known : ∀ r ∈ e.pending ++ drained, e.Known r
  known_slots : ∀ sid, e.occupied sid = true → e.Known (e.request sid)
  released : ∀ sid occ, .released sid occ ∈ e.trace → occ = true
  acquired : ∀ r, .acquireFailed r ∉ e.trace

/-- The books only look at who holds the slots, the queue and the two
records. -/
theorem Accounts.congr {e e' : Engine n} {l : List Request} (h : Accounts e l)
    (hs : KVSlotManager.SameHolders e.slots e'.slots) (hp : e'.pending = e.pending)
    (hq : e'.enqueued = e.enqueued) (ht : e'.trace = e.trace) : Accounts e' l := by
  obtain ⟨g1, g2, g3, g4, g5, g6⟩ := h
  refine ⟨hs.counted g1, ?_, ?_, ?_, by rw [ht]; exact g5, by rw [ht]; exact g6⟩
  · intro t
    have hslots : e'.slots.inSlots t = e.slots.inSlots t := by
      simp [KVSlotManager.inSlots, Slot.holds, hs.occupied, hs.request]
    have hans : e'.answered t = e.answered t := by
      unfold Engine.answered
      rw [ht]
    rw [hslots, hp, hq, hans]
    exact g2 t
  · unfold Engine.Known at *
    rw [hp, hq]
    exact g3
  · intro sid hocc
    unfold Engine.Known Engine.occupied Engine.request at *
    rw [hs.occupied] at hocc
    rw [hs.request, hq]
    exact g4 sid hocc

/-- An event that is no answer, no release and no failed acquire changes
nothing in the books. -/
theorem Accounts.log {e : Engine n} {l : List Request} (h : Accounts e l) (ev : Event n)
    (h1 : ∀ t, ev.answers t = false) (h2 : ∀ sid occ, ev ≠ .released sid occ)
    (h3 : ∀ r, ev ≠ .acquireFailed r) : Accounts (e.log ev) l := by
  obtain ⟨g1, g2, g3, g4, g5, g6⟩ := h
  refine ⟨g1, ?_, g3, g4, ?_, ?_⟩
  · intro t
    have hans : (e.log ev).answered t = e.answered t := by
      simp [Engine.log, Engine.answered, List.countP_append, h1 t]
    rw [hans]
    exact g2 t
  · intro sid occ hm
    simp only [Engine.log, List.mem_append, List.mem_singleton] at hm
    rcases hm with hm | hm
    · exact g5 sid occ hm
    · exact absurd hm.symm (h2 sid occ)
  · intro r hm
    simp only [Engine.log, List.mem_append, List.mem_singleton] at hm
    rcases hm with hm | hm
    · exact g6 r hm
    · exact absurd hm.symm (h3 r)

/-! ## One answer -/

/-- A slot that is answered and released at once. The request moves from the
slots to the answers. -/
theorem Accounts.answer {e e' : Engine n} {l : List Request} (h : Accounts e l) (sid : Fin n)
    (exit : Exit) (result : Bytes) (hocc : e.occupied sid = true)
    (hs : e'.slots = e.slots.release sid) (hp : e'.pending = e.pending)
    (hq : e'.enqueued = e.enqueued)
    (ht : e'.trace = (e.complete (e.request sid) exit result).trace ++ [.released sid true]) :
    Accounts e' l := by
  obtain ⟨g1, g2, g3, g4, g5, g6⟩ := h
  obtain ⟨p, hp', _⟩ := g4 sid hocc
  have htrace : e'.trace = e.trace ++ [.completed p exit result, .released sid true] := by
    rw [ht, Engine.complete_eq, hp']
    simp
  refine ⟨by rw [hs]; exact KVSlotManager.counted_release _ _ g1 hocc, ?_, ?_, ?_, ?_, ?_⟩
  · intro t
    have hsum := inSlots_update e.slots sid {} (e.slots.free_count + 1) t
    rw [holds_of_occupied hocc, holds_free] at hsum
    have hslots : e'.slots.inSlots t = KVSlotManager.inSlots
        ⟨Function.update e.slots.slots sid {}, e.slots.free_count + 1⟩ t := by rw [hs]; rfl
    have hans : e'.answered t = e.answered t + if p = t then 1 else 0 := by
      unfold Engine.answered
      rw [htrace, List.countP_append]
      simp [List.countP_cons, Event.answers]
    have hreq : (if (e.slots.slots sid).request.on_complete = some t then 1 else 0) =
        if p = t then 1 else 0 := by
      have : (e.slots.slots sid).request.on_complete = some p := hp'
      simp [this]
    have := g2 t
    rw [hp, hq, hans, hslots]
    omega
  · unfold Engine.Known at *
    rw [hp, hq]
    exact g3
  · intro j hj
    unfold Engine.Known Engine.occupied Engine.request at *
    rw [hs] at hj ⊢
    rw [hq]
    unfold KVSlotManager.release at *
    by_cases hij : j = sid
    · subst hij
      simp at hj
    · simp only [Function.update_of_ne hij] at hj ⊢
      exact g4 j hj
  · intro j occ hm
    rw [htrace, List.mem_append] at hm
    rcases hm with hm | hm
    · exact g5 j occ hm
    · simp at hm
      exact hm.2
  · intro r hm
    rw [htrace, List.mem_append] at hm
    rcases hm with hm | hm
    · exact g6 r hm
    · simp at hm

/-- The same for a slot that is retired. -/
theorem Accounts.retire {e : Engine n} {l : List Request} (h : Accounts e l) (sid : Fin n)
    (exit : Exit) (result : Bytes) (hocc : e.occupied sid = true) :
    Accounts (e.answer sid exit result) l := by
  unfold Engine.answer
  exact h.answer sid exit result hocc (by simp) (by simp) (by simp) (by simp [hocc])

theorem accounts_retireExpiredTurn (now : Int) (e : Engine n) (sid : Fin n) (l : List Request)
    (h : Accounts e l) : Accounts (e.retireExpiredTurn now sid) l := by
  rcases e.retireExpiredTurn_cases now sid with ⟨_, he⟩ | ⟨hocc, _, he⟩
  · rw [he]
    exact h
  · rw [he]
    have hcount : Accounts (e.countExpired.countTotalFor sid) l := h.congr (.refl _) rfl rfl rfl
    exact hcount.retire sid _ _ hocc

theorem accounts_decodeFailedTurn (e : Engine n) (sid : Fin n) (l : List Request)
    (h : Accounts e l) : Accounts (e.decodeFailedTurn sid) l := by
  rcases e.decodeFailedTurn_cases sid with ⟨_, he⟩ | ⟨hocc, he⟩
  · rw [he]
    exact h
  · rw [he]
    have hcount : Accounts (e.countTotalFor sid) l := h.congr (.refl _) rfl rfl rfl
    exact hcount.retire sid _ _ hocc

/-! ## The sampling loop -/

theorem sameHolders_append (L : Llama) (e : Engine n) (sid : Fin n) (tok : Token) :
    KVSlotManager.SameHolders e.slots (e.append L sid tok).slots :=
  KVSlotManager.sameHolders_modify e.slots sid (fun s => { s with last_token := tok }) rfl rfl

theorem sameHolders_took (L : Llama) (e : Engine n) (sid : Fin n) (tok : Token) :
    KVSlotManager.SameHolders e.slots (e.took L sid tok).slots := by
  unfold Engine.took
  split
  · exact .refl _
  · exact sameHolders_append L (e.log (.sampled sid tok)) sid tok

theorem accounts_took (L : Llama) {e : Engine n} {l : List Request} (h : Accounts e l)
    (sid : Fin n) (tok : Token) : Accounts (e.took L sid tok) l := by
  have hlog : Accounts (e.log (.sampled sid tok)) l := h.log _ (fun _ => rfl) (by simp) (by simp)
  unfold Engine.took
  split
  · exact hlog
  · exact hlog.congr (sameHolders_append L (e.log (.sampled sid tok)) sid tok) rfl rfl rfl

theorem accounts_sampleTurn (L : Llama) (cfg : EngineConfig) (cells : List (Cell n))
    (call : DecodeCall n) (e : Engine n) (sid : Fin n) (l : List Request) (h : Accounts e l) :
    Accounts (e.sampleTurn L cfg cells call sid) l := by
  rcases e.sampleTurn_cases L cfg cells call sid with ⟨_, he⟩ | ⟨hocc, _, he⟩ | ⟨_, _, he⟩
  · rw [he]
    exact h
  · rw [he]
    generalize llamaSamplerSample L cells call.batch (call.logit_pos sid) = tok
    have hcount : Accounts ((e.took L sid tok).countTotalFor sid) l :=
      (accounts_took L h sid tok).congr (.refl _) rfl rfl rfl
    exact hcount.retire sid _ _ (((sameHolders_took L e sid tok).occupied sid).trans hocc)
  · rw [he]
    exact accounts_took L h sid _

/-! ## Admission -/

/-- A request that takes a free slot moves from the drained vector to it. -/
theorem accounts_seat {e : Engine n} {req : Request} {l : List Request}
    (h : Accounts e (req :: l)) (i : Fin n) (hfree : e.occupied i = false) :
    Accounts (e.seat i req) l := by
  obtain ⟨g1, g2, g3, g4, g5, g6⟩ := h
  have hold : ∀ t, (e.slots.slots i).holds t = 0 := holds_of_free hfree
  refine ⟨?_, ?_, ?_, ?_, g5, g6⟩
  · exact KVSlotManager.counted_take _ req g1 hfree
  · intro t
    have hsum := inSlots_update e.slots i (.taken req) (e.slots.free_count - 1) t
    rw [hold, holds_of_occupied (Slot.taken_occupied req)] at hsum
    have hold_books := g2 t
    rw [inQueue_cons] at hold_books
    rw [Slot.taken_request] at hsum
    change inQueue e.pending t + inQueue l t + KVSlotManager.inSlots
      ⟨Function.update e.slots.slots i (.taken req), e.slots.free_count - 1⟩ t + e.answered t =
      if t < e.enqueued.length then 1 else 0
    omega
  · intro r hr
    simp only [List.mem_append] at hr
    exact g3 r (by simp only [List.mem_append, List.mem_cons]; tauto)
  · intro j hj
    unfold Engine.occupied Engine.request Engine.seat at *
    by_cases hij : j = i
    · subst hij
      simp only [Function.update_self, Slot.taken_request]
      exact g3 req (by simp)
    · simp only [Function.update_of_ne hij] at hj ⊢
      exact g4 j hj

/-- One turn of the admit loop, with room for all that are left. The turn
leaves room for the rest. -/
theorem accounts_admitOne (L : Llama) (e : Engine n) (req : Request) (l : List Request)
    (h : Accounts e (req :: l)) (hroom : ((req :: l).length : Int) ≤ e.slots.free_count) :
    Accounts (e.admitOne L req) l ∧ (l.length : Int) ≤ (e.admitOne L req).slots.free_count := by
  simp only [List.length_cons] at hroom
  obtain ⟨i, hfree, hacq⟩ := e.slots.acquire_some req h.counted (by omega)
  have hnew : Accounts ((e.seat i req).log (.acquired i req)) l :=
    (accounts_seat h i hfree).log _ (fun _ => rfl) (by simp) (by simp)
  have he1 : e.admitOne L req = Engine.admitTo L ((e.seat i req).log (.acquired i req)) i := by
    unfold Engine.admitOne
    rw [hacq]
    rfl
  have hcount : ((e.seat i req).log (.acquired i req)).slots.free_count =
      e.slots.free_count - 1 := rfl
  have hocc : ((e.seat i req).log (.acquired i req)).occupied i = true := by
    simp [Engine.occupied, Engine.log, Engine.seat]
  rw [he1]
  generalize (e.seat i req).log (.acquired i req) = e1 at *
  unfold Engine.admitTo
  simp only
  split
  · refine ⟨hnew.answer i .tokenization_failed
      (bytes "\x7b\"error\":\"tokenization_failed\"\x7d") hocc ?_ ?_ ?_ ?_, ?_⟩
    · simp [Engine.setPrompt]
    · simp [Engine.setPrompt]
    · simp [Engine.setPrompt]
    · have hset : ∀ toks, (e1.setPrompt i toks).occupied i = true := fun _ => hocc
      rw [Engine.release_trace, Engine.complete_occupied, hset, Engine.complete_eq,
        Engine.complete_eq]
      rfl
    · simp only [Engine.release_slots, Engine.complete_slots, Engine.setPrompt,
        KVSlotManager.release]
      omega
  · refine ⟨hnew.congr (KVSlotManager.SameHolders.refl _) rfl rfl rfl, ?_⟩
    simp only [Engine.setPrompt]
    omega

theorem accounts_admission (L : Llama) (l : List Request) (e : Engine n) (h : Accounts e l)
    (hroom : (l.length : Int) ≤ e.slots.free_count) :
    Accounts (l.foldl (Engine.admitOne L) e) [] := by
  induction l generalizing e with
  | nil => exact h
  | cons req l ih =>
    obtain ⟨h1, h2⟩ := accounts_admitOne L e req l h hroom
    exact ih _ h1 h2

/-! ## One tick -/

theorem sameHolders_turn (e : Engine n) (b : Build n) (sid : Fin n) :
    KVSlotManager.SameHolders b.slots (Build.turn e b sid).slots := by
  unfold Build.turn
  split
  · have hslots := loop_same Build.slots (Build.prefillTurn sid (e.prompt_tokens sid).length)
      (fun _ _ => rfl) (e.prompt_tokens sid).zipIdx b
    simp only [hslots]
    exact KVSlotManager.sameHolders_modify b.slots sid
      (fun s => { s with kv_pos := (e.prompt_tokens sid).length }) rfl rfl
  · exact KVSlotManager.sameHolders_modify b.slots sid
      (fun s => { s with kv_pos := s.kv_pos + 1 }) rfl rfl

/-- The build loop moves `kv_pos` only. -/
theorem sameHolders_build (e : Engine n) : KVSlotManager.SameHolders e.slots e.build.slots := by
  unfold Engine.build
  apply List.foldlRecOn (motive := fun b : Build n => KVSlotManager.SameHolders e.slots b.slots)
  · exact KVSlotManager.SameHolders.refl _
  · intro b hb sid _
    exact hb.trans (sameHolders_turn e b sid)

theorem accounts_retireExpired (now : Int) (e : Engine n) (l : List Request) (h : Accounts e l) :
    Accounts (e.retireExpired now) l := by
  unfold Engine.retireExpired
  apply List.foldlRecOn (motive := fun e => Accounts e l)
  · exact h
  · intro e he sid _
    exact accounts_retireExpiredTurn now e sid l he

theorem accounts_collect (e : Engine n) (l : List Request) (h : Accounts e l) :
    Accounts e.collect l := by
  rcases e.collect_cases with ⟨_, he⟩ | ⟨_, _, he⟩ | ⟨_, _, he⟩
  · rw [he]
    exact h.congr (.refl _) rfl rfl rfl
  · rw [he]
    exact h.congr (.refl _) rfl rfl rfl
  · rw [he]
    have hlog : Accounts (e.log (.submitted e.build.batch)) l :=
      h.log _ (fun _ => rfl) (by simp) (by simp)
    exact hlog.congr (sameHolders_build e) rfl rfl rfl

theorem accounts_decoded (L : Llama) (cfg : EngineConfig) (e : Engine n) (call : DecodeCall n)
    (o : DecodeOutcome) (l : List Request) (h : Accounts e l) :
    Accounts (e.decoded L cfg call o) l := by
  apply Engine.decoded_keeps (P := fun e => Accounts e l)
  · exact fun _ => h.congr (.refl _) rfl rfl rfl
  · exact fun cells e sid he => accounts_sampleTurn L cfg cells call e sid l he
  · exact fun e sid he => accounts_decodeFailedTurn e sid l he
  · exact fun _ _ _ he => he.congr (.refl _) rfl rfl rfl

/-- The requests that the drained vector holds at a place of the loop. -/
def Place.drained : Place n → List Request
  | .admission toAdmit => toAdmit
  | _ => []

theorem boundary_drained {p : Place n} (h : p.boundary = true) : p.drained = [] := by
  cases p <;> simp_all [Place.boundary, Place.drained]

theorem movesTo_drained {e : Engine n} {p : Place n} (h : e.MovesTo p) : p.drained = [] := by
  rcases h with ⟨rfl, _⟩ | rfl | ⟨rfl, _⟩
  all_goals rfl

/-- The books at any point of a run, with a free slot for each drained
request. -/
structure Balanced (e : Engine n) : Prop where
  accounts : Accounts e e.place.drained
  room : (e.place.drained.length : Int) ≤ e.slots.free_count

theorem balanced_new (n : Nat) : Balanced (Engine.new n) := by
  refine ⟨⟨KVSlotManager.counted_new, ?_, ?_, ?_, ?_, ?_⟩, ?_⟩
  · intro t
    simp [Engine.new, Place.drained, KVSlotManager.inSlots, KVSlotManager.new, Slot.holds,
      Engine.answered]
  · simp [Engine.new, Place.drained]
  · simp [Engine.new, Engine.occupied, KVSlotManager.new]
  · simp [Engine.new]
  · simp [Engine.new]
  · simp [Engine.new, Place.drained, KVSlotManager.new]

theorem Accounts.free_nonneg {e : Engine n} {l : List Request} (h : Accounts e l) :
    0 ≤ e.slots.free_count := by
  have := h.counted
  unfold KVSlotManager.Counted at this
  omega

/-- The engine thread moved to a place with no drained vector. -/
theorem balanced_place {e : Engine n} (p : Place n) (hp : p.drained = []) (h : Accounts e []) :
    Balanced { e with place := p } := by
  refine ⟨?_, ?_⟩
  · simp only [hp]
    exact h.congr (.refl _) rfl rfl rfl
  · simpa [hp] using h.free_nonneg

theorem collect_drained (e : Engine n) : e.collect.place.drained = [] := by
  rcases e.collect_cases with ⟨_, he⟩ | ⟨_, _, he⟩ | ⟨_, _, he⟩
  all_goals
    rw [he]
    rfl

theorem decoded_drained (L : Llama) (cfg : EngineConfig) (e : Engine n) (call : DecodeCall n)
    (o : DecodeOutcome) : (e.decoded L cfg call o).place.drained = [] := by
  cases o <;> rfl

/-- The drained vector of a tick holds what the queue lost. -/
theorem accounts_drain {e : Engine n} (h : Accounts e []) (k : Nat) (p : Place n) :
    Accounts { e with pending := e.pending.drop k, place := p } (e.pending.take k) := by
  obtain ⟨g1, g2, g3, g4, g5, g6⟩ := h
  refine ⟨g1, ?_, ?_, g4, g5, g6⟩
  · intro t
    have hsplit : inQueue e.pending t = inQueue (e.pending.take k) t +
        inQueue (e.pending.drop k) t := by
      rw [← inQueue_append, List.take_append_drop]
    have hold_books := g2 t
    simp only [inQueue_nil] at hold_books ⊢
    unfold Engine.answered at *
    simp only
    omega
  · intro r hr
    rw [List.mem_append] at hr
    apply g3 r
    apply List.mem_append_left
    rcases hr with hr | hr
    · exact List.mem_of_mem_drop hr
    · exact List.mem_of_mem_take hr

theorem balanced_tick (L : Llama) (cfg : EngineConfig) (e : Engine n) (env : Engine.Env)
    (h : Balanced e) : Balanced (e.tick L cfg env) := by
  have hacc := h.accounts
  have hroom := h.room
  rcases e.tick_cases L cfg env with ⟨hb, p, hp, he⟩ | ⟨hp, he⟩ | ⟨toAdmit, hp, he⟩ |
    ⟨now, hp, he⟩ | ⟨call, hp, he⟩
  · rw [boundary_drained hb] at hacc
    rw [he]
    exact balanced_place p (movesTo_drained hp) hacc
  · rw [hp] at hacc
    rw [he]
    refine ⟨accounts_drain hacc _ _, ?_⟩
    have hnonneg := hacc.free_nonneg
    simp only [Place.drained, List.length_take]
    omega
  · rw [hp] at hacc hroom
    rw [he]
    exact balanced_place (.collect env.now) rfl
      (accounts_retireExpired env.now _ _ (accounts_admission L toAdmit e hacc hroom))
  · rw [hp] at hacc
    rw [he]
    have hc := accounts_collect e [] hacc
    exact ⟨by rw [collect_drained]; exact hc, by simpa [collect_drained] using hc.free_nonneg⟩
  · rw [hp] at hacc
    rw [he]
    have hd := accounts_decoded L cfg e call env.decode [] hacc
    exact ⟨by rw [decoded_drained]; exact hd, by simpa [decoded_drained] using hd.free_nonneg⟩

/-! ## What only other threads write -/

/-- The requests ever enqueued, and `running_`. -/
def Engine.inputs (e : Engine n) : List Request × Bool := (e.enqueued, e.running)

/-- What the engine thread shares with its callers: the queue too. Outside
of the drain the thread leaves all of it alone. -/
def Engine.shared (e : Engine n) : List Request × List Request × Bool := (e.pending, e.inputs)

theorem pending_of_shared {e e' : Engine n} (h : e'.shared = e.shared) :
    e'.pending = e.pending := congrArg Prod.fst h

theorem enqueued_of_shared {e e' : Engine n} (h : e'.shared = e.shared) :
    e'.enqueued = e.enqueued := congrArg (fun s => s.2.1) h

@[simp] theorem shared_complete (e : Engine n) (req : Request) (exit : Exit) (result : Bytes) :
    (e.complete req exit result).shared = e.shared := by
  simp [Engine.shared, Engine.inputs]

theorem shared_answer (e : Engine n) (sid : Fin n) (exit : Exit) (result : Bytes) :
    (e.answer sid exit result).shared = e.shared :=
  shared_complete e (e.request sid) exit result

theorem shared_took (L : Llama) (e : Engine n) (sid : Fin n) (tok : Token) :
    (e.took L sid tok).shared = e.shared := by
  unfold Engine.took
  split <;> rfl

theorem shared_admitOne (L : Llama) (e : Engine n) (req : Request) :
    (e.admitOne L req).shared = e.shared := by
  rcases e.admitOne_cases L req with ⟨i, _, he⟩ | ⟨_, he⟩
  · rw [he]
    unfold Engine.admitTo
    simp only
    split
    · exact shared_complete _ _ _ _
    · rfl
  · rw [he]
    rfl

theorem shared_retireExpiredTurn (now : Int) (e : Engine n) (sid : Fin n) :
    (e.retireExpiredTurn now sid).shared = e.shared := by
  rcases e.retireExpiredTurn_cases now sid with ⟨_, he⟩ | ⟨_, _, he⟩
  · rw [he]
  · rw [he, shared_answer]
    rfl

theorem shared_decodeFailedTurn (e : Engine n) (sid : Fin n) :
    (e.decodeFailedTurn sid).shared = e.shared := by
  rcases e.decodeFailedTurn_cases sid with ⟨_, he⟩ | ⟨_, he⟩
  · rw [he]
  · rw [he, shared_answer]
    rfl

theorem shared_sampleTurn (L : Llama) (cfg : EngineConfig) (cells : List (Cell n))
    (call : DecodeCall n) (e : Engine n) (sid : Fin n) :
    (e.sampleTurn L cfg cells call sid).shared = e.shared := by
  rcases e.sampleTurn_cases L cfg cells call sid with ⟨_, he⟩ | ⟨_, _, he⟩ | ⟨_, _, he⟩
  · rw [he]
  · rw [he, shared_answer]
    exact shared_took L e sid _
  · rw [he, shared_took]

theorem shared_admission (L : Llama) (now : Int) (l : List Request) (e : Engine n) :
    ((l.foldl (Engine.admitOne L) e).retireExpired now).shared = e.shared :=
  (loop_same Engine.shared _ (shared_retireExpiredTurn now) _ _).trans
    (loop_same Engine.shared _ (shared_admitOne L) _ _)

theorem shared_collect (e : Engine n) : e.collect.shared = e.shared := by
  rcases e.collect_cases with ⟨_, he⟩ | ⟨_, _, he⟩ | ⟨_, _, he⟩
  all_goals
    rw [he]
    rfl

theorem shared_decoded (L : Llama) (cfg : EngineConfig) (e : Engine n) (call : DecodeCall n)
    (o : DecodeOutcome) : (e.decoded L cfg call o).shared = e.shared := by
  apply Engine.decoded_keeps (P := fun e' => e'.shared = e.shared)
  · exact fun _ => rfl
  · exact fun cells e' sid he => (shared_sampleTurn L cfg cells call e' sid).trans he
  · exact fun e' sid he => (shared_decodeFailedTurn e' sid).trans he
  · exact fun _ _ _ he => he

/-- A tick leaves the queue alone, or it is the drain. -/
theorem tick_shared (L : Llama) (cfg : EngineConfig) (e : Engine n) (env : Engine.Env) :
    (e.place = .drain ∧ (e.tick L cfg env).shared =
      (e.pending.drop e.slots.free_count.toNat, e.inputs)) ∨
    (e.tick L cfg env).shared = e.shared := by
  rcases e.tick_cases L cfg env with ⟨_, p, _, he⟩ | ⟨hp, he⟩ | ⟨toAdmit, _, he⟩ | ⟨_, _, he⟩ |
    ⟨call, _, he⟩
  · rw [he]
    exact Or.inr rfl
  · rw [he]
    exact Or.inl ⟨hp, rfl⟩
  · rw [he]
    exact Or.inr (shared_admission L env.now toAdmit e)
  · rw [he]
    exact Or.inr (shared_collect e)
  · rw [he]
    exact Or.inr (shared_decoded L cfg e call env.decode)

theorem inputs_tick (L : Llama) (cfg : EngineConfig) (e : Engine n) (env : Engine.Env) :
    (e.tick L cfg env).inputs = e.inputs := by
  rcases tick_shared L cfg e env with ⟨_, he⟩ | he
  · exact congrArg Prod.snd he
  · exact congrArg Prod.snd he

/-- The engine thread enqueues nothing. -/
theorem tick_enqueued (L : Llama) (cfg : EngineConfig) (e : Engine n) (env : Engine.Env) :
    (e.tick L cfg env).enqueued = e.enqueued := congrArg Prod.fst (inputs_tick L cfg e env)

/-- The engine thread does not write `running_`. -/
theorem tick_running (L : Llama) (cfg : EngineConfig) (e : Engine n) (env : Engine.Env) :
    (e.tick L cfg env).running = e.running := congrArg Prod.snd (inputs_tick L cfg e env)

/-! ## Any step, and any run -/

theorem balanced_enqueue (e : Engine n) (req : Request) (h : Balanced e) :
    Balanced { e with
      pending := e.pending ++ [{ req with on_complete := some e.enqueued.length }]
      enqueued := e.enqueued ++ [{ req with on_complete := some e.enqueued.length }] } := by
  obtain ⟨⟨g1, g2, g3, g4, g5, g6⟩, hroom⟩ := h
  have hknown : ∀ r, e.Known r → ∃ t, r.on_complete = some t ∧
      (e.enqueued ++ [{ req with on_complete := some e.enqueued.length }])[t]? = some r := by
    rintro r ⟨t, ht, hr⟩
    refine ⟨t, ht, ?_⟩
    rw [List.getElem?_append_left (known_lt hr), hr]
  refine ⟨⟨g1, ?_, ?_, ?_, g5, g6⟩, hroom⟩
  · intro t
    have hold_books := g2 t
    unfold Engine.answered at *
    simp only [inQueue_append, inQueue_cons, inQueue_nil, Option.some.injEq,
      List.length_append, List.length_singleton]
    -- the new promise is the old number of requests, so only its line changes
    rcases Nat.lt_trichotomy t e.enqueued.length with ht | ht | ht
    · rw [if_pos ht] at hold_books
      rw [if_neg (by omega), if_pos (by omega)]
      omega
    · rw [if_neg (by omega)] at hold_books
      rw [if_pos (by omega), if_pos (by omega)]
      omega
    · rw [if_neg (by omega)] at hold_books
      rw [if_neg (by omega), if_neg (by omega)]
      omega
  · intro r hr
    simp only [List.mem_append, List.mem_singleton] at hr
    rcases hr with (hr | rfl) | hr
    · exact hknown r (g3 r (List.mem_append_left _ hr))
    · exact ⟨e.enqueued.length, rfl, by simp⟩
    · exact hknown r (g3 r (List.mem_append_right _ hr))
  · intro sid hocc
    exact hknown _ (g4 sid hocc)

theorem balanced_step (L : Llama) (cfg : EngineConfig) (e : Engine n) (a : Engine.Action)
    (h : Balanced e) : Balanced (e.step L cfg a) := by
  cases a with
  | enqueue req => exact balanced_enqueue e req h
  | shutdown => exact ⟨h.accounts.congr (.refl _) rfl rfl rfl, h.room⟩
  | tick env => exact balanced_tick L cfg e env h

/-- Every run of the engine keeps its books. -/
theorem balanced_run (L : Llama) (cfg : EngineConfig) (as : List Engine.Action) :
    Balanced ((engine L cfg).run as) :=
  invariant _ Balanced (balanced_new _) (fun e a h => balanced_step L cfg e a h) as

/-! ## The law of conservation -/

/-- The request with the promise `t` is once in the queue and nowhere else. -/
def Engine.Waits (e : Engine n) (t : Nat) : Prop :=
  inQueue e.pending t = 1 ∧ e.slots.inSlots t = 0 ∧ e.answered t = 0

/-- The request with the promise `t` is in one occupied slot and nowhere else. -/
def Engine.Decodes (e : Engine n) (t : Nat) : Prop :=
  inQueue e.pending t = 0 ∧ e.slots.inSlots t = 1 ∧ e.answered t = 0

/-- The request with the promise `t` was answered once and is nowhere else. -/
def Engine.Done (e : Engine n) (t : Nat) : Prop :=
  inQueue e.pending t = 0 ∧ e.slots.inSlots t = 0 ∧ e.answered t = 1

theorem one_place {e : Engine n} (h : Accounts e []) (t : Nat) (ht : t < e.enqueued.length) :
    e.Waits t ∨ e.Decodes t ∨ e.Done t := by
  have hold_books := h.ledger t
  rw [if_pos ht] at hold_books
  unfold Engine.Waits Engine.Decodes Engine.Done
  simp only [inQueue_nil] at hold_books
  omega

/-- While the engine runs, each request that was ever enqueued waits, decodes
or is done, at every boundary of an iteration. What waits or decodes under a
promise is the request that was enqueued with it. At every moment, each
release was of an occupied slot, the count of free slots is right and in
range, and no `acquire` has failed. -/
theorem every_request_is_in_exactly_one_place (L : Llama) (cfg : EngineConfig)
    (as : List Engine.Action) :
    let e := (engine L cfg).run as
    (e.place.boundary = true →
      (∀ t < e.enqueued.length, e.Waits t ∨ e.Decodes t ∨ e.Done t) ∧
      (∀ r ∈ e.pending, e.Known r) ∧
      ∀ sid, e.occupied sid = true → e.Known (e.request sid)) ∧
    (∀ sid occ, .released sid occ ∈ e.trace → occ = true) ∧
    e.slots.free_count = e.slots.freeSlots ∧
    0 ≤ e.slots.free_count ∧ e.slots.free_count ≤ cfg.max_slots ∧
    ∀ r, .acquireFailed r ∉ e.trace := by
  intro e
  have h := (balanced_run L cfg as).accounts
  have hc : e.slots.free_count = e.slots.freeSlots := h.counted
  have hle := e.slots.freeSlots_le
  refine ⟨?_, h.released, hc, h.free_nonneg, by omega, h.acquired⟩
  intro hb
  rw [boundary_drained hb] at h
  refine ⟨fun t ht => one_place h t ht, ?_, h.known_slots⟩
  intro r hr
  exact h.known r (List.mem_append_left _ hr)

end inference_server
