-- Which requests the engine counts in `requests_total`. It counts a request in
-- the step that answers it, unless the tokenizer refuses the prompt, and then
-- it does not count it at all.
import InferenceServer.Admission
import InferenceServer.Shutdown

namespace inference_server

open machine

variable {n : Nat} {L : Llama}

/-! ## Answers and counts -/

/-- The tokenizer has no token for the request. -/
def Llama.refuses (L : Llama) (r : Request) : Bool := promptOf L r.payload = []

def Event.isAnswer : Event n → Bool
  | .completed _ _ _ => true
  | _ => false

/-- The event answers the promise `t` through an exit that counts. -/
def Event.counts (t : Nat) : Event n → Bool
  | .completed promise exit _ => promise = t && exit ≠ .tokenization_failed
  | _ => false

/-- How often the engine counted the request with the promise `t`. -/
def Engine.counted (e : Engine n) (t : Nat) : Nat := e.metrics.counted.count (some t)

/-- The engine counted each request as often as it answered it, but for the
refused ones. These have an exit of their own, and never sit in a slot when the
admit loop is over. -/
structure Marked (L : Llama) (e : Engine n) : Prop where
  seated : ∀ sid, e.occupied sid = true → L.refuses (e.request sid) = false
  counted : ∀ t, e.counted t = e.trace.countP (Event.counts t)
  exits : ∀ t exit result, .completed t exit result ∈ e.trace →
    ∃ r, e.enqueued[t]? = some r ∧ (exit = .tokenization_failed ↔ L.refuses r = true)

section marked

variable {e e' : Engine n}

theorem counts_of_not_answer {ev : Event n} (h : ev.isAnswer = false) (t : Nat) :
    ev.counts t = false := by
  cases ev <;> first | rfl | cases h

theorem counts_none {evs : List (Event n)} (h : ∀ ev ∈ evs, ev.isAnswer = false) (t : Nat) :
    evs.countP (Event.counts t) = 0 := by
  rw [List.countP_eq_zero]
  intro ev hev
  rw [counts_of_not_answer (h ev hev)]
  exact Bool.false_ne_true

/-- A slot that is occupied was so before, by the same request. -/
theorem Marked.stays (h : Marked L e) (hs : ∀ sid, e'.occupied sid = true →
      e.occupied sid = true ∧ e'.request sid = e.request sid) :
    ∀ sid, e'.occupied sid = true → L.refuses (e'.request sid) = false := by
  intro sid hocc
  obtain ⟨hocc', hreq⟩ := hs sid hocc
  rw [hreq]
  exact h.seated sid hocc'

/-- Without a new answer, only the holders of the slots matter. -/
theorem Marked.quiet (h : Marked L e) (evs : List (Event n))
    (hs : ∀ sid, e'.occupied sid = true → L.refuses (e'.request sid) = false)
    (hq : e'.enqueued = e.enqueued) (hm : e'.metrics.counted = e.metrics.counted)
    (ht : e'.trace = e.trace ++ evs) (hevs : ∀ ev ∈ evs, ev.isAnswer = false) :
    Marked L e' := by
  refine ⟨hs, ?_, ?_⟩
  · intro t
    have hold := h.counted t
    unfold Engine.counted at hold ⊢
    rw [hm, ht, List.countP_append, counts_none hevs, hold, Nat.add_zero]
  · intro t exit result hmem
    rw [ht, List.mem_append] at hmem
    rw [hq]
    rcases hmem with hmem | hmem
    · exact h.exits t exit result hmem
    · cases hevs _ hmem

/-- One more answer, to a request that was enqueued. It goes through the exit
for refused requests or is counted. -/
theorem Marked.answered (h : Marked L e) (p : Nat) (r : Request) (exit : Exit) (result : Bytes)
    (before after : List (Event n))
    (hs : ∀ sid, e'.occupied sid = true → L.refuses (e'.request sid) = false)
    (hq : e'.enqueued = e.enqueued) (hr : e.enqueued[p]? = some r)
    (hexit : exit = .tokenization_failed ↔ L.refuses r = true)
    (hm : e'.metrics.counted = e.metrics.counted ++
      if exit = .tokenization_failed then [] else [some p])
    (ht : e'.trace = e.trace ++ (before ++ .completed p exit result :: after))
    (hbefore : ∀ ev ∈ before, ev.isAnswer = false) (hafter : ∀ ev ∈ after, ev.isAnswer = false) :
    Marked L e' := by
  refine ⟨hs, ?_, ?_⟩
  · intro t
    have hold := h.counted t
    unfold Engine.counted at hold ⊢
    rw [hm, ht, List.countP_append, List.countP_append, List.countP_cons, counts_none hbefore,
      counts_none hafter, List.count_append, hold]
    by_cases htok : exit = .tokenization_failed
    · simp [htok, Event.counts]
    · simp [htok, Event.counts, List.count_singleton]
  · intro t exit' result' hmem
    rw [ht, List.mem_append, List.mem_append, List.mem_cons] at hmem
    rw [hq]
    rcases hmem with hmem | hmem | hmem | hmem
    · exact h.exits t exit' result' hmem
    · cases hbefore _ hmem
    · cases hmem
      exact ⟨r, hr, hexit⟩
    · cases hafter _ hmem

/-- A slot is counted and retired. -/
theorem marked_answer {l : List Request} (h : Marked L e) (hacc : Accounts e l) {sid : Fin n}
    (hocc : e.occupied sid = true) {e1 : Engine n} {exit : Exit} (result : Bytes)
    (hexit : exit ≠ .tokenization_failed) (he : e1 = { e with metrics := e1.metrics })
    (hm : e1.metrics.counted = e.metrics.counted ++ [(e.request sid).on_complete]) :
    Marked L (e1.answer sid exit result) := by
  obtain ⟨p, hp, hr⟩ := hacc.known_slots sid hocc
  have hslots : e1.slots = e.slots := by
    rw [he]
  have hreq : e1.request sid = e.request sid := by
    rw [he]
    rfl
  have htrace : e1.trace = e.trace := by
    rw [he]
  apply h.answered p (e.request sid) exit result [] [.released sid (e1.occupied sid)]
  · apply h.stays
    intro j hj
    unfold Engine.answer Engine.occupied Engine.request at *
    rw [Engine.retireSlot_slots, Engine.complete_slots, hslots] at hj ⊢
    unfold KVSlotManager.release at *
    by_cases hij : j = sid
    · subst hij
      simp at hj
    · simp only [Function.update_of_ne hij] at hj ⊢
      exact ⟨hj, trivial⟩
  · unfold Engine.answer
    rw [Engine.retireSlot_enqueued, Engine.complete_enqueued, he]
  · exact hr
  · rw [h.seated sid hocc]
    exact iff_of_false hexit Bool.false_ne_true
  · have hmetrics : (e1.answer sid exit result).metrics = e1.metrics := by
      unfold Engine.answer
      rw [Engine.complete_eq]
      rfl
    rw [hmetrics, hm, hp, if_neg hexit]
  · unfold Engine.answer
    rw [Engine.retireSlot_trace, Engine.complete_eq, hreq, hp, htrace]
    simp [Engine.occupied]
  · simp
  · simp [Event.isAnswer]

theorem marked_retireExpiredTurn (now : Int) {l : List Request} (hacc : Accounts e l)
    (h : Marked L e) (sid : Fin n) : Marked L (e.retireExpiredTurn now sid) := by
  rcases e.retireExpiredTurn_cases now sid with ⟨_, he⟩ | ⟨hocc, _, he⟩
  · rw [he]
    exact h
  · rw [he]
    exact marked_answer h hacc hocc _ (by simp) rfl rfl

theorem marked_decodeFailedTurn {l : List Request} (hacc : Accounts e l) (h : Marked L e)
    (sid : Fin n) : Marked L (e.decodeFailedTurn sid) := by
  rcases e.decodeFailedTurn_cases sid with ⟨_, he⟩ | ⟨hocc, he⟩
  · rw [he]
    exact h
  · rw [he]
    exact marked_answer h hacc hocc _ (by simp) rfl rfl

theorem marked_took (h : Marked L e) (sid : Fin n) (tok : Token) : Marked L (e.took L sid tok) := by
  have hsame := sameHolders_took L e sid tok
  apply h.quiet [.sampled sid tok]
  · exact h.stays (fun j hj => ⟨(hsame.occupied j).symm.trans hj, hsame.request j⟩)
  · exact enqueued_of_shared (shared_took L e sid tok)
  · unfold Engine.took
    split <;> rfl
  · unfold Engine.took
    split <;> rfl
  · simp [Event.isAnswer]

theorem marked_sampleTurn (cfg : EngineConfig) (cells : List (Cell n)) (call : DecodeCall n)
    {l : List Request} (hacc : Accounts e l) (h : Marked L e) (sid : Fin n) :
    Marked L (e.sampleTurn L cfg cells call sid) := by
  rcases e.sampleTurn_cases L cfg cells call sid with ⟨_, he⟩ | ⟨hocc, _, he⟩ | ⟨_, _, he⟩
  · rw [he]
    exact h
  · rw [he]
    generalize llamaSamplerSample L cells call.batch (call.logit_pos sid) = tok
    have hocc' : (e.took L sid tok).occupied sid = true :=
      ((sameHolders_took L e sid tok).occupied sid).trans hocc
    exact marked_answer (marked_took h sid tok) (accounts_took L hacc sid tok) hocc' _ (by simp)
      rfl rfl
  · rw [he]
    exact marked_took h sid _

/-! ## Admission -/

/-- A request that keeps its slot has a prompt. -/
theorem seated_admitOne {r : Request} (hc : e.slots.Counted) (hpos : 0 < e.slots.free_count)
    (h : Marked L e) (sid : Fin n) (hocc : (e.admitOne L r).occupied sid = true) :
    L.refuses ((e.admitOne L r).request sid) = false := by
  obtain ⟨j, _, hslots⟩ := admitOne_slots (L := L) e r hc hpos
  have hold := h.seated sid
  unfold Engine.occupied Engine.request at *
  by_cases hnone : promptOf L r.payload = []
  · rw [hslots, if_pos hnone] at hocc ⊢
    by_cases hsid : sid = j
    · subst hsid
      simp at hocc
    · simp only [Function.update_of_ne hsid] at hocc ⊢
      exact hold hocc
  · rw [hslots, if_neg hnone] at hocc ⊢
    by_cases hsid : sid = j
    · subst hsid
      simp [Llama.refuses, hnone]
    · simp only [Function.update_of_ne hsid] at hocc ⊢
      exact hold hocc

/-- A request that is seated has a prompt, and a refused one is answered and
not counted. -/
theorem marked_admitOne {r : Request} {l : List Request} (hacc : Accounts e (r :: l))
    (hroom : ((r :: l).length : Int) ≤ e.slots.free_count) (h : Marked L e) :
    Marked L (e.admitOne L r) := by
  obtain ⟨p, hp, hr⟩ := hacc.known r (by simp)
  have hpos : 0 < e.slots.free_count := by
    simp only [List.length_cons] at hroom
    omega
  have henq := enqueued_of_shared (shared_admitOne L e r)
  have hseated := seated_admitOne (L := L) (r := r) hacc.counted hpos h
  rcases e.admitOne_cases L r with ⟨i, _, he⟩ | ⟨hfull, _⟩
  · have hreq : ((e.seat i r).log (.acquired i r)).request i = r := by
      rw [view_request, view_seat, if_pos rfl]
      rfl
    by_cases hnone : L.refuses r = true
    · have htok := (promptOf_eq_nil L r.payload).mp (of_decide_eq_true hnone)
      have hset : ∀ toks, (((e.seat i r).log (.acquired i r)).setPrompt i toks).request i = r :=
        fun _ => hreq
      apply h.answered p r .tokenization_failed
        (bytes "\x7b\"error\":\"tokenization_failed\"\x7d") [.acquired i r] [.released i true]
      · exact hseated
      · exact henq
      · exact hr
      · exact iff_of_true rfl hnone
      · rw [he, if_pos rfl, List.append_nil]
        unfold Engine.admitTo
        simp only [hreq, htok, if_true]
        rw [Engine.complete_eq]
        rfl
      · rw [he]
        unfold Engine.admitTo
        simp only [hreq, htok, if_true]
        rw [Engine.release_trace, Engine.complete_occupied, Engine.complete_eq, hset, hp]
        simp [Engine.setPrompt, Engine.log, Engine.occupied, Engine.seat]
      · simp [Event.isAnswer]
      · simp [Event.isAnswer]
    · have htok := mt (promptOf_eq_nil L r.payload).mpr (fun hn => hnone (decide_eq_true hn))
      apply h.quiet [.acquired i r]
      · exact hseated
      · exact henq
      · rw [he]
        unfold Engine.admitTo
        simp only [hreq, htok, if_false]
        rfl
      · rw [he]
        unfold Engine.admitTo
        simp only [hreq, htok, if_false]
        rfl
      · simp [Event.isAnswer]
  · have hfree := (e.slots.freeSlots_eq_zero).mpr hfull
    have hcounted : e.slots.free_count = e.slots.freeSlots := hacc.counted
    omega

theorem marked_admission (l : List Request) (e : Engine n) (hacc : Accounts e l)
    (hroom : (l.length : Int) ≤ e.slots.free_count) (h : Marked L e) :
    Marked L (l.foldl (Engine.admitOne L) e) := by
  induction l generalizing e with
  | nil => exact h
  | cons r l ih =>
    obtain ⟨hacc', hroom'⟩ := accounts_admitOne L e r l hacc hroom
    exact ih _ hacc' hroom' (marked_admitOne hacc hroom h)

/-! ## One step -/

theorem marked_retireExpired (now : Int) {l : List Request} (hacc : Accounts e l)
    (h : Marked L e) : Marked L (e.retireExpired now) := by
  unfold Engine.retireExpired
  have hboth : Accounts ((List.finRange n).foldl (Engine.retireExpiredTurn now) e) l ∧
      Marked L ((List.finRange n).foldl (Engine.retireExpiredTurn now) e) := by
    apply List.foldlRecOn (motive := fun e => Accounts e l ∧ Marked L e)
    · exact ⟨hacc, h⟩
    · rintro e ⟨hacc, h⟩ sid _
      exact ⟨accounts_retireExpiredTurn now e sid l hacc, marked_retireExpiredTurn now hacc h sid⟩
  exact hboth.2

/-- A step that neither answers nor touches the slots. -/
theorem Marked.congr (h : Marked L e) (hs : KVSlotManager.SameHolders e.slots e'.slots)
    (hq : e'.enqueued = e.enqueued) (hm : e'.metrics.counted = e.metrics.counted)
    (ht : e'.trace = e.trace) : Marked L e' := by
  apply h.quiet [] _ hq hm (by simpa using ht) (by simp)
  exact h.stays (fun j hj => ⟨(hs.occupied j).symm.trans hj, hs.request j⟩)

theorem marked_collect (h : Marked L e) : Marked L e.collect := by
  rcases e.collect_cases with ⟨_, he⟩ | ⟨_, _, he⟩ | ⟨_, _, he⟩
  · rw [he]
    exact h.congr (.refl _) rfl rfl rfl
  · rw [he]
    exact h.congr (.refl _) rfl rfl rfl
  · have hsame := sameHolders_build e
    have hseated : ∀ sid, e.calling.occupied sid = true →
        L.refuses (e.calling.request sid) = false :=
      h.stays (fun j hj => ⟨(hsame.occupied j).symm.trans hj, hsame.request j⟩)
    rw [he]
    exact h.quiet [.submitted e.build.batch] hseated rfl rfl rfl (by simp [Event.isAnswer])

theorem marked_decoded (cfg : EngineConfig) (call : DecodeCall n) (o : DecodeOutcome)
    {l : List Request} (hacc : Accounts e l) (h : Marked L e) :
    Marked L (e.decoded L cfg call o) := by
  have hboth : Accounts (e.decoded L cfg call o) l ∧ Marked L (e.decoded L cfg call o) := by
    apply Engine.decoded_keeps (P := fun e => Accounts e l ∧ Marked L e)
    · intro cells
      exact ⟨hacc.congr (.refl _) rfl rfl rfl, h.congr (.refl _) rfl rfl rfl⟩
    · rintro cells e sid ⟨hacc, h⟩
      exact ⟨accounts_sampleTurn L cfg cells call e sid l hacc,
        marked_sampleTurn cfg cells call hacc h sid⟩
    · rintro e sid ⟨hacc, h⟩
      exact ⟨accounts_decodeFailedTurn e sid l hacc, marked_decodeFailedTurn hacc h sid⟩
    · rintro e inflight sizes ⟨hacc, h⟩
      exact ⟨hacc.congr (.refl _) rfl rfl rfl, h.congr (.refl _) rfl rfl rfl⟩
  exact hboth.2

theorem marked_tick (cfg : EngineConfig) (env : Engine.Env) (hbal : Balanced e)
    (h : Marked L e) : Marked L (e.tick L cfg env) := by
  have hacc := hbal.accounts
  have hroom := hbal.room
  rcases e.tick_cases L cfg env with ⟨_, p, _, he⟩ | ⟨_, he⟩ | ⟨toAdmit, hp, he⟩ |
    ⟨now, _, he⟩ | ⟨call, _, he⟩
  · rw [he]
    exact h.congr (.refl _) rfl rfl rfl
  · rw [he]
    exact h.congr (.refl _) rfl rfl rfl
  · rw [hp] at hacc hroom
    rw [he]
    have hadmitted := marked_admission toAdmit e hacc hroom h
    have hretired := marked_retireExpired env.now (accounts_admission L toAdmit e hacc hroom)
      hadmitted
    exact hretired.congr (.refl _) rfl rfl rfl
  · rw [he]
    exact marked_collect h
  · rw [he]
    exact marked_decoded cfg call env.decode hacc h

theorem marked_enqueue (req : Request) (h : Marked L e) (cfg : EngineConfig) :
    Marked L (e.step L cfg (.enqueue req)) := by
  refine ⟨h.seated, h.counted, ?_⟩
  intro t exit result hmem
  obtain ⟨r, hr, hexit⟩ := h.exits t exit result hmem
  refine ⟨r, ?_, hexit⟩
  simp only [Engine.step]
  rw [List.getElem?_append_left (known_lt hr)]
  exact hr

/-! ## An answered request -/

/-- A request that was answered was counted once, if it has a prompt. -/
theorem counted_of_answered {l : List Request} (hacc : Accounts e l) (h : Marked L e) {t : Nat}
    {r : Request} (hr : e.enqueued[t]? = some r) (hans : 0 < e.answered t) :
    e.counted t = if L.refuses r then 0 else 1 := by
  have hledger := hacc.ledger t
  rw [if_pos (known_lt hr)] at hledger
  have hone : e.answered t = 1 := by omega
  have hexit : ∀ exit result, .completed t exit result ∈ e.trace →
      (exit = .tokenization_failed ↔ L.refuses r = true) := by
    intro exit result hmem
    obtain ⟨r', hr', hexit⟩ := h.exits t exit result hmem
    rw [hr, Option.some.injEq] at hr'
    rw [hr']
    exact hexit
  rw [h.counted t]
  cases hrefuses : L.refuses r with
  | true =>
    rw [if_pos rfl, List.countP_eq_zero]
    rintro (_ | _ | ⟨promise, exit, result⟩ | _ | _ | _) hmem hcounts
    all_goals try cases hcounts
    simp only [Event.counts, Bool.and_eq_true, decide_eq_true_eq] at hcounts
    obtain ⟨rfl, hne⟩ := hcounts
    exact hne ((hexit exit result hmem).mpr hrefuses)
  | false =>
    have hsame : e.trace.countP (Event.counts t) = e.answered t := by
      unfold Engine.answered
      apply List.countP_congr
      rintro (_ | _ | ⟨promise, exit, result⟩ | _ | _ | _) hmem
      all_goals try rfl
      simp only [Event.counts, Event.answers, Bool.and_eq_true, decide_eq_true_eq]
      constructor
      · exact fun hboth => hboth.1
      · rintro rfl
        refine ⟨rfl, fun htok => ?_⟩
        rw [(hexit exit result hmem).mp htok] at hrefuses
        cases hrefuses
    rw [hsame, hone]
    rfl

end marked

end inference_server
