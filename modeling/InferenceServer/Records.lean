-- What the engine never takes back: the requests that were enqueued, in their
-- order, and the results of the promises that were fulfilled.
import InferenceServer.Conservation

namespace inference_server

variable {n : Nat}

/-! ## The result of a promise -/

def Event.fulfils (t : Nat) : Event n → Option Bytes
  | .completed promise _ result => if promise = t then some result else none
  | _ => none

/-- The result that the promise holds, once `on_complete` was called. -/
def Engine.fulfilled (e : Engine n) (t : Nat) : Option Bytes :=
  e.trace.findSome? (Event.fulfils t)

/-! ## The engine forgets nothing -/

/-- The engine has at least the events and the requests that it had. -/
def Engine.Recalls (e e' : Engine n) : Prop :=
  e.trace <+: e'.trace ∧ e.enqueued <+: e'.enqueued

theorem recalls_refl (e : Engine n) : e.Recalls e := ⟨List.prefix_refl _, List.prefix_refl _⟩

theorem Engine.Recalls.trans {e e' e'' : Engine n} (h : e.Recalls e') (h' : e'.Recalls e'') :
    e.Recalls e'' := ⟨h.1.trans h'.1, h.2.trans h'.2⟩

theorem recalls_log (e : Engine n) (ev : Event n) : e.Recalls (e.log ev) :=
  ⟨List.prefix_append _ _, List.prefix_refl _⟩

theorem recalls_complete (e : Engine n) (req : Request) (exit : Exit) (result : Bytes) :
    e.Recalls (e.complete req exit result) := by
  rw [Engine.complete_eq]
  exact ⟨List.prefix_append _ _, List.prefix_refl _⟩

theorem recalls_answer (e : Engine n) (sid : Fin n) (exit : Exit) (result : Bytes) :
    e.Recalls (e.answer sid exit result) := by
  refine (recalls_complete e (e.request sid) exit result).trans ⟨?_, ?_⟩
  · exact List.prefix_append _ _
  · exact List.prefix_refl _

theorem recalls_admitOne (L : Llama) (e : Engine n) (req : Request) :
    e.Recalls (e.admitOne L req) := by
  rcases e.admitOne_cases L req with ⟨i, _, he⟩ | ⟨_, he⟩
  · have hseat : e.Recalls ((e.seat i req).log (.acquired i req)) :=
      ⟨List.prefix_append _ _, List.prefix_refl _⟩
    rw [he]
    apply hseat.trans
    generalize (e.seat i req).log (.acquired i req) = e1
    unfold Engine.admitTo
    simp only
    split
    · have hset : ∀ toks, e1.Recalls (e1.setPrompt i toks) :=
        fun _ => ⟨List.prefix_refl _, List.prefix_refl _⟩
      apply (hset _).trans
      apply (recalls_complete _ _ _ _).trans
      exact ⟨List.prefix_append _ _, List.prefix_refl _⟩
    · exact ⟨List.prefix_refl _, List.prefix_refl _⟩
  · rw [he]
    exact recalls_log e _

theorem recalls_retireExpiredTurn (now : Int) (e : Engine n) (sid : Fin n) :
    e.Recalls (e.retireExpiredTurn now sid) := by
  rcases e.retireExpiredTurn_cases now sid with ⟨_, he⟩ | ⟨_, _, he⟩
  · rw [he]
    exact recalls_refl e
  · rw [he]
    exact recalls_answer (e.countExpired.countTotalFor sid) sid _ _

theorem recalls_decodeFailedTurn (e : Engine n) (sid : Fin n) :
    e.Recalls (e.decodeFailedTurn sid) := by
  rcases e.decodeFailedTurn_cases sid with ⟨_, he⟩ | ⟨_, he⟩
  · rw [he]
    exact recalls_refl e
  · rw [he]
    exact recalls_answer (e.countTotalFor sid) sid _ _

theorem recalls_sampleTurn (L : Llama) (cfg : EngineConfig) (cells : List (Cell n))
    (call : DecodeCall n) (e : Engine n) (sid : Fin n) :
    e.Recalls (e.sampleTurn L cfg cells call sid) := by
  have htook : ∀ tok, e.Recalls (e.took L sid tok) := by
    intro tok
    unfold Engine.took
    split
    · exact recalls_log e (.sampled sid tok)
    · exact recalls_log e (.sampled sid tok)
  rcases e.sampleTurn_cases L cfg cells call sid with ⟨_, he⟩ | ⟨_, _, he⟩ | ⟨_, _, he⟩
  · rw [he]
    exact recalls_refl e
  · rw [he]
    exact (htook _).trans
      (recalls_answer (Engine.countTotalFor (Engine.took L e sid _) sid) sid _ _)
  · rw [he]
    exact htook _

/-- The loops of the engine, turn by turn. -/
theorem recalls_loop {α : Type} {turn : Engine n → α → Engine n}
    (hturn : ∀ (e : Engine n) a, e.Recalls (turn e a)) (l : List α) (e : Engine n) :
    e.Recalls (l.foldl turn e) :=
  List.foldlRecOn l turn (recalls_refl e) (fun e' he a _ => he.trans (hturn e' a))

theorem recalls_step (L : Llama) (cfg : EngineConfig) (e : Engine n) (a : Engine.Action) :
    e.Recalls (e.step L cfg a) := by
  cases a with
  | enqueue req => exact ⟨List.prefix_refl _, List.prefix_append _ _⟩
  | shutdown => exact recalls_refl e
  | tick env =>
    change e.Recalls (e.tick L cfg env)
    rcases e.tick_cases L cfg env with ⟨_, p, _, he⟩ | ⟨_, he⟩ | ⟨toAdmit, _, he⟩ | ⟨_, _, he⟩ |
      ⟨call, _, he⟩
    · rw [he]
      exact recalls_refl e
    · rw [he]
      exact recalls_refl e
    · rw [he]
      have hadmit := recalls_loop (recalls_admitOne L) toAdmit e
      exact hadmit.trans (recalls_loop (recalls_retireExpiredTurn env.now) (List.finRange n) _)
    · rw [he]
      rcases e.collect_cases with ⟨_, hc⟩ | ⟨_, _, hc⟩ | ⟨_, _, hc⟩
      · rw [hc]
        exact recalls_refl e
      · rw [hc]
        exact recalls_refl e
      · rw [hc]
        exact ⟨List.prefix_append _ _, List.prefix_refl _⟩
    · rw [he]
      apply Engine.decoded_keeps (P := fun e' => e.Recalls e')
      · exact fun _ => ⟨List.prefix_refl _, List.prefix_refl _⟩
      · exact fun cells e' sid he' => he'.trans (recalls_sampleTurn L cfg cells call e' sid)
      · exact fun e' sid he' => he'.trans (recalls_decodeFailedTurn e' sid)
      · exact fun _ _ _ he' => he'

theorem Engine.Recalls.enqueued_some {e e' : Engine n} (h : e.Recalls e') {t : Nat} {r : Request}
    (hr : e.enqueued[t]? = some r) : e'.enqueued[t]? = some r := by
  obtain ⟨rest, hrest⟩ := h.2
  rw [← hrest, List.getElem?_append_left (known_lt hr)]
  exact hr

/-- A promise that is fulfilled keeps its result. -/
theorem Engine.Recalls.fulfilled {e e' : Engine n} (h : e.Recalls e') {t : Nat} {result : Bytes}
    (hr : e.fulfilled t = some result) : e'.fulfilled t = some result := by
  obtain ⟨rest, hrest⟩ := h.1
  unfold Engine.fulfilled at hr ⊢
  rw [← hrest, List.findSome?_append, hr]
  rfl

theorem fulfilled_some {e : Engine n} {t : Nat} {result : Bytes}
    (h : e.fulfilled t = some result) : ∃ exit, .completed t exit result ∈ e.trace := by
  obtain ⟨ev, hev, hres⟩ := List.exists_of_findSome?_eq_some h
  unfold Event.fulfils at hres
  split at hres
  · rename_i promise exit result'
    split at hres
    · rename_i ht
      cases hres
      exact ⟨exit, ht ▸ hev⟩
    · cases hres
  · cases hres

/-- A promise is fulfilled exactly when its request was answered. -/
theorem fulfilled_iff (e : Engine n) (t : Nat) :
    (e.fulfilled t).isSome = true ↔ 0 < e.answered t := by
  unfold Engine.answered
  rw [List.countP_pos_iff]
  constructor
  · intro h
    obtain ⟨result, hr⟩ := Option.isSome_iff_exists.mp h
    obtain ⟨exit, hev⟩ := fulfilled_some hr
    exact ⟨_, hev, by simp [Event.answers]⟩
  · rintro ⟨ev, hev, ht⟩
    unfold Engine.fulfilled
    rw [List.findSome?_isSome_iff]
    refine ⟨ev, hev, ?_⟩
    unfold Event.answers at ht
    split at ht
    · simp only [decide_eq_true_eq] at ht
      simp [Event.fulfils, ht]
    · cases ht

end inference_server
