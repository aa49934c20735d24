-- All that belongs to one slot: the slot itself, its row of each parallel
-- array, its cells of the KV cache, and what the record of events says of its
-- last admission. Each function of the engine changes the view of one slot,
-- and leaves the views of all others as they were.
import InferenceServer.EngineSteps

namespace inference_server

open machine

variable {n : Nat}

/-! ## The view of a slot -/

/-- The (position, token) contents that the cache holds for a sequence. -/
def cellsOf (cells : List (Cell n)) (sid : Fin n) : List (Nat × Token) :=
  (cells.filter (fun c => c.seq_id = sid)).map (fun c => (c.pos, c.token))

/-- The tokens sampled for a slot since its last admission. -/
def sampledTurn (sid : Fin n) (l : List Token) : Event n → List Token
  | .acquired i _ => if i = sid then [] else l
  | .sampled i tok => if i = sid then l ++ [tok] else l
  | _ => l

/-- The positions that a batch has for a sequence. -/
def positionsOf (batch : List (BatchEntry n)) (sid : Fin n) : List Nat :=
  (batch.filter (fun x => x.seq_id = sid)).map (fun x => x.pos)

/-- The positions submitted to `llama_decode` for a slot since its last
admission. -/
def submittedTurn (sid : Fin n) (l : List Nat) : Event n → List Nat
  | .acquired i _ => if i = sid then [] else l
  | .submitted batch => l ++ positionsOf batch sid
  | _ => l

@[ext]
structure SlotView where
  slot : Slot
  sampler : Option Sampler
  result : Bytes
  prompt : List Token
  generated : Nat
  in_prefill : Bool
  cells : List (Nat × Token)
  sampled : List Token
  submitted : List Nat

def Engine.sampledOf (e : Engine n) (sid : Fin n) : List Token :=
  e.trace.foldl (sampledTurn sid) []

def Engine.submittedOf (e : Engine n) (sid : Fin n) : List Nat :=
  e.trace.foldl (submittedTurn sid) []

def Engine.view (e : Engine n) (sid : Fin n) : SlotView where
  slot := e.slots.slots sid
  sampler := e.samplers sid
  result := e.results sid
  prompt := e.prompt_tokens sid
  generated := e.tokens_generated sid
  in_prefill := e.in_prefill sid
  cells := cellsOf e.cells sid
  sampled := e.sampledOf sid
  submitted := e.submittedOf sid

/-- A view after `retire_slot`. -/
def SlotView.retired (v : SlotView) : SlotView where
  slot := {}
  sampler := none
  result := []
  prompt := []
  generated := 0
  in_prefill := false
  cells := []
  sampled := v.sampled
  submitted := v.submitted

/-! ## Cells -/

theorem cellsOf_append (a b : List (Cell n)) (sid : Fin n) :
    cellsOf (a ++ b) sid = cellsOf a sid ++ cellsOf b sid := by
  simp [cellsOf]

theorem cellsOf_seqRm (cells : List (Cell n)) (sid j : Fin n) :
    cellsOf (seqRm cells sid) j = if j = sid then [] else cellsOf cells j := by
  unfold cellsOf seqRm
  rw [List.filter_filter]
  by_cases h : j = sid
  · subst h
    simp
  · rw [if_neg h]
    congr 1
    apply List.filter_congr
    intro c _
    by_cases hc : c.seq_id = j
    · simp [hc, h]
    · simp [hc]

theorem history_eq (cells : List (Cell n)) (x : BatchEntry n) :
    history cells x = (cellsOf cells x.seq_id).filter (fun p => p.1 ≤ x.pos) := by
  unfold history cellsOf
  rw [List.filter_map, List.filter_filter]
  congr 1
  apply List.filter_congr
  intro c _
  simp [Bool.and_comm]

/-! ## The record of events -/

theorem view_log (e : Engine n) (ev : Event n) (j : Fin n) :
    (e.log ev).view j = { e.view j with
      sampled := sampledTurn j (e.view j).sampled ev
      submitted := submittedTurn j (e.view j).submitted ev } := by
  ext <;> simp [Engine.view, Engine.log, Engine.sampledOf, Engine.submittedOf]

/-- A callback is seen by no slot. -/
@[simp] theorem view_complete (e : Engine n) (req : Request) (exit : Exit) (result : Bytes)
    (j : Fin n) : (e.complete req exit result).view j = e.view j := by
  unfold Engine.complete
  split
  · rw [view_log]
    rfl
  · rfl

@[simp] theorem view_countTotalFor (e : Engine n) (sid j : Fin n) :
    (e.countTotalFor sid).view j = e.view j := rfl

/-! ## One slot at a time -/

theorem view_release (e : Engine n) (sid j : Fin n) :
    (e.release sid).view j =
      if j = sid then { e.view j with slot := {}, cells := [] } else e.view j := by
  by_cases h : j = sid
  · subst h
    ext <;> simp [Engine.view, Engine.release, Engine.sampledOf, Engine.submittedOf, sampledTurn,
      submittedTurn, KVSlotManager.release, cellsOf_seqRm]
  · ext <;> simp [Engine.view, Engine.release, Engine.sampledOf, Engine.submittedOf, sampledTurn,
      submittedTurn, KVSlotManager.release, cellsOf_seqRm, h]

theorem view_retireSlot (e : Engine n) (sid j : Fin n) :
    (e.retireSlot sid).view j = if j = sid then (e.view j).retired else e.view j := by
  unfold Engine.retireSlot
  rw [view_release]
  by_cases h : j = sid
  · subst h
    simp [Engine.view, Engine.sampledOf, Engine.submittedOf, SlotView.retired]
  · simp [Engine.view, Engine.sampledOf, Engine.submittedOf, h]

theorem view_occupied (e : Engine n) (sid : Fin n) : e.occupied sid = (e.view sid).slot.occupied :=
  rfl

theorem view_request (e : Engine n) (sid : Fin n) : e.request sid = (e.view sid).slot.request := rfl

theorem view_answer (e : Engine n) (sid : Fin n) (exit : Exit) (result : Bytes) (j : Fin n) :
    (e.answer sid exit result).view j = if j = sid then (e.view sid).retired else e.view j := by
  unfold Engine.answer
  rw [view_retireSlot, view_complete]
  split
  · rename_i h
    rw [h]
  · rfl

/-- A turn that leaves its own view alone, read at any slot. -/
theorem view_kept (e : Engine n) (sid j : Fin n) :
    e.view j = if j = sid then e.view sid else e.view j := by
  split
  · rename_i h
    rw [h]
  · rfl

/-- A slot that is late is retired, and any other view stays. -/
def expiredView (now : Int) (v : SlotView) : SlotView :=
  if v.slot.occupied ∧ now > v.slot.request.dueTime then v.retired else v

theorem view_retireExpiredTurn (now : Int) (e : Engine n) (sid j : Fin n) :
    (e.retireExpiredTurn now sid).view j =
      if j = sid then expiredView now (e.view sid) else e.view j := by
  rcases e.retireExpiredTurn_cases now sid with ⟨hkeep, he⟩ | ⟨hocc, hlate, he⟩
  · have hview : expiredView now (e.view sid) = e.view sid := by
      apply if_neg
      rintro ⟨hocc, hlate⟩
      rcases hkeep with hfree | hle
      · rw [view_occupied, hocc] at hfree
        cases hfree
      · exact absurd hlate (not_lt.mpr hle)
    rw [he, hview]
    exact view_kept e sid j
  · have hview : expiredView now (e.view sid) = (e.view sid).retired := if_pos ⟨hocc, hlate⟩
    rw [he, hview]
    exact view_answer (e.countExpired.countTotalFor sid) sid _ _ j

theorem view_retireExpired (now : Int) (e : Engine n) (j : Fin n) :
    (e.retireExpired now).view j = expiredView now (e.view j) := by
  unfold Engine.retireExpired
  rw [loop_rows Engine.view (Engine.retireExpiredTurn now) (fun _ => expiredView now)
    (view_retireExpiredTurn now) _ (List.nodup_finRange n)]
  simp

/-- An occupied slot is retired. -/
def failedView (v : SlotView) : SlotView := if v.slot.occupied then v.retired else v

theorem view_decodeFailedTurn (e : Engine n) (sid j : Fin n) :
    (e.decodeFailedTurn sid).view j = if j = sid then failedView (e.view sid) else e.view j := by
  rcases e.decodeFailedTurn_cases sid with ⟨hfree, he⟩ | ⟨hocc, he⟩
  · have hview : failedView (e.view sid) = e.view sid := by
      apply if_neg
      rw [← view_occupied, hfree]
      exact Bool.false_ne_true
    rw [he, hview]
    exact view_kept e sid j
  · have hview : failedView (e.view sid) = (e.view sid).retired := if_pos hocc
    rw [he, hview]
    exact view_answer (e.countTotalFor sid) sid _ _ j

/-! ## Admission -/

/-- A view after `acquire`. -/
def seatedView (v : SlotView) (req : Request) : SlotView :=
  { v with slot := .taken req, sampled := [], submitted := [] }

theorem view_seat (e : Engine n) (i j : Fin n) (req : Request) :
    ((e.seat i req).log (.acquired i req)).view j =
      if j = i then seatedView (e.view i) req else e.view j := by
  rw [view_log]
  by_cases h : j = i
  · subst h
    simp [sampledTurn, submittedTurn, Engine.view, Engine.seat, seatedView]
  · have h' : ¬ i = j := fun he => h he.symm
    simp [sampledTurn, submittedTurn, Engine.view, Engine.seat, Engine.sampledOf,
      Engine.submittedOf, h, h']

theorem view_setPrompt (e : Engine n) (sid j : Fin n) (toks : List Token) :
    (e.setPrompt sid toks).view j =
      if j = sid then { e.view sid with prompt := toks } else e.view j := by
  by_cases h : j = sid
  · subst h
    simp [Engine.view, Engine.setPrompt, Engine.sampledOf, Engine.submittedOf]
  · simp [Engine.view, Engine.setPrompt, h, Engine.sampledOf, Engine.submittedOf]

/-- A view after a turn of the admit loop: with a prompt to decode, or free
again when the tokenizer failed. -/
def admittedView (L : Llama) (v : SlotView) : SlotView :=
  let t := tokenizeText L (formatted v.slot.request.payload)
  if t.1 ≤ 0 then { v with prompt := t.2, slot := {}, cells := [] }
  else { v with
    prompt := resize t.2 t.1.toNat
    in_prefill := true
    result := []
    generated := 0
    sampler := some .greedy }

theorem view_admitTo (L : Llama) (e : Engine n) (sid j : Fin n) :
    (Engine.admitTo L e sid).view j =
      if j = sid then admittedView L (e.view sid) else e.view j := by
  unfold Engine.admitTo admittedView
  rw [view_request]
  simp only
  generalize tokenizeText L (formatted (e.view sid).slot.request.payload) = t
  split
  · rw [view_release, view_complete, view_setPrompt]
    split <;> rfl
  · by_cases h : j = sid
    · subst h
      simp [Engine.view, Engine.setPrompt, Engine.sampledOf, Engine.submittedOf]
    · simp [Engine.view, Engine.setPrompt, h, Engine.sampledOf, Engine.submittedOf]

/-! ## The sampling loop -/

/-- A view with one more token sampled, when the token does not end it. -/
def appendView (L : Llama) (v : SlotView) (tok : Token) : SlotView :=
  { v with
    result := v.result ++ pieceOf L tok
    slot := { v.slot with last_token := tok }
    in_prefill := false
    generated := v.generated + 1 }

theorem view_append (L : Llama) (e : Engine n) (sid j : Fin n) (tok : Token) :
    (e.append L sid tok).view j = if j = sid then appendView L (e.view sid) tok else e.view j := by
  by_cases h : j = sid
  · subst h
    simp [Engine.view, Engine.append, appendView, KVSlotManager.modify, Engine.sampledOf,
      Engine.submittedOf]
  · simp [Engine.view, Engine.append, KVSlotManager.modify, h, Engine.sampledOf,
      Engine.submittedOf]

/-- A view after a sampled token is taken. -/
def tookView (L : Llama) (v : SlotView) (tok : Token) : SlotView :=
  let v := { v with sampled := v.sampled ++ [tok] }
  if L.llama_vocab_is_eog tok then v else appendView L v tok

theorem view_took (L : Llama) (e : Engine n) (sid j : Fin n) (tok : Token) :
    (e.took L sid tok).view j = if j = sid then tookView L (e.view sid) tok else e.view j := by
  have hlog : ∀ i, (e.log (.sampled sid tok)).view i =
      if i = sid then { e.view sid with sampled := (e.view sid).sampled ++ [tok] }
      else e.view i := by
    intro i
    rw [view_log]
    by_cases h : i = sid
    · subst h
      simp [sampledTurn, submittedTurn]
    · have h' : ¬ sid = i := fun he => h he.symm
      simp [sampledTurn, submittedTurn, h, h']
  unfold Engine.took tookView
  split
  · exact hlog j
  · rw [view_append, hlog, hlog, if_pos rfl]
    split <;> rfl

/-- What the sampling loop does to a slot for which it picked `tok`. -/
def sampleView (L : Llama) (cfg : EngineConfig) (tok : Token) (v : SlotView) : SlotView :=
  if !v.slot.occupied then v
  else
    let v := { v with sampled := v.sampled ++ [tok] }
    let v := if L.llama_vocab_is_eog tok then v else appendView L v tok
    if L.llama_vocab_is_eog tok ∨ (v.generated : Int) ≥ cfg.limit v.slot.request then v.retired
    else v

theorem view_sampleTurn (L : Llama) (cfg : EngineConfig) (cells : List (Cell n))
    (call : DecodeCall n) (e : Engine n) (sid j : Fin n) :
    (e.sampleTurn L cfg cells call sid).view j =
      if j = sid then
        sampleView L cfg (llamaSamplerSample L cells call.batch (call.logit_pos sid)) (e.view sid)
      else e.view j := by
  have hcases := e.sampleTurn_cases L cfg cells call sid
  generalize llamaSamplerSample L cells call.batch (call.logit_pos sid) = tok at *
  have htook : (e.took L sid tok).view sid = tookView L (e.view sid) tok := by
    rw [view_took, if_pos rfl]
  have hgen : (e.took L sid tok).tokens_generated sid =
      (tookView L (e.view sid) tok).generated := congrArg SlotView.generated htook
  rcases hcases with ⟨hfree, he⟩ | ⟨hocc, hdone, he⟩ | ⟨hocc, hgo, he⟩
  · have hview : sampleView L cfg tok (e.view sid) = e.view sid := by
      apply if_pos
      rw [← view_occupied, hfree]
      rfl
    rw [he, hview]
    exact view_kept e sid j
  · have hview : sampleView L cfg tok (e.view sid) = (tookView L (e.view sid) tok).retired := by
      rw [hgen, view_request, htook] at hdone
      exact (if_neg (by simp [← view_occupied, hocc])).trans (if_pos hdone)
    rw [he, hview, view_answer, view_countTotalFor, view_countTotalFor, htook, view_took]
    split <;> rfl
  · have hview : sampleView L cfg tok (e.view sid) = tookView L (e.view sid) tok := by
      rw [hgen, view_request, htook] at hgo
      exact (if_neg (by simp [← view_occupied, hocc])).trans (if_neg hgo)
    rw [he, hview]
    exact view_took L e sid j tok

end inference_server
