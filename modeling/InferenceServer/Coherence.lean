-- The KV cache says what the slots say. Whatever fails, expires or is reused,
-- the cells of a sequence are its prompt and its tokens so far, at positions
-- 0, 1, 2, ..., and a free slot has none.
import InferenceServer.BatchAssembly
import InferenceServer.Conservation
import InferenceServer.Lib.Generation

namespace inference_server

open machine generation

variable {n : Nat}

/-! ## Tokens with their positions -/

/-- The (position, token) contents of a sequence that holds these tokens from
position 0 on. -/
def positioned (toks : List Token) : List (Nat × Token) := toks.zipIdx.map (fun t => (t.2, t.1))

theorem positioned_append (a b : List Token) :
    positioned (a ++ b) = positioned a ++ (b.zipIdx a.length).map (fun t => (t.2, t.1)) := by
  simp [positioned, List.zipIdx_append]

theorem positioned_lt {toks : List Token} {p : Nat × Token} (h : p ∈ positioned toks) :
    p.1 < toks.length := by
  simp only [positioned, List.mem_map] at h
  obtain ⟨t, ht, rfl⟩ := h
  have := List.mem_zipIdx ht
  omega

theorem positioned_map_fst (toks : List Token) :
    (positioned toks).map Prod.fst = List.range toks.length := by
  simp [positioned, List.map_map, Function.comp_def, List.range_eq_range']

/-- The greedy pick after a sequence of tokens, as the sampler sees it. -/
def Llama.pick (L : Llama) (seen : List Token) : Token := L.next (positioned seen)

/-! ## What a slot may look like -/

/-- A free slot. Only its last prompt may still lie around. -/
structure Idle (v : SlotView) : Prop where
  slot : v.slot = {}
  sampler : v.sampler = none
  result : v.result = []
  generated : v.generated = 0
  in_prefill : v.in_prefill = false
  cells : v.cells = []
  submitted : v.submitted = List.range v.submitted.length

namespace SlotView

/-- The prompt and all tokens sampled so far. -/
def seen (v : SlotView) : List Token := v.prompt ++ v.sampled

/-- The tokens that the decoder was fed: nothing before the prefill, then
all but the last sampled token. -/
def fed (v : SlotView) : List Token :=
  if v.sampled = [] then [] else v.prompt ++ v.sampled.dropLast

end SlotView

/-- An occupied slot, apart from its cells and positions. -/
structure Running (L : Llama) (cfg : EngineConfig) (v : SlotView) : Prop where
  occupied : v.slot.occupied = true
  sampler : v.sampler = some .greedy
  prompt : v.prompt = promptOf L v.slot.request.payload
  prompt_ne : v.prompt ≠ []
  generated : v.generated = v.sampled.length
  in_prefill : v.in_prefill = v.sampled.isEmpty
  last_token : ∀ tok, v.sampled.getLast? = some tok → v.slot.last_token = tok
  result : v.result = v.sampled.flatMap (pieceOf L)
  below : (v.generated : Int) < max (cfg.limit v.slot.request) 1
  chain : Chain L.pick L.llama_vocab_is_eog v.prompt v.sampled

/-- An occupied slot between two decodes: it was fed all but its last token. -/
structure Live (L : Llama) (cfg : EngineConfig) (v : SlotView) : Prop extends Running L cfg v where
  cells : v.cells = positioned v.fed
  kv_pos : v.slot.kv_pos = v.fed.length
  submitted : v.submitted = List.range v.fed.length

/-- An occupied slot while `llama_decode` runs: the batch feeds the rest. -/
structure InBatch (L : Llama) (cfg : EngineConfig) (v : SlotView) : Prop
    extends Running L cfg v where
  cells : v.cells = positioned v.fed
  kv_pos : v.slot.kv_pos = v.seen.length
  submitted : v.submitted = List.range v.seen.length

/-- An occupied slot after a decode that succeeded, before its sample. -/
structure Decoded (L : Llama) (cfg : EngineConfig) (v : SlotView) : Prop
    extends Running L cfg v where
  cells : v.cells = positioned v.seen
  kv_pos : v.slot.kv_pos = v.seen.length
  submitted : v.submitted = List.range v.seen.length

/-- Between two iterations, an occupied slot is past its prefill. -/
def AtBoundary (L : Llama) (cfg : EngineConfig) (v : SlotView) : Prop :=
  Idle v ∨ (Live L cfg v ∧ v.sampled ≠ [])

theorem Idle.free {v : SlotView} (h : Idle v) : v.slot.occupied = false := by rw [h.slot]

theorem not_idle {e : Engine n} {sid : Fin n} (hocc : e.occupied sid = true) :
    ¬ Idle (e.view sid) := by
  intro h
  rw [view_occupied, h.free] at hocc
  cases hocc

theorem AtBoundary.idle_or_live {L : Llama} {cfg : EngineConfig} {v : SlotView}
    (h : AtBoundary L cfg v) : Idle v ∨ Live L cfg v := h.imp_right (·.1)

/-- A retired slot is free. Only what was submitted for it is on record. -/
theorem idle_retired {v : SlotView} {k : Nat} (h : v.submitted = List.range k) :
    Idle v.retired :=
  ⟨rfl, rfl, rfl, rfl, rfl, rfl, by simp [SlotView.retired, h]⟩

section fed

variable {L : Llama} {cfg : EngineConfig} {v : SlotView}

theorem fed_prefill (h : v.sampled = []) : v.fed = [] := by simp [SlotView.fed, h]

theorem seen_prefill (h : v.sampled = []) : v.seen = v.prompt := by simp [SlotView.seen, h]

/-- Past the prefill, the tokens seen are the tokens fed and the last one. -/
theorem seen_eq_fed (h : Running L cfg v) (hs : v.sampled ≠ []) :
    v.seen = v.fed ++ [v.slot.last_token] := by
  have hlast := h.last_token _ (List.getLast?_eq_getLast_of_ne_nil hs)
  rw [hlast]
  simp only [SlotView.seen, SlotView.fed, hs, if_false, List.append_assoc]
  rw [List.dropLast_append_getLast]

end fed

/-! ## Admission -/

/-- A free slot that takes a request ends up free again, when the tokenizer
failed, or live and before its prefill. -/
theorem admittedView_ok (L : Llama) (cfg : EngineConfig) (req : Request) {v : SlotView}
    (hi : Idle v) :
    (Idle (admittedView L (seatedView v req)) ∧ promptOf L req.payload = []) ∨
      (Live L cfg (admittedView L (seatedView v req)) ∧
        (admittedView L (seatedView v req)).sampled = []) := by
  obtain ⟨g1, g2, g3, g4, g5, g6, _⟩ := hi
  have hprompt : promptOf L req.payload = resize (tokenizeText L (formatted req.payload)).2
      (tokenizeText L (formatted req.payload)).1.toNat := rfl
  have hlen : (promptOf L req.payload).length =
      (tokenizeText L (formatted req.payload)).1.toNat := by rw [hprompt, resize_length]
  simp only [admittedView, seatedView, Slot.taken_request, ← hprompt]
  split
  · -- the tokenizer failed: the slot is released without `retire_slot`
    refine Or.inl ⟨⟨rfl, g2, g3, g4, g5, rfl, rfl⟩, ?_⟩
    rw [← List.length_eq_zero_iff]
    omega
  · refine Or.inr ⟨⟨⟨rfl, rfl, rfl, ?_, rfl, rfl, by simp, rfl, ?_, .nil⟩, ?_, rfl, rfl⟩, rfl⟩
    · simp only
      apply List.ne_nil_of_length_pos
      omega
    · simp only
      omega
    · simp only [g6]
      rfl

/-- One turn of the admit loop keeps any law of the views that free slots
obey as well as slots before their prefill. -/
theorem admitOne_keeps {L : Llama} {cfg : EngineConfig} {P : SlotView → Prop}
    (hidle : ∀ v, Idle v → P v) (hlive : ∀ v, Live L cfg v → v.sampled = [] → P v)
    (hfree : ∀ v, P v → v.slot.occupied = false → Idle v) (e : Engine n) (req : Request)
    (h : ∀ sid, P (e.view sid)) (sid : Fin n) : P ((e.admitOne L req).view sid) := by
  rcases e.admitOne_cases L req with ⟨i, hi, he⟩ | ⟨_, he⟩
  · rw [he, view_admitTo, view_seat, if_pos rfl, view_seat]
    by_cases hs : sid = i
    · rw [if_pos hs]
      rcases admittedView_ok L cfg req (hfree _ (h i) hi) with ⟨hidle', _⟩ | ⟨hlive', hnone⟩
      · exact hidle _ hidle'
      · exact hlive _ hlive' hnone
    · rw [if_neg hs, if_neg hs]
      exact h sid
  · rw [he, view_log]
    exact h sid

theorem admitOne_ok (L : Llama) (cfg : EngineConfig) (e : Engine n) (req : Request)
    (h : ∀ sid, Idle (e.view sid) ∨ Live L cfg (e.view sid)) (sid : Fin n) :
    Idle ((e.admitOne L req).view sid) ∨ Live L cfg ((e.admitOne L req).view sid) := by
  refine admitOne_keeps (P := fun v => Idle v ∨ Live L cfg v) (fun _ => Or.inl)
    (fun _ hl _ => Or.inr hl) ?_ e req h sid
  rintro v (hi | hl) hfree
  · exact hi
  · rw [hl.occupied] at hfree
    cases hfree

theorem admit_ok (L : Llama) (cfg : EngineConfig) (l : List Request) (e : Engine n)
    (h : ∀ sid, Idle (e.view sid) ∨ Live L cfg (e.view sid)) :
    ∀ sid, Idle ((l.foldl (Engine.admitOne L) e).view sid) ∨
      Live L cfg ((l.foldl (Engine.admitOne L) e).view sid) := by
  apply List.foldlRecOn l (Engine.admitOne L)
    (motive := fun e : Engine n => ∀ sid, Idle (e.view sid) ∨ Live L cfg (e.view sid)) h
  intro e he req _
  exact admitOne_ok L cfg e req he

theorem expiredView_ok {L : Llama} {cfg : EngineConfig} (now : Int) {v : SlotView}
    (h : Idle v ∨ Live L cfg v) : Idle (expiredView now v) ∨ Live L cfg (expiredView now v) := by
  unfold expiredView
  split
  · rcases h with hi | hl
    · exact Or.inl (idle_retired hi.submitted)
    · exact Or.inl (idle_retired hl.submitted)
  · exact h

/-! ## The batch -/

/-- What the build loop leaves for `llama_decode`, next to the slots. -/
structure CallOk (e : Engine n) (call : DecodeCall n) : Prop where
  nonempty : call.active ≠ []
  nodup : call.active.Nodup
  active : ∀ sid, sid ∈ call.active ↔ e.occupied sid = true
  cells : ∀ sid, e.occupied sid = true →
    (e.view sid).cells ++ cellsOf (call.batch.map BatchEntry.cell) sid =
      positioned (e.view sid).seen
  idle : ∀ sid, e.occupied sid = false → ∀ x ∈ call.batch, x.seq_id ≠ sid
  row : ∀ sid, e.occupied sid = true → ∃ x, 0 ≤ call.logit_pos sid ∧
    call.batch[(call.logit_pos sid).toNat]? = some x ∧ x.logits = true ∧ x.seq_id = sid ∧
      x.pos + 1 = (e.slots.slots sid).kv_pos

theorem cellsOf_batch (batch : List (BatchEntry n)) (sid : Fin n) :
    cellsOf (batch.map BatchEntry.cell) sid =
      (batch.filter (fun x => x.seq_id = sid)).map (fun x => (x.pos, x.token)) := by
  unfold cellsOf
  rw [List.filter_map, List.map_map]
  rfl

section block

variable {L : Llama} {cfg : EngineConfig} {e : Engine n} {sid : Fin n}

/-- The block of a live slot feeds the tokens that are not in the cache yet. -/
theorem block_cells (h : Live L cfg (e.view sid)) :
    (e.view sid).cells ++ (e.block sid).map (fun x => (x.pos, x.token)) =
      positioned (e.view sid).seen := by
  rw [h.cells]
  unfold Engine.block
  have hpre : e.in_prefill sid = (e.view sid).sampled.isEmpty := h.in_prefill
  rw [hpre]
  by_cases hs : (e.view sid).sampled = []
  · rw [fed_prefill hs, seen_prefill hs, hs]
    simp only [List.isEmpty_nil, if_true, List.map_map]
    rfl
  · have hne : (e.view sid).sampled.isEmpty = false := by simpa using hs
    rw [hne, seen_eq_fed h.toRunning hs, positioned_append]
    have hpos : (e.slots.slots sid).kv_pos = (e.view sid).fed.length := h.kv_pos
    simp [hpos]
    rfl

theorem nextPos_live (h : Live L cfg (e.view sid)) :
    e.nextPos sid = (e.view sid).seen.length := by
  unfold Engine.nextPos
  have hpre : e.in_prefill sid = (e.view sid).sampled.isEmpty := h.in_prefill
  rw [hpre]
  by_cases hs : (e.view sid).sampled = []
  · rw [seen_prefill hs, hs]
    rfl
  · have hne : (e.view sid).sampled.isEmpty = false := by simpa using hs
    have hpos : (e.slots.slots sid).kv_pos = (e.view sid).fed.length := h.kv_pos
    rw [hne, seen_eq_fed h.toRunning hs, hpos]
    simp

/-- A live slot has something to decode. -/
theorem block_ne_nil (h : Live L cfg (e.view sid)) : e.block sid ≠ [] :=
  block_nonempty e sid (fun _ => h.prompt_ne)

/-- The positions of the block continue those submitted before. -/
theorem block_positions (h : Live L cfg (e.view sid)) :
    (e.view sid).submitted ++ (e.block sid).map (fun x => x.pos) =
      List.range (e.view sid).seen.length := by
  have hcells := congrArg (List.map Prod.fst) (block_cells h)
  rw [List.map_append, h.cells, positioned_map_fst, positioned_map_fst, List.map_map] at hcells
  rw [h.submitted]
  exact hcells

end block

/-! ## Into the decode -/

theorem positionsOf_build (e : Engine n) (sid : Fin n) :
    positionsOf e.build.batch sid =
      if e.occupied sid then (e.block sid).map (fun x => x.pos) else [] := by
  unfold positionsOf
  rw [build_filter]
  split <;> rfl

theorem view_calling (e : Engine n) (sid : Fin n) :
    e.calling.view sid =
      if e.occupied sid then
        { e.view sid with
          slot := { e.slots.slots sid with kv_pos := e.nextPos sid }
          submitted := (e.view sid).submitted ++ (e.block sid).map (fun x => x.pos) }
      else e.view sid := by
  have hslot := (build_assembled e).slots sid
  simp only [mem_active] at hslot
  have hpos := positionsOf_build e sid
  by_cases h : e.occupied sid = true
  · rw [if_pos h] at hslot hpos ⊢
    ext <;> simp [Engine.view, Engine.calling, Engine.sampledOf, Engine.submittedOf, sampledTurn,
      submittedTurn, hslot, hpos]
  · rw [if_neg h] at hslot hpos ⊢
    ext <;> simp [Engine.view, Engine.calling, Engine.sampledOf, Engine.submittedOf, sampledTurn,
      submittedTurn, hslot, hpos]

theorem calling_occupied (e : Engine n) (sid : Fin n) :
    e.calling.occupied sid = e.occupied sid := (sameHolders_build e).occupied sid

section calling

variable {L : Llama} {cfg : EngineConfig} {e : Engine n}

theorem live_of_occupied (h : ∀ sid, Idle (e.view sid) ∨ Live L cfg (e.view sid)) {sid : Fin n}
    (hocc : e.occupied sid = true) : Live L cfg (e.view sid) := by
  rcases h sid with hi | hl
  · exact absurd hi (not_idle hocc)
  · exact hl

theorem calling_inBatch (h : ∀ sid, Idle (e.view sid) ∨ Live L cfg (e.view sid)) (sid : Fin n) :
    Idle (e.calling.view sid) ∨ InBatch L cfg (e.calling.view sid) := by
  rw [view_calling]
  by_cases hocc : e.occupied sid = true
  · rw [if_pos hocc]
    have hl := live_of_occupied h hocc
    obtain ⟨⟨g1, g2, g3, g4, g5, g6, g7, g8, g9, g10⟩, g11, g12, g13⟩ := hl
    have hl := live_of_occupied h hocc
    exact Or.inr ⟨⟨g1, g2, g3, g4, g5, g6, g7, g8, g9, g10⟩, g11, nextPos_live hl,
      block_positions hl⟩
  · rw [if_neg hocc]
    rcases h sid with hi | hl
    · exact Or.inl hi
    · exact absurd hl.occupied hocc

theorem calling_callOk (h : ∀ sid, Idle (e.view sid) ∨ Live L cfg (e.view sid))
    (hne : e.active ≠ []) : CallOk e.calling ⟨e.active, e.build.batch, e.build.logit_pos⟩ := by
  have hasm := build_assembled e
  refine ⟨hne, active_nodup e, ?_, ?_, ?_, ?_⟩
  · intro sid
    rw [calling_occupied]
    exact mem_active e sid
  · intro sid hocc
    rw [calling_occupied] at hocc
    rw [view_calling, if_pos hocc, cellsOf_batch, build_filter, if_pos hocc]
    exact block_cells (live_of_occupied h hocc)
  · intro sid hfree
    rw [calling_occupied] at hfree
    exact no_block e hfree
  · intro sid hocc
    rw [calling_occupied] at hocc
    have hl := live_of_occupied h hocc
    have hne := block_ne_nil hl
    obtain ⟨h0, hrow⟩ := hasm.row sid ((mem_active e sid).mpr hocc) hne
    obtain ⟨x, hx, hseq, hlog, hpos⟩ := e.block_last sid hne
    refine ⟨x, h0, hrow.trans hx, hlog, hseq, ?_⟩
    have hslot := hasm.slots sid
    rw [if_pos ((mem_active e sid).mpr hocc)] at hslot
    have : (e.calling.slots.slots sid).kv_pos = e.nextPos sid := by
      change (e.build.slots.slots sid).kv_pos = e.nextPos sid
      rw [hslot]
    rw [this]
    exact hpos

/-- With an active slot there is a token to decode. -/
theorem tokens_pos (h : ∀ sid, Idle (e.view sid) ∨ Live L cfg (e.view sid))
    (hne : e.active ≠ []) : (e.active.map e.slotTokens).sum ≠ 0 := by
  obtain ⟨sid, hsid⟩ := List.exists_mem_of_ne_nil _ hne
  have hl := live_of_occupied h ((mem_active e sid).mp hsid)
  intro h0
  rw [List.sum_eq_zero_iff] at h0
  have hzero := h0 (e.slotTokens sid) (List.mem_map_of_mem hsid)
  rw [← e.block_length, List.length_eq_zero_iff] at hzero
  exact block_ne_nil hl hzero

end calling

/-! ## Out of the decode -/

section sample

variable {L : Llama} {cfg : EngineConfig}

/-- The sampler picks the token that follows all tokens of its own sequence. -/
theorem sample_eq_pick {e : Engine n} {call : DecodeCall n} (hcall : CallOk e call) {sid : Fin n}
    (h : InBatch L cfg (e.view sid)) :
    llamaSamplerSample L (e.cells ++ call.batch.map BatchEntry.cell) call.batch
      (call.logit_pos sid) = L.pick (e.view sid).seen := by
  have hocc : e.occupied sid = true := h.occupied
  obtain ⟨x, h0, hrow, hlog, hseq, hpos⟩ := hcall.row sid hocc
  unfold llamaSamplerSample
  rw [hrow]
  simp only [Option.filter_some, h0, hlog, and_self, decide_true, if_true]
  unfold Llama.pick
  rw [history_eq, hseq, cellsOf_append]
  have hcells : cellsOf e.cells sid = (e.view sid).cells := rfl
  rw [hcells, hcall.cells sid hocc, List.filter_eq_self.mpr]
  intro p hp
  have hlt := positioned_lt hp
  have hkv : (e.slots.slots sid).kv_pos = (e.view sid).seen.length := h.kv_pos
  simp only [decide_eq_true_eq]
  omega

/-- One turn of the sampling loop takes a decoded slot back to the boundary. -/
theorem sampleView_ok {v : SlotView} (h : Decoded L cfg v) :
    AtBoundary L cfg (sampleView L cfg (L.pick v.seen) v) := by
  obtain ⟨⟨g1, g2, g3, g4, g5, g6, g7, g8, g9, g10⟩, g11, g12, g13⟩ := h
  unfold sampleView
  simp only [g1, Bool.not_true, Bool.false_eq_true, if_false]
  by_cases heos : L.llama_vocab_is_eog (L.pick v.seen) = true
  · simp only [heos, true_or, if_true]
    exact Or.inl (idle_retired g13)
  · simp only [heos, Bool.false_eq_true, if_false, false_or]
    split
    · exact Or.inl (idle_retired g13)
    · rename_i hlimit
      have hfed : SlotView.fed (appendView L
          { v with sampled := v.sampled ++ [L.pick v.seen] } (L.pick v.seen)) = v.seen := by
        simp [SlotView.fed, SlotView.seen, appendView]
      refine Or.inr ⟨⟨⟨g1, g2, g3, g4, ?_, ?_, ?_, ?_, ?_, ?_⟩, ?_, ?_, ?_⟩, by simp [appendView]⟩
      · simp [appendView, g5]
      · simp [appendView]
      · simp [appendView]
      · simp [appendView, g8]
      · simp only [appendView, ge_iff_le, not_le] at hlimit ⊢
        omega
      · exact .snoc g10 rfl (by simpa using heos)
      · rw [hfed]
        exact g11
      · rw [hfed]
        exact g12
      · rw [hfed]
        exact g13

end sample

/-! ## Every step keeps the slots coherent -/

/-- What the slots may look like at each place of the loop. -/
def Coherent (L : Llama) (cfg : EngineConfig) (e : Engine n) : Prop :=
  match e.place with
  | .collect _ => ∀ sid, Idle (e.view sid) ∨ Live L cfg (e.view sid)
  | .decode call => (∀ sid, Idle (e.view sid) ∨ InBatch L cfg (e.view sid)) ∧ CallOk e call
  | _ => ∀ sid, AtBoundary L cfg (e.view sid)

theorem coherent_new (L : Llama) (cfg : EngineConfig) (n : Nat) : Coherent L cfg (Engine.new n) :=
  fun _ => Or.inl ⟨rfl, rfl, rfl, rfl, rfl, rfl, rfl⟩

theorem coherent_collect {L : Llama} {cfg : EngineConfig} {e : Engine n}
    (h : ∀ sid, Idle (e.view sid) ∨ Live L cfg (e.view sid)) : Coherent L cfg e.collect := by
  rcases e.collect_cases with ⟨hact, he⟩ | ⟨hact, h0, _⟩ | ⟨hact, _, he⟩
  · rw [he]
    intro sid
    rcases h sid with hi | hl
    · exact Or.inl hi
    · have hmem : sid ∈ e.active := (mem_active e sid).mpr hl.occupied
      rw [hact] at hmem
      cases hmem
  · exact absurd h0 (tokens_pos h hact)
  · rw [he]
    exact ⟨calling_inBatch h, calling_callOk h hact⟩

/-- After a failed decode every slot is free, whatever the call left behind. -/
theorem idle_failed {L : Llama} {cfg : EngineConfig} {e : Engine n} {call : DecodeCall n}
    (h : ∀ sid, Idle (e.view sid) ∨ InBatch L cfg (e.view sid)) (hcall : CallOk e call)
    (cached : Nat) (sid : Fin n) : Idle ((e.decoded L cfg call (.failed cached)).view sid) := by
  have hview : (e.decoded L cfg call (.failed cached)).view sid =
      if sid ∈ call.active then failedView { e.view sid with
        cells := cellsOf (e.cells ++ (call.batch.take cached).map BatchEntry.cell) sid }
      else { e.view sid with
        cells := cellsOf (e.cells ++ (call.batch.take cached).map BatchEntry.cell) sid } :=
    loop_rows Engine.view Engine.decodeFailedTurn (fun _ => failedView) view_decodeFailedTurn
      call.active hcall.nodup
      { e with cells := e.cells ++ (call.batch.take cached).map BatchEntry.cell } sid
  rw [hview]
  by_cases hocc : e.occupied sid = true
  · rw [if_pos ((hcall.active sid).mpr hocc)]
    have hsub : (e.view sid).submitted = List.range (e.view sid).seen.length := by
      rcases h sid with hi | hb
      · exact absurd hi (not_idle hocc)
      · exact hb.submitted
    have hfailed : ∀ v : SlotView, v.slot.occupied = true → failedView v = v.retired :=
      fun v hv => if_pos hv
    rw [hfailed]
    · exact idle_retired hsub
    · exact hocc
  · have hfree : e.occupied sid = false := by simpa using hocc
    have hnone : cellsOf ((call.batch.take cached).map BatchEntry.cell) sid = [] := by
      rw [cellsOf_batch, List.map_eq_nil_iff, List.filter_eq_nil_iff]
      intro x hx
      have := hcall.idle sid hfree x (List.mem_of_mem_take hx)
      simpa using this
    rw [if_neg (fun hm => hocc ((hcall.active sid).mp hm)), cellsOf_append, hnone,
      List.append_nil]
    rcases h sid with hi | hb
    · exact hi
    · exact absurd hb.occupied hocc

theorem coherent_failed {L : Llama} {cfg : EngineConfig} {e : Engine n} {call : DecodeCall n}
    (h : ∀ sid, Idle (e.view sid) ∨ InBatch L cfg (e.view sid)) (hcall : CallOk e call)
    (cached : Nat) : Coherent L cfg (e.decoded L cfg call (.failed cached)) :=
  fun sid => Or.inl (idle_failed h hcall cached sid)

/-- The cache right after a decode that succeeded. -/
def Engine.fill (e : Engine n) (call : DecodeCall n) : Engine n :=
  { e with cells := e.cells ++ call.batch.map BatchEntry.cell }

theorem decoded_of_inBatch {L : Llama} {cfg : EngineConfig} {e : Engine n} {call : DecodeCall n}
    (hcall : CallOk e call) {sid : Fin n} (h : InBatch L cfg (e.view sid)) :
    Decoded L cfg ((e.fill call).view sid) := by
  have hcells : cellsOf (e.cells ++ call.batch.map BatchEntry.cell) sid =
      positioned (e.view sid).seen := by
    rw [cellsOf_append]
    exact hcall.cells sid h.occupied
  obtain ⟨⟨g1, g2, g3, g4, g5, g6, g7, g8, g9, g10⟩, _, g12, g13⟩ := h
  exact ⟨⟨g1, g2, g3, g4, g5, g6, g7, g8, g9, g10⟩, hcells, g12, g13⟩

theorem idle_fill {e : Engine n} {call : DecodeCall n} (hcall : CallOk e call) {sid : Fin n}
    (h : Idle (e.view sid)) : Idle ((e.fill call).view sid) := by
  have hnone : cellsOf (call.batch.map BatchEntry.cell) sid = [] := by
    rw [cellsOf_batch, List.map_eq_nil_iff, List.filter_eq_nil_iff]
    intro x hx
    have := hcall.idle sid h.free x hx
    simpa using this
  have hcells : cellsOf (e.cells ++ call.batch.map BatchEntry.cell) sid = [] := by
    rw [cellsOf_append, hnone, List.append_nil]
    exact h.cells
  obtain ⟨g1, g2, g3, g4, g5, _, g7⟩ := h
  exact ⟨g1, g2, g3, g4, g5, hcells, g7⟩

/-- A decode that succeeds samples a token for each active slot. -/
theorem view_decoded (L : Llama) (cfg : EngineConfig) {e : Engine n} {call : DecodeCall n}
    (hcall : CallOk e call) (sid : Fin n) :
    (e.decoded L cfg call .ok).view sid =
      if sid ∈ call.active then
        sampleView L cfg (llamaSamplerSample L (e.fill call).cells call.batch (call.logit_pos sid))
          ((e.fill call).view sid)
      else (e.fill call).view sid :=
  loop_rows Engine.view (Engine.sampleTurn L cfg (e.fill call).cells call)
    (fun i => sampleView L cfg
      (llamaSamplerSample L (e.fill call).cells call.batch (call.logit_pos i)))
    (view_sampleTurn L cfg (e.fill call).cells call) call.active hcall.nodup (e.fill call) sid

/-- After a decode that succeeded, each slot is at the boundary again. -/
theorem coherent_decoded {L : Llama} {cfg : EngineConfig} {e : Engine n} {call : DecodeCall n}
    (h : ∀ sid, Idle (e.view sid) ∨ InBatch L cfg (e.view sid)) (hcall : CallOk e call) :
    Coherent L cfg (e.decoded L cfg call .ok) := by
  intro sid
  have hview := view_decoded L cfg hcall sid
  rw [hview]
  rcases h sid with hi | hb
  · have hnot : sid ∉ call.active := fun hm => not_idle ((hcall.active sid).mp hm) hi
    rw [if_neg hnot]
    exact Or.inl (idle_fill hcall hi)
  · rw [if_pos ((hcall.active sid).mpr hb.occupied)]
    have htok := sample_eq_pick hcall hb
    have hseen : ((e.fill call).view sid).seen = (e.view sid).seen := rfl
    have hcells : (e.fill call).cells = e.cells ++ call.batch.map BatchEntry.cell := rfl
    rw [hcells, htok, ← hseen]
    exact sampleView_ok (decoded_of_inBatch hcall hb)

theorem Coherent.at_collect {L : Llama} {cfg : EngineConfig} {e : Engine n}
    (h : Coherent L cfg e) {now : Int} (hp : e.place = .collect now) :
    ∀ sid, Idle (e.view sid) ∨ Live L cfg (e.view sid) := by
  unfold Coherent at h
  rw [hp] at h
  exact h

theorem Coherent.at_decode {L : Llama} {cfg : EngineConfig} {e : Engine n}
    (h : Coherent L cfg e) {call : DecodeCall n} (hp : e.place = .decode call) :
    (∀ sid, Idle (e.view sid) ∨ InBatch L cfg (e.view sid)) ∧ CallOk e call := by
  unfold Coherent at h
  rw [hp] at h
  exact h

/-- Between two iterations every slot is at the boundary. -/
theorem Coherent.at_boundary {L : Llama} {cfg : EngineConfig} {e : Engine n}
    (h : Coherent L cfg e) (hb : e.place.boundary = true) (sid : Fin n) :
    AtBoundary L cfg (e.view sid) := by
  unfold Coherent at h
  cases hp : e.place <;> rw [hp] at h hb
  case collect => cases hb
  case decode => cases hb
  all_goals exact h sid

/-- Wherever the loop stands, an occupied slot has a prompt and is below its
limit. -/
theorem Coherent.running {L : Llama} {cfg : EngineConfig} {e : Engine n} (h : Coherent L cfg e)
    {sid : Fin n} (hocc : e.occupied sid = true) : Running L cfg (e.view sid) := by
  unfold Coherent at h
  cases hp : e.place <;> rw [hp] at h
  case collect => exact ((h sid).resolve_left (not_idle hocc)).toRunning
  case decode => exact ((h.1 sid).resolve_left (not_idle hocc)).toRunning
  all_goals exact ((h sid).resolve_left (not_idle hocc)).1.toRunning

theorem coherent_tick (L : Llama) (cfg : EngineConfig) (e : Engine n) (env : Engine.Env)
    (h : Coherent L cfg e) : Coherent L cfg (e.tick L cfg env) := by
  rcases e.tick_cases L cfg env with ⟨hb, p, hp, he⟩ | ⟨hp, he⟩ | ⟨toAdmit, hp, he⟩ |
    ⟨now, hp, he⟩ | ⟨call, hp, he⟩
  · rw [he]
    have hat := h.at_boundary hb
    rcases hp with ⟨rfl, _⟩ | rfl | ⟨rfl, _⟩
    all_goals exact hat
  · unfold Coherent at h
    rw [hp] at h
    rw [he]
    exact h
  · unfold Coherent at h
    rw [hp] at h
    rw [he]
    intro sid
    have hadm := admit_ok L cfg toAdmit e (fun sid => (h sid).idle_or_live) sid
    have hview : Engine.view { (toAdmit.foldl (Engine.admitOne L) e).retireExpired env.now with
        place := .collect env.now } sid =
        expiredView env.now ((toAdmit.foldl (Engine.admitOne L) e).view sid) :=
      view_retireExpired env.now _ sid
    rw [hview]
    exact expiredView_ok env.now hadm
  · rw [he]
    exact coherent_collect (h.at_collect hp)
  · obtain ⟨hview, hcall⟩ := h.at_decode hp
    rw [he]
    cases env.decode with
    | ok => exact coherent_decoded hview hcall
    | failed cached => exact coherent_failed hview hcall cached

/-- The views, and so the coherence of the slots, do not depend on the queue
and on `running_`. -/
theorem Coherent.congr {L : Llama} {cfg : EngineConfig} {e e' : Engine n} (h : Coherent L cfg e)
    (hp : e'.place = e.place) (hs : e'.slots = e.slots)
    (hv : ∀ sid, e'.view sid = e.view sid) : Coherent L cfg e' := by
  unfold Coherent at *
  rw [hp]
  cases hpl : e.place <;> rw [hpl] at h
  case decode call =>
    obtain ⟨h1, g0, g1, g2, g3, g4, g5⟩ := h
    refine ⟨fun sid => (hv sid).symm ▸ h1 sid, g0, g1, ?_, ?_, ?_, ?_⟩
    · intro sid
      rw [view_occupied, hv]
      exact g2 sid
    · intro sid
      rw [view_occupied, hv]
      exact g3 sid
    · intro sid
      rw [view_occupied, hv]
      exact g4 sid
    · intro sid
      rw [view_occupied, hv, hs]
      exact g5 sid
  all_goals
    intro sid
    rw [hv]
    exact h sid

theorem coherent_step (L : Llama) (cfg : EngineConfig) (e : Engine n) (a : Engine.Action)
    (h : Coherent L cfg e) : Coherent L cfg (e.step L cfg a) := by
  cases a with
  | enqueue req => exact h.congr rfl rfl (fun _ => rfl)
  | shutdown => exact h.congr rfl rfl (fun _ => rfl)
  | tick env => exact coherent_tick L cfg e env h

theorem coherent_run (L : Llama) (cfg : EngineConfig) (as : List Engine.Action) :
    Coherent L cfg ((engine L cfg).run as) :=
  invariant _ (Coherent L cfg) (coherent_new L cfg _) (fun e a h => coherent_step L cfg e a h) as

/-! ## The law of coherence -/

/-- Wherever the loop stands, a slot was fed positions 0, 1, 2, ... so far. -/
theorem Coherent.submitted {L : Llama} {cfg : EngineConfig} {e : Engine n}
    (h : Coherent L cfg e) (sid : Fin n) :
    e.submittedOf sid = List.range (e.submittedOf sid).length := by
  have hrange : ∀ k, e.submittedOf sid = List.range k →
      e.submittedOf sid = List.range (e.submittedOf sid).length := by
    intro k hk
    rw [hk, List.length_range]
  have hboundary : AtBoundary L cfg (e.view sid) →
      e.submittedOf sid = List.range (e.submittedOf sid).length := by
    rintro (hi | ⟨hl, _⟩)
    · exact hi.submitted
    · exact hrange _ hl.submitted
  unfold Coherent at h
  cases hp : e.place <;> rw [hp] at h
  case collect =>
    rcases h sid with hi | hl
    · exact hi.submitted
    · exact hrange _ hl.submitted
  case decode =>
    rcases h.1 sid with hi | hb
    · exact hi.submitted
    · exact hrange _ hb.submitted
  all_goals exact hboundary (h sid)

/-- At every boundary of an iteration, a free slot has no cells. An occupied
slot is past its prefill, its cells are the prompt and all generated tokens
but the last, at positions 0, 1, 2, ..., `kv_pos` is the next position, and
`last_token` is the last generated token. At every moment, the positions
submitted for one admission are 0, 1, 2, ... in order. -/
theorem the_cache_holds_what_the_slots_say (L : Llama) (cfg : EngineConfig)
    (as : List Engine.Action) :
    let e := (engine L cfg).run as
    (e.place.boundary = true → ∀ sid,
      (e.occupied sid = false → cellsOf e.cells sid = []) ∧
      (e.occupied sid = true →
        e.in_prefill sid = false ∧
        cellsOf e.cells sid = positioned (e.prompt_tokens sid ++ (e.sampledOf sid).dropLast) ∧
        e.tokens_generated sid = (e.sampledOf sid).length ∧
        1 ≤ e.tokens_generated sid ∧
        (e.slots.slots sid).kv_pos =
          (e.prompt_tokens sid).length + e.tokens_generated sid - 1 ∧
        (e.sampledOf sid).getLast? = some (e.slots.slots sid).last_token ∧
        e.submittedOf sid = List.range (e.slots.slots sid).kv_pos)) ∧
    ∀ sid, e.submittedOf sid = List.range (e.submittedOf sid).length := by
  intro e
  have hcoh := coherent_run L cfg as
  refine ⟨?_, hcoh.submitted⟩
  intro hb sid
  rcases hcoh.at_boundary hb sid with hi | ⟨hl, hs⟩
  · refine ⟨fun _ => hi.cells, ?_⟩
    intro hocc
    exact absurd hi (not_idle hocc)
  · refine ⟨?_, ?_⟩
    · intro hfree
      have hocc : e.occupied sid = true := hl.occupied
      rw [hfree] at hocc
      cases hocc
    · intro _
      have hfed : (e.view sid).fed = e.prompt_tokens sid ++ (e.sampledOf sid).dropLast :=
        if_neg hs
      have hgen : e.tokens_generated sid = (e.sampledOf sid).length := hl.generated
      have hpos : 1 ≤ (e.sampledOf sid).length := List.length_pos_iff.mpr hs
      have hkv : (e.slots.slots sid).kv_pos = (e.view sid).fed.length := hl.kv_pos
      have hlast := List.getLast?_eq_getLast_of_ne_nil hs
      refine ⟨?_, ?_, hgen, by omega, ?_, ?_, ?_⟩
      · have hpre : e.in_prefill sid = (e.sampledOf sid).isEmpty := hl.in_prefill
        have hsampled : e.sampledOf sid ≠ [] := hs
        rw [hpre]
        simpa using hsampled
      · rw [← hfed]
        exact hl.cells
      · rw [hkv, hfed, List.length_append, List.length_dropLast]
        omega
      · exact hlast.trans (congrArg some (hl.last_token _ hlast).symm)
      · rw [hkv]
        exact hl.submitted

end inference_server
