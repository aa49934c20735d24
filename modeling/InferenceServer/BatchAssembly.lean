-- What the build loop of `engine_loop` writes: one block of entries for each
-- active slot, and in `logit_pos` the index of the last entry of the block.
import InferenceServer.SlotViews

namespace inference_server

open machine

variable {n : Nat}

namespace Engine

/-- The entries that a slot adds to the batch: its prompt from position 0 on,
or its last token at its next position. -/
def block (e : Engine n) (sid : Fin n) : List (BatchEntry n) :=
  if e.in_prefill sid then
    (e.prompt_tokens sid).zipIdx.map
      (fun t => ⟨t.1, t.2, sid, decide (t.2 + 1 = (e.prompt_tokens sid).length)⟩)
  else [⟨(e.slots.slots sid).last_token, (e.slots.slots sid).kv_pos, sid, true⟩]

/-- `kv_pos` after the slot was put into the batch. -/
def nextPos (e : Engine n) (sid : Fin n) : Nat :=
  if e.in_prefill sid then (e.prompt_tokens sid).length else (e.slots.slots sid).kv_pos + 1

theorem block_seq (e : Engine n) (sid : Fin n) : ∀ x ∈ e.block sid, x.seq_id = sid := by
  intro x hx
  unfold block at hx
  split at hx
  · simp only [List.mem_map] at hx
    obtain ⟨_, _, rfl⟩ := hx
    rfl
  · simp only [List.mem_singleton] at hx
    rw [hx]

theorem block_length (e : Engine n) (sid : Fin n) : (e.block sid).length = e.slotTokens sid := by
  unfold block slotTokens
  split <;> simp

/-- Only the last entry of a block asks for logits, and it stands just below
the next position. -/
theorem block_last (e : Engine n) (sid : Fin n) (h : e.block sid ≠ []) :
    ∃ x, (e.block sid).getLast? = some x ∧ x.seq_id = sid ∧ x.logits = true ∧
      x.pos + 1 = e.nextPos sid := by
  unfold block nextPos at *
  split
  · rename_i hp
    rw [if_pos hp] at h
    rw [List.getLast?_map]
    have hne : (e.prompt_tokens sid).length ≠ 0 := by
      intro h0
      apply h
      simp [List.length_eq_zero_iff.mp h0]
    obtain ⟨t, ht⟩ : ∃ t, (e.prompt_tokens sid).zipIdx.getLast? = some t := by
      rcases ht : (e.prompt_tokens sid).zipIdx.getLast? with _ | t
      · rw [List.getLast?_eq_none_iff] at ht
        have := congrArg List.length ht
        simp only [List.length_zipIdx, List.length_nil] at this
        exact absurd this hne
      · exact ⟨t, rfl⟩
    have hpos : t.2 = (e.prompt_tokens sid).length - 1 := by
      rw [List.getLast?_eq_getElem?, List.length_zipIdx, List.getElem?_zipIdx] at ht
      simp only [Option.map_eq_some_iff, Nat.zero_add] at ht
      obtain ⟨_, _, rfl⟩ := ht
      rfl
    rw [ht]
    refine ⟨_, rfl, rfl, ?_, ?_⟩
    · simp only [decide_eq_true_eq]
      omega
    · simp only
      omega
  · exact ⟨_, rfl, rfl, rfl, rfl⟩

end Engine

/-! ## One turn -/

/-- The inner loop, from token `k` of a prompt of `size` tokens to its end. -/
theorem prefill_loop (sid : Fin n) (size : Nat) (toks : List Token) (k : Nat) (b : Build n)
    (h : k + toks.length = size) :
    (toks.zipIdx k).foldl (Build.prefillTurn sid size) b =
      { b with
        batch := b.batch ++ (toks.zipIdx k).map
          (fun t => ⟨t.1, t.2, sid, decide (t.2 + 1 = size)⟩)
        logit_pos := if toks = [] then b.logit_pos
          else Function.update b.logit_pos sid (b.batch.length + toks.length - 1 : Int) } := by
  induction toks generalizing k b with
  | nil => simp
  | cons t ts ih =>
    simp only [List.length_cons] at h
    rw [List.zipIdx_cons, List.foldl_cons, ih (k + 1) _ (by omega)]
    by_cases hts : ts = []
    · subst hts
      simp only [List.length_nil] at h
      simp [Build.prefillTurn, show k + 1 = size by omega]
    · have hlen : 0 < ts.length := List.length_pos_of_ne_nil hts
      have hne : ¬ k + 1 = size := by omega
      simp only [Build.prefillTurn, hne, hts, decide_false, Bool.false_eq_true, if_false,
        List.map_cons, List.append_assoc, List.singleton_append, reduceCtorEq,
        List.length_append, List.length_cons, List.length_nil]
      congr 2
      push_cast
      omega

/-- What one turn of the build loop does, on a slot that it has not touched
yet. -/
theorem turn_eq (e : Engine n) (b : Build n) (sid : Fin n)
    (hs : b.slots.slots sid = e.slots.slots sid) :
    Build.turn e b sid =
      { slots := b.slots.modify sid (fun s => { s with kv_pos := e.nextPos sid })
        batch := b.batch ++ e.block sid
        logit_pos := if e.block sid = [] then b.logit_pos
          else Function.update b.logit_pos sid
            (b.batch.length + (e.block sid).length - 1 : Int) } := by
  unfold Build.turn Engine.block Engine.nextPos
  by_cases hp : e.in_prefill sid = true
  · simp only [hp, if_true]
    rw [prefill_loop sid _ _ 0 b (by simp)]
    simp [← List.length_eq_zero_iff]
  · simp only [hp, Bool.false_eq_true, if_false, hs]
    unfold KVSlotManager.modify
    simp [hs]

/-! ## The whole loop -/

/-- What the loop has written once it has visited the slots of `done`. -/
structure Assembled (e : Engine n) (b : Build n) (done : List (Fin n)) : Prop where
  batch : b.batch = done.flatMap e.block
  slots : ∀ i, b.slots.slots i =
    if i ∈ done then { e.slots.slots i with kv_pos := e.nextPos i } else e.slots.slots i
  row : ∀ i ∈ done, e.block i ≠ [] →
    0 ≤ b.logit_pos i ∧ b.batch[(b.logit_pos i).toNat]? = (e.block i).getLast?
  idle : ∀ i ∉ done, b.logit_pos i = -1

theorem assembled_turn {e : Engine n} {b : Build n} {done : List (Fin n)} (h : Assembled e b done)
    (sid : Fin n) (hnew : sid ∉ done) : Assembled e (Build.turn e b sid) (done ++ [sid]) := by
  have hslot : b.slots.slots sid = e.slots.slots sid := by rw [h.slots, if_neg hnew]
  rw [turn_eq e b sid hslot]
  refine ⟨by simp [h.batch], ?_, ?_, ?_⟩
  · intro i
    by_cases hi : i = sid
    · subst hi
      simp [KVSlotManager.modify, hslot]
    · simp [KVSlotManager.modify, hi, h.slots]
  · intro i hi hne
    simp only [List.mem_append, List.mem_singleton] at hi
    by_cases his : i = sid
    · -- its own row: the last entry of the block that this turn appends
      subst his
      have hlen : 0 < (e.block i).length := List.length_pos_of_ne_nil hne
      simp only [hne, if_false, Function.update_self]
      refine ⟨by omega, ?_⟩
      rw [List.getElem?_append_right (by omega), List.getLast?_eq_getElem?]
      congr 1
      omega
    · -- an earlier row: the batch only grew behind it
      have hdone : i ∈ done := by tauto
      obtain ⟨h0, hrow⟩ := h.row i hdone hne
      have hsame : (if e.block sid = [] then b.logit_pos else Function.update b.logit_pos sid
          (b.batch.length + (e.block sid).length - 1 : Int)) i = b.logit_pos i := by
        split
        · rfl
        · rw [Function.update_of_ne his]
      simp only [hsame]
      refine ⟨h0, ?_⟩
      rw [← hrow]
      apply List.getElem?_append_left
      by_contra hc
      rw [List.getElem?_eq_none (by omega), eq_comm, List.getLast?_eq_none_iff] at hrow
      exact hne hrow
  · intro i hi
    simp only [List.mem_append, List.mem_singleton, not_or] at hi
    simp only
    split
    · exact h.idle i hi.1
    · rw [Function.update_of_ne hi.2]
      exact h.idle i hi.1

theorem assembled_loop {e : Engine n} (l done : List (Fin n)) (b : Build n)
    (h : Assembled e b done) (hl : (done ++ l).Nodup) :
    Assembled e (l.foldl (Build.turn e) b) (done ++ l) := by
  induction l generalizing done b with
  | nil => simpa using h
  | cons sid l ih =>
    have hnew : sid ∉ done := by
      intro hm
      exact (List.nodup_append.mp hl).2.2 sid hm sid (by simp) rfl
    have := ih (done ++ [sid]) (Build.turn e b sid) (assembled_turn h sid hnew) (by simpa using hl)
    simpa using this

theorem active_nodup (e : Engine n) : e.active.Nodup := (List.nodup_finRange n).filter _

theorem mem_active (e : Engine n) (sid : Fin n) : sid ∈ e.active ↔ e.occupied sid = true := by
  simp [Engine.active]

/-- The batch of an iteration: a block for each occupied slot, in order. -/
theorem build_assembled (e : Engine n) : Assembled e e.build e.active := by
  have := assembled_loop (e := e) e.active []
    { slots := e.slots, batch := [], logit_pos := fun _ => -1 }
    ⟨by simp, by simp, by simp, by simp⟩ (by simpa using active_nodup e)
  simpa [Engine.build] using this

/-- The entries of one sequence are its own block. -/
theorem filter_blocks (e : Engine n) (l : List (Fin n)) (hl : l.Nodup) (sid : Fin n) :
    (l.flatMap e.block).filter (fun x => x.seq_id = sid) = if sid ∈ l then e.block sid else [] := by
  induction l with
  | nil => simp
  | cons i l ih =>
    obtain ⟨hi, hl⟩ := List.nodup_cons.mp hl
    rw [List.flatMap_cons, List.filter_append, ih hl]
    by_cases h : sid = i
    · subst h
      have hall : (e.block sid).filter (fun x => x.seq_id = sid) = e.block sid := by
        rw [List.filter_eq_self]
        intro x hx
        simp [e.block_seq sid x hx]
      simp [hall, hi]
    · have hnone : (e.block i).filter (fun x => x.seq_id = sid) = [] := by
        rw [List.filter_eq_nil_iff]
        intro x hx
        simp [e.block_seq i x hx, Ne.symm h]
      simp [hnone, h]

theorem build_filter (e : Engine n) (sid : Fin n) :
    e.build.batch.filter (fun x => x.seq_id = sid) =
      if e.occupied sid then e.block sid else [] := by
  rw [(build_assembled e).batch, filter_blocks e _ (active_nodup e)]
  simp only [mem_active]

/-! ## The law of the batch -/

/-- A block with entries asks for logits at its last one only. -/
theorem block_split (e : Engine n) (sid : Fin n) (h : e.block sid ≠ []) :
    ∃ mid x, e.block sid = mid ++ [x] ∧ x.logits = true ∧ ∀ y ∈ mid, y.logits = false := by
  obtain ⟨x, hx, -, hlog, -⟩ := e.block_last sid h
  have hsplit : e.block sid = (e.block sid).dropLast ++ [x] := by
    rw [List.dropLast_append_getLast? x hx]
  refine ⟨(e.block sid).dropLast, x, hsplit, hlog, ?_⟩
  intro y hy
  obtain ⟨k, hk, rfl⟩ := List.mem_iff_getElem.mp hy
  rw [List.length_dropLast] at hk
  rw [List.getElem_dropLast]
  unfold Engine.block at hk ⊢
  split at hk
  · rename_i hp
    simp only [List.length_map, List.length_zipIdx] at hk
    simp only [hp, if_true, List.getElem_map, List.getElem_zipIdx, Nat.zero_add]
    apply decide_eq_false
    omega
  · simp at hk

/-- The tokens of a block, with their positions. -/
theorem block_tokens (e : Engine n) (sid : Fin n) :
    (e.block sid).map (fun x => (x.token, x.pos)) =
      if e.in_prefill sid then (e.prompt_tokens sid).zipIdx
      else [((e.slots.slots sid).last_token, (e.slots.slots sid).kv_pos)] := by
  unfold Engine.block
  split
  · rw [List.map_map]
    exact List.map_id _
  · rfl

/-- The entry that a sequence samples from stands where its block ends. -/
theorem row_index {batch pre mid post : List (BatchEntry n)} {x y : BatchEntry n} {sid : Fin n}
    {k : Nat} (hb : batch = pre ++ (mid ++ [x]) ++ post)
    (hout : ∀ z ∈ pre ++ post, z.seq_id ≠ sid) (hmid : ∀ z ∈ mid, z.logits = false)
    (hy : batch[k]? = some y) (hseq : y.seq_id = sid) (hlog : y.logits = true) :
    k = (pre ++ mid).length := by
  have hb' : batch = (pre ++ mid) ++ (x :: post) := by simp [hb]
  rw [hb'] at hy
  rcases Nat.lt_trichotomy k (pre ++ mid).length with hlt | heq | hgt
  · rw [List.getElem?_append_left hlt] at hy
    rcases List.mem_append.mp (List.mem_of_getElem? hy) with hpre | hin
    · exact absurd hseq (hout y (List.mem_append_left _ hpre))
    · rw [hmid y hin] at hlog
      cases hlog
  · exact heq
  · rw [List.getElem?_append_right (by omega)] at hy
    obtain ⟨j, hj⟩ : ∃ j, k - (pre ++ mid).length = j + 1 :=
      ⟨k - (pre ++ mid).length - 1, by omega⟩
    rw [hj, List.getElem?_cons_succ] at hy
    exact absurd hseq (hout y (List.mem_append_right _ (List.mem_of_getElem? hy)))

/-- The entries that the slots of a list add, counted as `engine_loop` counts
them beforehand. -/
theorem blocks_length (e : Engine n) (l : List (Fin n)) :
    (l.flatMap e.block).length = (l.map e.slotTokens).sum := by
  rw [List.length_flatMap]
  simp only [Engine.block_length]

/-- A slot in prefill with a prompt, or one that generates, adds entries. -/
theorem block_nonempty (e : Engine n) (sid : Fin n)
    (h : e.in_prefill sid = true → e.prompt_tokens sid ≠ []) : e.block sid ≠ [] := by
  intro hnil
  have htokens := block_tokens e sid
  rw [hnil] at htokens
  split at htokens
  · rename_i hp
    apply h hp
    simpa using htokens.symm
  · cases htokens

/-- The entries of an active slot stand together in the batch, and the index
of the last one is in `logit_pos`. -/
theorem own_block (e : Engine n) {sid : Fin n} (hocc : e.occupied sid = true)
    (hne : e.block sid ≠ []) :
    ∃ pre mid x post, e.build.batch = pre ++ (mid ++ [x]) ++ post ∧
      (∀ y ∈ pre ++ post, y.seq_id ≠ sid) ∧ e.block sid = mid ++ [x] ∧
      (∀ y ∈ mid, y.logits = false) ∧ x.logits = true ∧
      e.build.logit_pos sid = (pre ++ mid).length := by
  have hasm := build_assembled e
  have hmem := (mem_active e sid).mpr hocc
  obtain ⟨l₁, l₂, hl⟩ := List.append_of_mem hmem
  obtain ⟨mid, x, hsplit, hx, hmid⟩ := block_split e sid hne
  have hbatch : e.build.batch = l₁.flatMap e.block ++ (mid ++ [x]) ++ l₂.flatMap e.block := by
    rw [hasm.batch, hl]
    simp [hsplit]
  have hout : ∀ y ∈ l₁.flatMap e.block ++ l₂.flatMap e.block, y.seq_id ≠ sid := by
    intro y hy hseq
    have hnodup := active_nodup e
    rw [hl, List.nodup_middle, List.nodup_cons] at hnodup
    rw [← List.flatMap_append] at hy
    obtain ⟨i, hi, hyi⟩ := List.mem_flatMap.mp hy
    rw [e.block_seq i y hyi] at hseq
    exact hnodup.1 (hseq ▸ hi)
  obtain ⟨h0, hrow⟩ := hasm.row sid hmem hne
  rw [hsplit, List.getLast?_concat] at hrow
  have hseq : x.seq_id = sid := e.block_seq sid x (by simp [hsplit])
  have hk := row_index hbatch hout hmid hrow hseq hx
  exact ⟨_, mid, x, _, hbatch, hout, hsplit, hmid, hx, by omega⟩

/-- No entry of the batch is for a free slot. -/
theorem no_block (e : Engine n) {sid : Fin n} (hfree : e.occupied sid = false) :
    ∀ y ∈ e.build.batch, y.seq_id ≠ sid := by
  intro y hy hseq
  have hmem : y ∈ e.build.batch.filter (fun x => x.seq_id = sid) := by
    simp [List.mem_filter, hy, hseq]
  rw [build_filter, hfree] at hmem
  simp at hmem

/-- The build loop after the slots of the first part of the list. -/
def buildUpTo (e : Engine n) (l : List (Fin n)) : Build n :=
  l.foldl (Build.turn e) { slots := e.slots, batch := [], logit_pos := fun _ => -1 }

/-- The build loop writes as many entries as were counted beforehand, and no
more at any turn. The entries of an active slot are one block: its prompt from
position 0 on, or its last token at its next position. The last entry of the
block, and no other, asks for logits, and `logit_pos` holds its index. -/
theorem each_active_slot_has_one_block (e : Engine n)
    (hprompt : ∀ sid, e.occupied sid = true → e.in_prefill sid = true → e.prompt_tokens sid ≠ []) :
    e.build.batch.length = (e.active.map e.slotTokens).sum ∧
    (∀ l₁ l₂, e.active = l₁ ++ l₂ →
      (buildUpTo e l₁).batch.length ≤ (e.active.map e.slotTokens).sum) ∧
    (∀ sid, e.occupied sid = true → ∃ pre mid x post,
      e.build.batch = pre ++ (mid ++ [x]) ++ post ∧
      (∀ y ∈ pre ++ post, y.seq_id ≠ sid) ∧
      (∀ y ∈ mid ++ [x], y.seq_id = sid) ∧
      (mid ++ [x]).map (fun y => (y.token, y.pos)) =
        (if e.in_prefill sid then (e.prompt_tokens sid).zipIdx
          else [((e.slots.slots sid).last_token, (e.slots.slots sid).kv_pos)]) ∧
      (∀ y ∈ mid, y.logits = false) ∧ x.logits = true ∧
      e.build.logit_pos sid = (pre ++ mid).length) ∧
    (∀ i j, e.occupied i = true → e.occupied j = true → i ≠ j →
      e.build.logit_pos i ≠ e.build.logit_pos j) ∧
    ∀ sid, e.occupied sid = false →
      e.build.logit_pos sid = -1 ∧ ∀ y ∈ e.build.batch, y.seq_id ≠ sid := by
  have hasm := build_assembled e
  have hne : ∀ sid, e.occupied sid = true → e.block sid ≠ [] :=
    fun sid hocc => block_nonempty e sid (hprompt sid hocc)
  refine ⟨?_, ?_, ?_, ?_, ?_⟩
  · rw [hasm.batch, blocks_length]
  · intro l₁ l₂ hl
    have hl₁ : ([] ++ l₁).Nodup := by
      have hnodup := active_nodup e
      rw [hl] at hnodup
      exact (List.nodup_append.mp hnodup).1
    have hpart : Assembled e (buildUpTo e l₁) ([] ++ l₁) :=
      assembled_loop l₁ [] _ ⟨by simp, by simp, by simp, by simp⟩ hl₁
    rw [hpart.batch, blocks_length, hl, List.nil_append, List.map_append, List.sum_append]
    apply Nat.le_add_right
  · intro sid hocc
    obtain ⟨pre, mid, x, post, hbatch, hout, hsplit, hmid, hx, hpos⟩ :=
      own_block e hocc (hne sid hocc)
    refine ⟨pre, mid, x, post, hbatch, hout, ?_, ?_, hmid, hx, hpos⟩
    · rw [← hsplit]
      exact e.block_seq sid
    · rw [← hsplit]
      exact block_tokens e sid
  · -- at one index there is one entry, and it is of one sequence
    intro i j hi hj hij heq
    obtain ⟨-, hrowi⟩ := hasm.row i ((mem_active e i).mpr hi) (hne i hi)
    obtain ⟨-, hrowj⟩ := hasm.row j ((mem_active e j).mpr hj) (hne j hj)
    obtain ⟨x, hx, hxi, -⟩ := e.block_last i (hne i hi)
    obtain ⟨y, hy, hyj, -⟩ := e.block_last j (hne j hj)
    rw [heq, hrowj, hy, hx] at hrowi
    cases hrowi
    exact hij (hxi.symm.trans hyj)
  · intro sid hfree
    refine ⟨hasm.idle sid (fun hm => ?_), no_block e hfree⟩
    rw [mem_active, hfree] at hm
    cases hm

/-- Two slots, one in prefill and one that generates. -/
theorem a_prompt_next_to_a_token :
    let e : Engine 3 := { ((Engine.new 3).seat 0 helloRequest).seat 2 helloRequest with
      in_prefill := fun i => i = 2
      prompt_tokens := fun _ => [7, 8] }
    e.build.batch.length = 3 ∧ e.build.logit_pos 1 = -1 := by
  intro e
  have h := each_active_slot_has_one_block e (by decide)
  exact ⟨h.1, (h.2.2.2.2 1 (by decide)).1⟩

end inference_server
