-- Who holds the slots after the admit loop. A request with a prompt takes a
-- free slot and keeps it, and a request without one gives its slot back.
import InferenceServer.Conservation
import InferenceServer.SlotViews

namespace inference_server

open machine

variable {n : Nat} {L : Llama}

/-! ## One turn -/

/-- The tokenizer gives a prompt exactly when its count is above 0. -/
theorem promptOf_eq_nil (L : Llama) (payload : Bytes) :
    promptOf L payload = [] ↔ (tokenizeText L (formatted payload)).1 ≤ 0 := by
  rw [← List.length_eq_zero_iff]
  simp only [promptOf, resize_length]
  omega

theorem admitTo_slots {e : Engine n} {sid : Fin n}
    (h : promptOf L (e.request sid).payload ≠ []) : (Engine.admitTo L e sid).slots = e.slots := by
  unfold Engine.admitTo
  simp only
  rw [if_neg (mt (promptOf_eq_nil L _).mpr h)]
  rfl

theorem admitTo_refused {e : Engine n} {sid : Fin n}
    (h : promptOf L (e.request sid).payload = []) :
    (Engine.admitTo L e sid).slots = e.slots.release sid := by
  unfold Engine.admitTo
  simp only
  rw [if_pos ((promptOf_eq_nil L _).mp h)]
  simp [Engine.setPrompt]

/-- What a turn of the admit loop leaves in the pool: some free slot is
cleared, or it is taken. -/
theorem admitOne_slots (e : Engine n) (req : Request) (hc : e.slots.Counted)
    (hfree : 0 < e.slots.free_count) :
    ∃ i, e.occupied i = false ∧ (e.admitOne L req).slots =
      if promptOf L req.payload = [] then
        ⟨Function.update e.slots.slots i {}, e.slots.free_count⟩
      else ⟨Function.update e.slots.slots i (.taken req), e.slots.free_count - 1⟩ := by
  obtain ⟨i, hi, hacq⟩ := e.slots.acquire_some req hc hfree
  have hone : e.admitOne L req = Engine.admitTo L ((e.seat i req).log (.acquired i req)) i := by
    unfold Engine.admitOne
    rw [hacq]
    rfl
  have hreq : ((e.seat i req).log (.acquired i req)).request i = req := by
    rw [view_request, view_seat, if_pos rfl]
    rfl
  refine ⟨i, hi, ?_⟩
  rw [hone]
  split
  · rename_i hnone
    rw [admitTo_refused (hreq.symm ▸ hnone)]
    simp [KVSlotManager.release, Engine.log, Engine.seat]
  · rename_i hsome
    rw [admitTo_slots (hreq.symm ▸ hsome)]
    rfl

/-! ## The loop -/

/-- The holders of the slots after the requests of a list were admitted. -/
structure Admitted (L : Llama) (l : List Request) (e e' : Engine n) : Prop where
  kept : ∀ sid, e.occupied sid = true →
    e'.occupied sid = true ∧ e'.request sid = e.request sid
  seated : ∀ r ∈ l, promptOf L r.payload ≠ [] → ∃ sid, e'.occupied sid = true ∧ e'.request sid = r
  holder : ∀ sid, e'.occupied sid = true →
    (e.occupied sid = true ∧ e'.request sid = e.request sid) ∨ e'.request sid ∈ l
  count : e'.slots.free_count + l.length =
    e.slots.free_count + l.countP (fun r => promptOf L r.payload = [])

theorem admitted_one (e : Engine n) (req : Request) (hc : e.slots.Counted)
    (hfree : 0 < e.slots.free_count) : Admitted L [req] e (e.admitOne L req) := by
  obtain ⟨i, hi, hslots⟩ := admitOne_slots (L := L) e req hc hfree
  have hother : ∀ sid, sid ≠ i → (e.admitOne L req).slots.slots sid = e.slots.slots sid := by
    intro sid hs
    rw [hslots]
    split <;> exact Function.update_of_ne hs _ _
  have hkept : ∀ sid, e.occupied sid = true → sid ≠ i := by
    rintro sid hocc rfl
    rw [hi] at hocc
    cases hocc
  refine ⟨?_, ?_, ?_, ?_⟩
  · intro sid hocc
    unfold Engine.occupied Engine.request
    rw [hother sid (hkept sid hocc)]
    exact ⟨hocc, rfl⟩
  · intro r hr hsome
    rw [List.mem_singleton] at hr
    subst hr
    refine ⟨i, ?_⟩
    unfold Engine.occupied Engine.request
    rw [hslots, if_neg hsome]
    simp
  · intro sid hocc
    by_cases hs : sid = i
    · subst hs
      unfold Engine.occupied Engine.request at *
      rw [hslots] at hocc ⊢
      split at hocc
      · simp at hocc
      · rename_i hsome
        right
        simp [hsome]
    · left
      unfold Engine.occupied Engine.request at *
      rw [hother sid hs] at hocc ⊢
      exact ⟨hocc, rfl⟩
  · rw [hslots]
    split
    · rename_i hnone
      simp [hnone]
    · rename_i hsome
      simp [hsome]

theorem Admitted.trans {l l' : List Request} {e e' e'' : Engine n} (h : Admitted L l e e')
    (h' : Admitted L l' e' e'') : Admitted L (l ++ l') e e'' := by
  refine ⟨?_, ?_, ?_, ?_⟩
  · intro sid hocc
    obtain ⟨hocc', hreq⟩ := h.kept sid hocc
    obtain ⟨hocc'', hreq'⟩ := h'.kept sid hocc'
    exact ⟨hocc'', hreq'.trans hreq⟩
  · intro r hr hsome
    rcases List.mem_append.mp hr with hr | hr
    · obtain ⟨sid, hocc, hreq⟩ := h.seated r hr hsome
      obtain ⟨hocc', hreq'⟩ := h'.kept sid hocc
      exact ⟨sid, hocc', hreq'.trans hreq⟩
    · exact h'.seated r hr hsome
  · intro sid hocc
    rcases h'.holder sid hocc with ⟨hocc', hreq'⟩ | hmem
    · rcases h.holder sid hocc' with ⟨hocc'', hreq⟩ | hmem
      · exact Or.inl ⟨hocc'', hreq'.trans hreq⟩
      · exact Or.inr (List.mem_append_left _ (hreq'.symm ▸ hmem))
    · exact Or.inr (List.mem_append_right _ hmem)
  · have h1 := h.count
    have h2 := h'.count
    rw [List.length_append, List.countP_append]
    push_cast
    omega

/-- The admit loop, with a free slot for each request. -/
theorem admission_holders (l : List Request) (e : Engine n) (h : Accounts e l)
    (hroom : (l.length : Int) ≤ e.slots.free_count) :
    Admitted L l e (l.foldl (Engine.admitOne L) e) := by
  induction l generalizing e with
  | nil => exact ⟨fun _ hocc => ⟨hocc, rfl⟩, by simp, fun _ hocc => Or.inl ⟨hocc, rfl⟩, by simp⟩
  | cons r l ih =>
    obtain ⟨hacc, hleft⟩ := accounts_admitOne L e r l h hroom
    simp only [List.length_cons] at hroom
    exact (admitted_one e r h.counted (by omega)).trans (ih _ hacc hleft)

/-- Each request that the tokenizer takes keeps its slot. -/
theorem admit_fills (l : List Request) (e : Engine n) (h : Accounts e l)
    (hroom : (l.length : Int) ≤ e.slots.free_count)
    (hprompt : ∀ r ∈ l, promptOf L r.payload ≠ []) :
    (l.foldl (Engine.admitOne L) e).slots.free_count = e.slots.free_count - l.length := by
  have hcount := (admission_holders (L := L) l e h hroom).count
  have hnone : l.countP (fun r => promptOf L r.payload = []) = 0 := by
    rw [List.countP_eq_zero]
    intro r hr
    simpa using hprompt r hr
  rw [hnone] at hcount
  omega

end inference_server
