-- The pool of KV cache slots (`src/kv_slot_manager.cpp`). The count of free
-- slots is a number of its own, kept next to the slots: each law here says
-- how one call moves both.
import InferenceServer.Request
import InferenceServer.Lib.Machine
import Mathlib.Algebra.Order.BigOperators.Group.Finset
import Mathlib.Data.List.FinRange

namespace inference_server

open machine

structure Slot where
  occupied : Bool := false
  request : Request := .empty
  kv_pos : Nat := 0
  last_token : Token := -1
  deriving DecidableEq, Repr

/-- What `acquire` writes to the slot that it takes. -/
def Slot.taken (req : Request) : Slot :=
  { occupied := true, request := req, kv_pos := 0, last_token := -1 }

@[simp] theorem Slot.taken_occupied (req : Request) : (Slot.taken req).occupied = true := rfl
@[simp] theorem Slot.taken_request (req : Request) : (Slot.taken req).request = req := rfl

/-- The pool of `n = max_slots` slots. A slot index is also the `seq_id` of
its sequence. -/
structure KVSlotManager (n : Nat) where
  slots : Fin n → Slot
  free_count : Int

namespace KVSlotManager

variable {n : Nat}

def new (n : Nat) : KVSlotManager n := { slots := fun _ => {}, free_count := n }

/-- Marks the first free slot occupied, or gives `none` (-1 in the source)
when all are taken. -/
def acquire (m : KVSlotManager n) (req : Request) : KVSlotManager n × Option (Fin n) :=
  match (List.finRange n).find? (fun i => !(m.slots i).occupied) with
  | some i => (⟨Function.update m.slots i (.taken req), m.free_count - 1⟩, some i)
  | none => (m, none)

/-- Clears the slot. It never looks at whether the slot was occupied. The
caller has run `free_fn_` on the same index just before. -/
def release (m : KVSlotManager n) (seq_id : Fin n) : KVSlotManager n :=
  { slots := Function.update m.slots seq_id {}, free_count := m.free_count + 1 }

/-- Applies `f` to one slot, as the engine does through `slot(sid)`. -/
def modify (m : KVSlotManager n) (sid : Fin n) (f : Slot → Slot) : KVSlotManager n :=
  { m with slots := Function.update m.slots sid (f (m.slots sid)) }

/-! ## The count of free slots -/

/-- How many slots are not occupied. -/
def freeSlots (m : KVSlotManager n) : Nat := ∑ i, if (m.slots i).occupied then 0 else 1

/-- `free_count` tells the truth. -/
def Counted (m : KVSlotManager n) : Prop := m.free_count = m.freeSlots

theorem counted_new : (new n).Counted := by
  simp [Counted, freeSlots, new]

theorem freeSlots_le (m : KVSlotManager n) : m.freeSlots ≤ n := by
  calc m.freeSlots ≤ ∑ _i : Fin n, 1 := by
        apply Finset.sum_le_sum
        intro i _
        split <;> omega
    _ = n := by simp

theorem freeSlots_eq_n (m : KVSlotManager n) :
    m.freeSlots = n ↔ ∀ i, (m.slots i).occupied = false := by
  constructor
  · intro h i
    by_contra hi
    have hlt : m.freeSlots < ∑ _i : Fin n, 1 := by
      apply Finset.sum_lt_sum
      · intro j _
        split <;> omega
      · exact ⟨i, Finset.mem_univ i, by simp [hi]⟩
    simp at hlt
    omega
  · intro h
    simp [freeSlots, h]

theorem freeSlots_eq_zero (m : KVSlotManager n) :
    m.freeSlots = 0 ↔ ∀ i, (m.slots i).occupied = true := by
  simp [freeSlots]

/-- Replacing one slot moves the number of free slots by that slot alone. -/
theorem freeSlots_update (m : KVSlotManager n) (i : Fin n) (s : Slot) (c : Int) :
    freeSlots { slots := Function.update m.slots i s, free_count := c } +
        (if (m.slots i).occupied then 0 else 1) =
      m.freeSlots + (if s.occupied then 0 else 1) :=
  sum_update m.slots i s (fun s : Slot => if s.occupied then 0 else 1)

/-! ## What each call does -/

/-- What `acquire` does: it takes the first free slot, or all are taken. -/
theorem acquire_cases (m : KVSlotManager n) (req : Request) :
    (∃ i, (m.slots i).occupied = false ∧
      m.acquire req = (⟨Function.update m.slots i (.taken req), m.free_count - 1⟩, some i)) ∨
    ((∀ i, (m.slots i).occupied = true) ∧ m.acquire req = (m, none)) := by
  unfold acquire
  rcases hf : (List.finRange n).find? (fun i => !(m.slots i).occupied) with _ | i
  · right
    simp only [List.find?_eq_none, List.mem_finRange, forall_const] at hf
    exact ⟨fun i => by simpa using hf i, rfl⟩
  · left
    have hi := List.find?_some hf
    exact ⟨i, by simpa using hi, rfl⟩

/-- `acquire` fails only on a full pool, so never while the count is above 0. -/
theorem acquire_some (m : KVSlotManager n) (req : Request) (hc : m.Counted)
    (hfree : 0 < m.free_count) :
    ∃ i, (m.slots i).occupied = false ∧
      m.acquire req = (⟨Function.update m.slots i (.taken req), m.free_count - 1⟩, some i) := by
  rcases m.acquire_cases req with h | ⟨hfull, _⟩
  · exact h
  · have h0 := m.freeSlots_eq_zero.mpr hfull
    unfold Counted at hc
    omega

/-- Taking a free slot, as `acquire` does. -/
theorem counted_take (m : KVSlotManager n) {i : Fin n} (req : Request) (h : m.Counted)
    (hfree : (m.slots i).occupied = false) :
    Counted ⟨Function.update m.slots i (.taken req), m.free_count - 1⟩ := by
  have hfs := m.freeSlots_update i (.taken req) (m.free_count - 1)
  simp only [hfree, Slot.taken_occupied, Bool.false_eq_true, if_false, if_true] at hfs
  unfold Counted at h ⊢
  simp only
  omega

theorem counted_release (m : KVSlotManager n) (sid : Fin n) (h : m.Counted)
    (hocc : (m.slots sid).occupied = true) : (m.release sid).Counted := by
  have := m.freeSlots_update sid {} (m.free_count + 1)
  simp only [hocc, if_true, Bool.false_eq_true, if_false] at this
  unfold Counted release at *
  simp only
  omega

/-! ## Slots with the same holders -/

/-- The two pools differ at most in what the slots say about decoding. -/
structure SameHolders (m m' : KVSlotManager n) : Prop where
  count : m'.free_count = m.free_count
  occupied : ∀ i, (m'.slots i).occupied = (m.slots i).occupied
  request : ∀ i, (m'.slots i).request = (m.slots i).request

theorem SameHolders.refl (m : KVSlotManager n) : SameHolders m m :=
  ⟨rfl, fun _ => rfl, fun _ => rfl⟩

theorem SameHolders.trans {m m' m'' : KVSlotManager n} (h : SameHolders m m')
    (h' : SameHolders m' m'') : SameHolders m m'' :=
  ⟨h'.count.trans h.count, fun i => (h'.occupied i).trans (h.occupied i),
    fun i => (h'.request i).trans (h.request i)⟩

theorem sameHolders_modify (m : KVSlotManager n) (sid : Fin n) (f : Slot → Slot)
    (hocc : (f (m.slots sid)).occupied = (m.slots sid).occupied)
    (hreq : (f (m.slots sid)).request = (m.slots sid).request) :
    SameHolders m (m.modify sid f) := by
  refine ⟨rfl, fun i => ?_, fun i => ?_⟩
  · by_cases hi : i = sid
    · subst hi
      simpa [modify] using hocc
    · simp [modify, hi]
  · by_cases hi : i = sid
    · subst hi
      simpa [modify] using hreq
    · simp [modify, hi]

theorem SameHolders.freeSlots {m m' : KVSlotManager n} (h : SameHolders m m') :
    m'.freeSlots = m.freeSlots := by
  simp [KVSlotManager.freeSlots, h.occupied]

theorem SameHolders.counted {m m' : KVSlotManager n} (h : SameHolders m m') (hc : m.Counted) :
    m'.Counted := by
  unfold Counted at *
  rw [h.count, h.freeSlots, hc]

end KVSlotManager

end inference_server
