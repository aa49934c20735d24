-- Token buckets over any ordered field, and the windows of their past. The
-- level of a bucket is the least that any window of its past still allows.
import Mathlib.Algebra.Order.Field.Basic
import Mathlib.Tactic.Linarith
import Mathlib.Tactic.Ring

namespace token_bucket

variable {K : Type*} [Field K]

/-! ## Windows -/

/-- A part of the past up to now: the credit since its start, and the tokens
taken in it. -/
structure Window (K : Type*) where
  credit : K
  used : Nat

namespace Window

/-- The window that starts now. -/
def fresh : Window K := ⟨0, 0⟩

def earn (w : Window K) (credit : K) : Window K := { w with credit := w.credit + credit }

def use (w : Window K) (k : Nat) : Window K := { w with used := w.used + k }

/-- What the window still allows: at most `cap` and its credit, less what
was taken in it. -/
def room (cap : K) (w : Window K) : K := cap + w.credit - w.used

@[simp] theorem room_fresh (cap : K) : room cap fresh = cap := by
  simp [room, fresh]

@[simp] theorem room_earn (cap : K) (w : Window K) (c : K) :
    room cap (w.earn c) = room cap w + c := by
  simp only [room, earn]
  ring

@[simp] theorem room_use (cap : K) (w : Window K) (k : Nat) :
    room cap (w.use k) = room cap w - k := by
  simp only [room, use, Nat.cast_add]
  ring

end Window

/-! ## One call -/

variable [LinearOrder K]

/-- The level after a credit, in a bucket that holds at most `cap`. -/
def gain (cap level credit : K) : K := min cap (level + credit)

/-- The tokens that a call takes: one, when there is one. -/
def taken (level : K) : Nat := if level < 1 then 0 else 1

/-- The level after a call took its token. -/
def rest (level : K) : K := if level < 1 then level else level - 1

/-- The level is exactly what the windows allow together. -/
def Tight (cap : K) (ws : List (Window K)) (level : K) : Prop :=
  ∀ x, x ≤ level ↔ ∀ w ∈ ws, x ≤ w.room cap

theorem gain_le_cap (cap level credit : K) : gain cap level credit ≤ cap := min_le_left _ _

theorem gain_le (cap level credit : K) : gain cap level credit ≤ level + credit := min_le_right _ _

theorem le_gain {cap level credit x : K} :
    x ≤ gain cap level credit ↔ x ≤ cap ∧ x ≤ level + credit := le_min_iff

theorem rest_eq (level : K) : rest level = level - taken level := by
  unfold rest taken
  split <;> simp

/-- As long as the cap does not bind, credits add up. -/
theorem gain_gain {cap level a : K} (h : gain cap level a < cap) (b : K) :
    gain cap (gain cap level a) b = gain cap level (a + b) := by
  have hsum : gain cap level a = level + a := by
    apply min_eq_right
    by_contra hfull
    rw [gain, min_eq_left (not_le.mp hfull).le] at h
    exact lt_irrefl _ h
  rw [hsum, gain, gain, add_assoc]

/-- A full bucket has only the window that starts now. -/
theorem tight_full (cap : K) : Tight cap [Window.fresh] cap := by
  intro x
  simp

variable [IsStrictOrderedRing K]

theorem gain_nonneg {cap level credit : K} (hcap : 0 ≤ cap) (hlevel : 0 ≤ level)
    (hcredit : 0 ≤ credit) : 0 ≤ gain cap level credit :=
  le_gain.mpr ⟨hcap, add_nonneg hlevel hcredit⟩

/-- A credit that fills the bucket leaves no trace of the level before it. -/
theorem gain_eq_cap {cap level credit : K} (hlevel : 0 ≤ level) (hcredit : cap ≤ credit) :
    gain cap level credit = cap := min_eq_left (by linarith)

theorem rest_nonneg {level : K} (h : 0 ≤ level) : 0 ≤ rest level := by
  unfold rest
  split
  · exact h
  · linarith

/-- A call that took a token left no debt. -/
theorem rest_nonneg_of_taken {level : K} (h : taken level ≠ 0) : 0 ≤ rest level := by
  unfold taken at h
  unfold rest
  split at h
  · exact absurd rfl h
  · rename_i hlevel
    rw [if_neg hlevel]
    linarith

/-! ## The level is within a window -/

section within

variable {cap level : K} {w : Window K}

theorem within_gain (h : level ≤ w.room cap) (credit : K) :
    gain cap level credit ≤ (w.earn credit).room cap := by
  have := gain_le cap level credit
  rw [Window.room_earn]
  linarith

theorem within_rest (h : level ≤ w.room cap) : rest level ≤ (w.use (taken level)).room cap := by
  rw [Window.room_use, rest_eq]
  linarith

/-- A window of a bucket without debt never takes more than the cap and its
credit. -/
theorem used_le (h : level ≤ w.room cap) (hlevel : 0 ≤ level) : (w.used : K) ≤ cap + w.credit := by
  unfold Window.room at h
  linarith

end within

/-! ## The level is the least room of all windows -/

theorem tight_gain {cap level : K} {ws : List (Window K)} (h : Tight cap ws level) (credit : K) :
    Tight cap (ws.map (fun w => w.earn credit) ++ [Window.fresh]) (gain cap level credit) := by
  intro x
  have hx := h (x - credit)
  rw [le_gain]
  simp only [List.mem_append, List.mem_map, List.mem_singleton]
  constructor
  · rintro ⟨hcap, hlevel⟩ w (⟨w, hw, rfl⟩ | rfl)
    · have := hx.mp (by linarith) w hw
      rw [Window.room_earn]
      linarith
    · rw [Window.room_fresh]
      exact hcap
  · intro hall
    refine ⟨?_, ?_⟩
    · have := hall Window.fresh (Or.inr rfl)
      rwa [Window.room_fresh] at this
    · have hle : x - credit ≤ level := by
        apply hx.mpr
        intro w hw
        have := hall _ (Or.inl ⟨w, hw, rfl⟩)
        rw [Window.room_earn] at this
        linarith
      linarith

theorem tight_rest {cap level : K} {ws : List (Window K)} (h : Tight cap ws level) :
    Tight cap (ws.map (fun w => w.use (taken level))) (rest level) := by
  intro x
  have hx := h (x + taken level)
  have hshift : x ≤ rest level ↔ x + taken level ≤ level := by
    rw [rest_eq]
    constructor <;> intro hle <;> linarith
  rw [hshift, hx]
  simp only [List.mem_map, forall_exists_index, and_imp, forall_apply_eq_imp_iff₂,
    Window.room_use]
  constructor
  · intro hall w hw
    have := hall w hw
    linarith
  · intro hall w hw
    have := hall w hw
    linarith

/-- The bucket has a token exactly when one more fits every window. -/
theorem tight_one_le {cap level : K} {ws : List (Window K)} (h : Tight cap ws level) :
    1 ≤ level ↔ ∀ w ∈ ws, (w.used : K) + 1 ≤ cap + w.credit := by
  rw [h 1]
  unfold Window.room
  constructor
  · intro hall w hw
    have := hall w hw
    linarith
  · intro hall w hw
    have := hall w hw
    linarith

end token_bucket
