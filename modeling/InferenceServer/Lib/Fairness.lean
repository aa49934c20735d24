-- Infinite schedules of a machine, and what leads to what under them. A step
-- that comes again and again is taken, and a count that it lowers runs out.
import InferenceServer.Lib.Machine

namespace machine

variable {σ α : Type*} {M : Machine σ α} {schedule : ℕ → α} {P Q R : σ → Prop}

/-- The state after the first `k` actions of a schedule. -/
def Machine.after (M : Machine σ α) (schedule : ℕ → α) (k : ℕ) : σ :=
  M.run ((List.range k).map schedule)

theorem after_succ (M : Machine σ α) (schedule : ℕ → α) (k : ℕ) :
    M.after schedule (k + 1) = M.step (M.after schedule k) (schedule k) := by
  unfold Machine.after
  rw [List.range_succ, List.map_append, List.map_singleton, run_snoc]

/-- An action of this kind is always still to come. -/
def Recurs (A : α → Prop) (schedule : ℕ → α) : Prop := ∀ k, ∃ j, k ≤ j ∧ A (schedule j)

/-- Whenever `P` holds, `Q` holds then or later. -/
def Machine.LeadsTo (M : Machine σ α) (schedule : ℕ → α) (P Q : σ → Prop) : Prop :=
  ∀ k, P (M.after schedule k) → ∃ j, k ≤ j ∧ Q (M.after schedule j)

theorem leadsTo_refl : M.LeadsTo schedule P P := fun k h => ⟨k, Nat.le_refl k, h⟩

theorem Machine.LeadsTo.trans (h : M.LeadsTo schedule P Q) (h' : M.LeadsTo schedule Q R) :
    M.LeadsTo schedule P R := by
  intro k hp
  obtain ⟨j, hj, hq⟩ := h k hp
  obtain ⟨i, hi, hr⟩ := h' j hq
  exact ⟨i, hj.trans hi, hr⟩

/-- What holds of each value of a parameter holds of the union. -/
theorem leadsTo_exists {ι : Sort*} {P : ι → σ → Prop} (h : ∀ i, M.LeadsTo schedule (P i) Q) :
    M.LeadsTo schedule (fun s => ∃ i, P i s) Q :=
  fun k ⟨i, hp⟩ => h i k hp

theorem leadsTo_or (h : M.LeadsTo schedule P R) (h' : M.LeadsTo schedule Q R) :
    M.LeadsTo schedule (fun s => P s ∨ Q s) R :=
  fun k hpq => hpq.elim (h k) (h' k)

/-- While no step raises the count and each action `A` lowers it, `P` ends. -/
theorem leadsTo_of_count (m : σ → ℕ) {A : α → Prop} (hA : Recurs A schedule)
    (hkeep : ∀ k, P (M.after schedule k) → Q (M.after schedule (k + 1)) ∨
      P (M.after schedule (k + 1)) ∧ m (M.after schedule (k + 1)) ≤ m (M.after schedule k))
    (hpay : ∀ k, A (schedule k) → P (M.after schedule k) → Q (M.after schedule (k + 1)) ∨
      m (M.after schedule (k + 1)) < m (M.after schedule k)) :
    M.LeadsTo schedule P Q := by
  -- up to any later moment, `Q` comes or `P` stays with the count it has
  have hwalk : ∀ k d, P (M.after schedule k) → (∃ j, k ≤ j ∧ Q (M.after schedule j)) ∨
      P (M.after schedule (k + d)) ∧ m (M.after schedule (k + d)) ≤ m (M.after schedule k) := by
    intro k d hp
    induction d with
    | zero => exact Or.inr ⟨hp, Nat.le_refl _⟩
    | succ d ih =>
      rcases ih with hq | ⟨hpd, hle⟩
      · exact Or.inl hq
      · rcases hkeep (k + d) hpd with hq | ⟨hp', hle'⟩
        · exact Or.inl ⟨k + d + 1, by omega, hq⟩
        · exact Or.inr ⟨hp', hle'.trans hle⟩
  have hcount : ∀ c k, P (M.after schedule k) → m (M.after schedule k) = c →
      ∃ j, k ≤ j ∧ Q (M.after schedule j) := by
    intro c
    induction c using Nat.strong_induction_on with
    | _ c ih =>
      intro k hp hc
      obtain ⟨j, hj, ha⟩ := hA k
      obtain ⟨d, rfl⟩ := Nat.exists_eq_add_of_le hj
      rcases hwalk k d hp with hq | ⟨hpd, hle⟩
      · exact hq
      · rcases hkeep (k + d) hpd with hq | ⟨hp', _⟩
        · exact ⟨k + d + 1, by omega, hq⟩
        · rcases hpay (k + d) ha hpd with hq | hlt
          · exact ⟨k + d + 1, by omega, hq⟩
          · obtain ⟨i, hi, hq⟩ := ih _ (by omega) (k + d + 1) hp' rfl
            exact ⟨i, by omega, hq⟩
  exact fun k hp => hcount _ k hp rfl

/-- A step that ends `P`, and that always comes again. -/
theorem leadsTo_of_step {A : α → Prop} (hA : Recurs A schedule)
    (hkeep : ∀ k, P (M.after schedule k) → ¬ A (schedule k) → P (M.after schedule (k + 1)))
    (hstep : ∀ k, P (M.after schedule k) → A (schedule k) → Q (M.after schedule (k + 1))) :
    M.LeadsTo schedule P Q := by
  apply leadsTo_of_count (fun _ => 0) hA
  · intro k hp
    by_cases ha : A (schedule k)
    · exact Or.inl (hstep k hp ha)
    · exact Or.inr ⟨hkeep k hp ha, Nat.le_refl _⟩
  · exact fun k ha hp => Or.inl (hstep k hp ha)

/-- What holds until `Q` holds for ever when `Q` never comes. -/
theorem comes_or_stays
    (hkeep : ∀ k, P (M.after schedule k) → Q (M.after schedule (k + 1)) ∨
      P (M.after schedule (k + 1))) {k : ℕ} (hp : P (M.after schedule k)) :
    (∃ j, k ≤ j ∧ Q (M.after schedule j)) ∨ ∀ j, k ≤ j → P (M.after schedule j) := by
  by_cases hq : ∃ j, k ≤ j ∧ Q (M.after schedule j)
  · exact Or.inl hq
  · right
    intro j hj
    induction j, hj using Nat.le_induction with
    | base => exact hp
    | succ j hj ih =>
      rcases hkeep j ih with hnext | hnext
      · exact absurd ⟨j + 1, by omega, hnext⟩ hq
      · exact hnext

/-- It is enough to reach `Q` where `P` never ends. -/
theorem leadsTo_of_stays
    (hkeep : ∀ k, P (M.after schedule k) → Q (M.after schedule (k + 1)) ∨
      P (M.after schedule (k + 1)))
    (h : ∀ k, (∀ j, k ≤ j → P (M.after schedule j)) → ∃ j, k ≤ j ∧ Q (M.after schedule j)) :
    M.LeadsTo schedule P Q :=
  fun k hp => (comes_or_stays hkeep hp).elim id (h k)

/-- What holds until `Q` meets what comes in any case, or `Q` comes first. -/
theorem leadsTo_unless
    (hkeep : ∀ k, P (M.after schedule k) → Q (M.after schedule (k + 1)) ∨
      P (M.after schedule (k + 1)))
    (h : M.LeadsTo schedule P R) : M.LeadsTo schedule P (fun s => Q s ∨ P s ∧ R s) := by
  intro k hp
  rcases comes_or_stays hkeep hp with ⟨j, hj, hq⟩ | hstays
  · exact ⟨j, hj, Or.inl hq⟩
  · obtain ⟨j, hj, hr⟩ := h k hp
    exact ⟨j, hj, Or.inr ⟨hstays j hj, hr⟩⟩

/-! ## Parts of a machine -/

/-- A part of the states of `M` that is a machine of its own: each action of
`M` does some action to it. -/
structure Part {τ β : Type*} (M : Machine σ α) (N : Machine τ β) where
  read : σ → τ
  act : σ → α → β
  read_init : read M.init = N.init
  read_step : ∀ s a, read (M.step s a) = N.step (read s) (act s a)

namespace Part

variable {τ β : Type*} {N : Machine τ β} (p : Part M N)

/-- What happens to the part under a schedule. -/
def follow (schedule : ℕ → α) (k : ℕ) : β := p.act (M.after schedule k) (schedule k)

theorem read_after (schedule : ℕ → α) (k : ℕ) :
    p.read (M.after schedule k) = N.after (p.follow schedule) k := by
  induction k with
  | zero => exact p.read_init
  | succ k ih =>
    rw [after_succ, after_succ, p.read_step, ih]
    rfl

theorem read_run (as : List α) : ∃ bs, p.read (M.run as) = N.run bs := by
  induction as using List.reverseRecOn with
  | nil => exact ⟨[], p.read_init⟩
  | append_singleton as a ih =>
    obtain ⟨bs, hbs⟩ := ih
    exact ⟨bs ++ [p.act (M.run as) a], by rw [run_snoc, run_snoc, p.read_step, hbs]⟩

/-- What the part leads to, the machine leads to. -/
theorem leadsTo {P Q : τ → Prop} (h : N.LeadsTo (p.follow schedule) P Q) :
    M.LeadsTo schedule (fun s => P (p.read s)) (fun s => Q (p.read s)) := by
  intro k hp
  obtain ⟨j, hj, hq⟩ := h k (p.read_after schedule k ▸ hp)
  refine ⟨j, hj, ?_⟩
  change Q (p.read _)
  rwa [p.read_after]

end Part

end machine
