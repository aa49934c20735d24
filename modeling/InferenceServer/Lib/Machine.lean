-- State machines that run a list of actions, and loops over the entries of
-- a table. A law of one step gives the law of every run, and a law of one
-- turn gives the law of the whole loop.
import Mathlib.Algebra.BigOperators.Group.Finset.Basic
import Mathlib.Data.Fintype.BigOperators
import Mathlib.Data.List.Forall2
import Mathlib.Data.List.Perm.Basic
import Mathlib.Tactic.Abel

namespace machine

/-! ## Runs -/

/-- A state machine: where it starts, and what one action does. What the
environment chooses is part of the action. -/
structure Machine (σ α : Type*) where
  init : σ
  step : σ → α → σ

variable {σ α : Type*}

/-- The state after a list of actions, done in order. -/
def Machine.run (M : Machine σ α) (as : List α) : σ := as.foldl M.step M.init

@[simp] theorem run_nil (M : Machine σ α) : M.run [] = M.init := rfl

theorem run_append (M : Machine σ α) (as bs : List α) :
    M.run (as ++ bs) = bs.foldl M.step (M.run as) := by
  simp [Machine.run]

@[simp] theorem run_snoc (M : Machine σ α) (as : List α) (a : α) :
    M.run (as ++ [a]) = M.step (M.run as) a := by
  simp [Machine.run]

/-- What holds at the start and is kept by each step holds after every run. -/
theorem invariant (M : Machine σ α) (P : σ → Prop) (h0 : P M.init)
    (hstep : ∀ s a, P s → P (M.step s a)) (as : List α) : P (M.run as) := by
  induction as using List.reverseRecOn with
  | nil => exact h0
  | append_singleton as a ih =>
    rw [run_snoc]
    exact hstep _ _ ih

/-- A second invariant, where each step may use a first one that every run
keeps. -/
theorem invariant_under (M : Machine σ α) (Q P : σ → Prop) (hQ : ∀ as, Q (M.run as))
    (h0 : P M.init) (hstep : ∀ s a, Q s → P s → P (M.step s a)) (as : List α) :
    P (M.run as) := by
  induction as using List.reverseRecOn with
  | nil => exact h0
  | append_singleton as a ih =>
    rw [run_snoc]
    exact hstep _ _ (hQ as) ih

/-- Each action of the list is taken in a state that meets the condition for
it. -/
def Machine.Meets (M : Machine σ α) (C : σ → α → Prop) : σ → List α → Prop
  | _, [] => True
  | s, a :: as => C s a ∧ M.Meets C (M.step s a) as

instance (M : Machine σ α) (C : σ → α → Prop) [∀ s a, Decidable (C s a)] (s : σ) (as : List α) :
    Decidable (M.Meets C s as) := by
  induction as generalizing s with
  | nil => exact isTrue trivial
  | cons a as ih =>
    have := ih (M.step s a)
    exact inferInstanceAs (Decidable (_ ∧ _))

/-- What each step keeps under a condition holds after every run whose steps
all meet it. -/
theorem invariant_while (M : Machine σ α) (C : σ → α → Prop) (P : σ → Prop) (h0 : P M.init)
    (hstep : ∀ s a, C s a → P s → P (M.step s a)) (as : List α) (has : M.Meets C M.init as) :
    P (M.run as) := by
  have hfrom : ∀ as s, P s → M.Meets C s as → P (as.foldl M.step s) := by
    intro as
    induction as with
    | nil => exact fun s hs _ => hs
    | cons a as ih => exact fun s hs hmeets => ih _ (hstep s a hmeets.1 hs) hmeets.2
  exact hfrom as M.init h0 has

theorem meets_snoc (M : Machine σ α) (C : σ → α → Prop) (s : σ) (as : List α) (a : α) :
    M.Meets C s (as ++ [a]) ↔ M.Meets C s as ∧ C (as.foldl M.step s) a := by
  induction as generalizing s with
  | nil => simp [Machine.Meets]
  | cons b as ih =>
    simp only [List.cons_append, Machine.Meets, List.foldl_cons, ih, and_assoc]

/-- What each step keeps under a condition, from a state of a run on. `Q` is an
invariant that the steps may use. -/
theorem invariant_after (M : Machine σ α) (C : σ → α → Prop) (Q P : σ → Prop)
    (hQ : ∀ as, Q (M.run as)) (hstep : ∀ s a, Q s → C s a → P s → P (M.step s a))
    (as bs : List α) (h0 : P (M.run as)) (hbs : M.Meets C (M.run as) bs) :
    P (M.run (as ++ bs)) := by
  induction bs using List.reverseRecOn with
  | nil => simpa using h0
  | append_singleton bs b ih =>
    rw [meets_snoc, ← run_append] at hbs
    rw [← List.append_assoc, run_snoc]
    exact hstep _ _ (hQ _) hbs.2 (ih hbs.1)

theorem meets_true (M : Machine σ α) (s : σ) (as : List α) :
    M.Meets (fun _ _ => True) s as := by
  induction as generalizing s with
  | nil => trivial
  | cons a as ih => exact ⟨trivial, ih _⟩

/-- What holds as long as each step meets the condition, and what holds from
the first step on that does not. `Q` is an invariant that the steps may use. -/
theorem before_or_after (M : Machine σ α) (C : σ → α → Prop) (Q Before After : σ → Prop)
    (hQ : ∀ as, Q (M.run as)) (h0 : Before M.init)
    (hmeets : ∀ s a, Q s → Before s → C s a → Before (M.step s a))
    (hbreaks : ∀ s a, Q s → Before s → ¬ C s a → After (M.step s a))
    (hafter : ∀ s a, Q s → After s → After (M.step s a)) (as : List α) :
    (M.Meets C M.init as ∧ Before (M.run as)) ∨ (¬ M.Meets C M.init as ∧ After (M.run as)) := by
  induction as using List.reverseRecOn with
  | nil => exact Or.inl ⟨trivial, h0⟩
  | append_singleton as a ih =>
    rw [meets_snoc, run_snoc]
    rcases ih with ⟨hmet, hb⟩ | ⟨hnot, ha⟩
    · by_cases hc : C (M.run as) a
      · exact Or.inl ⟨⟨hmet, hc⟩, hmeets _ _ (hQ as) hb hc⟩
      · exact Or.inr ⟨fun h => hc h.2, hbreaks _ _ (hQ as) hb hc⟩
    · exact Or.inr ⟨fun h => hnot h.1, hafter _ _ (hQ as) ha⟩

/-! ## Measures -/

/-- A measure that goes down as long as a goal is not reached: there is a
first state that reaches the goal. -/
theorem reaches (s : Nat → σ) (V : σ → Nat) (Goal : σ → Prop)
    (h : ∀ i, ¬ Goal (s i) → V (s (i + 1)) < V (s i)) :
    ∃ m, Goal (s m) ∧ ∀ i < m, ¬ Goal (s i) := by
  classical
  have hsome : ∃ m, Goal (s m) := by
    by_contra hnever
    have hdown : ∀ i, V (s i) + i ≤ V (s 0) := by
      intro i
      induction i with
      | zero => simp
      | succ i ih =>
        have := h i (fun hg => hnever ⟨i, hg⟩)
        omega
    have := hdown (V (s 0) + 1)
    omega
  exact ⟨Nat.find hsome, Nat.find_spec hsome, fun i hi => Nat.find_min hsome hi⟩

/-! ## Loops -/

/-- What each turn of a loop leaves as it is, the loop leaves as it is. -/
theorem loop_same {β : Type*} (read : σ → β) (turn : σ → α → σ)
    (h : ∀ s a, read (turn s a) = read s) (l : List α) (s : σ) :
    read (l.foldl turn s) = read s := by
  induction l generalizing s with
  | nil => rfl
  | cons a l ih => rw [List.foldl_cons, ih, h]

/-! ## Entries of a list -/

/-- One entry of a list is replaced. -/
theorem perm_set {α : Type*} {l : List α} {i : Nat} {a : α} (h : l[i]? = some a) :
    ∃ rest, l.Perm (a :: rest) ∧ ∀ b, (l.set i b).Perm (b :: rest) := by
  obtain ⟨hi, rfl⟩ := List.getElem?_eq_some_iff.mp h
  exact ⟨l.eraseIdx i, (List.getElem_cons_eraseIdx_perm hi).symm,
    fun b => List.set_perm_cons_eraseIdx hi b⟩

/-- The counted entries each have a place in `m`, and no two have the same. -/
theorem countP_le_length {α β : Type*} [Inhabited β] {l : List α} {m : List β} {p : α → Bool}
    {R : ℕ → β → Prop} (hat : ∀ i a, l[i]? = some a → p a = true → ∃ b ∈ m, R i b)
    (hone : ∀ i j b, R i b → R j b → i = j) : l.countP p ≤ m.length := by
  have hplace : ∀ i ∈ l.findIdxs p, ∃ b ∈ m, R i b := by
    intro i hi
    obtain ⟨hlt, hp⟩ := List.mem_findIdxs_iff_exists_getElem_pos.mp hi
    exact hat i _ (List.getElem?_eq_getElem hlt) hp
  choose! place hmem hplaced using hplace
  have hnodup : ((l.findIdxs p).map place).Nodup := by
    apply List.Nodup.map_on _ List.nodup_findIdxs
    intro i hi j hj hij
    exact hone i j (place i) (hplaced i hi) (hij ▸ hplaced j hj)
  have hsub : (l.findIdxs p).map place ⊆ m := by
    intro b hb
    obtain ⟨i, hi, rfl⟩ := List.mem_map.mp hb
    exact hmem i hi
  calc l.countP p = ((l.findIdxs p).map place).length := by
        rw [List.length_map, List.length_findIdxs]
    _ ≤ m.length := hnodup.length_le_of_subset hsub

theorem forall₂_getElem? {α β : Type*} {R : α → β → Prop} {l : List α} {m : List β}
    (h : List.Forall₂ R l m) {i : ℕ} {a : α} (ha : l[i]? = some a) :
    ∃ b, m[i]? = some b ∧ R a b := by
  induction h generalizing i with
  | nil => simp at ha
  | @cons x y l m hxy _ ih =>
    cases i with
    | zero =>
      simp only [List.getElem?_cons_zero, Option.some.injEq] at ha
      subst ha
      exact ⟨y, rfl, hxy⟩
    | succ i => exact ih (i := i) (by simpa using ha)

/-- Two lists entry by entry, with as many counted entries. -/
theorem countP_forall₂ {α β : Type*} {R : α → β → Prop} {l : List α} {m : List β} {p : α → Bool}
    {q : β → Bool} (h : List.Forall₂ R l m) (hpq : ∀ a b, a ∈ l → R a b → p a = q b) :
    l.countP p = m.countP q := by
  induction h with
  | nil => rfl
  | @cons x y l m hxy _ ih =>
    have hrest := ih (fun a b ha => hpq a b (List.mem_cons_of_mem x ha))
    rw [List.countP_cons, List.countP_cons, hrest, hpq x y List.mem_cons_self hxy]

/-- The values are all different if no two entries give the same one. -/
theorem filterMap_nodup {α β : Type*} {f : α → Option β} {l : List α}
    (h : ∀ (i j : ℕ) a b x, l[i]? = some a → l[j]? = some b → f a = some x → f b = some x → i = j) :
    (l.filterMap f).Nodup := by
  unfold List.Nodup
  rw [List.pairwise_filterMap, List.pairwise_iff_getElem]
  rintro i j hi hj hij x hx y hy rfl
  have := h i j _ _ x (List.getElem?_eq_getElem hi) (List.getElem?_eq_getElem hj) hx hy
  omega

theorem eq_of_filterMap_nodup {α β : Type*} {f : α → Option β} {l : List α}
    (h : (l.filterMap f).Nodup) {i j : ℕ} {a b : α} {x : β} (ha : l[i]? = some a)
    (hb : l[j]? = some b) (hfa : f a = some x) (hfb : f b = some x) : i = j := by
  unfold List.Nodup at h
  rw [List.pairwise_filterMap, List.pairwise_iff_getElem] at h
  obtain ⟨hi, rfl⟩ := List.getElem?_eq_some_iff.mp ha
  obtain ⟨hj, rfl⟩ := List.getElem?_eq_some_iff.mp hb
  rcases Nat.lt_trichotomy i j with hlt | heq | hlt
  · exact absurd rfl (h i j hi hj hlt x hfa x hfb)
  · exact heq
  · exact absurd rfl (h j i hj hi hlt x hfb x hfa)

/-! ## Loops over a table -/

variable {ι V : Type*} [DecidableEq ι]

/-- A loop whose turn at `i` changes only the row of `i`. After the loop,
each row that the loop visited has had its own turn, and no other row
changed. The rows are read through `row`, so the state may hold more. -/
theorem loop_rows (row : σ → ι → V) (turn : σ → ι → σ) (f : ι → V → V)
    (h : ∀ s i j, row (turn s i) j = if j = i then f i (row s i) else row s j)
    (l : List ι) (hl : l.Nodup) (s : σ) (j : ι) :
    row (l.foldl turn s) j = if j ∈ l then f j (row s j) else row s j := by
  induction l generalizing s with
  | nil => simp
  | cons i l ih =>
    obtain ⟨hi, hl⟩ := List.nodup_cons.mp hl
    rw [List.foldl_cons, ih hl, h]
    by_cases hji : j = i
    · subst hji
      simp [hi]
    · simp [hji]

omit [DecidableEq ι] in
/-- A loop over rows that are ready. When each turn leaves the other rows
alone, a row is still ready when its turn comes, so what a turn on a ready
row keeps, the loop keeps. -/
theorem loop_ready (row : σ → ι → V) (turn : σ → ι → σ) (Ready : ι → V → Prop)
    (Q : σ → Prop) (hframe : ∀ s i j, j ≠ i → row (turn s i) j = row s j)
    (hturn : ∀ s i, Q s → Ready i (row s i) → Q (turn s i))
    (l : List ι) (hl : l.Nodup) (s : σ) (hs : Q s) (hready : ∀ i ∈ l, Ready i (row s i)) :
    Q (l.foldl turn s) := by
  induction l generalizing s with
  | nil => exact hs
  | cons i l ih =>
    obtain ⟨hi, hl⟩ := List.nodup_cons.mp hl
    apply ih hl
    · exact hturn s i hs (hready i (by simp))
    · intro j hj
      have hji : j ≠ i := fun h => hi (h ▸ hj)
      rw [hframe s i j hji]
      exact hready j (by simp [hj])

/-- The entries of a list, counted row by row. -/
theorem length_eq_sum_filter [Fintype ι] {A : Type*} (key : A → ι) (l : List A) :
    l.length = ∑ i, (l.filter (fun a => key a = i)).length := by
  induction l with
  | nil => simp
  | cons a l ih =>
    have hrow : ∀ i, ((a :: l).filter (fun a => key a = i)).length =
        (if key a = i then 1 else 0) + (l.filter (fun a => key a = i)).length := by
      intro i
      by_cases h : key a = i
      · simp [h, Nat.add_comm]
      · simp [h]
    simp only [hrow, Finset.sum_add_distrib, Finset.sum_ite_eq, Finset.mem_univ, if_true,
      List.length_cons, ← ih]
    omega

/-- The sum over a table after one row is replaced. -/
theorem sum_update [Fintype ι] {M : Type*} [AddCommMonoid M] (g : ι → V) (i : ι) (x : V)
    (f : V → M) :
    (∑ j, f (Function.update g i x j)) + f (g i) = (∑ j, f (g j)) + f x := by
  have hrest : ∀ j ∈ Finset.univ.erase i, f (Function.update g i x j) = f (g j) := by
    intro j hj
    rw [Function.update_of_ne (Finset.ne_of_mem_erase hj)]
  rw [← Finset.add_sum_erase Finset.univ _ (Finset.mem_univ i),
    ← Finset.add_sum_erase Finset.univ (fun j => f (g j)) (Finset.mem_univ i),
    Finset.sum_congr rfl hrest, Function.update_self]
  abel

end machine
