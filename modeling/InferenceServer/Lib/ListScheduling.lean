-- List scheduling: jobs in a fixed order, each on the machine that gets free
-- first. Machines are ahead of a plan when at every time at least as many of
-- them are free, and the same jobs keep them ahead. The plan itself never
-- loses to fixed batches, and is within a factor of two of any assignment.
import Mathlib.Algebra.Order.Monoid.Canonical.Defs
import Mathlib.Algebra.Order.BigOperators.Group.List
import Mathlib.Algebra.BigOperators.Group.Finset.Basic
import Mathlib.Algebra.Order.BigOperators.Group.Finset
import Mathlib.Algebra.BigOperators.Fin

namespace list_scheduling

variable {α : Type*} [LinearOrder α]

/-! ## Free machines -/

/-- How many of the machines are free at a time. The list has, for each
machine, the time at which it gets free. -/
def freeBy (loads : List α) (t : α) : Nat := loads.countP (fun x => x ≤ t)

theorem freeBy_perm {loads loads' : List α} (h : loads.Perm loads') (t : α) :
    freeBy loads t = freeBy loads' t := h.countP_eq _

theorem freeBy_cons (x : α) (loads : List α) (t : α) :
    freeBy (x :: loads) t = freeBy loads t + if x ≤ t then 1 else 0 := by
  simp [freeBy, List.countP_cons]

/-- No machine is free before the first one is. -/
theorem freeBy_eq_zero {loads : List α} {t : α} : freeBy loads t = 0 ↔ ∀ x ∈ loads, t < x := by
  simp [freeBy, List.countP_eq_zero]

/-- The free machines of a table, counted one by one. -/
theorem freeBy_table {n : Nat} (F : Fin n → α) (t : α) :
    freeBy ((List.finRange n).map F) t = ∑ i, if F i ≤ t then 1 else 0 := by
  rw [Fin.sum_univ_def]
  generalize List.finRange n = l
  induction l with
  | nil => rfl
  | cons i l ih => rw [List.map_cons, freeBy_cons, ih, List.map_cons, List.sum_cons, add_comm]

/-- The row of one machine in a table of all, after a job on it. -/
theorem perm_update {ι : Type*} [DecidableEq ι] (F : ι → α) {l : List ι} (hl : l.Nodup) {i : ι}
    (hi : i ∈ l) (x : α) :
    (l.map (Function.update F i x)).Perm (x :: (l.map F).erase (F i)) := by
  have hperm := List.perm_cons_erase hi
  have hother : (l.erase i).map (Function.update F i x) = (l.erase i).map F := by
    apply List.map_congr_left
    intro j hj
    exact Function.update_of_ne ((List.Nodup.mem_erase_iff hl).mp hj).1 x F
  have hold : ((l.map F).erase (F i)).Perm ((l.erase i).map F) := by
    have hmap := (hperm.map F).erase (F i)
    rwa [List.map_cons, List.erase_cons_head] at hmap
  have hnew := hperm.map (Function.update F i x)
  rw [List.map_cons, Function.update_self, hother] at hnew
  exact hnew.trans (hold.symm.cons x)

/-! ## Ahead of a plan -/

/-- At every time, at least as many machines are free. -/
def Ahead (loads plan : List α) : Prop := ∀ t, freeBy plan t ≤ freeBy loads t

theorem Ahead.refl (loads : List α) : Ahead loads loads := fun _ => Nat.le_refl _

theorem Ahead.trans {a b c : List α} (h : Ahead a b) (h' : Ahead b c) : Ahead a c :=
  fun t => Nat.le_trans (h' t) (h t)

theorem ahead_of_perm {a b : List α} (h : a.Perm b) : Ahead a b :=
  fun t => (freeBy_perm h t).ge

/-- Machines that all get free earlier are ahead. -/
theorem ahead_of_le {ι : Type*} (F G : ι → α) (l : List ι) (h : ∀ i ∈ l, F i ≤ G i) :
    Ahead (l.map F) (l.map G) := by
  intro t
  unfold freeBy
  rw [List.countP_map, List.countP_map]
  apply List.countP_mono_left
  intro i hi hG
  simp only [Function.comp_apply, decide_eq_true_eq] at hG ⊢
  exact le_trans (h i hi) hG

/-- When no machine is free before a time, none of the plan is. -/
theorem Ahead.le_of_le {a b : List α} (h : Ahead a b) {t : α} (ht : ∀ x ∈ a, t ≤ x) :
    ∀ x ∈ b, t ≤ x := by
  intro x hx
  by_contra hlt
  have hzero : freeBy b x = 0 := by
    have hle := h x
    rw [freeBy_eq_zero.mpr (fun y hy => lt_of_lt_of_le (not_le.mp hlt) (ht y hy))] at hle
    omega
  exact absurd (freeBy_eq_zero.mp hzero x hx) (lt_irrefl x)

/-- Machines that stay idle until a time lose nothing, when no machine of the
plan is free before. -/
theorem Ahead.wait {a b : List α} (h : Ahead a b) {t : α} (ht : ∀ x ∈ b, t ≤ x) :
    Ahead (a.map (fun x => max x t)) b := by
  intro s
  by_cases hs : t ≤ s
  · have hsame : freeBy (a.map (fun x => max x t)) s = freeBy a s := by
      unfold freeBy
      rw [List.countP_map]
      apply List.countP_congr
      intro x _
      simp [hs]
    rw [hsame]
    exact h s
  · rw [freeBy_eq_zero.mpr (fun x hx => lt_of_lt_of_le (not_le.mp hs) (ht x hx))]
    exact Nat.zero_le _

theorem Ahead.max {a b : List α} (h : Ahead a b) (t : α) :
    Ahead (a.map (fun x => Max.max x t)) (b.map (fun x => Max.max x t)) := by
  apply Ahead.wait
  · intro s
    refine Nat.le_trans ?_ (h s)
    unfold freeBy
    rw [List.countP_map]
    apply List.countP_mono_left
    intro x _ hx
    simp only [Function.comp_apply, decide_eq_true_eq] at hx ⊢
    exact le_trans (le_max_left x t) hx
  · intro x hx
    obtain ⟨y, _, rfl⟩ := List.mem_map.mp hx
    exact le_max_right y t

/-! ## Jobs -/

variable [AddCommMonoid α]

/-- When the first machine gets free. -/
def soonest (loads : List α) : α := loads.min?.getD 0

/-- The job runs on the machine that gets free first. -/
def dispatch (loads : List α) (cost : α) : List α :=
  (soonest loads + cost) :: loads.erase (soonest loads)

/-- The jobs are dispatched in order. -/
def schedule (loads costs : List α) : List α := costs.foldl dispatch loads

/-- When a job ends that is dispatched behind others. -/
def finish (loads before : List α) (cost : α) : α := soonest (schedule loads before) + cost

theorem soonest_spec {loads : List α} (h : loads ≠ []) :
    soonest loads ∈ loads ∧ ∀ x ∈ loads, soonest loads ≤ x := by
  rw [← List.min?_eq_some_iff]
  unfold soonest
  cases hmin : loads.min? with
  | none => exact absurd (List.min?_eq_none_iff.mp hmin) h
  | some a => rfl

theorem soonest_eq {loads : List α} {a : α} (ha : a ∈ loads) (hle : ∀ x ∈ loads, a ≤ x) :
    soonest loads = a := by
  obtain ⟨hmem, hmin⟩ := soonest_spec (List.ne_nil_of_mem ha)
  exact le_antisymm (hmin a ha) (hle _ hmem)

theorem dispatch_ne_nil (loads : List α) (cost : α) : dispatch loads cost ≠ [] :=
  List.cons_ne_nil _ _

theorem dispatch_length {loads : List α} (h : loads ≠ []) (cost : α) :
    (dispatch loads cost).length = loads.length := by
  have hpos := List.length_pos_of_ne_nil h
  unfold dispatch
  rw [List.length_cons, List.length_erase_of_mem (soonest_spec h).1]
  omega

theorem schedule_append (loads costs rest : List α) :
    schedule loads (costs ++ rest) = schedule (schedule loads costs) rest := List.foldl_append

theorem schedule_ne_nil {loads : List α} (h : loads ≠ []) (costs : List α) :
    schedule loads costs ≠ [] := by
  induction costs generalizing loads with
  | nil => exact h
  | cons c costs ih => exact ih (dispatch_ne_nil loads c)

theorem schedule_length {loads : List α} (h : loads ≠ []) (costs : List α) :
    (schedule loads costs).length = loads.length := by
  induction costs generalizing loads with
  | nil => rfl
  | cons c costs ih => exact (ih (dispatch_ne_nil loads c)).trans (dispatch_length h c)

/-- A job behind some others, when the first of these are dispatched. -/
theorem finish_append (loads costs rest : List α) (cost : α) :
    finish loads (costs ++ rest) cost = finish (schedule loads costs) rest cost := by
  rw [finish, schedule_append]
  rfl

theorem freeBy_pos {loads : List α} (h : loads ≠ []) {t : α} :
    0 < freeBy loads t ↔ soonest loads ≤ t := by
  obtain ⟨hmem, hmin⟩ := soonest_spec h
  constructor
  · intro hpos
    by_contra hlt
    have hzero : freeBy loads t = 0 :=
      freeBy_eq_zero.mpr (fun x hx => lt_of_lt_of_le (not_le.mp hlt) (hmin x hx))
    omega
  · intro hle
    by_contra hzero
    have hlt := freeBy_eq_zero.mp (Nat.eq_zero_of_not_pos hzero) _ hmem
    exact absurd hle (not_le.mpr hlt)

/-- A dispatch takes the first machine away until its job has ended. -/
theorem freeBy_dispatch {loads : List α} (h : loads ≠ []) (cost t : α) :
    freeBy (dispatch loads cost) t + (if soonest loads ≤ t then 1 else 0) =
      freeBy loads t + if soonest loads + cost ≤ t then 1 else 0 := by
  have hperm := freeBy_perm (List.perm_cons_erase (soonest_spec h).1) t
  rw [freeBy_cons] at hperm
  unfold dispatch
  rw [freeBy_cons, hperm]
  omega

theorem Ahead.soonest_le {a b : List α} (h : Ahead a b) (ha : a ≠ []) (hb : b ≠ []) :
    soonest a ≤ soonest b := by
  rw [← freeBy_pos ha]
  exact Nat.lt_of_lt_of_le ((freeBy_pos hb).mpr (le_refl _)) (h _)

/-! ## The same jobs -/

section ordered

variable [CanonicallyOrderedAdd α]

/-- A job that is left out. -/
theorem ahead_dispatch {loads : List α} (h : loads ≠ []) (cost : α) :
    Ahead loads (dispatch loads cost) := by
  intro t
  have hd := freeBy_dispatch h cost t
  by_cases ht : soonest loads + cost ≤ t
  · rw [if_pos ht, if_pos (le_trans le_self_add ht)] at hd
    omega
  · rw [if_neg ht] at hd
    omega

theorem ahead_schedule {loads : List α} (h : loads ≠ []) (costs : List α) :
    Ahead loads (schedule loads costs) := by
  induction costs generalizing loads with
  | nil => exact .refl loads
  | cons c costs ih => exact (ahead_dispatch h c).trans (ih (dispatch_ne_nil loads c))

variable [IsOrderedAddMonoid α]

/-- The same job keeps the machines ahead. -/
theorem Ahead.dispatch {a b : List α} (h : Ahead a b) (ha : a ≠ []) (hb : b ≠ []) (cost : α) :
    Ahead (dispatch a cost) (dispatch b cost) := by
  intro t
  have hfree := h t
  have hda := freeBy_dispatch ha cost t
  have hdb := freeBy_dispatch hb cost t
  have hsoon := h.soonest_le ha hb
  by_cases hbt : soonest b ≤ t
  · have hat : soonest a ≤ t := le_trans hsoon hbt
    rw [if_pos hat] at hda
    rw [if_pos hbt] at hdb
    by_cases hend : soonest b + cost ≤ t
    · rw [if_pos (le_trans (add_le_add_left hsoon cost) hend)] at hda
      rw [if_pos hend] at hdb
      omega
    · rw [if_neg hend] at hdb
      omega
  · -- the plan has no machine free yet
    have hzero : freeBy (list_scheduling.dispatch b cost) t = 0 := by
      have hnone := mt (freeBy_pos hb).mp hbt
      rw [if_neg hbt, if_neg (fun hend => hbt (le_trans le_self_add hend))] at hdb
      omega
    omega

theorem Ahead.schedule {a b : List α} (h : Ahead a b) (ha : a ≠ []) (hb : b ≠ [])
    (costs : List α) : Ahead (schedule a costs) (schedule b costs) := by
  induction costs generalizing a b with
  | nil => exact h
  | cons c costs ih =>
    exact ih (h.dispatch ha hb c) (dispatch_ne_nil a c) (dispatch_ne_nil b c)

theorem Ahead.finish {a b : List α} (h : Ahead a b) (ha : a ≠ []) (hb : b ≠ [])
    (before : List α) (cost : α) : finish a before cost ≤ finish b before cost :=
  add_le_add_left ((h.schedule ha hb before).soonest_le (schedule_ne_nil ha _)
    (schedule_ne_nil hb _)) cost

/-- As many jobs as there are machines free at a time take them all. -/
theorem schedule_takes_all {loads costs : List α} (h : loads ≠ []) {t : α}
    (hload : ∀ x ∈ loads, t ≤ x) (hcost : ∀ c ∈ costs, t < t + c)
    (hcount : freeBy loads t ≤ costs.length) : ∀ x ∈ schedule loads costs, t < x := by
  rw [← freeBy_eq_zero]
  induction costs generalizing loads with
  | nil => exact Nat.le_zero.mp hcount
  | cons c costs ih =>
    have hd := freeBy_dispatch h c t
    have hsoon := hload _ (soonest_spec h).1
    have hlong : ¬ soonest loads + c ≤ t := fun hle =>
      absurd (lt_of_lt_of_le (hcost c (by simp)) (add_le_add_left hsoon c)) (not_lt.mpr hle)
    apply ih (dispatch_ne_nil loads c)
    · exact (ahead_dispatch h c).le_of_le hload
    · exact fun c' hc' => hcost c' (List.mem_cons_of_mem c hc')
    · simp only [List.length_cons] at hcount
      rw [if_neg hlong] at hd
      split at hd
      · omega
      · have hnone := mt (freeBy_pos h).mp ‹_›
        omega

omit [IsOrderedAddMonoid α] in
/-- While machines are left that are free at a time, the next job starts
then. -/
theorem soonest_schedule {loads costs : List α} (h : loads ≠ []) {t : α}
    (hload : ∀ x ∈ loads, t ≤ x) (hcount : costs.length < freeBy loads t) :
    soonest (schedule loads costs) = t := by
  induction costs generalizing loads with
  | nil =>
    apply le_antisymm
    · exact (freeBy_pos h).mp (Nat.zero_lt_of_lt hcount)
    · exact hload _ (soonest_spec h).1
  | cons c costs ih =>
    have hd := freeBy_dispatch h c t
    apply ih (dispatch_ne_nil loads c)
    · exact (ahead_dispatch h c).le_of_le hload
    · simp only [List.length_cons] at hcount
      split at hd <;> omega

/-! ## The work before a job -/

omit [IsOrderedAddMonoid α] [CanonicallyOrderedAdd α] in
theorem dispatch_sum {loads : List α} (h : loads ≠ []) (cost : α) :
    (dispatch loads cost).sum = loads.sum + cost := by
  unfold dispatch
  rw [List.sum_cons, add_right_comm, List.sum_erase (soonest_spec h).1]

omit [IsOrderedAddMonoid α] [CanonicallyOrderedAdd α] in
theorem schedule_sum {loads : List α} (h : loads ≠ []) (costs : List α) :
    (schedule loads costs).sum = loads.sum + costs.sum := by
  induction costs generalizing loads with
  | nil => exact (add_zero _).symm
  | cons c costs ih =>
    refine (ih (dispatch_ne_nil loads c)).trans ?_
    rw [dispatch_sum h, List.sum_cons, add_assoc]

omit [CanonicallyOrderedAdd α] in
/-- Until a job starts, all machines work on the jobs before it. -/
theorem finish_le_work {loads : List α} (h : loads ≠ []) (before : List α) (cost : α) :
    loads.length • finish loads before cost ≤
      loads.sum + before.sum + loads.length • cost := by
  have hne := schedule_ne_nil h before
  have hsum := List.card_nsmul_le_sum _ _ (soonest_spec hne).2
  rw [schedule_sum h, schedule_length h] at hsum
  unfold finish
  rw [nsmul_add]
  exact add_le_add_left hsum _

/-! ## Fixed batches -/

/-- The longest job of a batch. -/
def longest (costs : List α) : α := costs.foldr max 0

omit [CanonicallyOrderedAdd α] [IsOrderedAddMonoid α] in
theorem le_longest {costs : List α} {c : α} (h : c ∈ costs) : c ≤ longest costs := by
  induction costs with
  | nil => cases h
  | cons c' costs ih =>
    rcases List.mem_cons.mp h with rfl | h
    · exact le_max_left _ _
    · exact le_trans (ih h) (le_max_right _ _)

omit [CanonicallyOrderedAdd α] in
/-- With a machine for each job, no job ends after the longest one that
starts when all machines are free. -/
theorem schedule_batch {loads costs : List α} (h : loads ≠ []) {t : α}
    (hcount : costs.length ≤ freeBy loads t) (hload : ∀ x ∈ loads, x ≤ t + longest costs) :
    ∀ x ∈ schedule loads costs, x ≤ t + longest costs := by
  suffices hgen : ∀ (rest : List α) (loads : List α), loads ≠ [] → rest.length ≤ freeBy loads t →
      (∀ c ∈ rest, c ≤ longest costs) → (∀ x ∈ loads, x ≤ t + longest costs) →
      ∀ x ∈ schedule loads rest, x ≤ t + longest costs from
    hgen costs loads h hcount (fun c hc => le_longest hc) hload
  intro rest
  induction rest with
  | nil => exact fun loads _ _ _ hle => hle
  | cons c rest ih =>
    intro loads h hcount hcost hle
    simp only [List.length_cons] at hcount
    have hd := freeBy_dispatch h c t
    have hsoon : soonest loads ≤ t := (freeBy_pos h).mp (by omega)
    apply ih (list_scheduling.dispatch loads c) (dispatch_ne_nil loads c)
    · split at hd <;> omega
    · exact fun c' hc' => hcost c' (List.mem_cons_of_mem c hc')
    · intro x hx
      rcases List.mem_cons.mp hx with rfl | hx
      · exact add_le_add hsoon (hcost c (by simp))
      · exact hle x (List.mem_of_mem_erase hx)

/-- When each batch starts only after all jobs before have ended: the time at
which the last batch has ended. -/
def inBatches (start : α) (batches : List (List α)) : α := start + (batches.map longest).sum

/-- The plan never loses to fixed batches. -/
theorem schedule_le_batches {loads : List α} (h : loads ≠ []) {start : α}
    (hstart : ∀ x ∈ loads, x ≤ start) (batches : List (List α))
    (hsize : ∀ b ∈ batches, b.length ≤ loads.length) :
    ∀ x ∈ schedule loads batches.flatten, x ≤ inBatches start batches := by
  induction batches generalizing loads start with
  | nil => simpa [inBatches, list_scheduling.schedule] using hstart
  | cons b batches ih =>
    have hall : freeBy loads start = loads.length := by
      rw [freeBy, List.countP_eq_length]
      simpa using hstart
    have hone := schedule_batch h (hall.symm ▸ hsize b (by simp))
      (fun x hx => le_trans (hstart x hx) le_self_add)
    rw [List.flatten_cons, schedule_append]
    have hrest := ih (schedule_ne_nil h b) hone (fun b' hb' => by
      rw [schedule_length h]
      exact hsize b' (List.mem_cons_of_mem b hb'))
    simpa [inBatches, add_assoc] using hrest

omit [CanonicallyOrderedAdd α] [IsOrderedAddMonoid α] in
/-- A job takes at most one machine away. -/
theorem freeBy_schedule {loads : List α} (h : loads ≠ []) (costs : List α) (t : α) :
    freeBy loads t ≤ freeBy (schedule loads costs) t + costs.length := by
  induction costs generalizing loads with
  | nil => exact Nat.le_refl _
  | cons c costs ih =>
    have hd := freeBy_dispatch h c t
    have hrest := ih (dispatch_ne_nil loads c)
    have hone : freeBy loads t ≤ freeBy (list_scheduling.dispatch loads c) t + 1 := by
      split at hd <;> omega
    change _ ≤ freeBy (schedule (list_scheduling.dispatch loads c) costs) t + (costs.length + 1)
    omega

/-- A job ends at the latest when its batch does. -/
theorem finish_le_batches {loads : List α} (h : loads ≠ []) {start : α}
    (hstart : ∀ x ∈ loads, x ≤ start) (batches : List (List α)) (before : List α) (cost : α)
    (after : List α) (hsize : ∀ b ∈ batches, b.length ≤ loads.length)
    (hlast : (before ++ cost :: after).length ≤ loads.length) :
    finish loads (batches.flatten ++ before) cost ≤
      inBatches start (batches ++ [before ++ cost :: after]) := by
  have hne := schedule_ne_nil h batches.flatten
  have hle := schedule_le_batches h hstart batches hsize
  have hall : freeBy (schedule loads batches.flatten) (inBatches start batches) =
      loads.length := by
    rw [freeBy, ← schedule_length h batches.flatten, List.countP_eq_length]
    simpa using hle
  have hfree := freeBy_schedule hne before (inBatches start batches)
  have hsoon : soonest (schedule (schedule loads batches.flatten) before) ≤
      inBatches start batches := by
    rw [← freeBy_pos (schedule_ne_nil hne before)]
    simp only [List.length_append, List.length_cons] at hlast
    omega
  have hcost : cost ≤ longest (before ++ cost :: after) := le_longest (by simp)
  rw [finish_append]
  refine (add_le_add hsoon hcost).trans_eq ?_
  simp [inBatches, add_assoc]

/-! ## Any assignment -/

section assignment

variable {ι : Type*} [Fintype ι] [DecidableEq ι]

/-- When a machine has done the jobs that some assignment gives to it. -/
def assigned (start : ι → α) (jobs : List (ι × α)) (i : ι) : α :=
  start i + ((jobs.filter (fun job => job.1 = i)).map Prod.snd).sum

omit [LinearOrder α] [CanonicallyOrderedAdd α] [IsOrderedAddMonoid α] in
/-- The machines share all the work. -/
theorem assigned_sum (start : ι → α) (jobs : List (ι × α)) :
    ∑ i, assigned start jobs i = ∑ i, start i + (jobs.map Prod.snd).sum := by
  simp only [assigned, Finset.sum_add_distrib]
  congr 1
  induction jobs with
  | nil => simp
  | cons job jobs ih =>
    have hrow : ∀ i, (((job :: jobs).filter (fun job => job.1 = i)).map Prod.snd).sum =
        (if job.1 = i then job.2 else 0) +
          ((jobs.filter (fun job => job.1 = i)).map Prod.snd).sum := by
      intro i
      by_cases h : job.1 = i
      · simp [h]
      · simp [h]
    simp only [hrow, Finset.sum_add_distrib, Finset.sum_ite_eq, Finset.mem_univ, if_true, ih,
      List.map_cons, List.sum_cons]

omit [Fintype ι] in
/-- No machine can do a job in less than its time. -/
theorem cost_le_assigned (start : ι → α) {jobs : List (ι × α)} {job : ι × α} (h : job ∈ jobs) :
    job.2 ≤ assigned start jobs job.1 := by
  have hmem : job.2 ∈ (jobs.filter (fun j => j.1 = job.1)).map Prod.snd := by
    apply List.mem_map_of_mem
    simpa using h
  exact le_trans (List.single_le_sum (fun _ _ => zero_le) _ hmem) le_add_self

/-- The plan is within a factor of `2 - 1 / n` of any assignment of the same
jobs to the `n` machines, in any order. Times count from `now` on. -/
theorem finish_le_twice_any {loads : List α} (h : loads ≠ []) {now : α} {start : ι → α}
    (hcard : loads.length = Fintype.card ι)
    (hstart : loads.sum = loads.length • now + ∑ i, start i)
    {before : List α} {cost : α} {jobs : List (ι × α)}
    (hjobs : (jobs.map Prod.snd).Perm (before ++ [cost])) {latest : α}
    (hlatest : ∀ i, assigned start jobs i ≤ latest) :
    loads.length • finish loads before cost ≤
      loads.length • now + (2 * loads.length - 1) • latest := by
  obtain ⟨k, hk⟩ := Nat.exists_eq_succ_of_ne_zero (List.length_pos_of_ne_nil h).ne'
  have hwork : ∑ i, start i + before.sum + cost ≤ loads.length • latest := by
    have hsum := assigned_sum start jobs
    rw [hjobs.sum_eq, List.sum_append, List.sum_singleton, ← add_assoc] at hsum
    rw [← hsum, hcard, ← Finset.card_univ]
    exact Finset.sum_le_card_nsmul _ _ _ (fun i _ => hlatest i)
  have hcost : cost ≤ latest := by
    have hmem : cost ∈ jobs.map Prod.snd := hjobs.symm.subset (by simp)
    obtain ⟨job, hjob, rfl⟩ := List.mem_map.mp hmem
    exact le_trans (cost_le_assigned start hjob) (hlatest job.1)
  calc loads.length • finish loads before cost
      ≤ loads.sum + before.sum + loads.length • cost := finish_le_work h before cost
    _ = loads.length • now + (∑ i, start i + before.sum + cost + k • cost) := by
        rw [hstart, hk, succ_nsmul cost k, add_comm (k • cost)]
        simp only [add_assoc]
    _ ≤ loads.length • now + (loads.length • latest + k • latest) :=
        add_le_add_right (add_le_add hwork (nsmul_le_nsmul_right hcost k)) _
    _ = loads.length • now + (2 * loads.length - 1) • latest := by
        rw [← add_nsmul]
        congr 2
        omega

end assignment

end ordered

end list_scheduling
