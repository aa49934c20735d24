-- The pool of the HTTP server gets its work done. When each of its threads
-- and the listening thread always come again, every accepted job is done at
-- some time, however few threads there are, and `shutdown` returns.
import InferenceServer.Lib.Fairness
import InferenceServer.ThreadPool
import Mathlib.Data.Nat.Pairing

namespace inference_server

open machine

namespace httplib

namespace ThreadPool

variable {J : Type*} {cfg : PoolSizes}

/-! ## What one step leaves -/

section moves

variable {s s' : ThreadPool J} {a : Action J} (hm : Moves cfg s a s')

include hm

/-- A step starts a job, or the jobs that wait go on waiting. -/
theorem moves_started : (∃ fn, s'.started = s.started ++ [fn]) ∨
    s'.started = s.started ∧ ∃ l, s'.jobs = s.jobs ++ l := by
  cases hm with
  | takes i p fn jobs hp hcomes hj => exact Or.inl ⟨fn, rfl⟩
  | accepts fn ho hs => exact Or.inr ⟨rfl, [fn], rfl⟩
  | spawns fn ho hs hroom => exact Or.inr ⟨rfl, [fn], rfl⟩
  | expires i hp hj hs =>
    refine Or.inr ?_
    unfold moveToFinished
    split <;> exact ⟨rfl, [], (List.append_nil _).symm⟩
  | _ => exact Or.inr ⟨rfl, [], (List.append_nil _).symm⟩

/-- A thread moves by a step of its own, or it is woken. -/
theorem moves_place {j : Nat} {p : WorkerPlace J} (hp : placeAt s.workers j = some p) :
    placeAt s'.workers j = some p ∨ a = .work j ∨
      p = .waiting ∧ ∃ q, placeAt s'.workers j = some q ∧ q.comes = true := by
  have hset : ∀ {i q r}, placeAt s.workers i = some q → i ≠ j →
      placeAt (setPlace s.workers i r) j = some p := by
    intro i q r hi hij
    rw [placeAt_setPlace hi, if_neg hij, hp]
  have hwoken : ∀ {i q}, placeAt s.workers i = some .waiting → q.comes = true →
      placeAt (setPlace s.workers i q) j = some p ∨
        p = .waiting ∧ ∃ r, placeAt (setPlace s.workers i q) j = some r ∧ r.comes = true := by
    intro i q hi hq
    by_cases hij : i = j
    · subst hij
      rw [hi, Option.some.injEq] at hp
      exact Or.inr ⟨hp.symm, q, by rw [placeAt_setPlace hi, if_pos rfl], hq⟩
    · exact Or.inl (hset hi hij)
  cases hm with
  | spawns fn ho hs hroom =>
    left
    unfold placeAt at hp ⊢
    rw [Option.map_eq_some_iff] at hp
    obtain ⟨w, hw, rfl⟩ := hp
    rw [List.getElem?_append_left (List.getElem?_eq_some_iff.mp hw).1, hw]
    rfl
  | notifies pick i ho hi => exact (hwoken hi rfl).imp id Or.inr
  | notifiesAll pick ho =>
    have hall : placeAt s.notifyAll.workers j = some p.notified := by
      unfold placeAt at hp ⊢
      rw [Option.map_eq_some_iff] at hp
      obtain ⟨w, hw, rfl⟩ := hp
      change Option.map _ (s.workers.map Worker.notified)[j]? = _
      rw [List.getElem?_map, hw]
      rfl
    cases p with
    | waiting => exact Or.inr (Or.inr ⟨rfl, .woken, hall, rfl⟩)
    | _ => exact Or.inl hall
  | wakes i hi => exact (hwoken hi rfl).imp id Or.inr
  | timesOut i hi =>
    have hp' : placeAt s.workers i = some .waiting := by
      unfold placeAt
      rw [hi]
      rfl
    exact (hwoken hp' rfl).imp id Or.inr
  | takes i q fn jobs hi hcomes hj =>
    by_cases hij : i = j
    · exact Or.inr (Or.inl (by rw [hij]))
    · exact Or.inl (hset hi hij)
  | leaves i q hi hcomes hj hs =>
    by_cases hij : i = j
    · exact Or.inr (Or.inl (by rw [hij]))
    · exact Or.inl (hset hi hij)
  | waits i q hi hcomes hj hs =>
    by_cases hij : i = j
    · exact Or.inr (Or.inl (by rw [hij]))
    · exact Or.inl (hset hi hij)
  | expires i hi hj hs =>
    by_cases hij : i = j
    · exact Or.inr (Or.inl (by rw [hij]))
    · exact Or.inl (hset hi hij)
  | completes i fn hi =>
    by_cases hij : i = j
    · exact Or.inr (Or.inl (by rw [hij]))
    · exact Or.inl (hset hi hij)
  | _ => exact Or.inl hp

/-- A step ends no list of threads. -/
theorem moves_length : s.workers.length ≤ s'.workers.length := by
  have hlength : ∀ i q, (setPlace s.workers i q).length = s.workers.length :=
    fun i q => List.length_modify _ _ _
  cases hm with
  | stays | accepts | closes | notifiesNobody | joins | collects | joinsDynamic | returns =>
    exact Nat.le_refl _
  | spawns fn ho hs hroom => simp
  | notifiesAll pick ho =>
    change _ ≤ (s.workers.map Worker.notified).length
    rw [List.length_map]
  | _ => exact (hlength _ _).ge

theorem started_grows : s.started <+: s'.started := by
  rcases moves_started hm with ⟨fn, hfn⟩ | ⟨hsame, _⟩
  · rw [hfn]
    exact List.prefix_append _ _
  · rw [hsame]

theorem moves_accepted : s.accepted <+: s'.accepted := by
  cases hm with
  | accepts fn ho hs => exact List.prefix_append _ _
  | spawns fn ho hs hroom => exact List.prefix_append _ _
  | expires i hp hj hs =>
    unfold moveToFinished
    split <;> exact List.prefix_rfl
  | _ => exact List.prefix_rfl

theorem moves_completed : s.completed <+: s'.completed := by
  cases hm with
  | completes i fn hp => exact List.prefix_append _ _
  | expires i hp hj hs =>
    unfold moveToFinished
    split <;> exact List.prefix_rfl
  | _ => exact List.prefix_rfl

/-- Only `enqueue` accepts a job. -/
theorem moves_accepts : s'.accepted = s.accepted ∨ ∃ fn, a = .enqueue fn := by
  cases hm with
  | accepts fn ho hs => exact Or.inr ⟨fn, rfl⟩
  | spawns fn ho hs hroom => exact Or.inr ⟨fn, rfl⟩
  | expires i hp hj hs =>
    unfold moveToFinished
    split <;> exact Or.inl rfl
  | _ => exact Or.inl rfl

/-- Only the thread that runs a job completes it. -/
theorem moves_completes {fn : J} (h : fn ∈ s'.completed) :
    fn ∈ s.completed ∨ ∃ i, a = .work i ∧ placeAt s.workers i = some (.running fn) := by
  cases hm with
  | completes i fn' hp =>
    rw [List.mem_append, List.mem_singleton] at h
    rcases h with h | rfl
    · exact Or.inl h
    · exact Or.inr ⟨i, rfl, hp⟩
  | expires i hp hj hs =>
    unfold moveToFinished at h
    split at h <;> exact Or.inl h
  | _ => exact Or.inl h

/-- The listening thread moves by a step of its own, or by a new call. -/
theorem moves_owner (ho : s.owner ≠ .listening) : s'.owner = s.owner ∨ ∃ pick, a = .own pick := by
  cases hm with
  | accepts fn hl hs => exact absurd hl ho
  | spawns fn hl hs hroom => exact absurd hl ho
  | closes hl => exact absurd hl ho
  | notifies pick | notifiesNobody pick | notifiesAll pick | joins pick | collects pick
  | joinsDynamic pick | returns pick => exact Or.inr ⟨pick, rfl⟩
  | expires i hp hj hs =>
    refine Or.inl ?_
    unfold moveToFinished
    split <;> rfl
  | _ => exact Or.inl rfl

end moves

/-! ## Jobs start -/

theorem work_starts {s : ThreadPool J} {j : Nat} {p : WorkerPlace J}
    (hp : placeAt s.workers j = some p) (hcomes : p.comes = true) (hjobs : s.jobs ≠ []) :
    s.started.length < (s.work j).started.length := by
  obtain ⟨fn, jobs, hj⟩ := List.exists_cons_of_ne_nil hjobs
  rw [work_takes hp hcomes hj]
  simp

/-- Jobs wait, and `m` were started before. -/
def Backed (m : Nat) (s : ThreadPool J) : Prop := s.jobs ≠ [] ∧ s.started.length = m

/-- A thread is on its way while jobs wait. -/
def Coming (m : Nat) (s : ThreadPool J) : Prop :=
  ∃ j, Backed m s ∧ ∃ p, placeAt s.workers j = some p ∧ p.comes = true

theorem backed_moves {s s' : ThreadPool J} {a : Action J} {m : Nat} (h : Backed m s)
    (hm : Moves cfg s a s') : m < s'.started.length ∨ Backed m s' := by
  obtain ⟨hjobs, hlen⟩ := h
  rcases moves_started hm with ⟨fn, hfn⟩ | ⟨hsame, l, hl⟩
  · left
    rw [hfn, List.length_append, hlen]
    exact Nat.lt_succ_self m
  · right
    refine ⟨?_, by rw [hsame, hlen]⟩
    rw [hl]
    exact List.append_ne_nil_of_left_ne_nil hjobs l

section schedule

variable {schedule : ℕ → Action J}

theorem after_moves (cfg : PoolSizes) (schedule : ℕ → Action J) (k : ℕ) :
    Moves cfg ((threadPool J cfg).after schedule k) (schedule k)
      ((threadPool J cfg).after schedule (k + 1)) := by
  rw [after_succ]
  exact step_moves cfg _ _

theorem attended_after (cfg : PoolSizes) (schedule : ℕ → Action J) (k : ℕ) :
    Attended ((threadPool J cfg).after schedule k) := attended_run cfg _

theorem rostered_after (cfg : PoolSizes) (schedule : ℕ → Action J) (k : ℕ) :
    Rostered cfg ((threadPool J cfg).after schedule k) := rostered_run cfg _

theorem recorded_after (cfg : PoolSizes) (schedule : ℕ → Action J) (k : ℕ) :
    Recorded ((threadPool J cfg).after schedule k) := recorded_run cfg _

theorem coming_starts (cfg : PoolSizes) (hwork : ∀ i, Recurs (· = .work i) schedule) (m : Nat) :
    (threadPool J cfg).LeadsTo schedule (Coming m) (fun s => m < s.started.length) := by
  apply leadsTo_exists
  intro j
  have htakes : ∀ k, schedule k = .work j → Backed m ((threadPool J cfg).after schedule k) →
      ∀ p, placeAt ((threadPool J cfg).after schedule k).workers j = some p → p.comes = true →
      m < ((threadPool J cfg).after schedule (k + 1)).started.length := by
    intro k ha hb p hp hcomes
    rw [after_succ, ha, ← hb.2]
    exact work_starts hp hcomes hb.1
  apply leadsTo_of_count (fun _ => 0) (hwork j)
  · rintro k ⟨hb, p, hp, hcomes⟩
    rcases backed_moves hb (after_moves cfg schedule k) with hpast | hb'
    · exact Or.inl hpast
    · rcases moves_place (after_moves cfg schedule k) hp with hp' | ha | ⟨rfl, _⟩
      · exact Or.inr ⟨⟨hb', p, hp', hcomes⟩, Nat.le_refl 0⟩
      · exact Or.inl (htakes k ha hb p hp hcomes)
      · cases hcomes
  · rintro k ha ⟨hb, p, hp, hcomes⟩
    exact Or.inl (htakes k ha hb p hp hcomes)

/-- The listening thread wakes somebody for the job that it brought. -/
theorem sleeper_comes (hown : Recurs (fun a => ∃ pick, a = .own pick) schedule) (m i : Nat) :
    (threadPool J cfg).LeadsTo schedule
      (fun s => Backed m s ∧ s.owner = .notifying ∧ placeAt s.workers i = some .waiting)
      (fun s => m < s.started.length ∨ Coming m s) := by
  have hwakes : ∀ k pick, schedule k = .own pick →
      ((threadPool J cfg).after schedule k).owner = .notifying →
      placeAt ((threadPool J cfg).after schedule k).workers i = some .waiting →
      ∃ j p, placeAt ((threadPool J cfg).after schedule (k + 1)).workers j = some p ∧
        p.comes = true := by
    intro k pick ha ho hi
    rw [after_succ, ha]
    generalize (threadPool J cfg).after schedule k = s at ho hi
    change ∃ j p, placeAt (s.own cfg pick).workers j = some p ∧ p.comes = true
    have hown : s.own cfg pick = { s.notifyOne pick with owner := .listening } := by
      unfold own
      rw [ho]
    rw [hown]
    rcases s.notifyOne_cases pick with ⟨j, hj, he⟩ | ⟨hnone, _⟩
    · refine ⟨j, .woken, ?_, rfl⟩
      rw [he]
      simp only
      rw [placeAt_setPlace hj, if_pos rfl]
    · have hpos : 0 < threadsAt WorkerPlace.asleep s.workers :=
        threadsAt_pos_iff.mpr ⟨i, .waiting, hi, rfl⟩
      omega
  apply leadsTo_of_count (fun _ => 0) hown
  · rintro k ⟨hb, ho, hi⟩
    have hm := after_moves cfg schedule k
    rcases backed_moves hb hm with hpast | hb'
    · exact Or.inl (Or.inl hpast)
    · rcases moves_owner hm (by rw [ho]; simp) with ho' | ⟨pick, ha⟩
      · rcases moves_place hm hi with hi' | ha | ⟨_, q, hq, hcomes⟩
        · exact Or.inr ⟨⟨hb', ho'.trans ho, hi'⟩, Nat.le_refl 0⟩
        · refine Or.inr ⟨⟨hb', ho'.trans ho, ?_⟩, Nat.le_refl 0⟩
          rw [after_succ, ha]
          change placeAt (work _ i).workers i = _
          unfold work
          rw [hi]
          exact hi
        · exact Or.inl (Or.inr ⟨i, hb', q, hq, hcomes⟩)
      · obtain ⟨j, p, hp, hcomes⟩ := hwakes k pick ha ho hi
        exact Or.inl (Or.inr ⟨j, hb', p, hp, hcomes⟩)
  · rintro k ⟨pick, ha⟩ ⟨hb, ho, hi⟩
    rcases backed_moves hb (after_moves cfg schedule k) with hpast | hb'
    · exact Or.inl (Or.inl hpast)
    · obtain ⟨j, p, hp, hcomes⟩ := hwakes k pick ha ho hi
      exact Or.inl (Or.inr ⟨j, hb', p, hp, hcomes⟩)

/-- A thread ends its job and comes for the next one. -/
theorem runner_comes (hwork : ∀ i, Recurs (· = .work i) schedule) (m i : Nat) (fn : J) :
    (threadPool J cfg).LeadsTo schedule
      (fun s => Backed m s ∧ placeAt s.workers i = some (.running fn))
      (fun s => m < s.started.length ∨ Coming m s) := by
  have hends : ∀ k, schedule k = .work i →
      placeAt ((threadPool J cfg).after schedule k).workers i = some (.running fn) →
      placeAt ((threadPool J cfg).after schedule (k + 1)).workers i = some .locking := by
    intro k ha hi
    rw [after_succ, ha]
    change placeAt (work _ i).workers i = _
    unfold work
    rw [hi]
    simp only
    rw [placeAt_setPlace hi, if_pos rfl]
  apply leadsTo_of_count (fun _ => 0) (hwork i)
  · rintro k ⟨hb, hi⟩
    rcases backed_moves hb (after_moves cfg schedule k) with hpast | hb'
    · exact Or.inl (Or.inl hpast)
    · rcases moves_place (after_moves cfg schedule k) hi with hi' | ha | ⟨hw, _⟩
      · exact Or.inr ⟨⟨hb', hi'⟩, Nat.le_refl 0⟩
      · exact Or.inl (Or.inr ⟨i, hb', .locking, hends k ha hi, rfl⟩)
      · cases hw
  · rintro k ha ⟨hb, hi⟩
    rcases backed_moves hb (after_moves cfg schedule k) with hpast | hb'
    · exact Or.inl (Or.inl hpast)
    · exact Or.inl (Or.inr ⟨i, hb', .locking, hends k ha hi, rfl⟩)

/-- While jobs wait, the next one starts. -/
theorem backed_starts (hbase : 0 < cfg.base_thread_count)
    (hwork : ∀ i, Recurs (· = .work i) schedule)
    (hown : Recurs (fun a => ∃ pick, a = .own pick) schedule) (m : Nat) :
    (threadPool J cfg).LeadsTo schedule (Backed m) (fun s => m < s.started.length) := by
  have hcoming := coming_starts cfg hwork m
  have hthen : (threadPool J cfg).LeadsTo schedule
      (fun s => m < s.started.length ∨ Coming m s) (fun s => m < s.started.length) :=
    leadsTo_or leadsTo_refl hcoming
  intro k hb
  -- the first base thread tells where the next comer is found
  obtain ⟨p, hget, htimed, hended⟩ := (rostered_after cfg schedule k).base 0 hbase
  have hp : placeAt ((threadPool J cfg).after schedule k).workers 0 = some p := by
    unfold placeAt
    rw [hget]
    rfl
  cases p with
  | locking => exact hcoming k ⟨0, hb, .locking, hp, rfl⟩
  | woken => exact hcoming k ⟨0, hb, .woken, hp, rfl⟩
  | timedOut => exact absurd rfl htimed
  | running fn => exact (runner_comes hwork m 0 fn).trans hthen k ⟨hb, hp⟩
  | ended => exact absurd (hended rfl).2 hb.1
  | waiting =>
    have hpos : 0 < ((threadPool J cfg).after schedule k).jobs.length :=
      List.length_pos_of_ne_nil hb.1
    have hasleep : 0 < threadsAt WorkerPlace.asleep
        ((threadPool J cfg).after schedule k).workers :=
      threadsAt_pos_iff.mpr ⟨0, .waiting, hp, rfl⟩
    have hready := (attended_after cfg schedule k).ready
    by_cases ho : ((threadPool J cfg).after schedule k).owner = .notifying
    · exact (sleeper_comes hown m 0).trans hthen k ⟨hb, ho, hp⟩
    · rw [if_neg ho] at hready
      have hcomer : 0 < threadsAt WorkerPlace.comes
          ((threadPool J cfg).after schedule k).workers := by omega
      obtain ⟨j, q, hq, hcomes⟩ := threadsAt_pos_iff.mp hcomer
      exact hcoming k ⟨j, hb, q, hq, hcomes⟩

theorem records_grow (cfg : PoolSizes) (schedule : ℕ → Action J) {k j : ℕ} (hkj : k ≤ j) :
    ((threadPool J cfg).after schedule k).accepted <+:
        ((threadPool J cfg).after schedule j).accepted ∧
      ((threadPool J cfg).after schedule k).started <+:
        ((threadPool J cfg).after schedule j).started := by
  induction j, hkj using Nat.le_induction with
  | base => exact ⟨List.prefix_rfl, List.prefix_rfl⟩
  | succ j _ ih =>
    have hm := after_moves cfg schedule j
    exact ⟨ih.1.trans (moves_accepted hm), ih.2.trans (started_grows hm)⟩

/-- All jobs accepted so far start. -/
theorem accepted_starts (hbase : 0 < cfg.base_thread_count)
    (hwork : ∀ i, Recurs (· = .work i) schedule)
    (hown : Recurs (fun a => ∃ pick, a = .own pick) schedule) (n : Nat) :
    (threadPool J cfg).LeadsTo schedule (fun s => n ≤ s.accepted.length)
      (fun s => n ≤ s.started.length) := by
  have hfrom : ∀ d m, n = m + d → (threadPool J cfg).LeadsTo schedule
      (fun s => n ≤ s.accepted.length ∧ m ≤ s.started.length) (fun s => n ≤ s.started.length) := by
    intro d
    induction d with
    | zero =>
      rintro m rfl k ⟨_, hle⟩
      exact ⟨k, Nat.le_refl k, hle⟩
    | succ d ih =>
      rintro m rfl k ⟨hacc, hle⟩
      have hmore : ∃ j, k ≤ j ∧ m + 1 ≤ ((threadPool J cfg).after schedule j).started.length := by
        rcases Nat.lt_or_eq_of_le hle with hlt | heq
        · exact ⟨k, Nat.le_refl k, hlt⟩
        · have hqueue := (recorded_after cfg schedule k).queue
          have hbacked : Backed m ((threadPool J cfg).after schedule k) := by
            refine ⟨?_, heq.symm⟩
            intro hnil
            rw [hqueue, hnil, List.append_nil] at hacc
            omega
          exact backed_starts hbase hwork hown m k hbacked
      obtain ⟨j, hj, hstarted⟩ := hmore
      have hacc' := hacc.trans (records_grow cfg schedule hj).1.length_le
      obtain ⟨i, hi, hdone⟩ := ih (m + 1) (by omega) j ⟨hacc', hstarted⟩
      exact ⟨i, hj.trans hi, hdone⟩
  exact fun k hacc => hfrom n 0 (by omega) k ⟨hacc, Nat.zero_le _⟩

/-! ## Jobs end -/

/-- A job that runs comes to its end. -/
theorem running_completes [DecidableEq J] (cfg : PoolSizes)
    (hwork : ∀ i, Recurs (· = .work i) schedule) (i : Nat) (fn : J) (c : Nat) :
    (threadPool J cfg).LeadsTo schedule
      (fun s => placeAt s.workers i = some (.running fn) ∧ c ≤ s.completed.count fn)
      (fun s => c + 1 ≤ s.completed.count fn) := by
  have hends : ∀ k, schedule k = .work i →
      placeAt ((threadPool J cfg).after schedule k).workers i = some (.running fn) →
      c ≤ ((threadPool J cfg).after schedule k).completed.count fn →
      c + 1 ≤ ((threadPool J cfg).after schedule (k + 1)).completed.count fn := by
    intro k ha hi hle
    rw [after_succ, ha]
    change c + 1 ≤ (work _ i).completed.count fn
    unfold work
    rw [hi]
    simpa using hle
  apply leadsTo_of_count (fun _ => 0) (hwork i)
  · rintro k ⟨hi, hle⟩
    have hm := after_moves cfg schedule k
    have hle' := hle.trans ((moves_completed hm).sublist.count_le fn)
    rcases moves_place hm hi with hi' | ha | ⟨hw, _⟩
    · exact Or.inr ⟨⟨hi', hle'⟩, Nat.le_refl 0⟩
    · exact Or.inl (hends k ha hi hle)
    · cases hw
  · rintro k ha ⟨hi, hle⟩
    exact Or.inl (hends k ha hi hle)

theorem runningJobs_mem {workers : List (Worker J)} {fn : J} (h : fn ∈ runningJobs workers) :
    ∃ i, placeAt workers i = some (.running fn) := by
  unfold runningJobs at h
  rw [List.mem_filterMap] at h
  obtain ⟨w, hw, hjob⟩ := h
  obtain ⟨i, hi⟩ := List.getElem?_of_mem hw
  refine ⟨i, ?_⟩
  unfold placeAt
  rw [hi]
  obtain ⟨d, p⟩ := w
  cases p <;> simp [WorkerPlace.job] at hjob ⊢
  exact hjob

theorem started_completes [DecidableEq J] (cfg : PoolSizes)
    (hwork : ∀ i, Recurs (· = .work i) schedule) (fn : J) (c : Nat) :
    (threadPool J cfg).LeadsTo schedule (fun s => c ≤ s.started.count fn)
      (fun s => c ≤ s.completed.count fn) := by
  have hfrom : ∀ d m, c = m + d → (threadPool J cfg).LeadsTo schedule
      (fun s => c ≤ s.started.count fn ∧ m ≤ s.completed.count fn)
      (fun s => c ≤ s.completed.count fn) := by
    intro d
    induction d with
    | zero =>
      rintro m rfl k ⟨_, hle⟩
      exact ⟨k, Nat.le_refl k, hle⟩
    | succ d ih =>
      rintro m rfl k ⟨hstarted, hle⟩
      have hmore : ∃ j, k ≤ j ∧
          m + 1 ≤ ((threadPool J cfg).after schedule j).completed.count fn := by
        rcases Nat.lt_or_eq_of_le hle with hlt | heq
        · exact ⟨k, Nat.le_refl k, hlt⟩
        · -- one of the started jobs is not done, so it runs
          have hcount := (recorded_after cfg schedule k).places.count_eq fn
          rw [List.count_append] at hcount
          have hpos : 0 < (runningJobs ((threadPool J cfg).after schedule k).workers).count fn := by
            omega
          obtain ⟨i, hi⟩ := runningJobs_mem (List.count_pos_iff.mp hpos)
          exact running_completes cfg hwork i fn m k ⟨hi, hle⟩
      obtain ⟨j, hj, hmore⟩ := hmore
      have hstarted' := hstarted.trans ((records_grow cfg schedule hj).2.sublist.count_le fn)
      obtain ⟨i, hi, hdone⟩ := ih (m + 1) (by omega) j ⟨hstarted', hmore⟩
      exact ⟨i, hj.trans hi, hdone⟩
  exact fun k hs => hfrom c 0 (by omega) k ⟨hs, Nat.zero_le _⟩

/-- What was accepted so often is done so often. -/
theorem accepted_completes [DecidableEq J] (hbase : 0 < cfg.base_thread_count)
    (hwork : ∀ i, Recurs (· = .work i) schedule)
    (hown : Recurs (fun a => ∃ pick, a = .own pick) schedule) (fn : J) (c : Nat) :
    (threadPool J cfg).LeadsTo schedule (fun s => c ≤ s.accepted.count fn)
      (fun s => c ≤ s.completed.count fn) := by
  intro k hacc
  obtain ⟨j, hj, hstarted⟩ := accepted_starts hbase hwork hown
    ((threadPool J cfg).after schedule k).accepted.length k (Nat.le_refl _)
  -- the jobs accepted by then are among those started now
  have hbegins : ((threadPool J cfg).after schedule k).accepted <+:
      ((threadPool J cfg).after schedule j).started := by
    have hqueue := (recorded_after cfg schedule j).queue
    refine List.prefix_of_prefix_length_le (records_grow cfg schedule hj).1 ?_ hstarted
    rw [hqueue]
    exact List.prefix_append _ _
  have hcount := hacc.trans (hbegins.sublist.count_le fn)
  obtain ⟨i, hi, hdone⟩ := started_completes cfg hwork fn c j hcount
  exact ⟨i, hj.trans hi, hdone⟩

/-! ## `shutdown` returns -/

/-- Each thread that will be joined was started. -/
def Known (cfg : PoolSizes) (s : ThreadPool J) : Prop := ∀ i ∈ s.awaited cfg, i < s.workers.length

theorem known_new (cfg : PoolSizes) : Known cfg (new cfg : ThreadPool J) := by
  intro i hi
  simpa [awaited, new] using hi

theorem known_moves {s s' : ThreadPool J} {a : Action J} (h : Known cfg s) (hm : Moves cfg s a s') :
    Known cfg s' := by
  have hlength := moves_length hm
  have hsame : ∀ i, i ∈ s.awaited cfg → i < s'.workers.length :=
    fun i hi => (h i hi).trans_le hlength
  cases hm with
  | spawns fn ho hs hroom =>
    intro i hi
    simp only [awaited, ho, List.mem_append, List.mem_singleton] at hi hsame
    rcases hi with hi | hi | rfl
    · exact hsame i (Or.inl hi)
    · exact hsame i (Or.inr hi)
    · simp
  | joins pick i threads ho hi =>
    intro j hj
    apply hsame j
    simp only [awaited, ho, List.cons_append, List.mem_cons] at hj ⊢
    exact Or.inr hj
  | joinsDynamic pick i remaining ho hi =>
    intro j hj
    apply hsame j
    simp only [awaited, ho, List.mem_cons] at hj ⊢
    exact Or.inr hj
  | returns pick ho =>
    intro i hi
    cases hi
  | expires i hp hj hs =>
    intro j hj
    apply hsame j
    unfold moveToFinished at hj
    split at hj
    · unfold awaited at hj ⊢
      cases ho : s.owner <;> simp only [ho, List.mem_append] at hj ⊢
      · exact hj.imp id List.mem_of_mem_erase
      · exact hj.imp id List.mem_of_mem_erase
      · exact hj.imp id List.mem_of_mem_erase
      · exact hj.imp id List.mem_of_mem_erase
      · exact hj
      · exact hj
    · exact hj
  | accepts fn ho | closes ho | notifies pick i ho | notifiesNobody pick ho | notifiesAll pick ho
  | collects pick ho =>
    intro j hj
    exact hsame j (by simpa [awaited, ho, notifyAll] using hj)
  | _ => exact fun j hj => hsame j hj

theorem known_after (cfg : PoolSizes) (schedule : ℕ → Action J) (k : ℕ) :
    Known cfg ((threadPool J cfg).after schedule k) :=
  invariant _ (Known cfg) (known_new cfg) (fun s a h => known_moves h (step_moves cfg s a)) _

/-- `shutdown` goes on, and no job comes any more. -/
theorem moves_joins {s s' : ThreadPool J} {a : Action J} (ho : s.owner.joins = true)
    (hm : Moves cfg s a s') : s'.owner.joins = true ∧ s'.jobs.length ≤ s.jobs.length := by
  cases hm with
  | accepts fn hl hs => simp [hl, OwnerPlace.joins] at ho
  | spawns fn hl hs hroom => simp [hl, OwnerPlace.joins] at ho
  | closes hl => simp [hl, OwnerPlace.joins] at ho
  | notifies pick i hl hi => simp [hl, OwnerPlace.joins] at ho
  | notifiesNobody pick hl hnone => simp [hl, OwnerPlace.joins] at ho
  | notifiesAll pick hl => simp [hl, OwnerPlace.joins] at ho
  | takes i p fn jobs hp hcomes hj => exact ⟨ho, by simp [hj]⟩
  | expires i hp hj hs =>
    unfold moveToFinished
    split <;> exact ⟨ho, Nat.le_refl _⟩
  | joins | collects | joinsDynamic | returns => exact ⟨rfl, Nat.le_refl _⟩
  | _ => exact ⟨ho, Nat.le_refl _⟩

/-- What a thread has before its end: the jobs that wait, and its own. -/
def leftFor (i : Nat) (s : ThreadPool J) : Nat :=
  2 * s.jobs.length + match placeAt s.workers i with
    | some (.running _) => 1
    | _ => 0

theorem placeAt_iff {workers : List (Worker J)} {i : Nat} :
    (∃ p, placeAt workers i = some p) ↔ i < workers.length := by
  unfold placeAt
  rw [← Option.isSome_iff_exists, Option.isSome_map, isSome_getElem?]

/-- A thread that steps in `shutdown` gets closer to its end. -/
theorem work_shrinks {s : ThreadPool J} (h : Attended s) (ho : s.owner.joins = true) {i : Nat}
    {p : WorkerPlace J} (hp : placeAt s.workers i = some p) :
    placeAt (s.work i).workers i = some .ended ∨ leftFor i (s.work i) < leftFor i s := by
  have hnext : ∀ q, placeAt (setPlace s.workers i q) i = some q := by
    intro q
    rw [placeAt_setPlace hp, if_pos rfl]
  have hshutdown : s.shutdown = true := by
    rw [h.closing]
    cases hs : s.owner <;> simp [hs, OwnerPlace.joins, OwnerPlace.closing] at ho ⊢
  have hcoming : p.comes = true →
      placeAt (s.work i).workers i = some .ended ∨ leftFor i (s.work i) < leftFor i s := by
    intro hcomes
    cases hj : s.jobs with
    | nil =>
      rw [work_leaves hp hcomes hj hshutdown]
      exact Or.inl (hnext _)
    | cons fn jobs =>
      rw [work_takes hp hcomes hj]
      right
      unfold leftFor
      simp only [hnext, hj, List.length_cons]
      omega
  cases p with
  | locking => exact hcoming rfl
  | woken => exact hcoming rfl
  | timedOut => exact hcoming rfl
  | waiting =>
    have hpos : 0 < threadsAt WorkerPlace.asleep s.workers :=
      threadsAt_pos_iff.mpr ⟨i, .waiting, hp, rfl⟩
    have := h.awake ho
    omega
  | running fn =>
    right
    unfold leftFor work
    simp only [hp, hnext]
    omega
  | ended =>
    left
    unfold work
    rw [hp]
    exact hp

/-- In `shutdown`, a thread comes to its end. -/
theorem thread_ends (cfg : PoolSizes) (hwork : ∀ i, Recurs (· = .work i) schedule) (i : Nat) :
    (threadPool J cfg).LeadsTo schedule
      (fun s => s.owner.joins = true ∧ ∃ p, placeAt s.workers i = some p)
      (fun s => s.owner.joins = true ∧ placeAt s.workers i = some .ended) := by
  have hown : ∀ k p, ((threadPool J cfg).after schedule k).owner.joins = true →
      placeAt ((threadPool J cfg).after schedule k).workers i = some p → schedule k = .work i →
      placeAt ((threadPool J cfg).after schedule (k + 1)).workers i = some .ended ∨
        leftFor i ((threadPool J cfg).after schedule (k + 1)) <
          leftFor i ((threadPool J cfg).after schedule k) := by
    intro k p ho hp ha
    rw [after_succ, ha]
    exact work_shrinks (attended_after cfg schedule k) ho hp
  have hlater : ∀ k p, placeAt ((threadPool J cfg).after schedule k).workers i = some p →
      ∃ q, placeAt ((threadPool J cfg).after schedule (k + 1)).workers i = some q := by
    intro k p hp
    exact placeAt_iff.mpr ((placeAt_iff.mp ⟨p, hp⟩).trans_le
      (moves_length (after_moves cfg schedule k)))
  apply leadsTo_of_count (leftFor i) (hwork i)
  · rintro k ⟨ho, p, hp⟩
    obtain ⟨ho', hjobs⟩ := moves_joins ho (after_moves cfg schedule k)
    rcases moves_place (after_moves cfg schedule k) hp with hp' | ha | ⟨rfl, _⟩
    · refine Or.inr ⟨⟨ho', p, hp'⟩, ?_⟩
      unfold leftFor
      rw [hp, hp']
      omega
    · rcases hown k p ho hp ha with hended | hlt
      · exact Or.inl ⟨ho', hended⟩
      · exact Or.inr ⟨⟨ho', hlater k p hp⟩, hlt.le⟩
    · have hpos : 0 < threadsAt WorkerPlace.asleep
          ((threadPool J cfg).after schedule k).workers :=
        threadsAt_pos_iff.mpr ⟨i, .waiting, hp, rfl⟩
      have := (attended_after cfg schedule k).awake ho
      omega
  · rintro k ha ⟨ho, p, hp⟩
    rcases hown k p ho hp ha with hended | hlt
    · exact Or.inl ⟨(moves_joins ho (after_moves cfg schedule k)).1, hended⟩
    · exact Or.inr hlt

/-- The listening thread takes its step, and nobody else moves it. -/
theorem owner_goes (hown : Recurs (fun a => ∃ pick, a = .own pick) schedule) {o : OwnerPlace}
    (hlistening : o ≠ .listening) {Q : ThreadPool J → Prop}
    (hstep : ∀ (s : ThreadPool J) pick, s.owner = o → Q (s.own cfg pick)) :
    (threadPool J cfg).LeadsTo schedule (fun s => s.owner = o) Q := by
  apply leadsTo_of_step hown
  · intro k ho ha
    rcases moves_owner (after_moves cfg schedule k) (ho ▸ hlistening) with ho' | hpick
    · exact ho'.trans ho
    · exact absurd hpick ha
  · rintro k ho ⟨pick, ha⟩
    rw [after_succ, ha]
    exact hstep _ pick ho

/-- The listening thread joins all threads of a list. -/
theorem all_joined (hwork : ∀ i, Recurs (· = .work i) schedule)
    (hown : Recurs (fun a => ∃ pick, a = .own pick) schedule) (mk : List Nat → OwnerPlace)
    (hjoins : ∀ l, (mk l).joins = true)
    (hawaited : ∀ (s : ThreadPool J) i l, s.owner = mk (i :: l) → i ∈ s.awaited cfg)
    (hended : ∀ (s : ThreadPool J) pick i l, s.owner = mk (i :: l) →
      placeAt s.workers i = some .ended → (s.own cfg pick).owner = mk l)
    (hother : ∀ (s : ThreadPool J) pick i l, s.owner = mk (i :: l) →
      placeAt s.workers i ≠ some .ended → s.own cfg pick = s) (l : List Nat) :
    (threadPool J cfg).LeadsTo schedule (fun s => s.owner = mk l) (fun s => s.owner = mk []) := by
  induction l with
  | nil => exact leadsTo_refl
  | cons i l ih =>
    have hlistening : mk (i :: l) ≠ .listening := by
      intro h
      have := hjoins (i :: l)
      rw [h] at this
      cases this
    -- until it goes on to the next thread, it waits for this one
    have hwaits : (threadPool J cfg).LeadsTo schedule (fun s => s.owner = mk (i :: l))
        (fun s => s.owner = mk l ∨ s.owner = mk (i :: l) ∧ s.owner.joins = true ∧
          placeAt s.workers i = some .ended) := by
      apply leadsTo_unless
      · intro k ho
        rcases moves_owner (after_moves cfg schedule k) (ho ▸ hlistening) with ho' | ⟨pick, ha⟩
        · exact Or.inr (ho'.trans ho)
        · rw [after_succ, ha]
          by_cases hi : placeAt ((threadPool J cfg).after schedule k).workers i = some .ended
          · exact Or.inl (hended _ pick i l ho hi)
          · exact Or.inr ((congrArg ThreadPool.owner (hother _ pick i l ho hi)).trans ho)
      · intro k ho
        have hlt := known_after cfg schedule k i (hawaited _ i l ho)
        exact thread_ends cfg hwork i k ⟨ho ▸ hjoins _, placeAt_iff.mpr hlt⟩
    have hgoes : (threadPool J cfg).LeadsTo schedule
        (fun s => s.owner = mk (i :: l) ∧ s.owner.joins = true ∧
          placeAt s.workers i = some .ended) (fun s => s.owner = mk l) := by
      apply leadsTo_of_step hown
      · rintro k ⟨ho, hjoins', hi⟩ ha
        refine ⟨?_, (moves_joins hjoins' (after_moves cfg schedule k)).1, ?_⟩
        · rcases moves_owner (after_moves cfg schedule k) (ho ▸ hlistening) with ho' | hpick
          · exact ho'.trans ho
          · exact absurd hpick ha
        · rcases moves_place (after_moves cfg schedule k) hi with hi' | hw | ⟨hw, _⟩
          · exact hi'
          · rw [after_succ, hw]
            change placeAt (work _ i).workers i = _
            unfold work
            rw [hi]
            exact hi
          · cases hw
      · rintro k ⟨ho, _, hi⟩ ⟨pick, ha⟩
        rw [after_succ, ha]
        exact hended _ pick i l ho hi
    exact hwaits.trans ((leadsTo_or leadsTo_refl hgoes).trans ih)

/-- `shutdown` goes through all its steps. -/
theorem shutdown_returns (hwork : ∀ i, Recurs (· = .work i) schedule)
    (hown : Recurs (fun a => ∃ pick, a = .own pick) schedule) :
    (threadPool J cfg).LeadsTo schedule (fun s => s.shutdown = true)
      (fun s => s.owner = .returned) := by
  have hjoining : ∀ l, (threadPool J cfg).LeadsTo schedule (fun s => s.owner = .joining l)
      (fun s => s.owner = .joining []) := by
    refine all_joined hwork hown .joining (fun _ => rfl) ?_ ?_ ?_
    · intro s i l ho
      simp [awaited, ho]
    · intro s pick i l ho hi
      unfold own
      simp only [ho, hi]
    · intro s pick i l ho hi
      unfold own
      simp only [ho]
  have hjoiningDynamic : ∀ l, (threadPool J cfg).LeadsTo schedule
      (fun s => s.owner = .joiningDynamic l) (fun s => s.owner = .joiningDynamic []) := by
    refine all_joined hwork hown .joiningDynamic (fun _ => rfl) ?_ ?_ ?_
    · intro s i l ho
      simp [awaited, ho]
    · intro s pick i l ho hi
      unfold own
      simp only [ho, hi]
    · intro s pick i l ho hi
      unfold own
      simp only [ho]
  have hlast : (threadPool J cfg).LeadsTo schedule (fun s => s.owner = .joiningDynamic [])
      (fun s => s.owner = .returned) := by
    apply owner_goes hown (by simp)
    intro s pick ho
    unfold own
    simp only [ho]
  have hcollects : (threadPool J cfg).LeadsTo schedule (fun s => s.owner = .joining [])
      (fun s => ∃ l, s.owner = .joiningDynamic l) := by
    apply owner_goes hown (by simp)
    intro s pick ho
    unfold own
    simp only [ho]
    exact ⟨_, rfl⟩
  have hnotifies : (threadPool J cfg).LeadsTo schedule (fun s => s.owner = .notifyingAll)
      (fun s => ∃ l, s.owner = .joining l) := by
    apply owner_goes hown (by simp)
    intro s pick ho
    unfold own
    simp only [ho]
    exact ⟨_, rfl⟩
  have hdynamic := leadsTo_exists (fun l => (hjoiningDynamic l).trans hlast)
  have hbase := leadsTo_exists (fun l => (hjoining l).trans (hcollects.trans hdynamic))
  intro k hs
  have hclosing := (attended_after cfg schedule k).closing
  rw [hs] at hclosing
  cases ho : ((threadPool J cfg).after schedule k).owner with
  | listening => simp [ho, OwnerPlace.closing] at hclosing
  | notifying => simp [ho, OwnerPlace.closing] at hclosing
  | notifyingAll => exact (hnotifies.trans hbase) k ho
  | joining l => exact hbase k ⟨l, ho⟩
  | joiningDynamic l => exact hdynamic k ⟨l, ho⟩
  | returned => exact ⟨k, Nat.le_refl k, ho⟩

end schedule

/-! ## The law of progress -/

/-- However few threads a pool has, and however many jobs come: when each
thread and the listening thread always come again, a job that was accepted so
often is done so often at some time, and a `shutdown` returns. -/
theorem every_job_is_done_and_shutdown_returns [DecidableEq J] (cfg : PoolSizes)
    (hbase : 0 < cfg.base_thread_count) (schedule : ℕ → Action J)
    (hwork : ∀ i, Recurs (· = .work i) schedule)
    (hown : Recurs (fun a => ∃ pick, a = .own pick) schedule) :
    (∀ fn c, (threadPool J cfg).LeadsTo schedule (fun s => c ≤ s.accepted.count fn)
      (fun s => c ≤ s.completed.count fn)) ∧
    (threadPool J cfg).LeadsTo schedule (fun s => s.shutdown = true)
      (fun s => s.owner = .returned) :=
  ⟨accepted_completes hbase hwork hown, shutdown_returns hwork hown⟩

/-- One job for a pool of one thread, and then everybody takes turns. -/
def oneJob (k : ℕ) : Action Nat :=
  if k = 0 then .enqueue 7
  else if k % 2 = 1 then .own 0 else .work (Nat.unpair (k / 2)).1

theorem every_job_is_done_and_shutdown_returns_one_job :
    ∃ j, 1 ≤ j ∧
      1 ≤ ((threadPool Nat ⟨1, 1, 0, by decide⟩).after oneJob j).completed.count 7 := by
  refine (every_job_is_done_and_shutdown_returns ⟨1, 1, 0, by decide⟩ (by decide) oneJob ?_ ?_).1
    7 1 1 ?_
  · intro i k
    have hle := Nat.right_le_pair i (k + 1)
    refine ⟨2 * Nat.pair i (k + 1), by omega, ?_⟩
    unfold oneJob
    rw [if_neg (by omega), if_neg (by omega), Nat.mul_div_cancel_left _ (by decide),
      Nat.unpair_pair]
  · intro k
    refine ⟨2 * k + 1, by omega, 0, ?_⟩
    unfold oneJob
    rw [if_neg (by omega), if_pos (by omega)]
  · decide

end ThreadPool

end httplib

end inference_server
