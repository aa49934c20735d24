-- The threads behind the HTTP server (`ThreadPool` in `httplib.h`). The
-- listening thread hands each connection to the pool and joins its threads
-- at the end. All fields are guarded by `mutex_`, so a step here is what one
-- thread does between a lock and the next unlock or wait. A thread that left
-- its loop touches nothing of the pool any more and counts as ended.
import InferenceServer.Lib.Machine
import Mathlib.Data.List.Perm.Basic

namespace inference_server

open machine

namespace httplib

/-! ## The pool -/

/-- The sizes of a pool. -/
structure PoolSizes where
  base_thread_count : Nat
  max_thread_count : Nat
  max_queued_requests : Nat
  base_le_max : base_thread_count ≤ max_thread_count

/-- The constructor throws for a maximum below the number of base threads. -/
def PoolSizes.new (n : Nat) (max_n : Nat) (mqr : Nat) : Option PoolSizes :=
  if h : max_n ≠ 0 ∧ max_n < n then none
  else some {
    base_thread_count := n
    max_thread_count := if max_n = 0 then n else max_n
    max_queued_requests := mqr
    base_le_max := by split <;> omega }

/-- `CPPHTTPLIB_THREAD_POOL_COUNT`. -/
def threadPoolCount (hardware_concurrency : Nat) : Nat :=
  max 8 (if 0 < hardware_concurrency then hardware_concurrency - 1 else 0)

/-- Where a thread stands in `worker`. It comes for the lock at the top of its
loop, when it was woken, and when its wait timed out. -/
inductive WorkerPlace (J : Type*) where
  | locking
  | waiting
  | woken
  | timedOut
  | running (fn : J)
  | ended
  deriving DecidableEq

structure Worker (J : Type*) where
  is_dynamic : Bool
  place : WorkerPlace J
  deriving DecidableEq

/-- Where the listening thread stands with the pool: in its loop, behind the
lock of `enqueue`, or in `shutdown`. -/
inductive OwnerPlace where
  | listening
  | notifying
  | notifyingAll
  | joining (threads : List Nat)
  | joiningDynamic (remaining : List Nat)
  | returned
  deriving DecidableEq, Repr

/-- The pool. Threads are numbered in the order of their start, the base
threads first. The last three fields only record: the jobs accepted, started
and completed. -/
structure ThreadPool (J : Type*) where
  idle_thread_count : Int
  shutdown : Bool
  jobs : List J
  workers : List (Worker J)
  dynamic_threads : List Nat
  finished_threads : List Nat
  owner : OwnerPlace
  accepted : List J
  started : List J
  completed : List J

/-! ## The worker threads -/

section workers

variable {J : Type*}

def placeAt (workers : List (Worker J)) (i : Nat) : Option (WorkerPlace J) :=
  workers[i]?.map Worker.place

def setPlace (workers : List (Worker J)) (i : Nat) (p : WorkerPlace J) : List (Worker J) :=
  workers.modify i (fun w => { w with place := p })

def WorkerPlace.asleep : WorkerPlace J → Bool
  | .waiting => true
  | _ => false

/-- Where `notify_all` leaves a thread. -/
def WorkerPlace.notified : WorkerPlace J → WorkerPlace J
  | .waiting => .woken
  | p => p

def Worker.notified (w : Worker J) : Worker J := { w with place := w.place.notified }

end workers

namespace ThreadPool

variable {J : Type*}

def new (cfg : PoolSizes) : ThreadPool J where
  idle_thread_count := 0
  shutdown := false
  jobs := []
  workers := List.replicate cfg.base_thread_count ⟨false, .locking⟩
  dynamic_threads := []
  finished_threads := []
  owner := .listening
  accepted := []
  started := []
  completed := []

/-- The predicate of the wait. -/
def hasWork (s : ThreadPool J) : Bool := !s.jobs.isEmpty || s.shutdown

/-- Behind the wait. Without a job there was a shutdown, and the thread
leaves its loop. -/
def proceed (s : ThreadPool J) (i : Nat) : ThreadPool J :=
  match s.jobs with
  | [] => { s with workers := setPlace s.workers i .ended }
  | fn :: jobs =>
    { s with
      jobs := jobs
      workers := setPlace s.workers i (.running fn)
      started := s.started ++ [fn] }

def moveToFinished (s : ThreadPool J) (i : Nat) : ThreadPool J :=
  if i ∈ s.dynamic_threads then
    { s with
      dynamic_threads := s.dynamic_threads.erase i
      finished_threads := s.finished_threads ++ [i] }
  else s

/-- The next step of thread `i`. Asleep it stays where it is. -/
def work (s : ThreadPool J) (i : Nat) : ThreadPool J :=
  match placeAt s.workers i with
  | some .locking =>
    -- `idle_thread_count_` goes up and, without a wait, down again
    if s.hasWork then s.proceed i
    else
      { s with
        idle_thread_count := s.idle_thread_count + 1
        workers := setPlace s.workers i .waiting }
  | some .woken =>
    if s.hasWork then { s with idle_thread_count := s.idle_thread_count - 1 }.proceed i
    else { s with workers := setPlace s.workers i .waiting }
  | some .timedOut =>
    let s := { s with idle_thread_count := s.idle_thread_count - 1 }
    if s.hasWork then s.proceed i
    else { s.moveToFinished i with workers := setPlace s.workers i .ended }
  | some (.running fn) =>
    { s with workers := setPlace s.workers i .locking, completed := s.completed ++ [fn] }
  | some .waiting | some .ended | none => s

def sleeps (s : ThreadPool J) (i : Nat) : Bool :=
  (placeAt s.workers i).any WorkerPlace.asleep

/-- A sleeping thread leaves the condition. -/
def wake (s : ThreadPool J) (i : Nat) : ThreadPool J :=
  if s.sleeps i then { s with workers := setPlace s.workers i .woken } else s

/-- The wait of a dynamic thread is over after its idle timeout. -/
def timeout (s : ThreadPool J) (i : Nat) : ThreadPool J :=
  if s.sleeps i ∧ s.workers[i]?.any Worker.is_dynamic then
    { s with workers := setPlace s.workers i .timedOut }
  else s

/-! ## The listening thread -/

/-- Spawns a dynamic thread if no thread is idle and there may be more. -/
def spawn (cfg : PoolSizes) (s : ThreadPool J) : ThreadPool J :=
  if s.idle_thread_count = 0 ∧
      cfg.base_thread_count + s.dynamic_threads.length < cfg.max_thread_count then
    { s with
      finished_threads := []
      workers := s.workers ++ [⟨true, .locking⟩]
      dynamic_threads := s.dynamic_threads ++ [s.workers.length] }
  else s

/-- `enqueue` up to its `notify_one`. A refused connection is closed. -/
def enqueue (cfg : PoolSizes) (s : ThreadPool J) (fn : J) : ThreadPool J :=
  if s.shutdown then s
  else if cfg.max_queued_requests > 0 ∧ s.jobs.length ≥ cfg.max_queued_requests then s
  else
    { spawn cfg { s with jobs := s.jobs ++ [fn], accepted := s.accepted ++ [fn] } with
      owner := .notifying }

/-- `notify_one`, which wakes one of the sleeping threads: `pick`, or else the
first. -/
def notifyOne (s : ThreadPool J) (pick : Nat) : ThreadPool J :=
  if s.sleeps pick then s.wake pick
  else
    match (List.range s.workers.length).find? s.sleeps with
    | some i => s.wake i
    | none => s

def notifyAll (s : ThreadPool J) : ThreadPool J :=
  { s with workers := s.workers.map Worker.notified }

/-- The next step of the listening thread in `enqueue` or `shutdown`. It joins
a thread that has ended, and waits for any other. -/
def own (cfg : PoolSizes) (s : ThreadPool J) (pick : Nat) : ThreadPool J :=
  match s.owner with
  | .listening => s
  | .notifying => { s.notifyOne pick with owner := .listening }
  | .notifyingAll =>
    { s.notifyAll with owner := .joining (List.range cfg.base_thread_count) }
  | .joining (i :: threads) =>
    match placeAt s.workers i with
    | some .ended => { s with owner := .joining threads }
    | _ => s
  | .joining [] => { s with dynamic_threads := [], owner := .joiningDynamic s.dynamic_threads }
  | .joiningDynamic (i :: remaining) =>
    match placeAt s.workers i with
    | some .ended => { s with owner := .joiningDynamic remaining }
    | _ => s
  | .joiningDynamic [] => { s with finished_threads := [], owner := .returned }
  | .returned => s

/-! ## The machine -/

/-- `wake` is a wake-up that nobody asked for. A completed job is a step of
the thread that runs it. -/
inductive Action (J : Type*) where
  | enqueue (fn : J)
  | shutdown
  | own (pick : Nat)
  | work (i : Nat)
  | timeout (i : Nat)
  | wake (i : Nat)

/-- The listening thread calls `enqueue` and `shutdown` out of its loop. -/
def step (cfg : PoolSizes) (s : ThreadPool J) : Action J → ThreadPool J
  | .enqueue fn => if s.owner = .listening then s.enqueue cfg fn else s
  | .shutdown =>
    if s.owner = .listening then { s with shutdown := true, owner := .notifyingAll } else s
  | .own pick => s.own cfg pick
  | .work i => s.work i
  | .timeout i => s.timeout i
  | .wake i => s.wake i

end ThreadPool

def threadPool (J : Type*) (cfg : PoolSizes) : Machine (ThreadPool J) (ThreadPool.Action J) :=
  { init := .new cfg, step := ThreadPool.step cfg }

/-! ## Threads by their places -/

section workers

variable {J : Type*} {workers : List (Worker J)} {i : Nat} {p : WorkerPlace J}

/-- On its way to the lock. -/
def WorkerPlace.comes : WorkerPlace J → Bool
  | .locking | .woken | .timedOut => true
  | _ => false

/-- Inside the wait. -/
def WorkerPlace.idles : WorkerPlace J → Bool
  | .waiting | .woken | .timedOut => true
  | _ => false

def WorkerPlace.alive : WorkerPlace J → Bool
  | .ended => false
  | _ => true

def WorkerPlace.job : WorkerPlace J → Option J
  | .running fn => some fn
  | _ => none

/-- In `shutdown`. -/
def OwnerPlace.closing : OwnerPlace → Bool
  | .listening | .notifying => false
  | _ => true

/-- In `shutdown`, behind the `notify_all`. -/
def OwnerPlace.joins : OwnerPlace → Bool
  | .listening | .notifying | .notifyingAll => false
  | _ => true

/-- How many threads are at such places. -/
def threadsAt (f : WorkerPlace J → Bool) (workers : List (Worker J)) : Nat :=
  workers.countP (fun w => f w.place)

/-- The jobs that run. -/
def runningJobs (workers : List (Worker J)) : List J := workers.filterMap (fun w => w.place.job)

theorem getElem?_setPlace (workers : List (Worker J)) (i : Nat) (q : WorkerPlace J) (j : Nat) :
    (setPlace workers i q)[j]? =
      if i = j then workers[j]?.map (fun w => { w with place := q }) else workers[j]? := by
  unfold setPlace
  rw [List.getElem?_modify]
  by_cases hij : i = j <;> simp [hij]

theorem placeAt_setPlace (h : placeAt workers i = some p) (q : WorkerPlace J) (j : Nat) :
    placeAt (setPlace workers i q) j = if i = j then some q else placeAt workers j := by
  unfold placeAt at *
  rw [getElem?_setPlace]
  by_cases hij : i = j
  · subst hij
    cases hw : workers[i]? with
    | none => simp [hw] at h
    | some w => simp
  · simp [hij]

/-- One thread moves, the others stay. -/
theorem setPlace_perm (h : placeAt workers i = some p) (q : WorkerPlace J) :
    ∃ d rest, workers.Perm (⟨d, p⟩ :: rest) ∧ (setPlace workers i q).Perm (⟨d, q⟩ :: rest) := by
  unfold placeAt at h
  rw [Option.map_eq_some_iff] at h
  obtain ⟨w, hw, rfl⟩ := h
  obtain ⟨rest, hold, hnew⟩ := perm_set hw
  refine ⟨w.is_dynamic, rest, hold, ?_⟩
  have hset : setPlace workers i q = workers.set i { w with place := q } := by
    unfold setPlace
    rw [List.modify_eq_set_getElem?, hw]
    rfl
  rw [hset]
  exact hnew _

theorem threadsAt_setPlace (f : WorkerPlace J → Bool) (h : placeAt workers i = some p)
    (q : WorkerPlace J) :
    threadsAt f (setPlace workers i q) + (if f p then 1 else 0) =
      threadsAt f workers + if f q then 1 else 0 := by
  obtain ⟨d, rest, hold, hnew⟩ := setPlace_perm h q
  unfold threadsAt
  rw [hold.countP_eq, hnew.countP_eq, List.countP_cons, List.countP_cons]
  exact Nat.add_right_comm _ _ _

theorem runningJobs_setPlace (h : placeAt workers i = some p) (q : WorkerPlace J) :
    (p.job.toList ++ runningJobs (setPlace workers i q)).Perm
      (q.job.toList ++ runningJobs workers) := by
  obtain ⟨d, rest, hold, hnew⟩ := setPlace_perm h q
  have h1 := hold.filterMap (fun w => w.place.job)
  have h2 := hnew.filterMap (fun w => w.place.job)
  unfold runningJobs
  refine (h2.append_left _).trans (List.Perm.trans ?_ (h1.append_left _).symm)
  cases hp : p.job with
  | none => cases hq : q.job <;> simp [hp, hq]
  | some a => cases hq : q.job with
    | none => simp [hp, hq]
    | some b =>
      simp only [hp, hq, List.filterMap_cons, Option.toList_some, List.singleton_append]
      exact List.Perm.swap _ _ _

theorem mem_runningJobs {fn : J} (h : placeAt workers i = some (.running fn)) :
    fn ∈ runningJobs workers := by
  unfold placeAt at h
  rw [Option.map_eq_some_iff] at h
  obtain ⟨w, hw, hp⟩ := h
  exact List.mem_filterMap.mpr ⟨w, List.mem_of_getElem? hw, by rw [hp]; rfl⟩

theorem threadsAt_append (f : WorkerPlace J → Bool) (workers : List (Worker J)) (w : Worker J) :
    threadsAt f (workers ++ [w]) = threadsAt f workers + if f w.place then 1 else 0 := by
  unfold threadsAt
  rw [List.countP_append, List.countP_singleton]

theorem threadsAt_notified {f g : WorkerPlace J → Bool} (h : ∀ p, f p.notified = g p)
    (workers : List (Worker J)) :
    threadsAt f (workers.map Worker.notified) = threadsAt g workers := by
  unfold threadsAt
  rw [List.countP_map]
  exact List.countP_congr (fun w _ => by simp [Worker.notified, h])

theorem threadsAt_pos_iff {f : WorkerPlace J → Bool} :
    0 < threadsAt f workers ↔ ∃ i p, placeAt workers i = some p ∧ f p = true := by
  unfold threadsAt placeAt
  rw [List.countP_pos_iff]
  constructor
  · rintro ⟨w, hw, hf⟩
    obtain ⟨i, hi⟩ := List.getElem?_of_mem hw
    exact ⟨i, w.place, by rw [hi]; rfl, hf⟩
  · rintro ⟨i, p, hp, hf⟩
    rw [Option.map_eq_some_iff] at hp
    obtain ⟨w, hw, rfl⟩ := hp
    exact ⟨w, List.mem_of_getElem? hw, hf⟩

end workers

namespace ThreadPool

variable {J : Type*}

/-! ## What one step does -/

/-- How one step changes the pool. -/
inductive Moves (cfg : PoolSizes) (s : ThreadPool J) : Action J → ThreadPool J → Prop
  | stays (a : Action J) : Moves cfg s a s
  | accepts (fn : J) : s.owner = .listening → s.shutdown = false →
      Moves cfg s (.enqueue fn) { s with
        jobs := s.jobs ++ [fn]
        owner := .notifying
        accepted := s.accepted ++ [fn] }
  | spawns (fn : J) : s.owner = .listening → s.shutdown = false →
      cfg.base_thread_count + s.dynamic_threads.length < cfg.max_thread_count →
      Moves cfg s (.enqueue fn) { s with
        jobs := s.jobs ++ [fn]
        workers := s.workers ++ [⟨true, .locking⟩]
        dynamic_threads := s.dynamic_threads ++ [s.workers.length]
        finished_threads := []
        owner := .notifying
        accepted := s.accepted ++ [fn] }
  | closes : s.owner = .listening →
      Moves cfg s .shutdown { s with shutdown := true, owner := .notifyingAll }
  | notifies (pick i : Nat) : s.owner = .notifying → placeAt s.workers i = some .waiting →
      Moves cfg s (.own pick) { s with
        workers := setPlace s.workers i .woken
        owner := .listening }
  | notifiesNobody (pick : Nat) : s.owner = .notifying →
      threadsAt WorkerPlace.asleep s.workers = 0 →
      Moves cfg s (.own pick) { s with owner := .listening }
  | notifiesAll (pick : Nat) : s.owner = .notifyingAll →
      Moves cfg s (.own pick) { s.notifyAll with
        owner := .joining (List.range cfg.base_thread_count) }
  | joins (pick i : Nat) (threads : List Nat) : s.owner = .joining (i :: threads) →
      placeAt s.workers i = some .ended →
      Moves cfg s (.own pick) { s with owner := .joining threads }
  | collects (pick : Nat) : s.owner = .joining [] →
      Moves cfg s (.own pick) { s with
        dynamic_threads := []
        owner := .joiningDynamic s.dynamic_threads }
  | joinsDynamic (pick i : Nat) (remaining : List Nat) :
      s.owner = .joiningDynamic (i :: remaining) → placeAt s.workers i = some .ended →
      Moves cfg s (.own pick) { s with owner := .joiningDynamic remaining }
  | returns (pick : Nat) : s.owner = .joiningDynamic [] →
      Moves cfg s (.own pick) { s with finished_threads := [], owner := .returned }
  | wakes (i : Nat) : placeAt s.workers i = some .waiting →
      Moves cfg s (.wake i) { s with workers := setPlace s.workers i .woken }
  | timesOut (i : Nat) : s.workers[i]? = some ⟨true, .waiting⟩ →
      Moves cfg s (.timeout i) { s with workers := setPlace s.workers i .timedOut }
  | takes (i : Nat) (p : WorkerPlace J) (fn : J) (jobs : List J) :
      placeAt s.workers i = some p → p.comes = true → s.jobs = fn :: jobs →
      Moves cfg s (.work i) { s with
        idle_thread_count := s.idle_thread_count - if p.idles then 1 else 0
        jobs := jobs
        workers := setPlace s.workers i (.running fn)
        started := s.started ++ [fn] }
  | leaves (i : Nat) (p : WorkerPlace J) :
      placeAt s.workers i = some p → p.comes = true → s.jobs = [] → s.shutdown = true →
      Moves cfg s (.work i) { s with
        idle_thread_count := s.idle_thread_count - if p.idles then 1 else 0
        workers := setPlace s.workers i .ended }
  | waits (i : Nat) (p : WorkerPlace J) :
      placeAt s.workers i = some p → p.comes = true → s.jobs = [] → s.shutdown = false →
      Moves cfg s (.work i) { s with
        idle_thread_count := s.idle_thread_count + 1 - if p.idles then 1 else 0
        workers := setPlace s.workers i .waiting }
  | expires (i : Nat) :
      placeAt s.workers i = some .timedOut → s.jobs = [] → s.shutdown = false →
      Moves cfg s (.work i) { s.moveToFinished i with
        idle_thread_count := s.idle_thread_count - 1
        workers := setPlace s.workers i .ended }
  | completes (i : Nat) (fn : J) : placeAt s.workers i = some (.running fn) →
      Moves cfg s (.work i) { s with
        workers := setPlace s.workers i .locking
        completed := s.completed ++ [fn] }

section work

variable {s : ThreadPool J} {i : Nat} {p : WorkerPlace J} (hp : placeAt s.workers i = some p)

include hp

theorem work_takes (hcomes : p.comes = true) {fn : J} {jobs : List J} (hj : s.jobs = fn :: jobs) :
    s.work i = { s with
      idle_thread_count := s.idle_thread_count - if p.idles then 1 else 0
      jobs := jobs
      workers := setPlace s.workers i (.running fn)
      started := s.started ++ [fn] } := by
  unfold work
  cases p <;> simp [hp, hasWork, proceed, hj, WorkerPlace.comes, WorkerPlace.idles] at hcomes ⊢

theorem work_leaves (hcomes : p.comes = true) (hj : s.jobs = []) (hs : s.shutdown = true) :
    s.work i = { s with
      idle_thread_count := s.idle_thread_count - if p.idles then 1 else 0
      workers := setPlace s.workers i .ended } := by
  unfold work
  cases p <;> simp [hp, hasWork, proceed, hj, hs, WorkerPlace.comes, WorkerPlace.idles] at hcomes ⊢

theorem work_waits (hcomes : p.comes = true) (htimed : p ≠ .timedOut) (hj : s.jobs = [])
    (hs : s.shutdown = false) :
    s.work i = { s with
      idle_thread_count := s.idle_thread_count + 1 - if p.idles then 1 else 0
      workers := setPlace s.workers i .waiting } := by
  unfold work
  cases p <;> simp [hp, hasWork, hj, hs, WorkerPlace.comes, WorkerPlace.idles] at hcomes htimed ⊢

end work

theorem work_expires {s : ThreadPool J} {i : Nat} (hp : placeAt s.workers i = some .timedOut)
    (hj : s.jobs = []) (hs : s.shutdown = false) :
    s.work i = { s.moveToFinished i with
      idle_thread_count := s.idle_thread_count - 1
      workers := setPlace s.workers i .ended } := by
  unfold work moveToFinished
  by_cases hd : i ∈ s.dynamic_threads <;> simp [hp, hasWork, hj, hs, hd]

theorem work_moves (cfg : PoolSizes) (s : ThreadPool J) (i : Nat) :
    Moves cfg s (.work i) (s.work i) := by
  have hcoming : ∀ p, placeAt s.workers i = some p → p.comes = true →
      Moves cfg s (.work i) (s.work i) := by
    intro p hp hcomes
    cases hj : s.jobs with
    | cons fn jobs =>
      rw [work_takes hp hcomes hj]
      exact .takes i p fn jobs hp hcomes hj
    | nil =>
      cases hs : s.shutdown with
      | true =>
        rw [work_leaves hp hcomes hj hs]
        exact .leaves i p hp hcomes hj hs
      | false =>
        by_cases htimed : p = .timedOut
        · subst htimed
          rw [work_expires hp hj hs]
          exact .expires i hp hj hs
        · rw [work_waits hp hcomes htimed hj hs]
          exact .waits i p hp hcomes hj hs
  cases hp : placeAt s.workers i with
  | none =>
    unfold work
    rw [hp]
    exact .stays _
  | some p =>
    cases p with
    | locking => exact hcoming _ hp rfl
    | woken => exact hcoming _ hp rfl
    | timedOut => exact hcoming _ hp rfl
    | waiting =>
      unfold work
      rw [hp]
      exact .stays _
    | running fn =>
      unfold work
      rw [hp]
      exact .completes i fn hp
    | ended =>
      unfold work
      rw [hp]
      exact .stays _

theorem sleeps_iff {s : ThreadPool J} {i : Nat} :
    s.sleeps i = true ↔ placeAt s.workers i = some .waiting := by
  unfold sleeps
  cases placeAt s.workers i with
  | none => simp
  | some p => cases p <;> simp [WorkerPlace.asleep]

theorem notifyOne_cases (s : ThreadPool J) (pick : Nat) :
    (∃ i, placeAt s.workers i = some .waiting ∧
      s.notifyOne pick = { s with workers := setPlace s.workers i .woken }) ∨
    (threadsAt WorkerPlace.asleep s.workers = 0 ∧ s.notifyOne pick = s) := by
  unfold notifyOne
  by_cases hpick : s.sleeps pick = true
  · exact Or.inl ⟨pick, sleeps_iff.mp hpick, by simp only [wake, hpick, if_true]⟩
  · rw [if_neg hpick]
    cases hfind : (List.range s.workers.length).find? s.sleeps with
    | some i =>
      have hi : s.sleeps i = true := List.find?_some hfind
      exact Or.inl ⟨i, sleeps_iff.mp hi, by simp only [wake, hi, if_true]⟩
    | none =>
      refine Or.inr ⟨?_, rfl⟩
      by_contra hpos
      obtain ⟨i, p, hp, hasleep⟩ := threadsAt_pos_iff.mp (Nat.pos_of_ne_zero hpos)
      have hlt : i < s.workers.length := by
        unfold placeAt at hp
        rw [Option.map_eq_some_iff] at hp
        obtain ⟨w, hw, _⟩ := hp
        exact (List.getElem?_eq_some_iff.mp hw).1
      have hnone := List.find?_eq_none.mp hfind i (List.mem_range.mpr hlt)
      apply hnone
      unfold sleeps
      rw [hp]
      exact hasleep

theorem own_moves (cfg : PoolSizes) (s : ThreadPool J) (pick : Nat) :
    Moves cfg s (.own pick) (s.own cfg pick) := by
  unfold own
  split
  · exact .stays _
  · rename_i ho
    rcases s.notifyOne_cases pick with ⟨i, hi, he⟩ | ⟨hnone, he⟩
    · rw [he]
      exact .notifies pick i ho hi
    · rw [he]
      exact .notifiesNobody pick ho hnone
  · rename_i ho
    exact .notifiesAll pick ho
  · rename_i i threads ho
    split
    · rename_i hi
      exact .joins pick i threads ho hi
    · exact .stays _
  · rename_i ho
    exact .collects pick ho
  · rename_i i remaining ho
    split
    · rename_i hi
      exact .joinsDynamic pick i remaining ho hi
    · exact .stays _
  · rename_i ho
    exact .returns pick ho
  · exact .stays _

theorem enqueue_moves (cfg : PoolSizes) (s : ThreadPool J) (fn : J) (ho : s.owner = .listening) :
    Moves cfg s (.enqueue fn) (s.enqueue cfg fn) := by
  unfold enqueue
  by_cases hs : s.shutdown = true
  · rw [if_pos hs]
    exact .stays _
  · rw [if_neg hs]
    rw [Bool.not_eq_true] at hs
    split
    · exact .stays _
    · unfold spawn
      simp only
      split
      · rename_i hroom
        exact .spawns fn ho hs hroom.2
      · exact .accepts fn ho hs

/-- Each step is one of these. -/
theorem step_moves (cfg : PoolSizes) (s : ThreadPool J) (a : Action J) :
    Moves cfg s a (s.step cfg a) := by
  cases a with
  | enqueue fn =>
    by_cases ho : s.owner = .listening
    · simpa only [step, if_pos ho] using enqueue_moves cfg s fn ho
    · simpa only [step, if_neg ho] using Moves.stays _
  | shutdown =>
    by_cases ho : s.owner = .listening
    · simpa only [step, if_pos ho] using Moves.closes ho
    · simpa only [step, if_neg ho] using Moves.stays _
  | own pick => exact own_moves cfg s pick
  | work i => exact work_moves cfg s i
  | timeout i =>
    simp only [step, timeout]
    split
    · rename_i h
      obtain ⟨hsleeps, hdyn⟩ := h
      have hp := sleeps_iff.mp hsleeps
      unfold placeAt at hp
      rw [Option.map_eq_some_iff] at hp
      obtain ⟨⟨d, p⟩, hw, rfl⟩ := hp
      rw [hw] at hdyn
      simp only [Option.any_some] at hdyn
      subst hdyn
      exact .timesOut i hw
    · exact .stays _
  | wake i =>
    simp only [step, wake]
    split
    · rename_i h
      exact .wakes i (sleeps_iff.mp h)
    · exact .stays _

/-! ## Idle threads and waiting jobs -/

/-- `idle_thread_count_` counts the threads in the wait, and no thread sleeps
while there is a job for it: for each job some thread is on its way, or the
listening thread is about to wake one. -/
structure Attended (s : ThreadPool J) : Prop where
  idle : s.idle_thread_count = threadsAt WorkerPlace.idles s.workers
  closing : s.shutdown = s.owner.closing
  ready : threadsAt WorkerPlace.asleep s.workers = 0 ∨
    s.jobs.length ≤ threadsAt WorkerPlace.comes s.workers + if s.owner = .notifying then 1 else 0
  awake : s.owner.joins = true → threadsAt WorkerPlace.asleep s.workers = 0

theorem attended_new (cfg : PoolSizes) : Attended (new cfg : ThreadPool J) := by
  have hzero : ∀ f : WorkerPlace J → Bool, f .locking = false →
      threadsAt f (new cfg).workers = 0 := by
    intro f hf
    unfold threadsAt new
    simp [hf]
  refine ⟨?_, rfl, Or.inl (hzero _ rfl), nofun⟩
  rw [hzero _ rfl]
  rfl

/-- One thread moves from `p` to `q`, and the listening thread stays. -/
theorem Attended.moved {s s' : ThreadPool J} (h : Attended s) {i : Nat} {p q : WorkerPlace J}
    (hp : placeAt s.workers i = some p) (hworkers : s'.workers = setPlace s.workers i q)
    (howner : s'.owner = s.owner) (hshutdown : s'.shutdown = s.shutdown)
    (hidle : s'.idle_thread_count + (if p.idles then 1 else 0) =
      s.idle_thread_count + if q.idles then 1 else 0)
    (hjobs : s'.jobs = [] ∨ q.asleep = false ∧
      s'.jobs.length + (if p.comes then 1 else 0) ≤ s.jobs.length + if q.comes then 1 else 0)
    (hasleep : q.asleep = true → s.shutdown = false) : Attended s' := by
  have h1 := threadsAt_setPlace WorkerPlace.idles hp q
  have h2 := threadsAt_setPlace WorkerPlace.asleep hp q
  have h3 := threadsAt_setPlace WorkerPlace.comes hp q
  obtain ⟨hi, hclosing, hready, hawake⟩ := h
  refine ⟨?_, ?_, ?_, ?_⟩
  · rw [hworkers]
    split at h1 <;> split at h1 <;> simp_all
    all_goals omega
  · rw [hshutdown, howner, hclosing]
  · rw [hworkers, howner]
    rcases hjobs with hnil | ⟨hq, hle⟩
    · rw [hnil]
      exact Or.inr (Nat.zero_le _)
    · have hq0 : (if q.asleep = true then 1 else 0) = 0 := if_neg (by simp [hq])
      omega
  · intro hj
    rw [howner] at hj
    rw [hworkers]
    have hzero := hawake hj
    have hclosed : s.shutdown = true := by
      rw [hclosing]
      cases ho : s.owner <;> simp [ho, OwnerPlace.joins, OwnerPlace.closing] at hj ⊢
    have hq : q.asleep ≠ true := fun hq => by simp [hasleep hq] at hclosed
    have hq0 : (if q.asleep = true then 1 else 0) = 0 := if_neg hq
    omega

theorem attended_moves {cfg : PoolSizes} {s s' : ThreadPool J} {a : Action J} (h : Attended s)
    (hm : Moves cfg s a s') : Attended s' := by
  obtain ⟨hidle, hclosing, hready, hawake⟩ := id h
  cases hm with
  | stays => exact h
  | accepts fn ho hs =>
    rw [ho] at hready hawake
    refine ⟨hidle, hs, ?_, hawake⟩
    simp only [reduceCtorEq, if_false, if_true, List.length_append,
      List.length_singleton] at hready ⊢
    omega
  | spawns fn ho hs hroom =>
    rw [ho] at hready
    refine ⟨?_, hs, ?_, fun hj => by cases hj⟩
    · simpa [threadsAt_append, WorkerPlace.idles] using hidle
    · simp [threadsAt_append, WorkerPlace.asleep, WorkerPlace.comes] at hready ⊢
      omega
  | closes ho =>
    rw [ho] at hready
    refine ⟨hidle, rfl, ?_, fun hj => by cases hj⟩
    simpa using hready
  | notifies pick i ho hi =>
    have hmoved : Attended { s with workers := setPlace s.workers i .woken } := by
      exact h.moved hi rfl rfl rfl rfl (by simp [WorkerPlace.asleep, WorkerPlace.comes])
        (by simp [WorkerPlace.asleep])
    obtain ⟨g1, g2, g3, g4⟩ := hmoved
    have h3 := threadsAt_setPlace WorkerPlace.comes hi .woken
    have h2 := threadsAt_setPlace WorkerPlace.asleep hi .woken
    rw [ho] at hready hclosing
    refine ⟨g1, hclosing, ?_, fun hj => by cases hj⟩
    simp [WorkerPlace.asleep, WorkerPlace.comes] at hready h2 h3 ⊢
    omega
  | notifiesNobody pick ho hnone =>
    rw [ho] at hclosing
    exact ⟨hidle, hclosing, Or.inl hnone, fun hj => by cases hj⟩
  | notifiesAll pick ho =>
    rw [ho] at hclosing
    have hsleep : threadsAt WorkerPlace.asleep s.notifyAll.workers = 0 := by
      rw [notifyAll, threadsAt_notified (g := fun _ => false) (fun p => by cases p <;> rfl)]
      simp [threadsAt]
    refine ⟨?_, hclosing, Or.inl hsleep, fun _ => hsleep⟩
    rw [notifyAll, threadsAt_notified (g := WorkerPlace.idles) (fun p => by cases p <;> rfl)]
    exact hidle
  | joins pick i threads ho hi =>
    rw [ho] at hclosing hawake
    exact ⟨hidle, hclosing, Or.inl (hawake rfl), fun _ => hawake rfl⟩
  | collects pick ho =>
    rw [ho] at hclosing hawake
    exact ⟨hidle, hclosing, Or.inl (hawake rfl), fun _ => hawake rfl⟩
  | joinsDynamic pick i remaining ho hi =>
    rw [ho] at hclosing hawake
    exact ⟨hidle, hclosing, Or.inl (hawake rfl), fun _ => hawake rfl⟩
  | returns pick ho =>
    rw [ho] at hclosing hawake
    exact ⟨hidle, hclosing, Or.inl (hawake rfl), fun _ => hawake rfl⟩
  | wakes i hi =>
    exact h.moved hi rfl rfl rfl rfl (by simp [WorkerPlace.asleep, WorkerPlace.comes])
      (by simp [WorkerPlace.asleep])
  | timesOut i hi =>
    have hp : placeAt s.workers i = some .waiting := by
      unfold placeAt
      rw [hi]
      rfl
    exact h.moved hp rfl rfl rfl rfl (by simp [WorkerPlace.asleep, WorkerPlace.comes])
      (by simp [WorkerPlace.asleep])
  | takes i p fn jobs hp hcomes hj =>
    refine h.moved hp rfl rfl rfl ?_ (Or.inr ⟨rfl, ?_⟩) (by simp [WorkerPlace.asleep])
    · simp [WorkerPlace.idles]
    · simp only [hj, hcomes, if_true, List.length_cons]
      exact Nat.le_add_right _ _
  | leaves i p hp hcomes hj hs =>
    exact h.moved hp rfl rfl rfl (by simp [WorkerPlace.idles]) (Or.inl hj)
      (by simp [WorkerPlace.asleep])
  | waits i p hp hcomes hj hs =>
    exact h.moved hp rfl rfl rfl (by simp [WorkerPlace.idles]) (Or.inl hj) (fun _ => hs)
  | expires i hp hj hs =>
    have hsame : s.moveToFinished i = { s with
        dynamic_threads := (s.moveToFinished i).dynamic_threads
        finished_threads := (s.moveToFinished i).finished_threads } := by
      unfold moveToFinished
      split <;> rfl
    rw [hsame]
    exact h.moved hp rfl rfl rfl (by simp [WorkerPlace.idles]) (Or.inl hj)
      (by simp [WorkerPlace.asleep])
  | completes i fn hp =>
    exact h.moved hp rfl rfl rfl rfl (by simp [WorkerPlace.asleep, WorkerPlace.comes])
      (by simp [WorkerPlace.asleep])

theorem attended_run (cfg : PoolSizes) (as : List (Action J)) :
    Attended ((threadPool J cfg).run as) :=
  invariant _ Attended (attended_new cfg) (fun s a h => attended_moves h (step_moves cfg s a)) as

/-! ## The jobs -/

/-- Jobs start in the order in which they were accepted, and each one that
started runs in a thread or is done. -/
structure Recorded (s : ThreadPool J) : Prop where
  queue : s.accepted = s.started ++ s.jobs
  places : s.started.Perm (runningJobs s.workers ++ s.completed)

theorem recorded_new (cfg : PoolSizes) : Recorded (new cfg : ThreadPool J) := by
  refine ⟨rfl, ?_⟩
  have hnone : runningJobs (new cfg : ThreadPool J).workers = [] := by
    simp [runningJobs, new, WorkerPlace.job]
  rw [hnone]
  exact List.Perm.refl _

/-- A thread that runs no job, before and after. -/
theorem runningJobs_idle {workers : List (Worker J)} {i : Nat} {p q : WorkerPlace J}
    (hp : placeAt workers i = some p) (h1 : p.job = none) (h2 : q.job = none) :
    (runningJobs (setPlace workers i q)).Perm (runningJobs workers) := by
  simpa [h1, h2] using runningJobs_setPlace hp q

theorem runningJobs_takes {workers : List (Worker J)} {i : Nat} {p : WorkerPlace J}
    (hp : placeAt workers i = some p) (h : p.job = none) (fn : J) :
    (runningJobs (setPlace workers i (.running fn))).Perm (fn :: runningJobs workers) := by
  have hrun := runningJobs_setPlace hp (.running fn)
  rw [h] at hrun
  exact hrun

theorem runningJobs_completes {workers : List (Worker J)} {i : Nat} {fn : J}
    (hp : placeAt workers i = some (.running fn)) :
    (fn :: runningJobs (setPlace workers i .locking)).Perm (runningJobs workers) :=
  runningJobs_setPlace hp .locking

theorem job_comes {p : WorkerPlace J} (h : p.comes = true) : p.job = none := by
  cases p <;> simp [WorkerPlace.comes, WorkerPlace.job] at h ⊢

theorem recorded_moves {cfg : PoolSizes} {s s' : ThreadPool J} {a : Action J} (h : Recorded s)
    (hm : Moves cfg s a s') : Recorded s' := by
  obtain ⟨hqueue, hplaces⟩ := h
  have hidle : ∀ {i p q}, placeAt s.workers i = some p → p.job = none → q.job = none →
      s.started.Perm (runningJobs (setPlace s.workers i q) ++ s.completed) :=
    fun hp h1 h2 => hplaces.trans ((runningJobs_idle hp h1 h2).symm.append_right _)
  cases hm with
  | stays | closes | notifiesNobody | joins | collects | joinsDynamic | returns =>
    exact ⟨hqueue, hplaces⟩
  | accepts fn ho hs =>
    refine ⟨?_, hplaces⟩
    simp only [hqueue, List.append_assoc]
  | spawns fn ho hs hroom =>
    refine ⟨?_, ?_⟩
    · simp only [hqueue, List.append_assoc]
    · simpa [runningJobs, WorkerPlace.job] using hplaces
  | notifiesAll pick ho =>
    refine ⟨hqueue, ?_⟩
    have hsame : runningJobs s.notifyAll.workers = runningJobs s.workers := by
      unfold runningJobs notifyAll
      rw [List.filterMap_map]
      congr 1
      funext ⟨d, p⟩
      cases p <;> rfl
    rw [hsame]
    exact hplaces
  | notifies pick i ho hi => exact ⟨hqueue, hidle hi rfl rfl⟩
  | wakes i hi => exact ⟨hqueue, hidle hi rfl rfl⟩
  | timesOut i hi =>
    have hp : placeAt s.workers i = some .waiting := by
      unfold placeAt
      rw [hi]
      rfl
    exact ⟨hqueue, hidle hp rfl rfl⟩
  | takes i p fn jobs hp hcomes hj =>
    refine ⟨?_, ?_⟩
    · simp only [hqueue, hj, List.append_assoc, List.singleton_append]
    · have hrun := runningJobs_takes hp (job_comes hcomes) fn
      have hlast := List.perm_append_singleton fn (runningJobs s.workers ++ s.completed)
      exact (hplaces.append_right [fn]).trans (hlast.trans (hrun.symm.append_right _))
  | leaves i p hp hcomes hj hs => exact ⟨hqueue, hidle hp (job_comes hcomes) rfl⟩
  | waits i p hp hcomes hj hs => exact ⟨hqueue, hidle hp (job_comes hcomes) rfl⟩
  | expires i hp hj hs =>
    have hsame : (s.moveToFinished i).accepted = s.accepted ∧
        (s.moveToFinished i).started = s.started ∧ (s.moveToFinished i).jobs = s.jobs ∧
        (s.moveToFinished i).completed = s.completed := by
      unfold moveToFinished
      split <;> exact ⟨rfl, rfl, rfl, rfl⟩
    obtain ⟨h1, h2, h3, h4⟩ := hsame
    refine ⟨?_, ?_⟩
    · simp only [h1, h2, h3]
      exact hqueue
    · simp only [h2, h4]
      exact hidle hp rfl rfl
  | completes i fn hp =>
    refine ⟨hqueue, ?_⟩
    have hrun := (runningJobs_completes hp).append_right s.completed
    have hlast := List.perm_append_singleton fn
      (runningJobs (setPlace s.workers i .locking) ++ s.completed)
    rw [List.append_assoc] at hlast
    exact hplaces.trans (hrun.symm.trans hlast.symm)

theorem recorded_run (cfg : PoolSizes) (as : List (Action J)) :
    Recorded ((threadPool J cfg).run as) :=
  invariant _ Recorded (recorded_new cfg) (fun s a h => recorded_moves h (step_moves cfg s a)) as

/-! ## The threads -/

/-- The threads that the listening thread will have joined in the end. -/
def awaited (cfg : PoolSizes) (s : ThreadPool J) : List Nat :=
  match s.owner with
  | .listening | .notifying | .notifyingAll => List.range cfg.base_thread_count ++ s.dynamic_threads
  | .joining threads => threads ++ s.dynamic_threads
  | .joiningDynamic remaining => remaining
  | .returned => []

/-- There are never more threads than the maximum, each one that still runs
will be joined, and a base thread leaves only a closed pool without jobs. -/
structure Rostered (cfg : PoolSizes) (s : ThreadPool J) : Prop where
  room : cfg.base_thread_count + s.dynamic_threads.length ≤ cfg.max_thread_count
  roster : s.owner.closing = false →
    threadsAt WorkerPlace.alive s.workers ≤ cfg.base_thread_count + s.dynamic_threads.length
  threads : threadsAt WorkerPlace.alive s.workers ≤ cfg.max_thread_count
  awaits : ∀ i p, placeAt s.workers i = some p → p.alive = true → i ∈ s.awaited cfg
  finished : ∀ i ∈ s.finished_threads, placeAt s.workers i = some .ended
  base : ∀ i < cfg.base_thread_count, ∃ p, s.workers[i]? = some ⟨false, p⟩ ∧ p ≠ .timedOut ∧
    (p = .ended → s.owner.closing = true ∧ s.jobs = [])

theorem rostered_new (cfg : PoolSizes) : Rostered cfg (new cfg : ThreadPool J) := by
  have hall : threadsAt WorkerPlace.alive (new cfg : ThreadPool J).workers =
      cfg.base_thread_count := by
    unfold threadsAt new
    rw [List.countP_replicate]
    rfl
  refine ⟨cfg.base_le_max, fun _ => ?_, ?_, ?_, ?_, ?_⟩
  · rw [hall]
    exact Nat.le_add_right _ _
  · rw [hall]
    exact cfg.base_le_max
  · intro i p hp _
    have hlt : i < cfg.base_thread_count := by
      by_contra hge
      simp [placeAt, new, hge] at hp
    simp [awaited, new, hlt]
  · intro i hi
    cases hi
  · intro i hi
    refine ⟨.locking, ?_, by simp, by simp⟩
    simp [new, hi]

/-- One thread moves on from a place that is not the end. -/
theorem Rostered.moved {cfg : PoolSizes} {s s' : ThreadPool J} (h : Rostered cfg s) {i : Nat}
    {p q : WorkerPlace J} (hp : placeAt s.workers i = some p) (halive : p.alive = true)
    (hworkers : s'.workers = setPlace s.workers i q) (howner : s'.owner = s.owner)
    (hdynamic : s'.dynamic_threads = s.dynamic_threads)
    (hfinished : s'.finished_threads = s.finished_threads) (hjobs : s.jobs = [] → s'.jobs = [])
    (hbase : s.workers[i]? = some ⟨false, p⟩ → p ≠ .timedOut →
      q ≠ .timedOut ∧ (q = .ended → s.owner.closing = true ∧ s'.jobs = [])) : Rostered cfg s' := by
  have hcount := threadsAt_setPlace WorkerPlace.alive hp q
  rw [if_pos halive] at hcount
  have hle : threadsAt WorkerPlace.alive (setPlace s.workers i q) ≤
      threadsAt WorkerPlace.alive s.workers := by
    split at hcount <;> omega
  have hawaited : s'.awaited cfg = s.awaited cfg := by
    unfold awaited
    rw [howner, hdynamic]
  refine ⟨?_, ?_, ?_, ?_, ?_, ?_⟩
  · rw [hdynamic]
    exact h.room
  · rw [howner, hdynamic, hworkers]
    exact fun ho => hle.trans (h.roster ho)
  · rw [hworkers]
    exact hle.trans h.threads
  · intro j r hj hr
    rw [hworkers, placeAt_setPlace hp] at hj
    rw [hawaited]
    by_cases hij : i = j
    · exact hij ▸ h.awaits i p hp halive
    · rw [if_neg hij] at hj
      exact h.awaits j r hj hr
  · intro j hj
    rw [hfinished] at hj
    have hended := h.finished j hj
    rw [hworkers, placeAt_setPlace hp, if_neg, hended]
    rintro rfl
    rw [hp, Option.some.injEq] at hended
    rw [hended] at halive
    cases halive
  · intro j hj
    obtain ⟨r, hr, htimed, hended⟩ := h.base j hj
    rw [hworkers, getElem?_setPlace, hr, howner]
    by_cases hij : i = j
    · subst hij
      have hrp : r = p := by
        unfold placeAt at hp
        rw [hr] at hp
        exact Option.some.inj hp
      subst hrp
      obtain ⟨hq1, hq2⟩ := hbase hr htimed
      exact ⟨q, by simp, hq1, hq2⟩
    · exact ⟨r, by simp [hij], htimed, fun hre => ⟨(hended hre).1, hjobs (hended hre).2⟩⟩

/-- Only the listening thread moves on. -/
theorem Rostered.setOwner {cfg : PoolSizes} {s : ThreadPool J} (h : Rostered cfg s) (o : OwnerPlace)
    (hclosing : s.owner.closing = false ∨ s.owner.closing = true ∧ o.closing = true)
    (hawaits : ∀ i p, placeAt s.workers i = some p → p.alive = true →
      i ∈ ({ s with owner := o } : ThreadPool J).awaited cfg) :
    Rostered cfg { s with owner := o } := by
  refine ⟨h.room, fun ho => h.roster ?_, h.threads, hawaits, h.finished, ?_⟩
  · rcases hclosing with hopen | ⟨_, hclosed⟩
    · exact hopen
    · simp [hclosed] at ho
  · intro i hi
    obtain ⟨p, hp, htimed, hended⟩ := h.base i hi
    refine ⟨p, hp, htimed, fun hpe => ⟨?_, (hended hpe).2⟩⟩
    rcases hclosing with hopen | ⟨_, hclosed⟩
    · simp [hopen] at hended
      exact absurd hpe hended
    · exact hclosed

/-- A joined thread is not waited for any more. -/
theorem joined_ne {s : ThreadPool J} {i j : Nat} {p : WorkerPlace J}
    (hi : placeAt s.workers i = some .ended) (hj : placeAt s.workers j = some p)
    (hp : p.alive = true) : j ≠ i := by
  rintro rfl
  rw [hi, Option.some.injEq] at hj
  rw [← hj] at hp
  cases hp

theorem rostered_notifyAll {cfg : PoolSizes} {s : ThreadPool J} (h : Rostered cfg s) :
    Rostered cfg s.notifyAll := by
  have halive : ∀ p : WorkerPlace J, p.notified.alive = p.alive := fun p => by cases p <;> rfl
  have hcount : threadsAt WorkerPlace.alive s.notifyAll.workers =
      threadsAt WorkerPlace.alive s.workers := threadsAt_notified halive s.workers
  have hget : ∀ i, s.notifyAll.workers[i]? = s.workers[i]?.map Worker.notified :=
    fun i => List.getElem?_map
  have hplace : ∀ i, placeAt s.notifyAll.workers i =
      (placeAt s.workers i).map WorkerPlace.notified := by
    intro i
    unfold placeAt
    rw [hget, Option.map_map, Option.map_map]
    rfl
  refine ⟨h.room, ?_, ?_, ?_, ?_, ?_⟩
  · rw [hcount]
    exact h.roster
  · rw [hcount]
    exact h.threads
  · intro i q hq hqa
    rw [hplace, Option.map_eq_some_iff] at hq
    obtain ⟨p, hp, rfl⟩ := hq
    exact h.awaits i p hp ((halive p).symm.trans hqa)
  · intro i hi
    rw [hplace, h.finished i hi]
    rfl
  · intro i hi
    obtain ⟨p, hp, htimed, hended⟩ := h.base i hi
    refine ⟨p.notified, by rw [hget, hp]; rfl, ?_, ?_⟩
    · cases p <;> simp [WorkerPlace.notified] at htimed ⊢
    · intro hpe
      apply hended
      cases p <;> simp [WorkerPlace.notified] at hpe ⊢

theorem rostered_expires {cfg : PoolSizes} {s : ThreadPool J} (h : Rostered cfg s) {i : Nat}
    (hp : placeAt s.workers i = some .timedOut) (idle : Int) :
    Rostered cfg { s.moveToFinished i with
      idle_thread_count := idle
      workers := setPlace s.workers i .ended } := by
  have hcount : threadsAt WorkerPlace.alive (setPlace s.workers i .ended) + 1 =
      threadsAt WorkerPlace.alive s.workers := threadsAt_setPlace WorkerPlace.alive hp .ended
  have hplace := placeAt_setPlace hp .ended
  have hsame : s.moveToFinished i = { s with
      dynamic_threads := s.dynamic_threads.erase i
      finished_threads := (s.moveToFinished i).finished_threads } ∧
      ∀ j ∈ (s.moveToFinished i).finished_threads, j = i ∨ j ∈ s.finished_threads := by
    unfold moveToFinished
    by_cases hi : i ∈ s.dynamic_threads
    · simp [hi, or_comm]
    · rw [if_neg hi, List.erase_of_not_mem hi]
      exact ⟨rfl, fun j hj => Or.inr hj⟩
  obtain ⟨hsame, hfinished⟩ := hsame
  rw [hsame]
  have hlen : s.dynamic_threads.length ≤ (s.dynamic_threads.erase i).length + 1 := by
    rw [List.length_erase]
    split <;> omega
  have hlen' : (s.dynamic_threads.erase i).length ≤ s.dynamic_threads.length :=
    List.length_erase_le
  refine ⟨?_, ?_, ?_, ?_, ?_, ?_⟩
  · have := h.room
    simp only
    omega
  · intro ho
    have := h.roster ho
    simp only
    omega
  · have := h.threads
    simp only
    omega
  · intro j p hj hpa
    rw [hplace] at hj
    by_cases hij : i = j
    · rw [if_pos hij, Option.some.injEq] at hj
      rw [← hj] at hpa
      cases hpa
    · rw [if_neg hij] at hj
      have hold := h.awaits j p hj hpa
      have hmem : j ∈ s.dynamic_threads → j ∈ s.dynamic_threads.erase i :=
        fun hd => (List.mem_erase_of_ne (Ne.symm hij)).mpr hd
      unfold awaited at hold ⊢
      cases ho : s.owner <;> simp only [ho, List.mem_append] at hold ⊢
      · exact hold.imp id hmem
      · exact hold.imp id hmem
      · exact hold.imp id hmem
      · exact hold.imp id hmem
      · exact hold
      · exact hold
  · intro j hj
    rw [hplace]
    rcases hfinished j hj with rfl | hold
    · simp
    · by_cases hij : i = j
      · simp [hij]
      · rw [if_neg hij]
        exact h.finished j hold
  · intro j hj
    obtain ⟨p, hpj, htimed, hended⟩ := h.base j hj
    have hij : i ≠ j := by
      rintro rfl
      unfold placeAt at hp
      rw [hpj] at hp
      exact htimed (Option.some.inj hp)
    refine ⟨p, ?_, htimed, hended⟩
    rw [getElem?_setPlace, if_neg hij, hpj]

theorem rostered_moves {cfg : PoolSizes} {s s' : ThreadPool J} {a : Action J} (h : Rostered cfg s)
    (hatt : Attended s) (hm : Moves cfg s a s') : Rostered cfg s' := by
  have hcomes : ∀ {p : WorkerPlace J}, p.comes = true → p.alive = true := by
    intro p hp
    cases p <;> simp [WorkerPlace.comes, WorkerPlace.alive] at hp ⊢
  cases hm with
  | stays => exact h
  | accepts fn ho hs =>
    have hlater := h.setOwner .notifying (Or.inl (by rw [ho]; rfl)) (fun i p hp ha => by
      simpa [awaited, ho] using h.awaits i p hp ha)
    refine ⟨hlater.room, hlater.roster, hlater.threads, hlater.awaits, hlater.finished, ?_⟩
    intro i hi
    obtain ⟨p, hp, htimed, hended⟩ := hlater.base i hi
    exact ⟨p, hp, htimed, fun hpe => absurd (hended hpe).1 (by simp [OwnerPlace.closing])⟩
  | spawns fn ho hs hroom =>
    have hroster := h.roster (by rw [ho]; rfl)
    have hnew : threadsAt WorkerPlace.alive (s.workers ++ [⟨true, .locking⟩]) =
        threadsAt WorkerPlace.alive s.workers + 1 := threadsAt_append _ _ _
    refine ⟨?_, ?_, ?_, ?_, ?_, ?_⟩
    · simp only [List.length_append, List.length_singleton]
      omega
    · intro _
      simp only [hnew, List.length_append, List.length_singleton]
      omega
    · rw [hnew]
      omega
    · intro i p hp ha
      have hold := h.awaits i p
      simp only [awaited, ho] at hold
      unfold placeAt at hold hp
      by_cases hi : i < s.workers.length
      · rw [List.getElem?_append_left hi] at hp
        simpa [awaited, or_assoc] using Or.inl (hold hp ha)
      · have hlast : i = s.workers.length := by
          by_contra hne
          rw [List.getElem?_eq_none (by simp; omega)] at hp
          cases hp
        simp [awaited, hlast]
    · intro i hi
      cases hi
    · intro i hi
      obtain ⟨p, hp, htimed, hended⟩ := h.base i hi
      refine ⟨p, ?_, htimed, fun hpe => ?_⟩
      · rw [List.getElem?_append_left (List.getElem?_eq_some_iff.mp hp).1]
        exact hp
      · exact absurd (hended hpe).1 (by simp [ho, OwnerPlace.closing])
  | closes ho =>
    have hlater := h.setOwner .notifyingAll (Or.inl (by rw [ho]; rfl)) (fun i p hp ha => by
      simpa [awaited, ho] using h.awaits i p hp ha)
    exact ⟨hlater.room, hlater.roster, hlater.threads, hlater.awaits, hlater.finished,
      hlater.base⟩
  | notifies pick i ho hi =>
    have hmoved : Rostered cfg { s with workers := setPlace s.workers i .woken } :=
      h.moved hi rfl rfl rfl rfl rfl id (by simp)
    exact hmoved.setOwner .listening (Or.inl (by rw [ho]; rfl)) (fun j p hp ha => by
      simpa [awaited, ho] using hmoved.awaits j p hp ha)
  | notifiesNobody pick ho hnone =>
    exact h.setOwner .listening (Or.inl (by rw [ho]; rfl)) (fun j p hp ha => by
      simpa [awaited, ho] using h.awaits j p hp ha)
  | notifiesAll pick ho =>
    have hall := rostered_notifyAll h
    exact hall.setOwner _ (Or.inr ⟨by rw [notifyAll, ho]; rfl, rfl⟩) (fun j p hp ha => by
      have hj := hall.awaits j p hp ha
      simp only [awaited, notifyAll, ho] at hj
      exact hj)
  | joins pick i threads ho hi =>
    refine h.setOwner _ (Or.inr ⟨by rw [ho]; rfl, rfl⟩) (fun j p hp ha => ?_)
    have hj := h.awaits j p hp ha
    have hne := joined_ne hi hp ha
    simpa [awaited, ho, hne] using hj
  | collects pick ho =>
    have hlater : Rostered cfg { s with owner := .joiningDynamic s.dynamic_threads } :=
      h.setOwner _ (Or.inr ⟨by rw [ho]; rfl, rfl⟩) (fun j p hp ha => by
        simpa [awaited, ho] using h.awaits j p hp ha)
    exact ⟨cfg.base_le_max, fun hc => (by cases hc), hlater.threads, hlater.awaits, hlater.finished,
      hlater.base⟩
  | joinsDynamic pick i remaining ho hi =>
    refine h.setOwner _ (Or.inr ⟨by rw [ho]; rfl, rfl⟩) (fun j p hp ha => ?_)
    have hj := h.awaits j p hp ha
    have hne := joined_ne hi hp ha
    simpa [awaited, ho, hne] using hj
  | returns pick ho =>
    have hlater : Rostered cfg { s with owner := .returned } :=
      h.setOwner _ (Or.inr ⟨by rw [ho]; rfl, rfl⟩) (fun j p hp ha => by
        simpa [awaited, ho] using h.awaits j p hp ha)
    exact ⟨hlater.room, hlater.roster, hlater.threads, hlater.awaits, fun i hi => (by cases hi),
      hlater.base⟩
  | wakes i hi => exact h.moved hi rfl rfl rfl rfl rfl id (by simp)
  | timesOut i hi =>
    have hp : placeAt s.workers i = some .waiting := by
      unfold placeAt
      rw [hi]
      rfl
    exact h.moved hp rfl rfl rfl rfl rfl id (by simp [hi])
  | takes i p fn jobs hp hc hj =>
    exact h.moved hp (hcomes hc) rfl rfl rfl rfl (by simp [hj]) (by simp)
  | leaves i p hp hc hj hs =>
    exact h.moved hp (hcomes hc) rfl rfl rfl rfl id
      (fun _ _ => ⟨by simp, fun _ => ⟨hatt.closing.symm.trans hs, hj⟩⟩)
  | waits i p hp hc hj hs => exact h.moved hp (hcomes hc) rfl rfl rfl rfl id (by simp)
  | expires i hp hj hs => exact rostered_expires h hp _
  | completes i fn hp => exact h.moved hp rfl rfl rfl rfl rfl id (by simp)

theorem rostered_run (cfg : PoolSizes) (as : List (Action J)) :
    Rostered cfg ((threadPool J cfg).run as) :=
  invariant_under _ Attended (Rostered cfg) (attended_run cfg) (rostered_new cfg)
    (fun s a hatt h => rostered_moves h hatt (step_moves cfg s a)) as

/-- Behind `shutdown` nothing is left of the pool. -/
theorem returned_empty {cfg : PoolSizes} {s : ThreadPool J} (h : Rostered cfg s)
    (hbase : 0 < cfg.base_thread_count) (ho : s.owner = .returned) :
    (∀ i p, placeAt s.workers i = some p → p = .ended) ∧ s.jobs = [] := by
  have hall : ∀ i p, placeAt s.workers i = some p → p = .ended := by
    intro i p hp
    have hawaits := h.awaits i p hp
    cases p <;> simp [WorkerPlace.alive, awaited, ho] at hawaits ⊢
  obtain ⟨p, hp, _, hended⟩ := h.base 0 hbase
  exact ⟨hall, (hended (hall 0 p (by unfold placeAt; rw [hp]; rfl))).2⟩

theorem runningJobs_nil {workers : List (Worker J)}
    (h : ∀ i p, placeAt workers i = some p → p = .ended) : runningJobs workers = [] := by
  unfold runningJobs
  rw [List.filterMap_eq_nil_iff]
  intro w hw
  obtain ⟨i, hi⟩ := List.getElem?_of_mem hw
  rw [h i w.place (by unfold placeAt; rw [hi]; rfl)]
  rfl

/-! ## The law of the pool -/

/-- Whatever the threads do, and in any order: jobs start in the order in
which they were accepted, and each one that started runs in one thread or is
done. There are never more threads than the maximum, and
`idle_thread_count_` is the number of those in the wait. When a job waits, all
threads are busy, unless one is on its way or the listening thread is about
to wake one. No join waits with the lock held. And behind `shutdown` all
threads have ended, with every accepted job done. -/
theorem the_pool_runs_each_job_once_and_in_order (cfg : PoolSizes) (as : List (Action J)) :
    let s := (threadPool J cfg).run as
    s.accepted = s.started ++ s.jobs ∧
    s.started.Perm (runningJobs s.workers ++ s.completed) ∧
    threadsAt WorkerPlace.alive s.workers ≤ cfg.max_thread_count ∧
    s.idle_thread_count = threadsAt WorkerPlace.idles s.workers ∧
    (s.jobs ≠ [] → threadsAt WorkerPlace.comes s.workers = 0 → s.owner ≠ .notifying →
      ∀ i p, placeAt s.workers i = some p → p = .ended ∨ ∃ fn, p = .running fn) ∧
    (∀ i ∈ s.finished_threads, placeAt s.workers i = some .ended) ∧
    (0 < cfg.base_thread_count → s.owner = .returned →
      (∀ i p, placeAt s.workers i = some p → p = .ended) ∧ s.accepted.Perm s.completed) := by
  intro s
  have hrecorded : Recorded s := recorded_run cfg as
  have hattended : Attended s := attended_run cfg as
  have hrostered : Rostered cfg s := rostered_run cfg as
  refine ⟨hrecorded.queue, hrecorded.places, hrostered.threads, hattended.idle, ?_,
    hrostered.finished, ?_⟩
  · intro hjobs hcomes ho i p hp
    have hpos : 0 < s.jobs.length := List.length_pos_of_ne_nil hjobs
    have hready := hattended.ready
    rw [if_neg ho] at hready
    have hasleep : threadsAt WorkerPlace.asleep s.workers = 0 := by omega
    have hnone : ∀ f : WorkerPlace J → Bool, threadsAt f s.workers = 0 → f p = false := by
      intro f hf
      by_contra hfp
      have := threadsAt_pos_iff.mpr ⟨i, p, hp, by simpa using hfp⟩
      omega
    have h1 := hnone _ hcomes
    have h2 := hnone _ hasleep
    cases p <;> simp [WorkerPlace.comes, WorkerPlace.asleep] at h1 h2 ⊢
  · intro hbase ho
    obtain ⟨hall, hjobs⟩ := returned_empty hrostered hbase ho
    refine ⟨hall, ?_⟩
    have hplaces := hrecorded.places
    rw [runningJobs_nil hall, List.nil_append] at hplaces
    rw [hrecorded.queue, hjobs, List.append_nil]
    exact hplaces

end ThreadPool

end httplib

end inference_server
