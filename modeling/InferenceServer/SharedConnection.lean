-- Threads that call `allow` at once. `mutex_` guards only the buckets of this
-- process. All threads read and write the one `redis_` and exchange commands
-- and replies over its one connection, with no lock around them.
import InferenceServer.Lib.Exchange
import InferenceServer.RateLimiter

namespace inference_server

open machine exchange

/-! ## The threads -/

/-- The argument of one call of `allow`, with the two clocks as it reads
them. -/
structure AllowCall where
  tenant_id : Bytes
  system_clock : ℚ
  steady_clock : ℚ

/-- Where a thread stands in `allow`. `argued` has read `redis_` once more, as
the argument of `redisCommand`, and found it set or not. -/
inductive AllowStage where
  | idle
  | checked (c : AllowCall)
  | argued (c : AllowCall) (context : Bool)
  | sent (c : AllowCall)
  | failed (c : AllowCall)
  | freed (c : AllowCall)
  | inProcess (c : AllowCall)

namespace AllowStage

def isIdle : AllowStage → Bool
  | .idle => true
  | _ => false

/-- Inside `redisCommand`, behind the send. -/
def waits : AllowStage → Bool
  | .sent _ => true
  | _ => false

/-- The receive failed, and `redis_` is not cleared yet. -/
def closes : AllowStage → Bool
  | .failed _ | .freed _ => true
  | _ => false

/-- The next instruction clears `redis_` and returns. -/
def clears : AllowStage → Bool
  | .freed _ => true
  | _ => false

end AllowStage

/-- What one `EVAL` carries besides the limits. -/
structure EvalCommand where
  key : Bytes
  now_ms : Int

/-- A call of `allow_redis` that returned: the reply that it took, with the
thread that the reply was made for, what Redis had made of its own command by
then, and what it returned. -/
structure AllowAnswer (ι : Type*) where
  thread : ι
  call : AllowCall
  reply : Option (ι × Reply)
  decided : Option Reply
  allowed : Bool

/-- `reply->type == REDIS_REPLY_INTEGER && reply->integer == 1`. -/
def Reply.allows : Reply → Bool
  | .integer i => decide (i = 1)
  | _ => false

/-- The limiter with its threads. `redis` tells whether `redis_` is set and
`closed` whether `redisFree` has run on what it points to. The last three
fields only record: what Redis made of the last command of each thread, the
calls of `allow_redis` that returned, and whether a thread has sent on or
closed a connection that had been closed. -/
structure SharedRedis (ι : Type*) where
  redis : Bool
  closed : Bool
  buckets : Buckets
  db : Db
  exchange : Exchange ι EvalCommand Reply
  threads : ι → AllowStage
  decided : ι → Option Reply
  answers : List (AllowAnswer ι)
  misused : Bool

namespace SharedRedis

variable {ι : Type*} [DecidableEq ι]

/-- The limiter that the constructor leaves, before the first call. -/
def start (ι : Type*) (connected : Bool) (db : Db) : SharedRedis ι where
  redis := connected
  closed := false
  buckets := fun _ => none
  db := db
  exchange := .empty
  threads := fun _ => .idle
  decided := fun _ => none
  answers := []
  misused := false

def setThread (s : SharedRedis ι) (i : ι) (stage : AllowStage) : SharedRedis ι :=
  { s with threads := Function.update s.threads i stage }

/-- `redisFree(redis_)`, which does nothing on a null pointer. -/
def redisFree (s : SharedRedis ι) : SharedRedis ι :=
  if s.redis then { s with closed := true, misused := s.misused || s.closed } else s

def sendEval (s : SharedRedis ι) (i : ι) (c : AllowCall) : SharedRedis ι :=
  { s.setThread i (.sent c) with
    exchange := s.exchange.send i ⟨redisKey c.tenant_id, nowMs c.system_clock⟩
    decided := Function.update s.decided i none }

/-- The next instruction of thread `i`, up to the next access to something
that is shared. A receive is an action of its own. -/
def go (cfg : Limits) (s : SharedRedis ι) (i : ι) : SharedRedis ι :=
  match s.threads i with
  | .idle => s
  | .checked c => s.setThread i (.argued c s.redis)
  | .argued c context =>
    if context && !s.closed then s.sendEval i c
    else { s.setThread i (.sent c) with misused := true }
  | .sent _ => s
  | .failed c => s.redisFree.setThread i (.freed c)
  | .freed c =>
    { s.setThread i .idle with
      redis := false
      answers := s.answers ++ [⟨i, c, none, s.decided i, true⟩] }
  | .inProcess c =>
    -- `mutex_` is held from the first access to the return
    { s.setThread i .idle with
      buckets := (cfg.allowLocal s.buckets c.tenant_id c.steady_clock).2 }

/-- The test of `redis_` in `allow`. -/
def enter (s : SharedRedis ι) (i : ι) (c : AllowCall) : SharedRedis ι :=
  match s.threads i with
  | .idle => s.setThread i (if s.redis then .checked c else .inProcess c)
  | _ => s

/-- Redis answers the oldest command. A reply that gets lost shows as a
receive that fails. -/
def serve (cfg : Limits) (s : SharedRedis ι) (o : Outcome) : SharedRedis ι :=
  match s.exchange.requests with
  | [] => s
  | (i, q) :: _ =>
    match redisCommand s.db q.key (formatF cfg.rate_rps) cfg.burst q.now_ms o with
    | (none, _) => s
    | (some reply, db) =>
      { s with
        db := db
        exchange := s.exchange.serve reply
        decided := Function.update s.decided i (some reply) }

/-- Thread `i` gets the next reply of the connection, if there is one. -/
def receive (s : SharedRedis ι) (i : ι) : SharedRedis ι :=
  match s.threads i with
  | .sent c =>
    if s.closed then s
    else
      match s.exchange.take i with
      | none => s
      | some (reply, x) =>
        { s.setThread i .idle with
          exchange := x
          answers := s.answers ++ [⟨i, c, some reply, s.decided i, reply.2.allows⟩] }
  | _ => s

/-- The `redisCommand` of thread `i` returns no reply. -/
def receiveFails (s : SharedRedis ι) (i : ι) : SharedRedis ι :=
  match s.threads i with
  | .sent c => s.setThread i (.failed c)
  | _ => s

inductive Action (ι : Type*) where
  | enter (i : ι) (c : AllowCall)
  | go (i : ι)
  | serve (o : Outcome)
  | receive (i : ι)
  | receiveFails (i : ι)

def step (cfg : Limits) (s : SharedRedis ι) : Action ι → SharedRedis ι
  | .enter i c => s.enter i c
  | .go i => s.go cfg i
  | .serve o => s.serve cfg o
  | .receive i => s.receive i
  | .receiveFails i => s.receiveFails i

end SharedRedis

/-- Any number of threads over one limiter, as a machine. -/
def sharedRedis (cfg : Limits) (ι : Type*) [DecidableEq ι] (connected : Bool) (db : Db) :
    Machine (SharedRedis ι) (SharedRedis.Action ι) :=
  { init := .start ι connected db, step := SharedRedis.step cfg }

/-! ## What is promised, and when it holds -/

/-- The reply is a decision of the script, and the script denies. -/
def denies : Option Reply → Bool
  | some (.integer i) => !(Reply.integer i).allows
  | _ => false

/-- The call took no reply but the one to its own command, and it returned
what the script decided on that command. -/
structure AllowAnswer.Right {ι : Type*} (a : AllowAnswer ι) : Prop where
  own : ∀ p, a.reply = some p → p.1 = a.thread ∧ a.decided = some p.2
  decision : ∀ i, a.decided = some (.integer i) → a.allowed = (Reply.integer i).allows

namespace SharedRedis

variable {ι : Type*}

/-- No call returned another decision than its own, and no thread sent on or
closed a connection that had been closed. -/
structure Unmixed (s : SharedRedis ι) : Prop where
  answers : ∀ a ∈ s.answers, a.Right
  used : s.misused = false

variable [DecidableEq ι]

/-- The step keeps the connection to one call at a time where it matters: a
reply is taken by the thread that has waited longest, a receive fails only
while nobody else is inside `allow`, and nobody enters while `redis_` is about
to be cleared. A call that is let through without a reply was not denied. -/
def InTurn (s : SharedRedis ι) : Action ι → Prop
  | .enter i _ => (s.threads i).isIdle → ∀ j, (s.threads j).closes = false
  | .go i => (s.threads i).clears → denies (s.decided i) = false
  | .serve _ => True
  | .receive i => (s.threads i).waits → s.exchange.replies.isEmpty = false →
      s.exchange.waiting.head? = some i
  | .receiveFails i => (s.threads i).waits → ∀ j ≠ i, (s.threads j).isIdle

instance [Fintype ι] (s : SharedRedis ι) (a : Action ι) : Decidable (s.InTurn a) := by
  cases a <;> unfold InTurn <;> infer_instance

/-! ## The three modes of the limiter -/

end SharedRedis

namespace AllowStage

/-- The stages while the connection is in use. -/
def onRedis : AllowStage → Bool
  | .idle | .checked _ | .argued _ true | .sent _ => true
  | _ => false

/-- The stages when there is no connection. -/
def offRedis : AllowStage → Bool
  | .idle | .inProcess _ => true
  | _ => false

variable {stage : AllowStage}

theorem eq_idle (h : stage.isIdle = true) : stage = .idle := by
  cases stage <;> first | rfl | cases h

theorem sent_of_waits (h : stage.waits = true) : ∃ c, stage = .sent c := by
  cases stage <;> first | exact ⟨_, rfl⟩ | cases h

theorem freed_of_clears (h : stage.clears = true) : ∃ c, stage = .freed c := by
  cases stage <;> first | exact ⟨_, rfl⟩ | cases h

theorem onRedis_cases (h : stage.onRedis = true) :
    stage = .idle ∨ (∃ c, stage = .checked c) ∨ (∃ c, stage = .argued c true) ∨
      ∃ c, stage = .sent c := by
  cases stage with
  | idle => exact Or.inl rfl
  | checked c => exact Or.inr (Or.inl ⟨c, rfl⟩)
  | argued c context =>
    cases context with
    | true => exact Or.inr (Or.inr (Or.inl ⟨c, rfl⟩))
    | false => cases h
  | sent c => exact Or.inr (Or.inr (Or.inr ⟨c, rfl⟩))
  | failed | freed | inProcess => cases h

theorem offRedis_cases (h : stage.offRedis = true) :
    stage = .idle ∨ ∃ c, stage = .inProcess c := by
  cases stage with
  | idle => exact Or.inl rfl
  | inProcess c => exact Or.inr ⟨c, rfl⟩
  | checked | argued | sent | failed | freed => cases h

theorem not_closes (h : stage.onRedis = true ∨ stage.offRedis = true) : stage.closes = false := by
  rcases h with h | h
  · rcases onRedis_cases h with rfl | ⟨c, rfl⟩ | ⟨c, rfl⟩ | ⟨c, rfl⟩ <;> rfl
  · rcases offRedis_cases h with rfl | ⟨c, rfl⟩ <;> rfl

end AllowStage

namespace SharedRedis

variable {ι : Type*}

/-- The connection is open, and each reply on it finds its call. -/
structure InOrder (s : SharedRedis ι) : Prop where
  redis : s.redis = true
  opened : s.closed = false
  stages : ∀ i, (s.threads i).onRedis = true
  matched : s.exchange.Matched s.decided
  waits : ∀ i, i ∈ s.exchange.waiting ↔ (s.threads i).waits = true

/-- Thread `i` closes the connection, alone. -/
structure Closing (s : SharedRedis ι) (i : ι) : Prop where
  redis : s.redis = true
  others : ∀ j ≠ i, (s.threads j).isIdle = true
  stage : (∃ c, s.threads i = .failed c ∧ s.closed = false) ∨
    ∃ c, s.threads i = .freed c ∧ s.closed = true

/-- There is no connection, and nobody acts on one. -/
structure OffRedis (s : SharedRedis ι) : Prop where
  redis : s.redis = false
  stages : ∀ i, (s.threads i).offRedis = true

def Orderly (s : SharedRedis ι) : Prop := s.InOrder ∨ (∃ i, s.Closing i) ∨ s.OffRedis

variable [DecidableEq ι]

theorem setThread_threads (s : SharedRedis ι) (i j : ι) (stage : AllowStage) :
    (s.setThread i stage).threads j = if j = i then stage else s.threads j := by
  simp only [setThread, Function.update_apply]

/-- What holds of the stage of each thread, after one thread moved. -/
theorem forall_setThread {p : AllowStage → Bool} {s : SharedRedis ι}
    (h : ∀ j, p (s.threads j) = true) {i : ι} {stage : AllowStage} (hi : p stage = true) (j : ι) :
    p ((s.setThread i stage).threads j) = true := by
  rw [setThread_threads]
  split
  · exact hi
  · exact h j

theorem InOrder.setThread {s : SharedRedis ι} (h : InOrder s) {i : ι} {stage : AllowStage}
    (hr : stage.onRedis = true) (hw : stage.waits = (s.threads i).waits) :
    InOrder (s.setThread i stage) := by
  refine ⟨h.redis, h.opened, forall_setThread h.stages hr, h.matched, fun j => ?_⟩
  rw [setThread_threads]
  split
  · rename_i hj
    rw [hw, ← hj]
    exact h.waits j
  · exact h.waits j

theorem InOrder.sendEval {s : SharedRedis ι} (h : InOrder s) {i : ι}
    (hi : (s.threads i).waits = false) (c : AllowCall) : InOrder (s.sendEval i c) := by
  have hnew : i ∉ s.exchange.waiting := by
    rw [h.waits i, hi]
    exact Bool.false_ne_true
  refine ⟨h.redis, h.opened, forall_setThread h.stages rfl, h.matched.send hnew _, fun j => ?_⟩
  show j ∈ s.exchange.waiting ++ [i] ↔ ((s.setThread i (.sent c)).threads j).waits = true
  rw [setThread_threads, List.mem_append, h.waits j, List.mem_singleton]
  by_cases hj : j = i
  · simp [hj, AllowStage.waits]
  · simp [hj]

/-! ## One step -/

theorem orderly_enter {s : SharedRedis ι} (h : Orderly s) (i : ι) (c : AllowCall)
    (hturn : s.InTurn (.enter i c)) : Orderly (s.enter i c) := by
  unfold enter
  split
  · rename_i hidle
    rcases h with h | ⟨k, h⟩ | h
    · rw [h.redis]
      exact Or.inl (h.setThread rfl (by rw [hidle]; rfl))
    · have hk := hturn (by rw [hidle]; rfl) k
      rcases h.stage with ⟨_, hs, _⟩ | ⟨_, hs, _⟩
      · rw [hs] at hk
        cases hk
      · rw [hs] at hk
        cases hk
    · rw [h.redis]
      exact Or.inr (Or.inr ⟨h.redis, forall_setThread h.stages rfl⟩)
  · exact h

theorem orderly_serve (cfg : Limits) {s : SharedRedis ι} (h : Orderly s) (o : Outcome) :
    Orderly (s.serve cfg o) := by
  unfold serve
  split
  · exact h
  · rename_i i q rest hrequests
    split
    · exact h
    · rename_i reply db _
      rcases h with h | ⟨k, h⟩ | h
      · refine Or.inl ⟨h.redis, h.opened, h.stages, h.matched.serve hrequests reply, fun j => ?_⟩
        have hwaiting : (s.exchange.serve reply).waiting = s.exchange.waiting := by
          simp [Exchange.serve, hrequests]
        rw [hwaiting]
        exact h.waits j
      · exact Or.inr (Or.inl ⟨k, h.redis, h.others, h.stage⟩)
      · exact Or.inr (Or.inr ⟨h.redis, h.stages⟩)

/-- While the connection is open, each instruction leaves it so. -/
theorem InOrder.go (cfg : Limits) {s : SharedRedis ι} (h : InOrder s) (hu : Unmixed s) (i : ι) :
    InOrder (s.go cfg i) ∧ Unmixed (s.go cfg i) := by
  unfold SharedRedis.go
  rcases AllowStage.onRedis_cases (h.stages i) with hs | ⟨c, hs⟩ | ⟨c, hs⟩ | ⟨c, hs⟩
  · rw [hs]
    exact ⟨h, hu⟩
  · simp only [hs, h.redis]
    exact ⟨h.setThread rfl (by rw [hs]; rfl), hu.answers, hu.used⟩
  · simp only [hs, h.opened, Bool.not_false, Bool.and_self, if_true]
    exact ⟨h.sendEval (by rw [hs]; rfl) c, hu.answers, hu.used⟩
  · rw [hs]
    exact ⟨h, hu⟩

/-- A thread that closes the connection alone frees it once, and then nobody
holds it. -/
theorem Closing.go (cfg : Limits) {s : SharedRedis ι} {k : ι} (h : Closing s k) (hu : Unmixed s)
    (i : ι) (hturn : s.InTurn (.go i)) : Orderly (s.go cfg i) ∧ Unmixed (s.go cfg i) := by
  by_cases hik : i = k
  · subst hik
    rcases h.stage with ⟨c, hs, hopen⟩ | ⟨c, hs, hclosed⟩
    · have hgo : s.go cfg i = { s.setThread i (.freed c) with closed := true } := by
        simp [SharedRedis.go, hs, redisFree, h.redis, hu.used, hopen, SharedRedis.setThread]
      rw [hgo]
      refine ⟨Or.inr (Or.inl ⟨i, h.redis, fun j hj => ?_, Or.inr ⟨c, ?_, rfl⟩⟩),
        hu.answers, hu.used⟩
      · show ((s.setThread i (.freed c)).threads j).isIdle = true
        rw [setThread_threads, if_neg hj]
        exact h.others j hj
      · show (s.setThread i (.freed c)).threads i = .freed c
        rw [setThread_threads, if_pos rfl]
    · have hdenies : denies (s.decided i) = false := hturn (by rw [hs]; rfl)
      unfold SharedRedis.go
      rw [hs]
      refine ⟨Or.inr (Or.inr ⟨rfl, fun j => ?_⟩), ?_, hu.used⟩
      · show ((s.setThread i .idle).threads j).offRedis = true
        rw [setThread_threads]
        split
        · rfl
        · rename_i hj
          rw [AllowStage.eq_idle (h.others j hj)]
          rfl
      · intro a ha
        rcases List.mem_append.mp ha with ha | ha
        · exact hu.answers a ha
        · obtain rfl := List.mem_singleton.mp ha
          refine ⟨by simp, fun d hd => ?_⟩
          simp only at hd
          rw [hd] at hdenies
          simpa [denies] using hdenies.symm
  · have hidle : s.go cfg i = s := by
      unfold SharedRedis.go
      rw [AllowStage.eq_idle (h.others i hik)]
    rw [hidle]
    exact ⟨Or.inr (Or.inl ⟨k, h⟩), hu⟩

theorem OffRedis.go (cfg : Limits) {s : SharedRedis ι} (h : OffRedis s) (hu : Unmixed s) (i : ι) :
    OffRedis (s.go cfg i) ∧ Unmixed (s.go cfg i) := by
  unfold SharedRedis.go
  rcases AllowStage.offRedis_cases (h.stages i) with hs | ⟨c, hs⟩
  · rw [hs]
    exact ⟨h, hu⟩
  · rw [hs]
    exact ⟨⟨h.redis, forall_setThread h.stages rfl⟩, hu.answers, hu.used⟩

/-- A thread that is not behind a send gets nothing. -/
theorem receive_of_not_waits {s : SharedRedis ι} {i : ι} (h : (s.threads i).waits = false) :
    s.receive i = s ∧ s.receiveFails i = s := by
  unfold receive receiveFails
  cases hs : s.threads i with
  | sent c =>
    rw [hs] at h
    cases h
  | _ => exact ⟨rfl, rfl⟩

theorem Closing.waits {s : SharedRedis ι} {k : ι} (h : Closing s k) (i : ι) :
    (s.threads i).waits = false := by
  by_cases hik : i = k
  · subst hik
    rcases h.stage with ⟨c, hs, _⟩ | ⟨c, hs, _⟩ <;> rw [hs] <;> rfl
  · rw [AllowStage.eq_idle (h.others i hik)]
    rfl

omit [DecidableEq ι] in
theorem OffRedis.waits {s : SharedRedis ι} (h : OffRedis s) (i : ι) :
    (s.threads i).waits = false := by
  rcases AllowStage.offRedis_cases (h.stages i) with hs | ⟨c, hs⟩ <;> rw [hs] <;> rfl

/-- The thread that has waited longest takes its own reply. -/
theorem InOrder.receive {s : SharedRedis ι} (h : InOrder s) (hu : Unmixed s) (i : ι)
    (hturn : s.InTurn (.receive i)) : InOrder (s.receive i) ∧ Unmixed (s.receive i) := by
  unfold SharedRedis.receive
  split
  · rename_i c hs
    rw [h.opened]
    simp only [Bool.false_eq_true, if_false]
    split
    · exact ⟨h, hu⟩
    · rename_i reply x htake
      have hsome : s.exchange.replies.isEmpty = false := by
        rw [← Bool.not_eq_true, List.isEmpty_iff]
        intro hnil
        simp [Exchange.take, hnil] at htake
      have hhead := hturn (by rw [hs]; rfl) hsome
      obtain ⟨hown, hmade, hmatched, hwaiting⟩ := h.matched.take hhead htake
      refine ⟨⟨h.redis, h.opened, forall_setThread h.stages rfl, hmatched, fun j => ?_⟩, ?_,
        hu.used⟩
      · show j ∈ x.waiting ↔ ((s.setThread i .idle).threads j).waits = true
        rw [hwaiting, setThread_threads, h.matched.nodup.mem_erase_iff, h.waits j]
        by_cases hj : j = i
        · simp [hj, AllowStage.waits]
        · simp [hj]
      · intro a ha
        rcases List.mem_append.mp ha with ha | ha
        · exact hu.answers a ha
        · obtain rfl := List.mem_singleton.mp ha
          refine ⟨?_, fun d hd => ?_⟩
          · intro p hp
            obtain rfl := Option.some.inj hp
            exact ⟨hown, hmade⟩
          · simp only [hmade, Option.some.injEq] at hd
            rw [hd]
  · exact ⟨h, hu⟩

/-- A receive that fails while nobody else is inside `allow`. -/
theorem InOrder.receiveFails {s : SharedRedis ι} (h : InOrder s) (i : ι)
    (hturn : s.InTurn (.receiveFails i)) : Orderly (s.receiveFails i) := by
  unfold SharedRedis.receiveFails
  split
  · rename_i c hs
    refine Or.inr (Or.inl ⟨i, h.redis, fun j hj => ?_, Or.inl ⟨c, ?_, h.opened⟩⟩)
    · rw [setThread_threads, if_neg hj]
      exact hturn (by rw [hs]; rfl) j hj
    · rw [setThread_threads, if_pos rfl]
  · exact Or.inl h

omit [DecidableEq ι] in
/-- The steps that return from no call and use no connection. -/
theorem unmixed_of_same {s s' : SharedRedis ι} (h : Unmixed s)
    (hs : s'.answers = s.answers ∧ s'.misused = s.misused) : Unmixed s' := by
  refine ⟨?_, hs.2.trans h.used⟩
  rw [hs.1]
  exact h.answers

theorem orderly_step (cfg : Limits) {s : SharedRedis ι} (h : Orderly s ∧ Unmixed s)
    (a : Action ι) (hturn : s.InTurn a) : Orderly (s.step cfg a) ∧ Unmixed (s.step cfg a) := by
  obtain ⟨h, hu⟩ := h
  cases a with
  | enter i c =>
    refine ⟨orderly_enter h i c hturn, ?_⟩
    apply unmixed_of_same hu
    simp only [step, enter]
    split <;> exact ⟨rfl, rfl⟩
  | go i =>
    rcases h with h | ⟨k, h⟩ | h
    · exact ⟨Or.inl (h.go cfg hu i).1, (h.go cfg hu i).2⟩
    · exact h.go cfg hu i hturn
    · exact ⟨Or.inr (Or.inr (h.go cfg hu i).1), (h.go cfg hu i).2⟩
  | serve o =>
    refine ⟨orderly_serve cfg h o, ?_⟩
    apply unmixed_of_same hu
    simp only [step, serve]
    split
    · exact ⟨rfl, rfl⟩
    · split <;> exact ⟨rfl, rfl⟩
  | receive i =>
    rcases h with h | ⟨k, h⟩ | h
    · exact ⟨Or.inl (h.receive hu i hturn).1, (h.receive hu i hturn).2⟩
    · rw [step, (receive_of_not_waits (h.waits i)).1]
      exact ⟨Or.inr (Or.inl ⟨k, h⟩), hu⟩
    · rw [step, (receive_of_not_waits (h.waits i)).1]
      exact ⟨Or.inr (Or.inr h), hu⟩
  | receiveFails i =>
    rcases h with h | ⟨k, h⟩ | h
    · refine ⟨h.receiveFails i hturn, ?_⟩
      apply unmixed_of_same hu
      simp only [step, SharedRedis.receiveFails]
      split <;> exact ⟨rfl, rfl⟩
    · rw [step, (receive_of_not_waits (h.waits i)).2]
      exact ⟨Or.inr (Or.inl ⟨k, h⟩), hu⟩
    · rw [step, (receive_of_not_waits (h.waits i)).2]
      exact ⟨Or.inr (Or.inr h), hu⟩

omit [DecidableEq ι] in
theorem orderly_start (connected : Bool) (db : Db) :
    Orderly (SharedRedis.start ι connected db) := by
  cases connected with
  | false => exact Or.inr (Or.inr ⟨rfl, fun _ => rfl⟩)
  | true =>
    exact Or.inl ⟨rfl, rfl, fun _ => rfl, Exchange.matched_empty _, fun i => by
      simp [SharedRedis.start, Exchange.empty, AllowStage.waits]⟩

/-! ## Every run -/

theorem in_turn_run (cfg : Limits) (connected : Bool) (db : Db) (as : List (Action ι))
    (has : (sharedRedis cfg ι connected db).Meets InTurn (sharedRedis cfg ι connected db).init as) :
    ((sharedRedis cfg ι connected db).run as).Orderly ∧
      ((sharedRedis cfg ι connected db).run as).Unmixed := by
  apply invariant_while (sharedRedis cfg ι connected db) InTurn (fun s => s.Orderly ∧ s.Unmixed)
  · exact ⟨orderly_start connected db, by simp [sharedRedis, start], rfl⟩
  · exact fun s a hturn h => orderly_step cfg h a hturn
  · exact has

end SharedRedis

/-- In every run that uses the connection in turn, no replies are mixed up
and nobody touches a closed connection. -/
theorem no_replies_are_mixed_up_in_turn (cfg : Limits) {ι : Type*} [DecidableEq ι]
    (connected : Bool) (db : Db) (as : List (SharedRedis.Action ι))
    (has : (sharedRedis cfg ι connected db).Meets SharedRedis.InTurn
      (sharedRedis cfg ι connected db).init as) :
    ((sharedRedis cfg ι connected db).run as).Unmixed := by
  exact (SharedRedis.in_turn_run cfg connected db as has).2

/-! Runs of two threads, at one token for each tenant. -/

namespace SharedRedis

def oneToken : Limits := { rate_rps := 0, burst := 1 }

/-- A call of `allow` up to its send. -/
def sendAs (i : Bool) (tenant_id : String) : List (Action Bool) :=
  [.enter i ⟨bytes tenant_id, 0, 0⟩, .go i, .go i]

/-- Both threads wait at once and take their replies in turn. Then Redis goes
away under the next call, and the one after it stays in this process. -/
def inTurn : List (Action Bool) :=
  sendAs false "t1" ++ sendAs true "t2" ++
    [.serve (.replied 0), .serve (.replied 0), .receive false, .receive true] ++
    sendAs true "t1" ++ [.receiveFails true, .go true, .go true] ++
    [.enter false ⟨bytes "t1", 0, 0⟩, .go false]

/-- Tenant `t1` has used its token. Its next command goes out before the one
of `t2`, whose thread takes the first reply. -/
def overtaken : List (Action Bool) :=
  sendAs false "t1" ++ [.serve (.replied 0), .receive false] ++
    sendAs false "t1" ++ sendAs true "t2" ++
    [.serve (.replied 0), .serve (.replied 0), .receive true]

end SharedRedis

theorem no_replies_are_mixed_up_in_turn_two_threads :
    ((sharedRedis SharedRedis.oneToken Bool true (fun _ => none)).run
        SharedRedis.inTurn).answers.map AllowAnswer.allowed = [true, true, true] ∧
      ((sharedRedis SharedRedis.oneToken Bool true (fun _ => none)).run
        SharedRedis.inTurn).Unmixed :=
  ⟨by decide +kernel, no_replies_are_mixed_up_in_turn _ _ _ SharedRedis.inTurn (by decide +kernel)⟩

/-- The thread of `t2` returns the denial of `t1`. -/
theorem a_reply_goes_to_another_tenant :
    ¬ ((sharedRedis SharedRedis.oneToken Bool true (fun _ => none)).run
      SharedRedis.overtaken).Unmixed := by
  intro h
  have hwrong : ∃ a ∈ ((sharedRedis SharedRedis.oneToken Bool true (fun _ => none)).run
      SharedRedis.overtaken).answers, a.call.tenant_id = bytes "t2" ∧
        a.decided = some (.integer 1) ∧ a.allowed = false := by decide +kernel
  obtain ⟨a, ha, _, hdecided, hallowed⟩ := hwrong
  rw [(h.answers a ha).decision 1 hdecided] at hallowed
  cases hallowed

/-! ## One call alone -/

namespace SharedRedis

variable {ι : Type*} [DecidableEq ι]

/-- The limiter as the other laws know it. -/
def limiter (s : SharedRedis ι) : RateLimiter :=
  { redis := s.redis, buckets := s.buckets, db := s.db }

/-- A call that nobody disturbs, by the way its command ends. -/
def alone (i : ι) (c : AllowCall) (o : Outcome) : List (Action ι) :=
  [.enter i c, .go i, .go i] ++
    match o with
    | .noReply none => [.receiveFails i, .go i, .go i]
    | .noReply (some redis_ms) => [.serve (.replied redis_ms), .receiveFails i, .go i, .go i]
    | o => [.serve o, .receive i]

/-- Instruction by instruction, one call does what `allowRedis` says. -/
theorem one_call_alone (cfg : Limits) {s : SharedRedis ι} (h : InOrder s)
    (hquiet : s.exchange = .empty) {i : ι} (hi : s.threads i = .idle) (c : AllowCall)
    (o : Outcome) :
    let s' := (alone i c o).foldl (step cfg) s
    let r := cfg.allowRedis s.limiter ⟨c.tenant_id, c.system_clock, c.steady_clock, o⟩
    s'.limiter = r.2 ∧ ∃ a, s'.answers = s.answers ++ [a] ∧ a.allowed = r.1 := by
  have hsent : [Action.enter i c, .go i, .go i].foldl (step cfg) s = s.sendEval i c := by
    simp [step, enter, go, hi, h.redis, h.opened, setThread, sendEval]
  simp only [alone, List.foldl_append, hsent]
  cases o with
  | noReply ran =>
    cases ran with
    | none =>
      simp [step, SharedRedis.receiveFails, SharedRedis.go, redisFree, sendEval,
        SharedRedis.setThread, limiter, h.redis, h.opened, Limits.allowRedis, redisCommand]
    | some redis_ms =>
      simp [step, SharedRedis.receiveFails, SharedRedis.go, redisFree, sendEval, serve,
        SharedRedis.setThread, limiter, h.redis, h.opened, Limits.allowRedis, redisCommand,
        Exchange.send, Exchange.serve, hquiet, Exchange.empty]
  | _ =>
    simp [step, SharedRedis.receive, sendEval, serve, SharedRedis.setThread, limiter, h.redis,
      h.opened, Limits.allowRedis, redisCommand, Exchange.send, Exchange.serve, Exchange.take,
      hquiet, Exchange.empty, Reply.allows]

/-! ## One step out of turn -/

/-- Some steps from here break the promise. -/
def GoesWrong (cfg : Limits) (s : SharedRedis ι) : Prop :=
  ∃ bs : List (Action ι), ¬ (bs.foldl (step cfg) s).Unmixed

theorem goesWrong_of_step (cfg : Limits) {s : SharedRedis ι} (a : Action ι)
    (h : GoesWrong cfg (s.step cfg a)) : GoesWrong cfg s := by
  obtain ⟨bs, hbs⟩ := h
  exact ⟨a :: bs, hbs⟩

/-- A thread that found `redis_` set goes on, although the connection is
closed: it sends, or its receive fails and it closes once more. -/
theorem goesWrong_of_closed (cfg : Limits) {s : SharedRedis ι} {i : ι} (hredis : s.redis = true)
    (hclosed : s.closed = true) (hin : (s.threads i).isIdle = false)
    (hon : (s.threads i).onRedis = true) : GoesWrong cfg s := by
  rcases AllowStage.onRedis_cases hon with hs | ⟨c, hs⟩ | ⟨c, hs⟩ | ⟨c, hs⟩
  · rw [hs] at hin
    cases hin
  · refine ⟨[.go i, .go i], fun hu => ?_⟩
    have hused := hu.used
    simp [step, SharedRedis.go, SharedRedis.setThread, hs, hclosed] at hused
  · refine ⟨[.go i], fun hu => ?_⟩
    have hused := hu.used
    simp [step, SharedRedis.go, hs, hclosed] at hused
  · refine ⟨[.receiveFails i, .go i], fun hu => ?_⟩
    have hused := hu.used
    simp [step, SharedRedis.receiveFails, SharedRedis.go, redisFree, SharedRedis.setThread, hs,
      hredis, hclosed] at hused

/-- One thread is about to close the connection, and another is on its way
to use it. -/
theorem goesWrong_of_two (cfg : Limits) {s : SharedRedis ι} {i k : ι} {c : AllowCall} (hik : i ≠ k)
    (hk : s.threads k = .failed c) (hredis : s.redis = true)
    (hin : (s.threads i).isIdle = false) (hon : (s.threads i).onRedis = true) :
    GoesWrong cfg s := by
  have hfree : s.step cfg (.go k) =
      { s.setThread k (.freed c) with closed := true, misused := s.misused || s.closed } := by
    simp [step, SharedRedis.go, redisFree, SharedRedis.setThread, hk, hredis]
  have hstay : (s.step cfg (.go k)).threads i = s.threads i := by
    rw [hfree]
    exact Function.update_of_ne hik _ _
  apply goesWrong_of_step cfg (.go k)
  apply goesWrong_of_closed cfg (i := i)
  · rw [hfree]
    exact hredis
  · rw [hfree]
  · rw [hstay]
    exact hin
  · rw [hstay]
    exact hon

/-- Only in one of the three modes does a thread wait for a reply, and only in
one is a thread about to clear `redis_`. -/
theorem Orderly.inOrder_of_waits {s : SharedRedis ι} (h : Orderly s) {i : ι}
    (hi : (s.threads i).waits = true) : InOrder s := by
  rcases h with h | ⟨k, h⟩ | h
  · exact h
  · rw [h.waits i] at hi
    cases hi
  · rw [h.waits i] at hi
    cases hi

omit [DecidableEq ι] in
theorem Orderly.closing_of_closes {s : SharedRedis ι} (h : Orderly s) {k : ι}
    (hk : (s.threads k).closes = true) : Closing s k := by
  rcases h with h | ⟨j, h⟩ | h
  · rw [AllowStage.not_closes (Or.inl (h.stages k))] at hk
    cases hk
  · by_cases hkj : k = j
    · subst hkj
      exact h
    · rw [AllowStage.eq_idle (h.others k hkj)] at hk
      cases hk
  · rw [AllowStage.not_closes (Or.inr (h.stages k))] at hk
    cases hk

theorem enter_out_of_turn (cfg : Limits) {s : SharedRedis ι} (h : Orderly s) {i : ι}
    {c : AllowCall} (hout : ¬ s.InTurn (.enter i c)) : GoesWrong cfg (s.step cfg (.enter i c)) := by
  simp only [InTurn, Classical.not_imp, not_forall, Bool.not_eq_false] at hout
  obtain ⟨hidle, k, hk⟩ := hout
  have hclosing := h.closing_of_closes hk
  have hik : i ≠ k := by
    rintro rfl
    rw [AllowStage.eq_idle hidle] at hk
    cases hk
  have henter : s.step cfg (.enter i c) = s.setThread i (.checked c) := by
    simp [step, enter, AllowStage.eq_idle hidle, hclosing.redis]
  have hi : (s.setThread i (.checked c)).threads i = .checked c := by
    rw [setThread_threads, if_pos rfl]
  have hstay : (s.setThread i (.checked c)).threads k = s.threads k := by
    rw [setThread_threads, if_neg (Ne.symm hik)]
  rw [henter]
  rcases hclosing.stage with ⟨d, hs, _⟩ | ⟨d, hs, hclosed⟩
  · apply goesWrong_of_two cfg hik (hstay.trans hs) hclosing.redis
    · rw [hi]
      rfl
    · rw [hi]
      rfl
  · apply goesWrong_of_closed cfg (i := i)
    · exact hclosing.redis
    · exact hclosed
    · rw [hi]
      rfl
    · rw [hi]
      rfl

/-- A call that the script denied is let through. -/
theorem clear_out_of_turn (cfg : Limits) {s : SharedRedis ι} {i : ι}
    (hout : ¬ s.InTurn (.go i)) : GoesWrong cfg (s.step cfg (.go i)) := by
  simp only [InTurn, Classical.not_imp, Bool.not_eq_false] at hout
  obtain ⟨hclears, hdenies⟩ := hout
  obtain ⟨c, hs⟩ := AllowStage.freed_of_clears hclears
  obtain ⟨d, hd, hdenied⟩ : ∃ d, s.decided i = some (.integer d) ∧
      (Reply.integer d).allows = false := by
    unfold denies at hdenies
    split at hdenies
    · rename_i d hd
      exact ⟨d, hd, by simpa using hdenies⟩
    · cases hdenies
  have hlast : (⟨i, c, none, s.decided i, true⟩ : AllowAnswer ι) ∈
      (s.step cfg (.go i)).answers := by
    simp [step, SharedRedis.go, hs]
  refine ⟨[], fun hu => ?_⟩
  have hright : true = (Reply.integer d).allows := (hu.answers _ hlast).decision d hd
  rw [hdenied] at hright
  cases hright

/-- A thread overtakes another one, and takes its reply. -/
theorem receive_out_of_turn (cfg : Limits) {s : SharedRedis ι} (h : Orderly s) {i : ι}
    (hout : ¬ s.InTurn (.receive i)) : GoesWrong cfg (s.step cfg (.receive i)) := by
  simp only [InTurn, Classical.not_imp] at hout
  obtain ⟨hwaits, hsome, hhead⟩ := hout
  have h := h.inOrder_of_waits hwaits
  obtain ⟨c, hs⟩ := AllowStage.sent_of_waits hwaits
  cases htake : s.exchange.take i with
  | none =>
    unfold Exchange.take at htake
    split at htake
    · rename_i hnil
      simp [hnil] at hsome
    · cases htake
  | some t =>
    obtain ⟨reply, x⟩ := t
    have hlast : (⟨i, c, some reply, s.decided i, reply.2.allows⟩ : AllowAnswer ι) ∈
        (s.step cfg (.receive i)).answers := by
      simp [step, SharedRedis.receive, hs, h.opened, htake]
    refine ⟨[], fun hu => ?_⟩
    have hown : reply.1 = i := ((hu.answers _ hlast).own reply rfl).1
    rw [h.matched.head_of_take htake, hown] at hhead
    exact hhead rfl

theorem fail_out_of_turn (cfg : Limits) {s : SharedRedis ι} (h : Orderly s) {i : ι}
    (hout : ¬ s.InTurn (.receiveFails i)) : GoesWrong cfg (s.step cfg (.receiveFails i)) := by
  simp only [InTurn, Classical.not_imp, not_forall, Bool.not_eq_true] at hout
  obtain ⟨hwaits, j, hji, hin⟩ := hout
  have h := h.inOrder_of_waits hwaits
  obtain ⟨c, hs⟩ := AllowStage.sent_of_waits hwaits
  have hfails : s.step cfg (.receiveFails i) = s.setThread i (.failed c) := by
    simp [step, SharedRedis.receiveFails, hs]
  have hstay : (s.setThread i (.failed c)).threads j = s.threads j := by
    rw [setThread_threads, if_neg hji]
  rw [hfails]
  apply goesWrong_of_two cfg (c := c) hji
  · rw [setThread_threads, if_pos rfl]
  · exact h.redis
  · rw [hstay]
    exact hin
  · rw [hstay]
    exact h.stages j

end SharedRedis

/-- After any run in turn, a step out of turn breaks the promise, at once or
after some more steps. -/
theorem a_step_out_of_turn_goes_wrong (cfg : Limits) {ι : Type*} [DecidableEq ι] (connected : Bool)
    (db : Db) (as : List (SharedRedis.Action ι)) (a : SharedRedis.Action ι)
    (has : (sharedRedis cfg ι connected db).Meets SharedRedis.InTurn
      (sharedRedis cfg ι connected db).init as)
    (hout : ¬ ((sharedRedis cfg ι connected db).run as).InTurn a) :
    ∃ bs, ¬ ((sharedRedis cfg ι connected db).run (as ++ a :: bs)).Unmixed := by
  have h := (SharedRedis.in_turn_run cfg connected db as has).1
  have hwrong :
      SharedRedis.GoesWrong cfg (((sharedRedis cfg ι connected db).run as).step cfg a) := by
    cases a with
    | enter i c => exact SharedRedis.enter_out_of_turn cfg h hout
    | go i => exact SharedRedis.clear_out_of_turn cfg hout
    | serve o => exact absurd trivial hout
    | receive i => exact SharedRedis.receive_out_of_turn cfg h hout
    | receiveFails i => exact SharedRedis.fail_out_of_turn cfg h hout
  obtain ⟨bs, hbs⟩ := hwrong
  refine ⟨bs, ?_⟩
  rw [run_append]
  exact hbs

end inference_server
