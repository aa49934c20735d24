-- A request over HTTP gets its reply although its connection may have to wait
-- for a thread of the pool. A thread is never kept by a connection for ever:
-- the handler that it waits for goes on only by the thread itself, and the
-- engine answers every request.
import InferenceServer.PooledNode

namespace inference_server

open machine httplib

variable {L : Llama} {ecfg : EngineConfig} {cfg : ServerConfig} {hw : Nat}

namespace Socket

/-- The turns that are left to a socket: two for each request, and one for the
handler that runs. -/
def left (c : Socket) : Nat := 2 * c.requests.length + c.current.toList.length

theorem Turn.left_lt {s : PooledNode n} {c c' : Socket} (h : c.Turn s c') : c'.left < c.left := by
  cases h with
  | ends j hcurrent hreplied => simp [left, hcurrent]
  | reads r requests hcurrent hrequests =>
    simp [left, hcurrent, hrequests]
    omega

theorem Turn.asked_eq {s : PooledNode n} {c c' : Socket} (h : c.Turn s c') :
    c'.asked = c.asked := by
  cases h <;> rfl

theorem left_eq_zero {c : Socket} (h : c.left = 0) : c.current = none ∧ c.requests = [] := by
  unfold left at h
  refine ⟨?_, List.eq_nil_of_length_eq_zero (by omega)⟩
  cases hcurrent : c.current with
  | none => rfl
  | some j => simp [hcurrent] at h

end Socket

section schedule

variable {schedule : ℕ → PooledNode.Action}

theorem pooled_sound_after (L : Llama) (ecfg : EngineConfig) (cfg : ServerConfig) (hw : Nat)
    (schedule : ℕ → PooledNode.Action) (t : ℕ) :
    ((pooledNode L ecfg cfg hw).after schedule t).Sound := pooled_sound L ecfg cfg hw _

theorem pool_moves (L : Llama) (ecfg : EngineConfig) (cfg : ServerConfig) (hw : Nat)
    (schedule : ℕ → PooledNode.Action) (t : ℕ) :
    ThreadPool.Moves (newTaskQueue hw) ((pooledNode L ecfg cfg hw).after schedule t).pool
      ((poolPart L ecfg cfg hw).follow schedule t)
      ((pooledNode L ecfg cfg hw).after schedule (t + 1)).pool := by
  have hstep : ((pooledNode L ecfg cfg hw).after schedule (t + 1)).pool =
      ((pooledNode L ecfg cfg hw).after schedule t).pool.step (newTaskQueue hw)
        ((poolPart L ecfg cfg hw).follow schedule t) := by
    rw [after_succ]
    exact (poolPart L ecfg cfg hw).read_step _ _
  rw [hstep]
  exact ThreadPool.step_moves _ _ _

/-- A socket that still stands where it stood, or has had a turn. -/
theorem socket_after {t k : ℕ} {c : Socket}
    (hc : ((pooledNode L ecfg cfg hw).after schedule t).sockets[k]? = some c) :
    ((pooledNode L ecfg cfg hw).after schedule (t + 1)).sockets[k]? = some c ∨
      ∃ c', ((pooledNode L ecfg cfg hw).after schedule (t + 1)).sockets[k]? = some c' ∧
        c'.asked = c.asked ∧ c'.left < c.left := by
  rw [after_succ]
  rcases PooledNode.step_socket L ecfg cfg (newTaskQueue hw) hc (schedule t) with
    hsame | ⟨i, c', _, _, ht, hc'⟩
  · exact Or.inl hsame
  · exact Or.inr ⟨c', hc', ht.asked_eq, ht.left_lt⟩

/-! ## A thread and its socket -/

/-- Thread `i` serves socket `k`, which is as in `c`. -/
def Serves (i k : Nat) (c : Socket) (s : PooledNode n) : Prop := s.serving i = some (k, c)

/-- The same, and the socket has fewer turns left than `m`. -/
def ServesBelow (i k m : Nat) (s : PooledNode n) : Prop := ∃ c, Serves i k c s ∧ c.left < m

/-- A thread with something left to do stays with its socket. -/
theorem runs_on {i k t : ℕ} {c : Socket} (hleft : 0 < c.left)
    (h : Serves i k c ((pooledNode L ecfg cfg hw).after schedule t)) :
    placeAt ((pooledNode L ecfg cfg hw).after schedule (t + 1)).pool.workers i =
      some (.running k) := by
  have hi := (PooledNode.serving_eq.mp h).1
  rcases ThreadPool.moves_place (pool_moves L ecfg cfg hw schedule t) hi with hi' | ha | ⟨hp, _⟩
  · exact hi'
  · obtain ⟨hcurrent, hrequests⟩ := (PooledNode.poolAction_work ha).2 k c h
    simp [Socket.left, hcurrent, hrequests] at hleft
  · cases hp

theorem serves_next {i k t : ℕ} {c : Socket} (hleft : 0 < c.left)
    (h : Serves i k c ((pooledNode L ecfg cfg hw).after schedule t)) :
    ServesBelow i k c.left ((pooledNode L ecfg cfg hw).after schedule (t + 1)) ∨
      Serves i k c ((pooledNode L ecfg cfg hw).after schedule (t + 1)) := by
  have hi := runs_on hleft h
  rcases socket_after (PooledNode.serving_eq.mp h).2 with hsame | ⟨c', hc', _, hlt⟩
  · exact Or.inr (PooledNode.serving_eq.mpr ⟨hi, hsame⟩)
  · exact Or.inl ⟨c', PooledNode.serving_eq.mpr ⟨hi, hc'⟩, hlt⟩

/-- A thread that can take a turn takes it. -/
theorem serves_turns {i k t : ℕ} {c : Socket} (ht : schedule t = .work i)
    (h : Serves i k c ((pooledNode L ecfg cfg hw).after schedule t))
    (hready : c.current = none ∧ c.requests ≠ [] ∨ ∃ j, c.current = some j ∧
      ((pooledNode L ecfg cfg hw).after schedule t).isReplied j = true) :
    ServesBelow i k c.left ((pooledNode L ecfg cfg hw).after schedule (t + 1)) := by
  obtain ⟨c', hturn, hc'⟩ := PooledNode.step_turns L ecfg cfg (newTaskQueue hw) h hready
  rw [← ht] at hc'
  have hlt := hturn.left_lt
  refine ⟨c', PooledNode.serving_eq.mpr ⟨runs_on (by omega) h, ?_⟩, hlt⟩
  rw [after_succ]
  exact hc'

/-- The handler of a request, once it has replied, has replied. -/
theorem stays_replied {r : SocketRequest} {j t t' : ℕ} (htt : t ≤ t')
    (h : ((pooledNode L ecfg cfg hw).after schedule t).node.RepliedTo r j) :
    ((pooledNode L ecfg cfg hw).after schedule t').node.RepliedTo r j := by
  induction t', htt using Nat.le_induction with
  | base => exact h
  | succ t' _ ih =>
    have hnode := (nodePart L ecfg cfg hw).read_step
      ((pooledNode L ecfg cfg hw).after schedule t') (schedule t')
    change _ = Node.step L ecfg cfg _ _ at hnode
    rw [after_succ]
    change Node.RepliedTo ((nodePart L ecfg cfg hw).read _) r j
    rw [hnode]
    exact ih.step _

theorem isReplied_of_repliedTo {s : PooledNode n} {r : SocketRequest} {j : ℕ}
    (h : s.node.RepliedTo r j) : s.isReplied j = true := by
  obtain ⟨promise, res, hc⟩ := h
  unfold PooledNode.isReplied
  rw [hc]
  rfl

theorem nodeAction_shutdown {s : PooledNode n} {a : PooledNode.Action}
    (h : s.nodeAction a = .shutdown) : a = .shutdown := by
  cases a with
  | shutdown => rfl
  | call client env =>
    simp only [PooledNode.nodeAction] at h
    split at h <;> cases h
  | go j =>
    simp only [PooledNode.nodeAction] at h
    split at h <;> cases h
  | work i =>
    simp only [PooledNode.nodeAction] at h
    split at h
    · cases h
    · split at h
      · split at h <;> cases h
      · split at h <;> cases h
  | _ => cases h

/-- The handler that a thread waits for replies, since the thread itself takes
the steps of the handler. -/
theorem handler_replies (hslots : 0 < ecfg.max_slots) (hrun : ∀ t, schedule t ≠ .shutdown)
    (hticks : Recurs (fun a => ∃ env, a = .tick env) schedule) {i : Nat}
    (hwork : Recurs (· = .work i) schedule) {k j : Nat} {c : Socket} (hcurrent : c.current = some j)
    {t : ℕ} (hstays : ∀ t', t ≤ t' → Serves i k c ((pooledNode L ecfg cfg hw).after schedule t')) :
    ∃ t', t ≤ t' ∧ ∀ t'', t' ≤ t'' →
      ((pooledNode L ecfg cfg hw).after schedule t'').isReplied j = true := by
  have hhandles : ∀ t', t ≤ t' →
      ∃ r, ((pooledNode L ecfg cfg hw).after schedule t').node.Handles r j := by
    intro t' ht'
    have hc := (PooledNode.serving_eq.mp (hstays t' ht')).2
    obtain ⟨done, doing, _, _, hdoing⟩ := ((pooled_sound_after L ecfg cfg hw schedule t').each k c
      hc).story
    rw [hcurrent, Option.toList_some] at hdoing
    obtain ⟨r, rest, hr, _, rfl⟩ := List.forall₂_cons_right_iff.mp hdoing
    exact ⟨r, hr⟩
  by_cases hreplied : ∃ t', t ≤ t' ∧
      ((pooledNode L ecfg cfg hw).after schedule t').isReplied j = true
  · obtain ⟨t', ht', hnow⟩ := hreplied
    obtain ⟨r, hr⟩ := hhandles t' ht'
    exact ⟨t', ht', fun t'' htt =>
      isReplied_of_repliedTo (stays_replied htt (hr.replied hnow))⟩
  · -- each step of the thread is then one of the handler
    have hgo : Recurs (· = .go j) ((nodePart L ecfg cfg hw).follow schedule) := by
      intro m
      obtain ⟨t', ht', ha⟩ := hwork (max t m)
      refine ⟨t', (le_max_right t m).trans ht', ?_⟩
      have htt := (le_max_left t m).trans ht'
      have hopen : ((pooledNode L ecfg cfg hw).after schedule t').isReplied j = false := by
        rw [Bool.eq_false_iff]
        exact fun hnow => hreplied ⟨t', htt, hnow⟩
      have hserving : ((pooledNode L ecfg cfg hw).after schedule t').serving i = some (k, c) :=
        hstays t' htt
      change PooledNode.nodeAction _ (schedule t') = .go j
      rw [ha]
      simp only [PooledNode.nodeAction, hserving, hcurrent, hopen, Bool.false_eq_true, if_false]
    have hticks' : Recurs (fun b => ∃ env, b = .tick env)
        ((nodePart L ecfg cfg hw).follow schedule) := by
      intro m
      obtain ⟨t', ht', env, ha⟩ := hticks m
      refine ⟨t', ht', env, ?_⟩
      change PooledNode.nodeAction _ (schedule t') = .tick env
      rw [ha]
      rfl
    obtain ⟨r, hr⟩ := hhandles t (Nat.le_refl t)
    have hleads := connection_replied L ecfg cfg hslots
      (fun t' hb => hrun t' (nodeAction_shutdown hb)) hticks' hgo r.client r.env
    obtain ⟨t', ht', hnow⟩ := (nodePart L ecfg cfg hw).leadsTo hleads t hr
    exact absurd ⟨t', ht', isReplied_of_repliedTo (r := r) hnow⟩ hreplied

/-- A thread with something left to do gets on with it. -/
theorem socket_gets_on (hslots : 0 < ecfg.max_slots) (hrun : ∀ t, schedule t ≠ .shutdown)
    (hticks : Recurs (fun a => ∃ env, a = .tick env) schedule) {i : Nat}
    (hwork : Recurs (· = .work i) schedule) (k : Nat) {c : Socket} (hleft : 0 < c.left) :
    (pooledNode L ecfg cfg hw).LeadsTo schedule (Serves i k c) (ServesBelow i k c.left) := by
  apply leadsTo_of_stays (fun t h => serves_next hleft h)
  intro t hstays
  cases hcurrent : c.current with
  | none =>
    obtain ⟨t', ht', ha⟩ := hwork t
    refine ⟨t' + 1, by omega, serves_turns ha (hstays t' ht') (Or.inl ⟨hcurrent, ?_⟩)⟩
    intro hnil
    simp [Socket.left, hcurrent, hnil] at hleft
  | some j =>
    obtain ⟨t₁, ht₁, hreplied⟩ := handler_replies hslots hrun hticks hwork hcurrent hstays
    obtain ⟨t', ht', ha⟩ := hwork t₁
    exact ⟨t' + 1, by omega, serves_turns ha (hstays t' (ht₁.trans ht'))
      (Or.inr ⟨j, hcurrent, hreplied t' ht'⟩)⟩

/-- A thread comes to the end of its socket. -/
theorem socket_ends (hslots : 0 < ecfg.max_slots) (hrun : ∀ t, schedule t ≠ .shutdown)
    (hticks : Recurs (fun a => ∃ env, a = .tick env) schedule) {i : Nat}
    (hwork : Recurs (· = .work i) schedule) (k m : Nat) :
    (pooledNode L ecfg cfg hw).LeadsTo schedule (ServesBelow i k m) (ServesBelow i k 1) := by
  induction m with
  | zero =>
    rintro t ⟨c, _, hlt⟩
    omega
  | succ m ih =>
    rintro t ⟨c, hc, hlt⟩
    rcases Nat.eq_zero_or_pos c.left with hzero | hleft
    · exact ⟨t, Nat.le_refl t, c, hc, by omega⟩
    · obtain ⟨t', ht', c', hc', hlt'⟩ := socket_gets_on hslots hrun hticks hwork k hleft t hc
      obtain ⟨t'', ht'', hend⟩ := ih t' ⟨c', hc', by omega⟩
      exact ⟨t'', ht'.trans ht'', hend⟩

/-- With nothing left to do for a socket, the next step of a thread is one of the
pool. -/
theorem poolAction_idle {s : PooledNode n} {i : Nat}
    (h : ∀ k c, s.serving i = some (k, c) → c.left = 0) : s.poolAction (.work i) = .work i := by
  unfold PooledNode.poolAction
  cases hserving : s.serving i with
  | none => simp only [hserving]
  | some kc =>
    obtain ⟨hcurrent, hrequests⟩ := Socket.left_eq_zero (h kc.1 kc.2 hserving)
    simp only [hserving, hcurrent, hrequests]

/-- Each thread comes back to the loop of the pool again and again. -/
theorem pool_works (hslots : 0 < ecfg.max_slots) (hrun : ∀ t, schedule t ≠ .shutdown)
    (hticks : Recurs (fun a => ∃ env, a = .tick env) schedule) {i : Nat}
    (hwork : Recurs (· = .work i) schedule) :
    Recurs (· = .work i) ((poolPart L ecfg cfg hw).follow schedule) := by
  intro t
  by_contra hnever
  have hidle : ∀ t', t ≤ t' → schedule t' = .work i →
      ¬ ∀ k c, ((pooledNode L ecfg cfg hw).after schedule t').serving i = some (k, c) →
        c.left = 0 := by
    intro t' ht' ha h
    refine hnever ⟨t', ht', ?_⟩
    change PooledNode.poolAction _ (schedule t') = .work i
    rw [ha]
    exact poolAction_idle h
  obtain ⟨t₁, ht₁, ha₁⟩ := hwork t
  cases hserving : ((pooledNode L ecfg cfg hw).after schedule t₁).serving i with
  | none => exact hidle t₁ ht₁ ha₁ (fun k c h => by rw [hserving] at h; cases h)
  | some kc =>
    obtain ⟨k, c⟩ := kc
    obtain ⟨t₂, ht₂, c', hc', hlt⟩ := socket_ends hslots hrun hticks hwork k (c.left + 1) t₁
      ⟨c, hserving, Nat.lt_succ_self _⟩
    -- with nothing left, the socket stays as it is until the pool moves the thread
    have hstays : ∀ t', t₂ ≤ t' →
        Serves i k c' ((pooledNode L ecfg cfg hw).after schedule t') := by
      intro t' ht'
      induction t', ht' using Nat.le_induction with
      | base => exact hc'
      | succ t' ht' ih =>
        obtain ⟨hi, hget⟩ := PooledNode.serving_eq.mp ih
        refine PooledNode.serving_eq.mpr ⟨?_, ?_⟩
        · rcases ThreadPool.moves_place (pool_moves L ecfg cfg hw schedule t') hi with
            hi' | ha | ⟨hp, _⟩
          · exact hi'
          · exact absurd ⟨t', by omega, ha⟩ hnever
          · cases hp
        · rcases socket_after hget with hsame | ⟨c'', _, _, hlt'⟩
          · exact hsame
          · omega
    obtain ⟨t₃, ht₃, ha₃⟩ := hwork t₂
    refine hidle t₃ (by omega) ha₃ (fun k' c'' h => ?_)
    rw [hstays t₃ ht₃, Option.some.injEq, Prod.mk.injEq] at h
    rw [← h.2]
    omega

/-! ## The law of replies behind the pool -/

/-- What a socket was asked, it was asked. -/
theorem asked_stays {t t' k : ℕ} (htt : t ≤ t') {c : Socket}
    (hc : ((pooledNode L ecfg cfg hw).after schedule t).sockets[k]? = some c) :
    ∃ c', ((pooledNode L ecfg cfg hw).after schedule t').sockets[k]? = some c' ∧
      c'.asked = c.asked := by
  induction t', htt using Nat.le_induction with
  | base => exact ⟨c, hc, rfl⟩
  | succ t' _ ih =>
    obtain ⟨c', hc', hasked⟩ := ih
    rcases socket_after hc' with hsame | ⟨c'', hc'', hasked', _⟩
    · exact ⟨c', hsame, hasked⟩
    · exact ⟨c'', hc'', hasked'.trans hasked⟩

/-- The pool has few threads, and each keeps its connection until the last
request of it has its reply. Still no connection waits for ever: when the
engine, the listening thread and each thread of the pool always come again and
nobody shuts the engine down, all requests that may be read from an accepted
connection are replied to at some time, in their order. -/
theorem every_request_of_every_connection_gets_a_reply (L : Llama) (ecfg : EngineConfig)
    (cfg : ServerConfig) (hardware_concurrency : Nat) (hslots : 0 < ecfg.max_slots)
    (schedule : ℕ → PooledNode.Action) (hrun : ∀ t, schedule t ≠ .shutdown)
    (hticks : Recurs (fun a => ∃ env, a = .tick env) schedule)
    (hown : Recurs (fun a => ∃ pick, a = .own pick) schedule)
    (hwork : ∀ i, Recurs (· = .work i) schedule) (k : Nat) (requests : List SocketRequest) :
    (pooledNode L ecfg cfg hardware_concurrency).LeadsTo schedule
      (fun s => ∃ c, s.sockets[k]? = some c ∧ c.asked = requests)
      (fun s => ∃ c, s.sockets[k]? = some c ∧ c.asked = requests ∧
        List.Forall₂ s.node.RepliedTo requests c.handled) := by
  rintro t ⟨c, hc, rfl⟩
  have hbase : 0 < (newTaskQueue hardware_concurrency).base_thread_count :=
    Nat.lt_of_lt_of_le (by decide : 0 < 8) (le_max_left _ _)
  have hown' : Recurs (fun b => ∃ pick, b = .own pick)
      ((poolPart L ecfg cfg hardware_concurrency).follow schedule) := by
    intro m
    obtain ⟨t', ht', pick, ha⟩ := hown m
    refine ⟨t', ht', pick, ?_⟩
    change PooledNode.poolAction _ (schedule t') = .own pick
    rw [ha]
    rfl
  have hdone := ThreadPool.accepted_completes hbase
    (fun i => pool_works (i := i) hslots hrun hticks (hwork i)) hown' k 1
  have haccepted : 1 ≤ ((pooledNode L ecfg cfg hardware_concurrency).after schedule
      t).pool.accepted.count k := by
    rw [(pooled_sound_after L ecfg cfg hardware_concurrency schedule t).accepted,
      Nat.one_le_iff_ne_zero, ← Nat.pos_iff_ne_zero, List.count_pos_iff, List.mem_range]
    exact (List.getElem?_eq_some_iff.mp hc).1
  obtain ⟨t', ht', hcompleted⟩ := (poolPart L ecfg cfg hardware_concurrency).leadsTo hdone t
    haccepted
  obtain ⟨c', hc', hasked⟩ := asked_stays ht' hc
  refine ⟨t', ht', c', hc', hasked, ?_⟩
  have hsound := (pooled_sound_after L ecfg cfg hardware_concurrency schedule t').each k c' hc'
  obtain ⟨hcurrent, hrequests⟩ := hsound.done (List.count_pos_iff.mp hcompleted)
  obtain ⟨done, doing, hstory, hreplied, hdoing⟩ := hsound.story
  rw [hcurrent, Option.toList_none, List.forall₂_nil_right_iff] at hdoing
  rw [hdoing, hrequests, List.append_nil, List.append_nil] at hstory
  rw [← hasked, hstory]
  exact hreplied

/-- The request to `/infer`, in an empty node. -/
def helloOverHttp : SocketRequest := ⟨helloInfer, helloSurroundings, rfl⟩

/-- A connection with two requests comes, and then everybody takes turns. -/
def twoRequests (t : ℕ) : PooledNode.Action :=
  if t = 0 then .accept [helloOverHttp, helloOverHttp]
  else if t % 3 = 0 then .work (Nat.unpair (t / 3)).1
  else if t % 3 = 1 then .own 0
  else .tick ⟨0, .ok⟩

theorem every_request_of_every_connection_gets_a_reply_twice :
    ∃ t, 1 ≤ t ∧ ∃ c,
      ((pooledNode countingLlama {} {} 4).after twoRequests t).sockets[0]? = some c ∧
      c.asked = [helloOverHttp, helloOverHttp] ∧
      List.Forall₂ ((pooledNode countingLlama {} {} 4).after twoRequests t).node.RepliedTo
        [helloOverHttp, helloOverHttp] c.handled := by
  refine every_request_of_every_connection_gets_a_reply countingLlama {} {} 4 (by decide)
    twoRequests ?_ ?_ ?_ ?_ 0 _ 1 ⟨_, rfl, rfl⟩
  · intro t
    unfold twoRequests
    split_ifs <;> exact nofun
  · intro t
    refine ⟨3 * t + 2, by omega, ⟨0, .ok⟩, ?_⟩
    unfold twoRequests
    rw [if_neg (by omega), if_neg (by omega), if_neg (by omega)]
  · intro t
    refine ⟨3 * t + 1, by omega, 0, ?_⟩
    unfold twoRequests
    rw [if_neg (by omega), if_neg (by omega), if_pos (by omega)]
  · intro i t
    have hle := Nat.right_le_pair i (t + 1)
    refine ⟨3 * Nat.pair i (t + 1), by omega, ?_⟩
    unfold twoRequests
    rw [if_neg (by omega), if_pos (by omega), Nat.mul_div_cancel_left _ (by decide),
      Nat.unpair_pair]

end schedule

end inference_server
