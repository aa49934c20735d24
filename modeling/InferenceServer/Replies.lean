-- Every client gets its reply. As long as nobody shuts the engine down, a
-- schedule in which the engine thread and the thread of a connection always
-- come again brings that connection to its reply, whatever else arrives.
import InferenceServer.Connections
import InferenceServer.Lib.Fairness
import InferenceServer.Starvation

namespace inference_server

open machine list_scheduling

variable {n : Nat} {L : Llama} {ecfg : EngineConfig} {cfg : ServerConfig}

/-! ## A due call for each promise -/

/-- Wherever a promise is, some call is late enough for it. -/
theorem exists_onTrack (L : Llama) (cfg : EngineConfig) {e : Engine n} {t : Nat} (hb : Balanced e)
    (ht : t < e.enqueued.length) : ∃ due, OnTrack L cfg t due e := by
  have hledger := hb.accounts.ledger t
  rw [if_pos ht] at hledger
  have hqueue : inQueue e.pending t = 0 → ∀ before r after, e.pending = before ++ r :: after →
      r.on_complete ≠ some t := by
    intro h0 before r after hsplit hr
    have hpos : 0 < inQueue e.pending t := inQueue_pos_iff.mpr ⟨r, by simp [hsplit], hr⟩
    omega
  have hdrained : inQueue e.place.drained t = 0 → ∀ r ∈ e.place.drained,
      r.on_complete ≠ some t := by
    intro h0 r hr hrt
    have hpos := inQueue_pos_iff.mpr ⟨r, hr, hrt⟩
    omega
  have hseated : e.slots.inSlots t = 0 → ∀ sid, e.occupied sid = true →
      (e.request sid).on_complete ≠ some t := by
    intro h0 sid hocc hrt
    have hpos : 0 < e.slots.inSlots t := inSlots_pos_iff.mpr ⟨sid, hocc, hrt⟩
    omega
  rcases Nat.eq_zero_or_pos (inQueue e.pending t) with hq | hq
  · rcases Nat.eq_zero_or_pos (inQueue e.place.drained t) with hd | hd
    · refine ⟨∑ sid, e.freeAt L cfg sid, ?_, ?_, ?_⟩
      · exact fun before r after hsplit hr => absurd hr (hqueue hq before r after hsplit)
      · exact fun r hr hrt => absurd hrt (hdrained hd r hr)
      · exact fun sid _ _ => Finset.single_le_sum (fun _ _ => Nat.zero_le _) (Finset.mem_univ sid)
    · refine ⟨(e.place.drained.map (fun r => e.returned + plannedOf L cfg r)).sum, ?_, ?_, ?_⟩
      · exact fun before r after hsplit hr => absurd hr (hqueue hq before r after hsplit)
      · exact fun r hr _ => List.single_le_sum (by simp) _ (List.mem_map_of_mem hr)
      · exact fun sid hocc hrt => absurd hrt (hseated (by omega) sid hocc)
  · obtain ⟨r, hr, hrt⟩ := inQueue_pos_iff.mp hq
    obtain ⟨before, after, hsplit⟩ := List.append_of_mem hr
    exact ⟨_, onTrack_start hb hsplit hrt⟩

/-! ## A step and the other connections -/

/-- Only its own thread moves a connection on. -/
theorem step_connection {s : Node n} {i : Nat} {c : Connection} (hc : s.connections[i]? = some c)
    {a : Node.Action} (ha : a ≠ .go i) : (s.step L ecfg cfg a).connections[i]? = some c := by
  cases a with
  | arrive client env =>
    change (s.connections ++ [_])[i]? = some c
    rw [List.getElem?_append_left (List.getElem?_eq_some_iff.mp hc).1]
    exact hc
  | tick env => exact hc
  | shutdown => exact hc
  | go j =>
    have hne : j ≠ i := fun h => ha (by rw [h])
    have hset : ∀ c', (s.connections.set j c')[i]? = some c := by
      intro c'
      rw [List.getElem?_set_ne hne]
      exact hc
    change (s.go L ecfg j).connections[i]? = some c
    rcases go_cases L ecfg s j with he | ⟨c', _, ⟨w, _, he⟩ | ⟨w, _, he⟩ |
      ⟨w, t, result, _, _, he⟩ | ⟨w, t, result, _, he⟩⟩
    all_goals rw [he]
    · exact hc
    all_goals exact hset _

/-- Its own thread moves a connection on, unless it waits. -/
theorem go_connection (L : Llama) (ecfg : EngineConfig) {s : Node n} {i : Nat} {c : Connection}
    (hc : s.connections[i]? = some c) : (s.go L ecfg i).connections[i]? = some { c with stage :=
      match c.stage with
      | .counting w => .enqueuing w
      | .enqueuing w => .waiting w s.engine.enqueued.length
      | .waiting w t =>
        match s.engine.fulfilled t with
        | some result => .leaving w t result
        | none => .waiting w t
      | .leaving w t result => .replied (some t) (w.respond result)
      | .replied promise res => .replied promise res } := by
  obtain ⟨client, env, stage⟩ := c
  have hset : ∀ c', (s.connections.set i c')[i]? = some c' :=
    fun c' => List.getElem?_set_self (List.getElem?_eq_some_iff.mp hc).1
  unfold Node.go
  rw [hc]
  simp only
  cases stage with
  | counting w => exact hset _
  | enqueuing w => exact hset _
  | waiting w t =>
    cases hresult : s.engine.fulfilled t with
    | none => simpa only [hresult] using hc
    | some result => simpa only [hresult] using hset _
  | leaving w t result => exact hset _
  | replied promise res => exact hc

/-- A step of the node is a tick of the engine, or it leaves an open promise
as it was. -/
theorem step_engine (L : Llama) (ecfg : EngineConfig) (cfg : ServerConfig) (s : Node n)
    (a : Node.Action) (ha : a ≠ .shutdown) :
    (∃ env, a = .tick env ∧ (s.step L ecfg cfg a).engine = s.engine.tick L ecfg env) ∨
    ((∀ env, a ≠ .tick env) ∧ ((s.step L ecfg cfg a).engine = s.engine ∨
      ∃ req, (s.step L ecfg cfg a).engine = s.engine.step L ecfg (.enqueue req))) := by
  cases a with
  | arrive client env => exact Or.inr ⟨nofun, Or.inl rfl⟩
  | tick env => exact Or.inl ⟨env, rfl, rfl⟩
  | shutdown => exact absurd rfl ha
  | go j =>
    refine Or.inr ⟨nofun, ?_⟩
    change (s.go L ecfg j).engine = _ ∨ ∃ req, (s.go L ecfg j).engine = _
    rcases go_cases L ecfg s j with he | ⟨c', _, ⟨w, _, he⟩ | ⟨w, _, he⟩ |
      ⟨w, t, result, _, _, he⟩ | ⟨w, t, result, _, he⟩⟩
    all_goals rw [he]
    · exact Or.inl rfl
    · exact Or.inl rfl
    · exact Or.inr ⟨w.request, rfl⟩
    · exact Or.inl rfl
    · exact Or.inl rfl

/-! ## From stage to stage -/

section schedule

variable {schedule : ℕ → Node.Action}

/-- The engine of a node that nobody shuts down. -/
theorem working_node (L : Llama) (ecfg : EngineConfig) (cfg : ServerConfig)
    (hrun : ∀ k, schedule k ≠ .shutdown) (k : Nat) :
    let s := (node L ecfg cfg).after schedule k
    Working L ecfg s.engine ∧ Called s.engine := by
  intro s
  have hrunning : s.engine.running = true := by
    change ((node L ecfg cfg).after schedule k).engine.running = true
    induction k with
    | zero => rfl
    | succ k ih =>
      rw [after_succ]
      rcases step_engine L ecfg cfg ((node L ecfg cfg).after schedule k) (schedule k)
        (hrun k) with ⟨env, _, he⟩ | ⟨_, he | ⟨req, he⟩⟩
      · exact (congrArg Engine.running he).trans ((tick_running L ecfg _ env).trans ih)
      · exact (congrArg Engine.running he).trans ih
      · exact (congrArg Engine.running he).trans ih
  obtain ⟨es, hes⟩ := node_engine L ecfg cfg ((List.range k).map schedule)
  have hs : s.engine = (engine L ecfg).run es := hes
  obtain ⟨hb, hcoh, hcalled⟩ := lawful_run L ecfg es
  have hstanding := standing_run L ecfg es
  rw [← hs] at hb hcoh hcalled hstanding
  exact ⟨⟨hb, hcoh, hstanding, hrunning⟩, hcalled⟩

theorem step_recalls (L : Llama) (ecfg : EngineConfig) (cfg : ServerConfig) (s : Node n)
    (a : Node.Action) : s.engine.Recalls (s.step L ecfg cfg a).engine := by
  by_cases ha : a = .shutdown
  · subst ha
    exact recalls_step L ecfg s.engine .shutdown
  · rcases step_engine L ecfg cfg s a ha with ⟨env, _, he⟩ | ⟨_, he | ⟨req, he⟩⟩
    · rw [he]
      exact recalls_step L ecfg s.engine (.tick env)
    · rw [he]
      exact recalls_refl s.engine
    · rw [he]
      exact recalls_step L ecfg s.engine (.enqueue req)

/-- A connection whose next step does not wait, or waits for what is there. -/
theorem thread_moves {i : Nat} (hgo : Recurs (· = .go i) schedule) {c : Connection}
    {F : Engine ecfg.max_slots → Prop} (hF : ∀ e e', Engine.Recalls e e' → F e → F e')
    {Q : Node ecfg.max_slots → Prop}
    (hmove : ∀ s : Node ecfg.max_slots, s.connections[i]? = some c → F s.engine →
      Q (s.go L ecfg i)) :
    (node L ecfg cfg).LeadsTo schedule (fun s => s.connections[i]? = some c ∧ F s.engine) Q := by
  apply leadsTo_of_step hgo
  · rintro k ⟨hc, hf⟩ ha
    rw [after_succ]
    exact ⟨step_connection hc ha, hF _ _ (step_recalls L ecfg cfg _ _) hf⟩
  · rintro k ⟨hc, hf⟩ ha
    rw [after_succ, ha]
    exact hmove _ hc hf

/-- What a step leaves of an open promise. -/
theorem open_step (hslots : 0 < ecfg.max_slots) (hrun : ∀ k, schedule k ≠ .shutdown) {k t due : Nat}
    (ht : t < ((node L ecfg cfg).after schedule k).engine.enqueued.length)
    (htrack : OnTrack L ecfg t due ((node L ecfg cfg).after schedule k).engine)
    (hopen : ((node L ecfg cfg).after schedule k).engine.answered t = 0)
    (hstill : ((node L ecfg cfg).after schedule (k + 1)).engine.answered t = 0) :
    let e := ((node L ecfg cfg).after schedule k).engine
    let e' := ((node L ecfg cfg).after schedule (k + 1)).engine
    (t < e'.enqueued.length ∧ OnTrack L ecfg t due e') ∧ e'.patience due t ≤ e.patience due t ∧
      ((∃ env, schedule k = .tick env) → e'.patience due t < e.patience due t) := by
  intro e e'
  obtain ⟨hw, hcalled⟩ := working_node L ecfg cfg hrun k
  have he' : e' =
      ((node L ecfg cfg).step ((node L ecfg cfg).after schedule k) (schedule k)).engine :=
    congrArg Node.engine (after_succ _ _ k)
  change e'.answered t = 0 at hstill
  rcases step_engine L ecfg cfg ((node L ecfg cfg).after schedule k) (schedule k)
    (hrun k) with ⟨env, hk, he⟩ | ⟨hk, he | ⟨req, he⟩⟩
  · rw [he'.trans he] at hstill ⊢
    have hcost := patience_tick hslots hw hcalled ht htrack env hopen hstill
    refine ⟨⟨?_, onTrack_tick hslots hw.balanced hw.coherent hcalled htrack env⟩, hcost.le,
      fun _ => hcost⟩
    rwa [tick_enqueued]
  · rw [he'.trans he]
    exact ⟨⟨ht, htrack⟩, Nat.le_refl _, fun ⟨env, htick⟩ => absurd htick (hk env)⟩
  · rw [he'.trans he]
    have htrack' := onTrack_step hslots hw.balanced hw.coherent hcalled ht htrack (.enqueue req)
    refine ⟨⟨enqueued_grows ht (.enqueue req), htrack'⟩, ?_,
      fun ⟨env, htick⟩ => absurd htick (hk env)⟩
    exact (patience_step L ecfg due ht (.enqueue req) nofun).1.le

/-- A connection that waits gets the result of its promise. -/
theorem waiting_ends (hslots : 0 < ecfg.max_slots) (hrun : ∀ k, schedule k ≠ .shutdown)
    (hticks : Recurs (fun a => ∃ env, a = .tick env) schedule) {i t : Nat} {client : ClientRequest}
    {env : Surroundings} {w : Work} :
    (node L ecfg cfg).LeadsTo schedule
      (fun s => s.connections[i]? = some ⟨client, env, .waiting w t⟩)
      (fun s => ∃ result, s.connections[i]? = some ⟨client, env, .waiting w t⟩ ∧
        s.engine.fulfilled t = some result) := by
  have hopen_iff : ∀ e : Engine ecfg.max_slots, e.fulfilled t = none ↔ e.answered t = 0 := by
    intro e
    have hiff := fulfilled_iff e t
    rw [← Option.not_isSome_iff_eq_none, hiff]
    omega
  -- while the promise is open it is on track for some call, and patience runs out
  have hcount : ∀ due, (node L ecfg cfg).LeadsTo schedule
      (fun s => s.connections[i]? = some ⟨client, env, .waiting w t⟩ ∧ s.engine.fulfilled t = none ∧
        t < s.engine.enqueued.length ∧ OnTrack L ecfg t due s.engine)
      (fun s => ∃ result, s.connections[i]? = some ⟨client, env, .waiting w t⟩ ∧
        s.engine.fulfilled t = some result) := by
    intro due
    have hstays : ∀ k, ((node L ecfg cfg).after schedule k).connections[i]? =
        some ⟨client, env, .waiting w t⟩ →
        ((node L ecfg cfg).after schedule k).engine.fulfilled t = none →
        ((node L ecfg cfg).after schedule (k + 1)).connections[i]? =
          some ⟨client, env, .waiting w t⟩ := by
      intro k hc hnone
      rw [after_succ]
      by_cases ha : schedule k = .go i
      · rw [ha]
        have hgo := go_connection L ecfg hc
        simp only [hnone] at hgo
        exact hgo
      · exact step_connection hc ha
    apply leadsTo_of_count (fun s => s.engine.patience due t) hticks
    · rintro k ⟨hc, hnone, hlt, htrack⟩
      have hc' := hstays k hc hnone
      cases hnext : ((node L ecfg cfg).after schedule (k + 1)).engine.fulfilled t with
      | some result => exact Or.inl ⟨result, hc', rfl⟩
      | none =>
        obtain ⟨⟨hlt', htrack'⟩, hle, _⟩ := open_step hslots hrun hlt htrack
          ((hopen_iff _).mp hnone) ((hopen_iff _).mp hnext)
        exact Or.inr ⟨⟨hc', rfl, hlt', htrack'⟩, hle⟩
    · rintro k htick ⟨hc, hnone, hlt, htrack⟩
      have hc' := hstays k hc hnone
      cases hnext : ((node L ecfg cfg).after schedule (k + 1)).engine.fulfilled t with
      | some result => exact Or.inl ⟨result, hc', rfl⟩
      | none =>
        exact Or.inr ((open_step hslots hrun hlt htrack ((hopen_iff _).mp hnone)
          ((hopen_iff _).mp hnext)).2.2 htick)
  intro k hc
  cases hnow : ((node L ecfg cfg).after schedule k).engine.fulfilled t with
  | some result => exact ⟨k, Nat.le_refl k, result, hc, hnow⟩
  | none =>
    have hsound := sound_run L ecfg cfg ((List.range k).map schedule)
    have howns := hsound.each _ (List.mem_of_getElem? hc)
    have hlt : t < ((node L ecfg cfg).after schedule k).engine.enqueued.length := known_lt howns.2
    obtain ⟨due, htrack⟩ :=
      exists_onTrack L ecfg (working_node L ecfg cfg hrun k).1.balanced hlt
    exact hcount due k ⟨hc, hnow, hlt, htrack⟩

/-- A connection comes through all its stages. -/
theorem connection_replied (L : Llama) (ecfg : EngineConfig) (cfg : ServerConfig)
    (hslots : 0 < ecfg.max_slots) (hrun : ∀ k, schedule k ≠ .shutdown)
    (hticks : Recurs (fun a => ∃ env, a = .tick env) schedule) {i : Nat}
    (hgo : Recurs (· = .go i) schedule) (client : ClientRequest) (env : Surroundings) :
    (node L ecfg cfg).LeadsTo schedule
      (fun s => ∃ stage, s.connections[i]? = some ⟨client, env, stage⟩)
      (fun s => ∃ promise res, s.connections[i]? = some ⟨client, env, .replied promise res⟩) := by
  have hany : ∀ e e' : Engine ecfg.max_slots, e.Recalls e' → True → True := fun _ _ _ h => h
  have hleaving : ∀ w t result, (node L ecfg cfg).LeadsTo schedule
      (fun s => s.connections[i]? = some ⟨client, env, .leaving w t result⟩ ∧ True)
      (fun s => ∃ promise res, s.connections[i]? = some ⟨client, env, .replied promise res⟩) :=
    fun w t result => thread_moves hgo hany (fun s hc _ => ⟨_, _, go_connection L ecfg hc⟩)
  have hfulfilled : ∀ w t result, (node L ecfg cfg).LeadsTo schedule
      (fun s => s.connections[i]? = some ⟨client, env, .waiting w t⟩ ∧
        s.engine.fulfilled t = some result)
      (fun s => s.connections[i]? = some ⟨client, env, .leaving w t result⟩ ∧ True) := by
    intro w t result
    apply thread_moves hgo (fun _ _ hrecalls hf => hrecalls.fulfilled hf)
    intro s hc hf
    have hnext := go_connection L ecfg hc
    simp only [hf] at hnext
    exact ⟨hnext, trivial⟩
  have hwaiting : ∀ w t, (node L ecfg cfg).LeadsTo schedule
      (fun s => s.connections[i]? = some ⟨client, env, .waiting w t⟩)
      (fun s => ∃ promise res, s.connections[i]? = some ⟨client, env, .replied promise res⟩) :=
    fun w t => (waiting_ends hslots hrun hticks).trans
      (leadsTo_exists fun result => (hfulfilled w t result).trans (hleaving w t result))
  have henqueuing : ∀ w, (node L ecfg cfg).LeadsTo schedule
      (fun s => s.connections[i]? = some ⟨client, env, .enqueuing w⟩ ∧ True)
      (fun s => ∃ promise res, s.connections[i]? = some ⟨client, env, .replied promise res⟩) := by
    intro w
    have hstep : (node L ecfg cfg).LeadsTo schedule
        (fun s => s.connections[i]? = some ⟨client, env, .enqueuing w⟩ ∧ True)
        (fun s => ∃ t, s.connections[i]? = some ⟨client, env, .waiting w t⟩) :=
      thread_moves hgo hany (fun s hc _ => ⟨_, go_connection L ecfg hc⟩)
    exact hstep.trans (leadsTo_exists (hwaiting w))
  have hcounting : ∀ w, (node L ecfg cfg).LeadsTo schedule
      (fun s => s.connections[i]? = some ⟨client, env, .counting w⟩ ∧ True)
      (fun s => s.connections[i]? = some ⟨client, env, .enqueuing w⟩ ∧ True) :=
    fun w => thread_moves hgo hany (fun s hc _ => ⟨go_connection L ecfg hc, trivial⟩)
  apply leadsTo_exists
  intro stage k hc
  cases stage with
  | counting w => exact (hcounting w).trans (henqueuing w) k ⟨hc, trivial⟩
  | enqueuing w => exact henqueuing w k ⟨hc, trivial⟩
  | waiting w t => exact hwaiting w t k hc
  | leaving w t result => exact hleaving w t result k ⟨hc, trivial⟩
  | replied promise res => exact ⟨k, Nat.le_refl k, promise, res, hc⟩

/-! ## The law of replies -/

/-- The node runs and nobody shuts it down. When the engine thread and the
thread of a connection always come again, that connection is replied to at
some time, however many others arrive. -/
theorem every_client_gets_a_reply (L : Llama) (ecfg : EngineConfig) (cfg : ServerConfig)
    (hslots : 0 < ecfg.max_slots) (schedule : ℕ → Node.Action)
    (hrun : ∀ k, schedule k ≠ .shutdown)
    (hticks : Recurs (fun a => ∃ env, a = .tick env) schedule) (i : Nat)
    (hgo : Recurs (· = .go i) schedule) (client : ClientRequest) (env : Surroundings) :
    (node L ecfg cfg).LeadsTo schedule
      (fun s => ∃ stage, s.connections[i]? = some ⟨client, env, stage⟩)
      (fun s => ∃ promise res, s.connections[i]? = some ⟨client, env, .replied promise res⟩) :=
  connection_replied L ecfg cfg hslots hrun hticks hgo client env

/-- A client of gRPC `Infer` in an empty node. -/
def helloClient : ClientRequest := .grpcInfer { payload := bytes "hello" }

def helloSurroundings : Surroundings :=
  { allow := fun _ => true, id := 1, steady_clock := 0, system_clock := 0 }

/-- The client comes, and then the engine and its thread take turns. -/
def takingTurns (k : ℕ) : Node.Action :=
  if k = 0 then .arrive helloClient helloSurroundings
  else if k % 2 = 0 then .go 0 else .tick ⟨0, .ok⟩

theorem every_client_gets_a_reply_taking_turns :
    ∃ j, 1 ≤ j ∧ ∃ promise res, ((node countingLlama {} {}).after takingTurns j).connections[0]? =
      some ⟨helloClient, helloSurroundings, .replied promise res⟩ := by
  refine every_client_gets_a_reply countingLlama {} {} (by decide) takingTurns ?_ ?_ 0 ?_
    helloClient helloSurroundings 1 ⟨_, rfl⟩
  · intro k
    unfold takingTurns
    split
    · exact nofun
    · split <;> exact nofun
  · intro k
    refine ⟨2 * k + 1, by omega, ⟨0, .ok⟩, ?_⟩
    unfold takingTurns
    rw [if_neg (by omega), if_neg (by omega)]
  · intro k
    refine ⟨2 * k + 2, by omega, ?_⟩
    unfold takingTurns
    rw [if_neg (by omega), if_pos (by omega)]

end schedule

end inference_server
