-- The gauge `kv_slot_utilization`. It is written at one point of the loop,
-- only when a slot is active, so it never goes back to 0: it tells the truth at
-- each decode, and at rest only when no slot was ever used.
import InferenceServer.Backlog
import InferenceServer.OccupiedSlots
import Mathlib.Algebra.Order.Field.Rat
import Mathlib.Tactic.Positivity

namespace inference_server

open machine

variable {n : Nat}

namespace Engine

def gauge (e : Engine n) : Rat := e.metrics.kv_slot_utilization

/-! ## Who writes the gauge -/

@[simp] theorem gauge_complete (e : Engine n) (req : Request) (exit : Exit) (result : Bytes) :
    (e.complete req exit result).gauge = e.gauge := by
  rw [complete_eq]
  rfl

theorem gauge_answer (e : Engine n) (sid : Fin n) (exit : Exit) (result : Bytes) :
    (e.answer sid exit result).gauge = e.gauge :=
  gauge_complete e (e.request sid) exit result

theorem gauge_took (L : Llama) (e : Engine n) (sid : Fin n) (tok : Token) :
    (e.took L sid tok).gauge = e.gauge := by
  unfold took
  split <;> rfl

theorem gauge_retireExpired (now : Int) (e : Engine n) : (e.retireExpired now).gauge = e.gauge := by
  apply loop_same gauge (retireExpiredTurn now)
  intro e sid
  rcases e.retireExpiredTurn_cases now sid with ⟨_, he⟩ | ⟨_, _, he⟩
  · rw [he]
  · rw [he, gauge_answer]
    rfl

theorem gauge_admitTo (L : Llama) (e : Engine n) (sid : Fin n) :
    (admitTo L e sid).gauge = e.gauge := by
  unfold admitTo
  simp only
  split
  · exact gauge_complete (e.setPrompt sid _) _ _ _
  · rfl

theorem gauge_admit (L : Llama) (l : List Request) (e : Engine n) :
    (l.foldl (admitOne L) e).gauge = e.gauge := by
  apply loop_same gauge (admitOne L)
  intro e req
  rcases e.admitOne_cases L req with ⟨i, _, he⟩ | ⟨_, he⟩
  · rw [he, gauge_admitTo]
    rfl
  · rw [he]
    rfl

theorem gauge_decoded (L : Llama) (cfg : EngineConfig) (e : Engine n) (call : DecodeCall n)
    (o : DecodeOutcome) : (e.decoded L cfg call o).gauge = e.gauge := by
  apply decoded_keeps (P := fun e' => e'.gauge = e.gauge)
  · exact fun _ => rfl
  · intro cells e' sid he'
    rcases e'.sampleTurn_cases L cfg cells call sid with ⟨_, he⟩ | ⟨_, _, he⟩ | ⟨_, _, he⟩
    · rw [he, he']
    · rw [he, gauge_answer, ← he']
      exact gauge_took L e' sid _
    · rw [he, gauge_took, he']
  · intro e' sid he'
    rcases e'.decodeFailedTurn_cases sid with ⟨_, he⟩ | ⟨_, he⟩
    · rw [he, he']
    · rw [he, gauge_answer, ← he']
      rfl
  · exact fun _ _ _ he' => he'

end Engine

/-! ## At each decode -/

/-- At the call of `llama_decode` the gauge is the share of the slots that
the batch is for. -/
def Gauged (e : Engine n) : Prop :=
  ∀ call, e.place = .decode call → e.gauge = (call.active.length : Rat) / n

theorem gauged_step (L : Llama) (cfg : EngineConfig) (e : Engine n) (a : Engine.Action)
    (h : Gauged e) : Gauged (e.step L cfg a) := by
  cases a with
  | enqueue req => exact h
  | shutdown => exact h
  | tick env =>
    intro call hp
    simp only [Engine.step] at hp ⊢
    rcases e.tick_cases L cfg env with ⟨_, p, hto, he⟩ | ⟨_, he⟩ | ⟨_, _, he⟩ | ⟨_, _, he⟩ |
      ⟨_, _, he⟩
    · rw [he] at hp
      rcases hto with ⟨rfl, _⟩ | rfl | ⟨rfl, _⟩ <;> cases hp
    · rw [he] at hp
      cases hp
    · rw [he] at hp
      cases hp
    · rw [he] at hp ⊢
      rcases e.collect_cases with ⟨_, hc⟩ | ⟨_, _, hc⟩ | ⟨_, _, hc⟩
      · rw [hc] at hp
        cases hp
      · rw [hc] at hp
        cases hp
      · rw [hc] at hp ⊢
        cases hp
        rfl
    · rw [he] at hp
      cases hd : env.decode <;> rw [hd] at hp <;> cases hp

/-! ## At rest -/

/-- Each request that this tick may admit is refused by the tokenizer, or is
late when `retire_expired` looks at it. -/
def Engine.Unserved (L : Llama) (e : Engine n) : Engine.Action → Prop
  | .tick env => match e.place with
    | .admission l => ∀ r ∈ l, promptOf L r.payload = [] ∨ r.dueTime < env.now
    | _ => True
  | _ => True

/-- No slot is in use, and none was when the gauge could be written. -/
structure Unused (e : Engine n) : Prop where
  free : ∀ sid, e.occupied sid = false
  gauge : e.gauge = 0

/-- A slot was in use when the gauge was written, or it is about to be. -/
def Used (e : Engine n) : Prop :=
  0 < e.gauge ∨ ∃ now sid, e.place = .collect now ∧ e.occupied sid = true

/-- What the steps use about a state of a run. -/
structure Settled (L : Llama) (cfg : EngineConfig) (e : Engine n) : Prop where
  coherent : Coherent L cfg e
  balanced : Balanced e

section steps

variable {L : Llama} {cfg : EngineConfig} {e : Engine n}

/-- A slot that is occupied after the admission holds a request with a
prompt. -/
theorem prompt_of_admitted (h : Coherent L cfg e) {l : List Request} (hp : e.place = .admission l)
    {sid : Fin n} (hocc : (l.foldl (Engine.admitOne L) e).occupied sid = true) :
    promptOf L ((l.foldl (Engine.admitOne L) e).request sid).payload ≠ [] := by
  have hlive := (admit_ok L cfg l e (h.at_admission hp) sid).resolve_left (not_idle hocc)
  have hprompt := hlive.prompt
  have hne := hlive.prompt_ne
  rw [hprompt] at hne
  exact hne

/-- The admission and the check for late requests, with no slot in use
before: a slot is in use behind them exactly when a request was served. -/
theorem used_after_admission (h : Settled L cfg e) {l : List Request}
    (hp : e.place = .admission l) (hfree : ∀ sid, e.occupied sid = false) (now : Int) :
    (∃ sid, ((l.foldl (Engine.admitOne L) e).retireExpired now).occupied sid = true) ↔
      ∃ r ∈ l, promptOf L r.payload ≠ [] ∧ now ≤ r.dueTime := by
  have hacc := h.balanced.accounts
  have hroom := h.balanced.room
  rw [hp] at hacc hroom
  have hadm := admission_holders (L := L) l e hacc hroom
  constructor
  · rintro ⟨sid, hocc⟩
    obtain ⟨hocc', hdue⟩ := (retireExpired_holders now _ sid).1.mp hocc
    rcases hadm.holder sid hocc' with ⟨hold, _⟩ | hmem
    · rw [hfree] at hold
      cases hold
    · exact ⟨_, hmem, prompt_of_admitted h.coherent hp hocc', hdue⟩
  · rintro ⟨r, hr, hsome, hdue⟩
    obtain ⟨sid, hocc, hreq⟩ := hadm.seated r hr hsome
    refine ⟨sid, (retireExpired_holders now _ sid).1.mpr ⟨hocc, ?_⟩⟩
    rw [hreq]
    exact hdue

theorem no_active (hfree : ∀ sid, e.occupied sid = false) : e.active = [] := by
  rw [List.eq_nil_iff_forall_not_mem]
  intro sid hmem
  rw [mem_active, hfree] at hmem
  cases hmem

/-- With an active slot, `collect` writes a positive gauge. -/
theorem gauge_collect_pos {sid : Fin n} (hocc : e.occupied sid = true) : 0 < e.collect.gauge := by
  have hmem := (mem_active e sid).mpr hocc
  have hpos : 0 < e.active.length := List.length_pos_of_mem hmem
  have hn : 0 < n := sid.pos
  have hshare : (0 : Rat) < (e.active.length : Rat) / n := by positivity
  rcases e.collect_cases with ⟨hnil, _⟩ | ⟨_, _, he⟩ | ⟨_, _, he⟩
  · rw [hnil] at hmem
    cases hmem
  · rw [he]
    exact hshare
  · rw [he]
    exact hshare

/-- With no active slot, `collect` changes nothing. -/
theorem collect_of_free (hfree : ∀ sid, e.occupied sid = false) :
    e.collect = { e with place := .top } := by
  have hnil := no_active hfree
  rcases e.collect_cases with ⟨_, he⟩ | ⟨hne, _⟩ | ⟨hne, _⟩
  · exact he
  · exact absurd hnil hne
  · exact absurd hnil hne

theorem unused_admission (h : Settled L cfg e) (hu : Unused e) {l : List Request}
    (hp : e.place = .admission l) (now : Int) :
    let e' := { (l.foldl (Engine.admitOne L) e).retireExpired now with place := .collect now }
    ((∀ r ∈ l, promptOf L r.payload = [] ∨ r.dueTime < now) → Unused e') ∧
      (¬ (∀ r ∈ l, promptOf L r.payload = [] ∨ r.dueTime < now) → Used e') := by
  intro e'
  have hserved := used_after_admission h hp hu.free now
  have hgauge : e'.gauge = 0 := by
    rw [← hu.gauge, ← Engine.gauge_admit L l e]
    exact Engine.gauge_retireExpired now _
  constructor
  · intro hall
    refine ⟨fun sid => ?_, hgauge⟩
    rw [← Bool.not_eq_true]
    intro hocc
    obtain ⟨r, hr, hsome, hdue⟩ := hserved.mp ⟨sid, hocc⟩
    rcases hall r hr with hnone | hlate
    · exact hsome hnone
    · omega
  · intro hnot
    push Not at hnot
    obtain ⟨sid, hocc⟩ := hserved.mpr hnot
    exact Or.inr ⟨now, sid, rfl, hocc⟩

theorem unused_tick (h : Settled L cfg e) (hu : Unused e) (env : Engine.Env) :
    (e.Unserved L (.tick env) → Unused (e.tick L cfg env)) ∧
      (¬ e.Unserved L (.tick env) → Used (e.tick L cfg env)) := by
  rcases e.tick_cases L cfg env with ⟨hb, p, _, he⟩ | ⟨hp, he⟩ | ⟨l, hp, he⟩ | ⟨now, hp, he⟩ |
    ⟨call, hp, he⟩
  · rw [he]
    refine ⟨fun _ => ⟨hu.free, hu.gauge⟩, fun hnot => absurd ?_ hnot⟩
    unfold Engine.Unserved
    cases hp : e.place <;> first | trivial | (rw [hp] at hb; cases hb)
  · rw [he]
    refine ⟨fun _ => ⟨hu.free, hu.gauge⟩, fun hnot => absurd ?_ hnot⟩
    simp only [Engine.Unserved, hp]
  · rw [he]
    simp only [Engine.Unserved, hp]
    exact unused_admission h hu hp env.now
  · rw [he, collect_of_free hu.free]
    refine ⟨fun _ => ⟨hu.free, hu.gauge⟩, fun hnot => absurd ?_ hnot⟩
    simp only [Engine.Unserved, hp]
  · obtain ⟨_, hcall⟩ := h.coherent.at_decode hp
    obtain ⟨sid, hmem⟩ := List.exists_mem_of_ne_nil _ hcall.nonempty
    have hocc := (hcall.active sid).mp hmem
    rw [hu.free] at hocc
    cases hocc

/-- Away from `collect`, a slot was in use only when the gauge was written. -/
theorem Used.gauge_pos (hu : Used e) (hp : ∀ now, e.place ≠ .collect now) : 0 < e.gauge := by
  rcases hu with hpos | ⟨now, _, hplace, _⟩
  · exact hpos
  · exact absurd hplace (hp now)

theorem used_tick (hu : Used e) (env : Engine.Env) : Used (e.tick L cfg env) := by
  rcases e.tick_cases L cfg env with ⟨hb, p, _, he⟩ | ⟨hp, he⟩ | ⟨l, hp, he⟩ | ⟨_, _, he⟩ |
    ⟨call, hp, he⟩
  · rw [he]
    apply Or.inl
    apply hu.gauge_pos
    intro now hc
    rw [hc] at hb
    cases hb
  · rw [he]
    exact Or.inl (hu.gauge_pos (by simp [hp]))
  · have hpos := hu.gauge_pos (by simp [hp])
    rw [← Engine.gauge_admit L l e, ← Engine.gauge_retireExpired env.now] at hpos
    rw [he]
    exact Or.inl hpos
  · rw [he]
    rcases hu with hpos | ⟨_, sid, _, hocc⟩
    · rcases e.collect_cases with ⟨_, hc⟩ | ⟨hne, _⟩ | ⟨hne, _⟩
      · rw [hc]
        exact Or.inl hpos
      all_goals
        obtain ⟨sid, hmem⟩ := List.exists_mem_of_ne_nil _ hne
        exact Or.inl (gauge_collect_pos ((mem_active e sid).mp hmem))
    · exact Or.inl (gauge_collect_pos hocc)
  · have hpos := hu.gauge_pos (by simp [hp])
    rw [← Engine.gauge_decoded L cfg e call env.decode] at hpos
    rw [he]
    exact Or.inl hpos

end steps

theorem settled_run (L : Llama) (cfg : EngineConfig) (as : List Engine.Action) :
    Settled L cfg ((engine L cfg).run as) :=
  ⟨coherent_run L cfg as, balanced_run L cfg as⟩

/-- As long as each step leaves the requests unserved, no slot was used, and
from the first one on that does not, one was. -/
theorem unused_or_used (L : Llama) (cfg : EngineConfig) (as : List Engine.Action) :
    ((engine L cfg).Meets (Engine.Unserved L) (engine L cfg).init as ∧
        Unused ((engine L cfg).run as)) ∨
      (¬ (engine L cfg).Meets (Engine.Unserved L) (engine L cfg).init as ∧
        Used ((engine L cfg).run as)) := by
  apply before_or_after (engine L cfg) (Engine.Unserved L) (Settled L cfg) Unused Used
    (settled_run L cfg)
  · exact ⟨fun _ => rfl, rfl⟩
  · intro e a h hu hun
    cases a with
    | enqueue req => exact ⟨hu.free, hu.gauge⟩
    | shutdown => exact ⟨hu.free, hu.gauge⟩
    | tick env => exact (unused_tick h hu env).1 hun
  · intro e a h hu hnot
    cases a with
    | enqueue req => exact absurd trivial hnot
    | shutdown => exact absurd trivial hnot
    | tick env => exact (unused_tick h hu env).2 hnot
  · intro e a _ hu
    cases a with
    | enqueue req => exact hu
    | shutdown => exact hu
    | tick env => exact used_tick hu env

/-- At each call of `llama_decode` the gauge is the share of occupied slots.
At rest it is 0 exactly when every request so far was refused by the
tokenizer or was already late when it was admitted. -/
theorem the_gauge_is_true_at_rest_iff (L : Llama) (cfg : EngineConfig)
    (as : List Engine.Action) :
    let e := (engine L cfg).run as
    (e.place = .wait → (∀ sid, e.occupied sid = false) →
      (e.metrics.kv_slot_utilization = 0 ↔
        (engine L cfg).Meets (Engine.Unserved L) (engine L cfg).init as)) ∧
    ∀ call, e.place = .decode call → e.metrics.kv_slot_utilization =
      ((Finset.univ.filter (fun sid => e.occupied sid = true)).card : Rat) / cfg.max_slots := by
  intro e
  constructor
  · intro hp _
    rcases unused_or_used L cfg as with ⟨hmet, hu⟩ | ⟨hnot, hu⟩
    · exact ⟨fun _ => hmet, fun _ => hu.gauge⟩
    · refine ⟨fun h0 => ?_, fun hmet => absurd hmet hnot⟩
      rcases hu with hpos | ⟨now, sid, hp', _⟩
      · exact absurd h0 hpos.ne'
      · have hwait : e.place = .collect now := hp'
        rw [hp] at hwait
        cases hwait
  · intro call hp
    have hgauge : Gauged e := invariant (engine L cfg) Gauged nofun (gauged_step L cfg) as
    have hcall := ((coherent_run L cfg as).at_decode hp).2
    have hset : Finset.univ.filter (fun sid => e.occupied sid = true) = call.active.toFinset := by
      ext sid
      simp [hcall.active sid, e]
    rw [hset, List.toFinset_card_of_nodup hcall.nodup]
    exact hgauge call hp

/-- One request runs to its end, and the engine waits for the next one. -/
def servedOnce : List Engine.Action := .enqueue helloRequest :: List.replicate 7 (.tick ⟨0, .ok⟩)

/-- The engine is idle, and its gauge says that all slots are in use. -/
theorem the_gauge_stays_up_after_the_last_request :
    let e := (engine (byteLlama fun _ => 0) { max_slots := 1 }).run servedOnce
    e.place = .wait ∧ (∀ sid, e.occupied sid = false) ∧ e.metrics.kv_slot_utilization = 1 :=
  ⟨rfl, by decide +kernel, by decide +kernel⟩

end inference_server
