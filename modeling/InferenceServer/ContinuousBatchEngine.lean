-- The continuous batching engine (`src/continuous_batch_engine.cpp`) as a
-- state machine. One tick of the engine thread runs from one point of
-- `engine_loop` where another thread can be seen to the next one: the test of
-- `running_`, the wait, the drain under the lock, and the calls between them.
-- Calls of `enqueue` and `shutdown` may land between any two ticks.
import InferenceServer.KVSlotManager
import Mathlib.Data.Rat.Init

namespace inference_server

open machine

/-! ## llama.cpp -/

/-- What the engine asks of llama.cpp. `llama_tokenize` takes the text and
the size of the buffer, and gives its return value with the tokens that it
wrote. `next` is the token that the greedy sampler picks after the given
(position, token) contents of one sequence. -/
structure Llama where
  llama_tokenize : Bytes → Nat → Int × List Token
  next : List (Nat × Token) → Token
  llama_vocab_is_eog : Token → Bool
  llama_token_to_piece : Token → Bytes

/-- One cell of the KV cache. -/
structure Cell (n : Nat) where
  seq_id : Fin n
  pos : Nat
  token : Token
  deriving DecidableEq, Repr

/-- One entry of a `llama_batch`. `n_seq_id` is always 1. -/
structure BatchEntry (n : Nat) where
  token : Token
  pos : Nat
  seq_id : Fin n
  logits : Bool
  deriving DecidableEq, Repr

def BatchEntry.cell {n : Nat} (x : BatchEntry n) : Cell n := ⟨x.seq_id, x.pos, x.token⟩

/-- `llama_kv_self_seq_rm(ctx_, seq_id, 0, -1)`, the `free_fn_` of the pool. -/
def seqRm {n : Nat} (cells : List (Cell n)) (seq_id : Fin n) : List (Cell n) :=
  cells.filter (fun c => c.seq_id ≠ seq_id)

/-- The cells that the model attends to at a batch entry: those of the same
sequence, up to and with the position of the entry. -/
def history {n : Nat} (cells : List (Cell n)) (x : BatchEntry n) : List (Nat × Token) :=
  (cells.filter (fun c => c.seq_id = x.seq_id ∧ c.pos ≤ x.pos)).map (fun c => (c.pos, c.token))

/-- How one `llama_decode` call ends. A call that fails may leave the cells
of some first entries of its batch behind. -/
inductive DecodeOutcome where
  | ok
  | failed (cached : Nat)
  deriving DecidableEq, Repr

/-- `llama_sampler_sample(sampler, ctx_, idx)` after a decode of `batch` that
left `cells`. An index with no output row has no history to read. -/
def llamaSamplerSample {n : Nat} (L : Llama) (cells : List (Cell n)) (batch : List (BatchEntry n))
    (idx : Int) : Token :=
  match (batch[idx.toNat]?).filter (fun x => 0 ≤ idx ∧ x.logits) with
  | some x => L.next (history cells x)
  | none => L.next []

/-! ## The state of the engine -/

inductive Sampler where
  | greedy
  deriving DecidableEq, Repr

/-- The four places that call `on_complete`. -/
inductive Exit where
  | tokenization_failed
  | deadline_exceeded
  | decode_failed
  | generated
  deriving DecidableEq, Repr

/-- What an observer of the engine thread sees, in order. -/
inductive Event (n : Nat) where
  | acquired (sid : Fin n) (req : Request)
  | acquireFailed (req : Request)
  | completed (promise : Nat) (exit : Exit) (result : Bytes)
  | released (sid : Fin n) (occupied : Bool)
  | submitted (batch : List (BatchEntry n))
  | sampled (sid : Fin n) (tok : Token)
  deriving DecidableEq, Repr

/-- The metrics that the engine writes. The last field only records: the
promises of the requests that the engine counted in `requests_total`. -/
structure Metrics where
  requests_total : Nat := 0
  requests_deadline_exceeded : Nat := 0
  requests_inflight : Int := 0
  kv_slot_utilization : Rat := 0
  batch_size : List Nat := []
  counted : List (Option Nat) := []

/-- The locals that live across the `llama_decode` call. -/
structure DecodeCall (n : Nat) where
  active : List (Fin n)
  batch : List (BatchEntry n)
  logit_pos : Fin n → Int

/-- Where the engine thread stands in `engine_loop`. -/
inductive Place (n : Nat) where
  | top
  | wait
  | drain
  | admission (toAdmit : List Request)
  | collect (now : Int)
  | decode (call : DecodeCall n)
  | exited

/-- The engine, the KV cache of its context, the queue, and where its thread
stands. The last two fields only record: the requests ever enqueued, and the
events. -/
structure Engine (n : Nat) where
  slots : KVSlotManager n
  samplers : Fin n → Option Sampler
  results : Fin n → Bytes
  prompt_tokens : Fin n → List Token
  tokens_generated : Fin n → Nat
  in_prefill : Fin n → Bool
  cells : List (Cell n)
  pending : List Request
  running : Bool
  metrics : Metrics
  place : Place n
  enqueued : List Request
  trace : List (Event n)

namespace Engine

variable {n : Nat}

/-- The engine as its constructor leaves it, the thread started. -/
def new (n : Nat) : Engine n where
  slots := .new n
  samplers := fun _ => none
  results := fun _ => []
  prompt_tokens := fun _ => []
  tokens_generated := fun _ => 0
  in_prefill := fun _ => false
  cells := []
  pending := []
  running := true
  metrics := {}
  place := .top
  enqueued := []
  trace := []

def log (e : Engine n) (ev : Event n) : Engine n := { e with trace := e.trace ++ [ev] }

def occupied (e : Engine n) (sid : Fin n) : Bool := (e.slots.slots sid).occupied

def request (e : Engine n) (sid : Fin n) : Request := (e.slots.slots sid).request

/-- `if (req.on_complete) req.on_complete(result)`. -/
def complete (e : Engine n) (req : Request) (exit : Exit) (result : Bytes) : Engine n :=
  match req.on_complete with
  | some promise => e.log (.completed promise exit result)
  | none => e

/-- `metrics_.requests_total.Increment()`. -/
def countTotal (e : Engine n) : Engine n :=
  { e with metrics := { e.metrics with requests_total := e.metrics.requests_total + 1 } }

/-- The same for the request in a slot, with a record of it. -/
def countTotalFor (e : Engine n) (sid : Fin n) : Engine n :=
  { e with metrics := { e.metrics with
      requests_total := e.metrics.requests_total + 1
      counted := e.metrics.counted ++ [(e.request sid).on_complete] } }

/-- `metrics_.requests_deadline_exceeded.Increment()`. -/
def countExpired (e : Engine n) : Engine n :=
  { e with metrics := { e.metrics with
      requests_deadline_exceeded := e.metrics.requests_deadline_exceeded + 1 } }

/-- `slots_.release(sid)`, with the `free_fn_` that the constructor gave it. -/
def release (e : Engine n) (sid : Fin n) : Engine n :=
  { e with
    cells := seqRm e.cells sid
    slots := e.slots.release sid
    trace := e.trace ++ [.released sid (e.occupied sid)] }

def retireSlot (e : Engine n) (sid : Fin n) : Engine n :=
  release
    { e with
      samplers := Function.update e.samplers sid none
      results := Function.update e.results sid []
      prompt_tokens := Function.update e.prompt_tokens sid []
      tokens_generated := Function.update e.tokens_generated sid 0
      in_prefill := Function.update e.in_prefill sid false }
    sid

/-! A callback changes nothing but the record of events. -/

section complete

variable (e : Engine n) (req : Request) (exit : Exit) (result : Bytes)

/-- What `complete` does: with a promise it records the call, without one
it does nothing. -/
theorem complete_eq : e.complete req exit result =
    { e with trace := e.trace ++
      (req.on_complete.map (fun promise => Event.completed promise exit result)).toList } := by
  unfold complete log
  rcases req.on_complete with _ | promise
  · simp
  · rfl

@[simp] theorem complete_slots : (e.complete req exit result).slots = e.slots := by
  rw [complete_eq]

@[simp] theorem complete_pending : (e.complete req exit result).pending = e.pending := by
  rw [complete_eq]

@[simp] theorem complete_running : (e.complete req exit result).running = e.running := by
  rw [complete_eq]

@[simp] theorem complete_enqueued : (e.complete req exit result).enqueued = e.enqueued := by
  rw [complete_eq]

@[simp] theorem complete_occupied : (e.complete req exit result).occupied = e.occupied := by
  rw [complete_eq]; rfl

end complete

section retire

variable (e : Engine n) (sid : Fin n)

@[simp] theorem release_slots : (e.release sid).slots = e.slots.release sid := rfl
@[simp] theorem release_pending : (e.release sid).pending = e.pending := rfl
@[simp] theorem release_enqueued : (e.release sid).enqueued = e.enqueued := rfl
@[simp] theorem release_trace :
    (e.release sid).trace = e.trace ++ [.released sid (e.occupied sid)] := rfl

@[simp] theorem retireSlot_slots : (e.retireSlot sid).slots = e.slots.release sid := rfl
@[simp] theorem retireSlot_pending : (e.retireSlot sid).pending = e.pending := rfl
@[simp] theorem retireSlot_enqueued : (e.retireSlot sid).enqueued = e.enqueued := rfl
@[simp] theorem retireSlot_trace :
    (e.retireSlot sid).trace = e.trace ++ [.released sid (e.occupied sid)] := rfl

end retire

end Engine

/-! ## `admit_pending` -/

/-- The loop under the lock: moves requests from the front of the queue
while a slot is left for each. -/
def drainLoop : Nat → List Request → List Request → List Request × List Request
  | canAdmit + 1, toAdmit, req :: pending => drainLoop canAdmit (toAdmit ++ [req]) pending
  | _, toAdmit, pending => (toAdmit, pending)

def imStart : Bytes := bytes "<|im_start|>"

/-- The text that is tokenized: a payload in ChatML as it is, and any other
payload as one user turn. -/
def formatted (payload : Bytes) : Bytes :=
  if imStart.isPrefixOf payload then payload
  else bytes "<|im_start|>user\n" ++ payload ++ bytes "<|im_end|>\n<|im_start|>assistant\n"

/-- The two calls of `llama_tokenize`: the second one only when the first
says that the buffer was too small. -/
def tokenizeText (L : Llama) (text : Bytes) : Int × List Token :=
  let first := L.llama_tokenize text (text.length + 16)
  if first.1 < 0 then L.llama_tokenize text (-first.1).toNat else first

/-- `toks.resize(n)`. -/
def resize (toks : List Token) (n : Nat) : List Token :=
  toks.take n ++ List.replicate (n - toks.length) 0

theorem resize_length (toks : List Token) (k : Nat) : (resize toks k).length = k := by
  simp only [resize, List.length_append, List.length_take, List.length_replicate]
  omega

/-- The prompt of a payload, as admission leaves it in `prompt_tokens_`. -/
def promptOf (L : Llama) (payload : Bytes) : List Token :=
  let t := tokenizeText L (formatted payload)
  resize t.2 t.1.toNat

namespace Engine

variable {n : Nat}

/-- `prompt_tokens_[sid]` takes new contents. -/
def setPrompt (e : Engine n) (sid : Fin n) (toks : List Token) : Engine n :=
  { e with prompt_tokens := Function.update e.prompt_tokens sid toks }

/-- One turn of the admit loop after `acquire` gave the slot `sid`. -/
def admitTo (L : Llama) (e : Engine n) (sid : Fin n) : Engine n :=
  let t := tokenizeText L (formatted (e.request sid).payload)
  if t.1 ≤ 0 then
    -- whatever else the buffer holds is overwritten before it is read
    let e := e.setPrompt sid t.2
    (e.complete (e.request sid) .tokenization_failed
      (bytes "\x7b\"error\":\"tokenization_failed\"\x7d")).release sid
  else
    { e.setPrompt sid (resize t.2 t.1.toNat) with
      in_prefill := Function.update e.in_prefill sid true
      results := Function.update e.results sid []
      tokens_generated := Function.update e.tokens_generated sid 0
      samplers := Function.update e.samplers sid (some .greedy) }

/-- One turn of the admit loop. -/
def admitOne (L : Llama) (e : Engine n) (req : Request) : Engine n :=
  match e.slots.acquire req with
  | (slots, some sid) => admitTo L (({ e with slots := slots }).log (.acquired sid req)) sid
  | (slots, none) => ({ e with slots := slots }).log (.acquireFailed req)

/-! ## `retire_expired` -/

def retireExpiredTurn (now : Int) (e : Engine n) (sid : Fin n) : Engine n :=
  if !e.occupied sid then e
  else if now > (e.request sid).dueTime then
    let e := e.complete (e.request sid) .deadline_exceeded
      (bytes "\x7b\"error\":\"deadline_exceeded\"\x7d")
    (e.countExpired.countTotalFor sid).retireSlot sid
  else e

def retireExpired (e : Engine n) (now : Int) : Engine n :=
  (List.finRange n).foldl (retireExpiredTurn now) e

/-! ## The batch -/

/-- The occupied slots, in the order of their indices. -/
def active (e : Engine n) : List (Fin n) := (List.finRange n).filter e.occupied

/-- The tokens that the slot adds to the batch, as counted beforehand. -/
def slotTokens (e : Engine n) (sid : Fin n) : Nat :=
  if e.in_prefill sid then (e.prompt_tokens sid).length else 1

end Engine

/-- What the build loop writes: the batch, `logit_pos`, and `kv_pos` of the
slots. -/
structure Build (n : Nat) where
  slots : KVSlotManager n
  batch : List (BatchEntry n)
  logit_pos : Fin n → Int

namespace Build

variable {n : Nat}

/-- One turn of the inner loop, at token `j` of a prompt of `size` tokens. -/
def prefillTurn (sid : Fin n) (size : Nat) (b : Build n) (tok : Token × Nat) : Build n :=
  let idx := b.batch.length
  let last := decide (tok.2 + 1 = size)
  { b with
    batch := b.batch ++ [⟨tok.1, tok.2, sid, last⟩]
    logit_pos := if last then Function.update b.logit_pos sid idx else b.logit_pos }

/-- One turn of the build loop: all prompt tokens of a slot in prefill, or
the last sampled token of a slot that generates. -/
def turn (e : Engine n) (b : Build n) (sid : Fin n) : Build n :=
  if e.in_prefill sid then
    let toks := e.prompt_tokens sid
    let b := toks.zipIdx.foldl (prefillTurn sid toks.length) b
    { b with slots := b.slots.modify sid (fun s => { s with kv_pos := toks.length }) }
  else
    let s := b.slots.slots sid
    { slots := b.slots.modify sid (fun s => { s with kv_pos := s.kv_pos + 1 })
      batch := b.batch ++ [⟨s.last_token, s.kv_pos, sid, true⟩]
      logit_pos := Function.update b.logit_pos sid b.batch.length }

end Build

namespace Engine

variable {n : Nat}

def build (e : Engine n) : Build n :=
  e.active.foldl (Build.turn e) { slots := e.slots, batch := [], logit_pos := fun _ => -1 }

/-- From the end of `retire_expired` to the call of `llama_decode`. -/
def collect (e : Engine n) : Engine n :=
  let active := e.active
  if active.isEmpty then { e with place := .top }
  else
    let e := { e with metrics :=
      { e.metrics with kv_slot_utilization := (active.length : Rat) / n } }
    if (active.map e.slotTokens).sum = 0 then { e with place := .top }
    else
      let b := e.build
      { e with
        slots := b.slots
        metrics := { e.metrics with
          requests_inflight := e.metrics.requests_inflight + active.length }
        place := .decode ⟨active, b.batch, b.logit_pos⟩
        trace := e.trace ++ [.submitted b.batch] }

/-! ## After `llama_decode` -/

/-- One turn of the loop that answers a failed decode. -/
def decodeFailedTurn (e : Engine n) (sid : Fin n) : Engine n :=
  if !e.occupied sid then e
  else
    let e := e.complete (e.request sid) .decode_failed
      (bytes "\x7b\"error\":\"decode_failed\"\x7d")
    (e.countTotalFor sid).retireSlot sid

end Engine

/-- The piece of a token, through the buffer of 256 bytes. A longer piece
gives a negative count, and the source then appends nothing. -/
def pieceOf (L : Llama) (tok : Token) : Bytes :=
  let piece := L.llama_token_to_piece tok
  if piece.length ≤ 256 then piece else []

namespace Engine

variable {n : Nat}

/-- What a sampled token that does not end the generation writes. -/
def append (L : Llama) (e : Engine n) (sid : Fin n) (tok : Token) : Engine n :=
  { e with
    results := Function.update e.results sid (e.results sid ++ pieceOf L tok)
    slots := e.slots.modify sid (fun s => { s with last_token := tok })
    in_prefill := Function.update e.in_prefill sid false
    tokens_generated := Function.update e.tokens_generated sid (e.tokens_generated sid + 1) }

/-- One turn of the sampling loop. `cells` is the cache that the decode left. -/
def sampleTurn (L : Llama) (cfg : EngineConfig) (cells : List (Cell n)) (call : DecodeCall n)
    (e : Engine n) (sid : Fin n) : Engine n :=
  if !e.occupied sid then e
  else
    let tok := llamaSamplerSample L cells call.batch (call.logit_pos sid)
    let eos := L.llama_vocab_is_eog tok
    let e := e.log (.sampled sid tok)
    let e := if eos then e else e.append L sid tok
    let limit := cfg.limit (e.request sid)
    let max_hit := decide ((e.tokens_generated sid : Int) ≥ limit)
    if eos || max_hit then
      let e := e.countTotalFor sid
      (e.complete (e.request sid) .generated (e.results sid)).retireSlot sid
    else e

/-- From the return of `llama_decode` to the next test of `running_`. -/
def decoded (L : Llama) (cfg : EngineConfig) (e : Engine n) (call : DecodeCall n) :
    DecodeOutcome → Engine n
  | .failed cached =>
    let e := { e with cells := e.cells ++ (call.batch.take cached).map BatchEntry.cell }
    let e := call.active.foldl decodeFailedTurn e
    { e with
      metrics := { e.metrics with
        requests_inflight := e.metrics.requests_inflight - call.active.length }
      place := .top }
  | .ok =>
    let e := { e with cells := e.cells ++ call.batch.map BatchEntry.cell }
    let e := call.active.foldl (sampleTurn L cfg e.cells call) e
    { e with
      metrics := { e.metrics with
        requests_inflight := e.metrics.requests_inflight - call.active.length
        batch_size := e.metrics.batch_size ++ [call.active.length] }
      place := .top }

/-! ## The machine -/

/-- What the environment chooses for one tick: the clock, and how a decode
ends. -/
structure Env where
  now : Int
  decode : DecodeOutcome

/-- One tick of the engine thread. A thread that waits with nothing to do,
and a thread that has left the loop, stay where they are. -/
def tick (L : Llama) (cfg : EngineConfig) (e : Engine n) (env : Env) : Engine n :=
  match e.place with
  | .top =>
    if !e.running then { e with place := .exited }
    else if e.slots.free_count = n then { e with place := .wait }
    else { e with place := .drain }
  | .wait =>
    if !e.pending.isEmpty || !e.running then
      if !e.running then { e with place := .exited } else { e with place := .drain }
    else e
  | .drain =>
    let d := drainLoop e.slots.free_count.toNat [] e.pending
    { e with pending := d.2, place := .admission d.1 }
  | .admission toAdmit =>
    { (toAdmit.foldl (admitOne L) e).retireExpired env.now with place := .collect env.now }
  | .collect _ => e.collect
  | .decode call => e.decoded L cfg call env.decode
  | .exited => e

inductive Action where
  | enqueue (req : Request)
  | shutdown
  | tick (env : Env)

/-- One step of the whole. Both front ends put a fresh promise into
`on_complete` before they call `enqueue`; its number is its place among all
the requests ever enqueued. -/
def step (L : Llama) (cfg : EngineConfig) (e : Engine n) : Action → Engine n
  | .enqueue req =>
    let req := { req with on_complete := some e.enqueued.length }
    { e with pending := e.pending ++ [req], enqueued := e.enqueued ++ [req] }
  | .shutdown => { e with running := false }
  | .tick env => e.tick L cfg env

end Engine

/-- The engine of a configuration, as a machine. -/
def engine (L : Llama) (cfg : EngineConfig) : Machine (Engine cfg.max_slots) Engine.Action :=
  { init := .new cfg.max_slots, step := Engine.step L cfg }

/-! ## A small model to run the engine on -/

/-- One token for each byte. -/
def byteTokens (text : Bytes) : List Token := text.map (fun b => (b.toNat : Int))

/-- The tokens are bytes, and token 0 ends the generation. -/
def byteLlama (next : List (Nat × Token) → Token) : Llama where
  llama_tokenize text n_max :=
    if text.length ≤ n_max then (text.length, byteTokens text) else (-text.length, [])
  next := next
  llama_vocab_is_eog tok := tok = 0
  llama_token_to_piece tok := [tok.toNat.toUInt8]

/-- The request of the tests, `make_request(1)`. -/
def helloRequest : Request where
  id := 1
  tenant_id := bytes "t1"
  payload := bytes "hello"
  priority := .Normal
  enqueue_time := 0
  deadline := 5000

/-! ## What llama.cpp promises -/

/-- `llama_tokenize` returns the count when the buffer is large enough, and
minus the needed size when it is not. -/
structure Llama.Tokenizes (L : Llama) (tokens : Bytes → List Token) : Prop where
  fits : ∀ text n_max, (tokens text).length ≤ n_max →
    L.llama_tokenize text n_max = (((tokens text).length : Int), tokens text)
  needs : ∀ text n_max, n_max < (tokens text).length →
    (L.llama_tokenize text n_max).1 = -((tokens text).length : Int)

/-- The two calls of `llama_tokenize` give the tokens of the text. -/
theorem tokenizeText_eq {L : Llama} {tokens : Bytes → List Token} (h : L.Tokenizes tokens)
    (text : Bytes) : tokenizeText L text = (((tokens text).length : Int), tokens text) := by
  unfold tokenizeText
  by_cases hle : (tokens text).length ≤ text.length + 16
  · rw [h.fits _ _ hle]
    exact if_neg (by simp)
  · have hneg := h.needs text (text.length + 16) (by omega)
    have hlt : (L.llama_tokenize text (text.length + 16)).1 < 0 := by omega
    simp only [hlt, if_true]
    rw [hneg, neg_neg, Int.toNat_natCast]
    exact h.fits _ _ (Nat.le_refl _)

theorem promptOf_eq {L : Llama} {tokens : Bytes → List Token} (h : L.Tokenizes tokens)
    (payload : Bytes) : promptOf L payload = tokens (formatted payload) := by
  simp [promptOf, tokenizeText_eq h, resize]

theorem pieceOf_eq {L : Llama} (h : ∀ tok, (L.llama_token_to_piece tok).length ≤ 256) :
    pieceOf L = L.llama_token_to_piece := by
  funext tok
  exact if_pos (h tok)

theorem tokenizes_byteLlama (next : List (Nat × Token) → Token) :
    (byteLlama next).Tokenizes byteTokens where
  fits text n_max h := by
    simp only [byteTokens, List.length_map] at h ⊢
    exact if_pos h
  needs text n_max h := by
    simp only [byteTokens, List.length_map] at h ⊢
    simp only [byteLlama]
    rw [if_neg (by omega)]

end inference_server
