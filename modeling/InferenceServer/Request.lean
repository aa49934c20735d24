-- The request that both front ends hand to the engine (`include/request.h`),
-- and the engine's limits (`EngineConfig`).
import Mathlib.Data.List.Basic

namespace inference_server

/-- A `std::string`: a list of bytes, with no encoding promised. -/
abbrev Bytes := List UInt8

/-- The bytes of a string literal of the source, which are all ASCII. -/
def bytes (s : String) : Bytes := s.toList.map (fun c => c.toNat.toUInt8)

/-- A `llama_token`. -/
abbrev Token := Int

inductive Priority where
  | Low
  | Normal
  | High
  deriving DecidableEq, Repr

/-- `on_complete` names the promise that the callback fulfils. `none` is an
empty `std::function`. Times are in nanoseconds, the deadline is in
milliseconds. -/
structure Request where
  id : Nat
  tenant_id : Bytes
  payload : Bytes
  priority : Priority
  enqueue_time : Int
  deadline : Int
  max_new_tokens : Int := 0
  on_complete : Option Nat := none
  deriving DecidableEq, Repr

/-- `Request{}`: every field zero. -/
def Request.empty : Request :=
  { id := 0, tenant_id := [], payload := [], priority := .Low, enqueue_time := 0, deadline := 0 }

/-- The last moment at which the request is not late. -/
def Request.dueTime (r : Request) : Int := r.enqueue_time + r.deadline * 1000000

structure EngineConfig where
  max_slots : Nat := 16
  max_tokens : Int := 128
  deriving Repr

/-- The token limit of one request: its own when it set one, else the limit
of the engine. -/
def EngineConfig.limit (cfg : EngineConfig) (r : Request) : Int :=
  if r.max_new_tokens > 0 then r.max_new_tokens else cfg.max_tokens

theorem limit_pos (cfg : EngineConfig) (r : Request) (h : 1 ≤ cfg.max_tokens) :
    0 < cfg.limit r := by
  unfold EngineConfig.limit
  split <;> omega

end inference_server
