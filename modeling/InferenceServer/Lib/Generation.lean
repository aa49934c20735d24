-- Generation of a sequence one token at a time, by any rule that picks the
-- next token from all tokens so far.
import Mathlib.Data.List.Basic

namespace generation

variable {τ : Type*} (next : List τ → τ) (stop : τ → Bool)

/-- At most `limit` tokens after the tokens `seen`, up to and without the
first token that stops the generation. -/
def generate : Nat → List τ → List τ
  | 0, _ => []
  | limit + 1, seen =>
    let tok := next seen
    if stop tok then [] else tok :: generate limit (seen ++ [tok])

/-- How often a token is picked: once for each token of the generation, and
once more for a token that stops it. -/
def rounds : Nat → List τ → Nat
  | 0, _ => 0
  | limit + 1, seen =>
    let tok := next seen
    if stop tok then 1 else rounds limit (seen ++ [tok]) + 1

/-- Each token of the list was picked after the prompt and the tokens before
it, and none stops the generation. -/
inductive Chain (prompt : List τ) : List τ → Prop
  | nil : Chain prompt []
  | snoc {out : List τ} {tok : τ} :
      Chain prompt out → next (prompt ++ out) = tok → stop tok = false → Chain prompt (out ++ [tok])

variable {next stop} {prompt out : List τ}

/-- A chain is the start of the generation, whatever limit is left after it. -/
theorem generate_chain (h : Chain next stop prompt out) (k : Nat) :
    generate next stop (out.length + k) prompt =
      out ++ generate next stop k (prompt ++ out) := by
  induction h generalizing k with
  | nil => simp
  | @snoc out tok _ hnext hstop ih =>
    have hlen : (out ++ [tok]).length + k = out.length + (k + 1) := by
      simp only [List.length_append, List.length_singleton]
      omega
    rw [hlen, ih (k + 1)]
    simp [generate, hnext, hstop]

/-- A chain whose next token stops is the whole generation. -/
theorem generate_at_stop (h : Chain next stop prompt out) {limit : Nat}
    (hstop : stop (next (prompt ++ out)) = true) (hlimit : out.length ≤ limit) :
    generate next stop limit prompt = out := by
  obtain ⟨k, rfl⟩ := Nat.exists_eq_add_of_le hlimit
  rw [generate_chain h]
  cases k with
  | zero => simp [generate]
  | succ k => simp [generate, hstop]

/-- A chain as long as the limit is the whole generation. -/
theorem generate_at_limit (h : Chain next stop prompt out) {limit : Nat}
    (hlimit : out.length = limit) : generate next stop limit prompt = out := by
  have := generate_chain h 0
  simpa [generate, hlimit] using this

theorem Chain.take (h : Chain next stop prompt out) (k : Nat) :
    Chain next stop prompt (out.take k) := by
  induction h with
  | nil =>
    rw [List.take_nil]
    exact .nil
  | @snoc out tok hchain hnext hstop ih =>
    by_cases hk : k ≤ out.length
    · rw [List.take_append_of_le_length hk]
      exact ih
    · rw [List.take_of_length_le (by rw [List.length_append, List.length_singleton]; omega)]
      exact .snoc hchain hnext hstop

/-- With a limit, the generation is the start of the whole one. -/
theorem generate_take (h : Chain next stop prompt out)
    (hstop : stop (next (prompt ++ out)) = true) (limit : Nat) :
    generate next stop limit prompt = out.take limit := by
  by_cases hlimit : out.length ≤ limit
  · rw [List.take_of_length_le hlimit]
    exact generate_at_stop h hstop hlimit
  · apply generate_at_limit (h.take limit)
    rw [List.length_take]
    omega

/-! ## How many picks -/

theorem rounds_pos {limit : Nat} (h : 0 < limit) (seen : List τ) :
    0 < rounds next stop limit seen := by
  cases limit with
  | zero => exact absurd h (Nat.lt_irrefl 0)
  | succ k =>
    simp only [rounds]
    split <;> omega

end generation
