-- Requests and replies over one channel. The server answers the requests in
-- the order of their sending, and a reply does not say whose it is. When each
-- reply is taken by the client that has waited longest, all get their own.
import Mathlib.Data.List.Nodup
import Mathlib.Logic.Function.Basic

namespace exchange

/-- The requests on the way, the replies on the way, and the clients that
wait, each in order. The client beside a reply is only a record. -/
structure Exchange (ι Q A : Type*) where
  requests : List (ι × Q)
  replies : List (ι × A)
  waiting : List ι

variable {ι Q A : Type*}

namespace Exchange

def empty : Exchange ι Q A := { requests := [], replies := [], waiting := [] }

def send (x : Exchange ι Q A) (i : ι) (q : Q) : Exchange ι Q A :=
  { x with requests := x.requests ++ [(i, q)], waiting := x.waiting ++ [i] }

/-- The server answers the oldest request. -/
def serve (x : Exchange ι Q A) (a : A) : Exchange ι Q A :=
  match x.requests with
  | [] => x
  | (i, _) :: rest => { x with requests := rest, replies := x.replies ++ [(i, a)] }

variable [DecidableEq ι]

/-- The client `i` takes the oldest reply, if there is one. -/
def take (x : Exchange ι Q A) (i : ι) : Option ((ι × A) × Exchange ι Q A) :=
  match x.replies with
  | [] => none
  | p :: rest => some (p, { x with replies := rest, waiting := x.waiting.erase i })

/-- Replies and then requests belong to those who wait, in their order, and
each reply is what was `made` for its client. -/
structure Matched (x : Exchange ι Q A) (made : ι → Option A) : Prop where
  nodup : x.waiting.Nodup
  order : x.replies.map Prod.fst ++ x.requests.map Prod.fst = x.waiting
  made : ∀ p ∈ x.replies, made p.1 = some p.2

omit [DecidableEq ι] in
theorem matched_empty (made : ι → Option A) : (empty : Exchange ι Q A).Matched made :=
  ⟨List.nodup_nil, rfl, by simp [empty]⟩

section matched

variable {x : Exchange ι Q A} {made : ι → Option A} (h : x.Matched made)

include h

omit [DecidableEq ι] in
theorem Matched.waits_of_reply {p : ι × A} (hp : p ∈ x.replies) : p.1 ∈ x.waiting := by
  rw [← h.order]
  exact List.mem_append_left _ (List.mem_map_of_mem hp)

theorem Matched.send {i : ι} (hi : i ∉ x.waiting) (q : Q) :
    (x.send i q).Matched (Function.update made i none) := by
  refine ⟨?_, ?_, ?_⟩
  · apply List.Nodup.append h.nodup (List.nodup_singleton i)
    simpa using hi
  · simp [Exchange.send, ← h.order]
  · intro p hp
    have hne : p.1 ≠ i := by
      rintro rfl
      exact hi (h.waits_of_reply hp)
    rw [Function.update_of_ne hne]
    exact h.made p hp

theorem Matched.serve {i : ι} {q : Q} {rest : List (ι × Q)} (hx : x.requests = (i, q) :: rest)
    (a : A) : (x.serve a).Matched (Function.update made i (some a)) := by
  have horder := h.order
  rw [hx, List.map_cons] at horder
  have hfresh : ∀ p ∈ x.replies, p.1 ≠ i := by
    rintro p hp rfl
    have hnodup := h.nodup
    rw [← horder, List.nodup_append] at hnodup
    exact hnodup.2.2 p.1 (List.mem_map_of_mem hp) p.1 (by simp) rfl
  unfold Exchange.serve
  rw [hx]
  refine ⟨h.nodup, ?_, ?_⟩
  · simp [← horder]
  · intro p hp
    rcases List.mem_append.mp hp with hp | hp
    · rw [Function.update_of_ne (hfresh p hp)]
      exact h.made p hp
    · obtain rfl := List.mem_singleton.mp hp
      simp

/-- The oldest reply was made for who has waited longest. -/
theorem Matched.head_of_take {i : ι} {p : ι × A} {x' : Exchange ι Q A}
    (ht : x.take i = some (p, x')) : x.waiting.head? = some p.1 := by
  unfold Exchange.take at ht
  split at ht
  · cases ht
  · rename_i q rest hreplies
    cases ht
    rw [← h.order, hreplies]
    rfl

/-- Who has waited longest gets its own reply. -/
theorem Matched.take {i : ι} (hi : x.waiting.head? = some i) {p : ι × A} {x' : Exchange ι Q A}
    (ht : x.take i = some (p, x')) :
    p.1 = i ∧ made i = some p.2 ∧ x'.Matched made ∧ x'.waiting = x.waiting.erase i := by
  have hpi : p.1 = i := by
    rw [h.head_of_take ht] at hi
    exact Option.some.inj hi
  subst hpi
  unfold Exchange.take at ht
  split at ht
  · cases ht
  · rename_i q rest hreplies
    cases ht
    have horder := h.order
    rw [hreplies, List.map_cons, List.cons_append] at horder
    refine ⟨rfl, h.made p (by simp [hreplies]), ⟨h.nodup.erase p.1, ?_, ?_⟩, rfl⟩
    · rw [← horder, List.erase_cons_head]
    · intro q hq
      exact h.made q (by simp [hreplies, hq])

end matched

end Exchange

end exchange
