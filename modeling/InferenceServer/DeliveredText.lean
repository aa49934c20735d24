-- Whether a generated answer is UTF-8 when the whole text is. A token may carry
-- part of a code point, the limit may fall behind it, and a piece that does not
-- fit the buffer is left out.
import InferenceServer.StandAlone
import InferenceServer.Failures
import InferenceServer.Lib.Code

namespace inference_server

open machine generation code

/-! ## What is delivered of the full text -/

theorem isUtf8_iff_text (s : Bytes) : IsUtf8 s ↔ Text String.utf8EncodeChar s := by
  constructor
  · rintro ⟨cs, hcs⟩
    refine ⟨cs, ?_⟩
    have hlist := congrArg (fun b => b.data.toList) hcs
    simpa [List.utf8Encode] using hlist
  · rintro ⟨cs, rfl⟩
    exact ⟨cs, rfl⟩

/-- The bytes of the full text, each with the answer whether it is delivered:
its token comes before the limit, and its piece fits the buffer. -/
def marked (L : Llama) (limit : Nat) (toks : List Token) : List (UInt8 × Bool) :=
  (toks.take limit).flatMap (fun tok => (L.llama_token_to_piece tok).map
    (fun b => (b, decide ((L.llama_token_to_piece tok).length ≤ 256)))) ++
  (toks.drop limit).flatMap (fun tok => (L.llama_token_to_piece tok).map (fun b => (b, false)))

section marked

variable (L : Llama) (limit : Nat) (toks : List Token)

theorem marked_text :
    (marked L limit toks).map Prod.fst = toks.flatMap L.llama_token_to_piece := by
  have hpiece : ∀ (p : Token → Bool) (tok : Token),
      ((L.llama_token_to_piece tok).map (fun b => (b, p tok))).map Prod.fst =
        L.llama_token_to_piece tok := by
    intro p tok
    rw [List.map_map]
    exact List.map_id _
  unfold marked
  rw [List.map_append, List.map_flatMap, List.map_flatMap]
  simp only [hpiece (fun tok => decide ((L.llama_token_to_piece tok).length ≤ 256)),
    hpiece (fun _ => false)]
  rw [← List.flatMap_append, List.take_append_drop]

/-- What the callback gets are the bytes that are marked. -/
theorem kept_marked : kept (marked L limit toks) = (toks.take limit).flatMap (pieceOf L) := by
  have hrest : kept ((toks.drop limit).flatMap
      (fun tok => (L.llama_token_to_piece tok).map (fun b => (b, false)))) = [] := by
    simp [kept, List.filter_flatMap, List.filter_map]
  unfold marked
  rw [kept_append, hrest, List.append_nil]
  unfold kept
  rw [List.filter_flatMap, List.map_flatMap]
  congr 1
  funext tok
  by_cases hfits : (L.llama_token_to_piece tok).length ≤ 256
  · simp [pieceOf, hfits, List.filter_map, Function.comp_def]
  · simp [pieceOf, hfits, List.filter_map, Function.comp_def]

end marked

/-- Between any two code points that are delivered whole, the delivered bytes
make up code points by themselves. -/
def DeliversCodePoints (L : Llama) (limit : Nat) (toks : List Token) : Prop :=
  ∀ stretch ∈ stretches (words UInt8.IsUTF8FirstByte (marked L limit toks)),
    IsUtf8 (kept stretch.flatten)

/-- The limit falls between two code points of the full text, or behind it. -/
def LimitBetweenCodePoints (L : Llama) (limit : Nat) (toks : List Token) : Prop :=
  ∀ b ∈ ((toks.drop limit).flatMap L.llama_token_to_piece).head?, b.IsUTF8FirstByte

section delivered

variable {L : Llama} {toks : List Token}

theorem delivered_iff (hutf8 : IsUtf8 (toks.flatMap L.llama_token_to_piece)) (limit : Nat) :
    IsUtf8 ((toks.take limit).flatMap (pieceOf L)) ↔ DeliversCodePoints L limit toks := by
  have htext : Text String.utf8EncodeChar ((marked L limit toks).map Prod.fst) := by
    rw [marked_text]
    exact (isUtf8_iff_text _).mp hutf8
  unfold DeliversCodePoints
  simp only [isUtf8_iff_text]
  rw [← kept_marked]
  exact kept_iff utf8 htext

/-- When every piece fits the buffer, only the limit can cut a code point. -/
theorem delivered_iff_limit (hutf8 : IsUtf8 (toks.flatMap L.llama_token_to_piece)) (limit : Nat)
    (hpiece : ∀ tok ∈ toks, (L.llama_token_to_piece tok).length ≤ 256) :
    IsUtf8 ((toks.take limit).flatMap (pieceOf L)) ↔ LimitBetweenCodePoints L limit toks := by
  have hfront : (toks.take limit).flatMap (pieceOf L) =
      (toks.take limit).flatMap L.llama_token_to_piece := by
    apply List.flatMap_congr
    intro tok htok
    exact if_pos (hpiece tok (List.mem_of_mem_take htok))
  have htext : Text String.utf8EncodeChar ((toks.take limit).flatMap L.llama_token_to_piece ++
      (toks.drop limit).flatMap L.llama_token_to_piece) := by
    rw [← List.flatMap_append, List.take_append_drop]
    exact (isUtf8_iff_text _).mp hutf8
  rw [hfront, isUtf8_iff_text]
  exact text_take_iff utf8 htext

end delivered

/-! ## The law of delivered text -/

/-- When the whole text of a generation is UTF-8, its answer is UTF-8 and can
be written as JSON exactly when what is delivered between two whole code
points is UTF-8. If all pieces fit the buffer, this means that the limit does
not fall into a code point. -/
theorem delivered_text_is_encodable_iff (L : Llama) (cfg : EngineConfig)
    (as : List Engine.Action) (promise : Nat) (result : Bytes) (req : Request)
    (toks : List Token)
    (hdone : Event.completed promise .generated result ∈ ((engine L cfg).run as).trace)
    (hreq : ((engine L cfg).run as).enqueued[promise]? = some req)
    (hchain : Chain L.pick L.llama_vocab_is_eog (promptOf L req.payload) toks)
    (hend : L.llama_vocab_is_eog (L.pick (promptOf L req.payload ++ toks)) = true)
    (hutf8 : IsUtf8 (toks.flatMap L.llama_token_to_piece)) :
    (IsUtf8 result ↔ DeliversCodePoints L (cfg.tokens req) toks) ∧
    ((inferResult result).dumps = true ↔ DeliversCodePoints L (cfg.tokens req) toks) ∧
    (∀ id created model, IsUtf8 model →
      ((chatResult id created model result).dumps = true ↔
        DeliversCodePoints L (cfg.tokens req) toks)) ∧
    ((∀ tok ∈ toks, (L.llama_token_to_piece tok).length ≤ 256) →
      (DeliversCodePoints L (cfg.tokens req) toks ↔
        LimitBetweenCodePoints L (cfg.tokens req) toks)) := by
  obtain ⟨r, hr, hresult⟩ :=
    faithful_run L cfg as (promise, result) ((mem_generatedAnswers _ promise result).mpr hdone)
  rw [hreq] at hr
  cases hr
  have hresult : result = (toks.take (cfg.tokens req)).flatMap (pieceOf L) := by
    rw [← generate_take hchain hend]
    exact hresult
  have hiff := delivered_iff hutf8 (cfg.tokens req)
  rw [← hresult] at hiff
  refine ⟨hiff, ?_, ?_, ?_⟩
  · rw [inferResult_dumps, decide_eq_true_eq]
    exact hiff
  · intro id created model hmodel
    rw [chatResult_dumps, Bool.and_eq_true, decide_eq_true_eq, decide_eq_true_eq]
    exact (and_iff_right hmodel).trans hiff
  · intro hpiece
    rw [← hiff, hresult]
    exact delivered_iff_limit hutf8 (cfg.tokens req) hpiece

/-! The answer is the letter é, one byte a token. -/

/-- Says `é` and ends. -/
def letterLlama : Llama :=
  byteLlama (fun cached =>
    if cached.length = 55 then 0xC3 else if cached.length = 56 then 0xA9 else 0)

def letterWork (limit : Int) : Request := { helloWork with max_new_tokens := limit }

def letterRun (limit : Int) : List Engine.Action :=
  .enqueue (letterWork limit) :: List.replicate 16 (.tick ⟨0, .ok⟩)

/-- The tokens of the letter follow the prompt. -/
theorem letter_chain :
    Chain letterLlama.pick letterLlama.llama_vocab_is_eog
      (promptOf letterLlama helloWork.payload) [0xC3, 0xA9] := by
  have hfirst : Chain letterLlama.pick letterLlama.llama_vocab_is_eog
      (promptOf letterLlama helloWork.payload) ([] ++ [0xC3]) :=
    .snoc .nil (by decide +kernel) (by decide +kernel)
  exact .snoc hfirst (by decide +kernel) (by decide +kernel)

theorem a_whole_letter_is_delivered : (inferResult [0xC3, 0xA9]).dumps = true := by
  have h := delivered_text_is_encodable_iff letterLlama { max_slots := 1 } (letterRun 0) 0
    [0xC3, 0xA9] { letterWork 0 with on_complete := some 0 } [0xC3, 0xA9] (by decide +kernel)
    (by decide +kernel) letter_chain (by decide +kernel) (by decide +kernel)
  exact h.2.1.mpr ((h.2.2.2 (by decide)).mpr nofun)

/-- With a limit of one token the client gets a bare 500. -/
theorem half_a_letter_is_not_encodable :
    let e := (engine letterLlama { max_slots := 1 }).run (letterRun 1)
    let body := inferBody {
      tenant_id := bytes "t1"
      payload := bytes "hello"
      deadline_ms := 5000
      max_new_tokens := 1 }
    ∃ respond, (postInfer letThrough (some body)).reaction = .dispatched (letterWork 1) respond ∧
      e.enqueued[0]? = some { letterWork 1 with on_complete := some 0 } ∧
      Event.completed 0 .generated [0xC3] ∈ e.trace ∧
      Chain letterLlama.pick letterLlama.llama_vocab_is_eog
        (promptOf letterLlama (letterWork 1).payload) [0xC3, 0xA9] ∧
      letterLlama.llama_vocab_is_eog (letterLlama.pick
        (promptOf letterLlama (letterWork 1).payload ++ [0xC3, 0xA9])) = true ∧
      IsUtf8 (([0xC3, 0xA9] : List Token).flatMap letterLlama.llama_token_to_piece) ∧
      ¬ IsUtf8 [0xC3] ∧ (respond [0xC3]).status = 500 ∧ (respond [0xC3]).body = none := by
  refine ⟨_, rfl, ?_, ?_, letter_chain, ?_, ?_, ?_, ?_, ?_⟩
  all_goals decide +kernel

end inference_server
