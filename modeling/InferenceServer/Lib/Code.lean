-- Texts made of code words, where the first letter of a word can be told from
-- the letters behind it: what is left of such a text when letters are left out.
import Mathlib.Data.List.SplitBy

namespace code

variable {γ α : Type*}

/-- The text is a row of code words. -/
def Text (enc : γ → List α) (s : List α) : Prop := ∃ cs : List γ, s = cs.flatMap enc

/-- Each word has a first letter, that no other letter of a word looks like,
and no word is the start of another one. -/
structure SelfSynchronizing (enc : γ → List α) (first : α → Prop) : Prop where
  word : ∀ c, ∃ x t, enc c = x :: t ∧ first x ∧ ∀ y ∈ t, ¬ first y
  prefix_free : ∀ c d, enc c <+: enc d → enc c = enc d

section text

variable {enc : γ → List α} {first : α → Prop}

theorem text_nil (enc : γ → List α) : Text enc [] := ⟨[], rfl⟩

theorem text_word (enc : γ → List α) (c : γ) : Text enc (enc c) := ⟨[c], by simp⟩

theorem Text.append {a b : List α} (ha : Text enc a) (hb : Text enc b) : Text enc (a ++ b) := by
  obtain ⟨cs, rfl⟩ := ha
  obtain ⟨ds, rfl⟩ := hb
  exact ⟨cs ++ ds, by rw [List.flatMap_append]⟩

theorem SelfSynchronizing.ne_nil (h : SelfSynchronizing enc first) (c : γ) : enc c ≠ [] := by
  obtain ⟨x, t, hc, _⟩ := h.word c
  rw [hc]
  exact List.cons_ne_nil x t

/-- A text begins with a first letter. -/
theorem first_head (h : SelfSynchronizing enc first) {s : List α} (hs : Text enc s) :
    ∀ y ∈ s.head?, first y := by
  obtain ⟨cs, rfl⟩ := hs
  cases cs with
  | nil => nofun
  | cons c cs =>
    obtain ⟨x, t, hc, hx, _⟩ := h.word c
    rw [List.flatMap_cons, hc]
    simpa using hx

/-- A text that is cut in front of a first letter, or at its end, is cut
between two words. -/
theorem text_split (h : SelfSynchronizing enc first) {a x : List α} (hs : Text enc (a ++ x))
    (hx : ∀ y ∈ x.head?, first y) : Text enc a ∧ Text enc x := by
  obtain ⟨cs, hcs⟩ := hs
  induction cs generalizing a with
  | nil =>
    obtain ⟨rfl, rfl⟩ := List.append_eq_nil_iff.mp hcs
    exact ⟨text_nil enc, text_nil enc⟩
  | cons c cs ih =>
    by_cases ha : a = []
    · subst ha
      exact ⟨text_nil enc, c :: cs, hcs⟩
    rw [List.flatMap_cons] at hcs
    rcases List.append_eq_append_iff.mp hcs with ⟨b, hword, hrest⟩ | ⟨b, rfl, hrest⟩
    · -- the cut falls into the first word, so what is behind it begins that word's tail
      by_cases hb : b = []
      · subst hb
        rw [List.append_nil] at hword
        exact ⟨hword ▸ text_word enc c, cs, by rw [hrest, List.nil_append]⟩
      · obtain ⟨z, t, hc, _, htail⟩ := h.word c
        obtain ⟨y, b, rfl⟩ := List.exists_cons_of_ne_nil hb
        obtain ⟨w, a, rfl⟩ := List.exists_cons_of_ne_nil ha
        rw [hc, List.cons_append, List.cons.injEq] at hword
        have hy : y ∈ t := by simp [hword.2]
        have hfirst : first y := hx y (by simp [hrest])
        exact absurd hfirst (htail y hy)
    · obtain ⟨htext, hx'⟩ := ih hrest.symm
      exact ⟨(text_word enc c).append htext, hx'⟩

/-- What follows a word of a text is a text. -/
theorem text_behind_word (h : SelfSynchronizing enc first) {c : γ} {b : List α}
    (hs : Text enc (enc c ++ b)) : Text enc b := by
  obtain ⟨ds, hds⟩ := hs
  cases ds with
  | nil => exact absurd (List.append_eq_nil_iff.mp hds).1 (h.ne_nil c)
  | cons d ds =>
    rw [List.flatMap_cons] at hds
    have hwords : enc c = enc d := by
      rcases List.append_eq_append_iff.mp hds with ⟨t, ht, _⟩ | ⟨t, ht, _⟩
      · exact h.prefix_free c d ⟨t, ht.symm⟩
      · exact (h.prefix_free d c ⟨t, ht.symm⟩).symm
    rw [hwords] at hds
    exact ⟨ds, List.append_cancel_left hds⟩

/-- A word that stands whole in a text divides it. -/
theorem text_around (h : SelfSynchronizing enc first) (a b : List α) (c : γ) :
    Text enc (a ++ enc c ++ b) ↔ Text enc a ∧ Text enc b := by
  constructor
  · intro hs
    rw [List.append_assoc] at hs
    obtain ⟨x, t, hc, hx, _⟩ := h.word c
    obtain ⟨ha, hrest⟩ := text_split h hs (by simpa [hc] using hx)
    exact ⟨ha, text_behind_word h hrest⟩
  · rintro ⟨ha, hb⟩
    exact (ha.append (text_word enc c)).append hb

/-- A text is cut between two words if and only if what is in front of the
cut is a text. -/
theorem text_take_iff (h : SelfSynchronizing enc first) {a x : List α} (hs : Text enc (a ++ x)) :
    Text enc a ↔ ∀ y ∈ x.head?, first y := by
  constructor
  · rintro ⟨cs, rfl⟩
    apply first_head h
    induction cs with
    | nil => simpa using hs
    | cons c cs ih =>
      rw [List.flatMap_cons, List.append_assoc] at hs
      exact ih (text_behind_word h hs)
  · exact fun hx => (text_split h hs hx).1

end text

/-! ## Letters left out -/

/-- The letters that are kept. -/
def kept (m : List (α × Bool)) : List α := (m.filter Prod.snd).map Prod.fst

theorem kept_append (m m' : List (α × Bool)) : kept (m ++ m') = kept m ++ kept m' := by
  simp [kept]

/-- All letters of the word are kept. -/
def whole (w : List (α × Bool)) : Bool := w.all Prod.snd

theorem kept_whole {w : List (α × Bool)} (h : whole w = true) : kept w = w.map Prod.fst := by
  unfold whole at h
  rw [kept, List.filter_eq_self.mpr (List.all_eq_true.mp h)]

variable {enc : γ → List α} {first : α → Prop}

/-- The rows between words that are kept whole. -/
def stretches (ws : List (List (α × Bool))) : List (List (List (α × Bool))) := ws.splitOnP whole

/-- With letters left out of a text, what is kept is a text if and only if
this holds between any two words that are kept whole. -/
theorem kept_text_iff (h : SelfSynchronizing enc first) (ws : List (List (α × Bool)))
    (hws : ∀ w ∈ ws, ∃ c, w.map Prod.fst = enc c) :
    Text enc (kept ws.flatten) ↔ ∀ s ∈ stretches ws, Text enc (kept s.flatten) := by
  -- what is kept of the words since the last whole one is in front of the rest
  have hpending : ∀ (ws : List (List (α × Bool))) (pending : List α),
      (∀ w ∈ ws, ∃ c, w.map Prod.fst = enc c) → ∃ s rest, stretches ws = s :: rest ∧
        (Text enc (pending ++ kept ws.flatten) ↔
          Text enc (pending ++ kept s.flatten) ∧ ∀ s ∈ rest, Text enc (kept s.flatten)) := by
    intro ws
    induction ws with
    | nil =>
      intro pending _
      exact ⟨[], [], List.splitOnP_nil, by simp⟩
    | cons w ws ih =>
      intro pending hws
      obtain ⟨c, hc⟩ := hws w (by simp)
      have hrest := fun w hw => hws w (List.mem_cons_of_mem _ hw)
      have hstep : stretches (w :: ws) = if whole w then [] :: stretches ws
          else (stretches ws).modifyHead (List.cons w) := List.splitOnP_cons_eq_if_modifyHead w ws
      rw [hstep, List.flatten_cons, kept_append, ← List.append_assoc]
      by_cases hw : whole w = true
      · obtain ⟨s, rest, hs, hiff⟩ := ih [] hrest
        rw [if_pos hw, kept_whole hw, hc, text_around h]
        refine ⟨[], stretches ws, rfl, ?_⟩
        rw [List.nil_append, List.nil_append] at hiff
        rw [hiff, hs, List.forall_mem_cons]
        simp [kept]
      · obtain ⟨s, rest, hs, hiff⟩ := ih (pending ++ kept w) hrest
        rw [if_neg hw, hs]
        refine ⟨w :: s, rest, rfl, ?_⟩
        rw [hiff, List.flatten_cons, kept_append, List.append_assoc, ← List.append_assoc]
  obtain ⟨s, rest, hs, hiff⟩ := hpending ws [] hws
  rw [List.nil_append, List.nil_append] at hiff
  rw [hiff, hs, List.forall_mem_cons]

/-! ## Finding the words -/

/-- A marked text, cut in front of each first letter. -/
def words (first : α → Prop) [DecidablePred first] (m : List (α × Bool)) :
    List (List (α × Bool)) := m.splitBy (fun _ y => !decide (first y.1))

section words

variable [DecidablePred first]

/-- The letters of one word stay together. -/
theorem words_word (h : SelfSynchronizing enc first) {m : List (α × Bool)} {c : γ}
    (hm : m.map Prod.fst = enc c) : words first m = [m] := by
  have hchain : ∀ (x : α × Bool) (t : List (α × Bool)), (∀ y ∈ t, ¬ first y.1) →
      (x :: t).IsChain (fun _ y => (!decide (first y.1)) = true) := by
    intro x t ht
    induction t generalizing x with
    | nil => exact List.isChain_singleton x
    | cons y t ih =>
      rw [List.isChain_cons_cons]
      exact ⟨by simpa using ht y (by simp), ih y (fun z hz => ht z (List.mem_cons_of_mem _ hz))⟩
  obtain ⟨x, t, hc, _, htail⟩ := h.word c
  cases m with
  | nil =>
    rw [hc] at hm
    cases hm
  | cons y m =>
    rw [hc, List.map_cons, List.cons.injEq] at hm
    apply List.splitBy_of_isChain (List.cons_ne_nil y m)
    apply hchain
    intro z hz
    apply htail
    rw [← hm.2]
    exact List.mem_map_of_mem hz

/-- The words of a marked text are found where its first letters are. -/
theorem words_of_text (h : SelfSynchronizing enc first) {m : List (α × Bool)}
    (hm : Text enc (m.map Prod.fst)) :
    (words first m).flatten = m ∧ ∀ w ∈ words first m, ∃ c, w.map Prod.fst = enc c := by
  refine ⟨List.flatten_splitBy _ m, ?_⟩
  obtain ⟨cs, hcs⟩ := hm
  induction cs generalizing m with
  | nil =>
    rw [List.flatMap_nil, List.map_eq_nil_iff] at hcs
    subst hcs
    nofun
  | cons c cs ih =>
    rw [List.flatMap_cons] at hcs
    obtain ⟨m₁, m₂, rfl, hm₁, hm₂⟩ := List.map_eq_append_iff.mp hcs
    have hcut : words first (m₁ ++ m₂) = words first m₁ ++ words first m₂ := by
      apply List.splitBy_append
      intro x _ y hy
      have hfirst : first y.1 := by
        apply first_head h ⟨cs, hm₂⟩
        rw [List.head?_map, Option.mem_def.mp hy]
        rfl
      simp [hfirst]
    rw [hcut, words_word h hm₁]
    intro w hw
    rcases List.mem_cons.mp hw with rfl | hw
    · exact ⟨c, hm₁⟩
    · exact ih hm₂ w hw

/-- What is kept of a text is a text if and only if this holds between any two
words that are kept whole. -/
theorem kept_iff (h : SelfSynchronizing enc first) {m : List (α × Bool)}
    (hm : Text enc (m.map Prod.fst)) :
    Text enc (kept m) ↔ ∀ s ∈ stretches (words first m), Text enc (kept s.flatten) := by
  obtain ⟨hflat, hwords⟩ := words_of_text h hm
  have hiff := kept_text_iff h (words first m) hwords
  rw [hflat] at hiff
  exact hiff

end words

/-! ## UTF-8 -/

/-- A code point has one first byte, and the bytes say where it ends. -/
theorem utf8 : SelfSynchronizing String.utf8EncodeChar UInt8.IsUTF8FirstByte := by
  constructor
  · intro c
    have hfirst : ∀ i (hi : i < (String.utf8EncodeChar c).length),
        (String.utf8EncodeChar c)[i].IsUTF8FirstByte ↔ i = 0 :=
      fun _ _ => UInt8.isUTF8FirstByte_getElem_utf8EncodeChar
    have hlen := c.utf8Size_pos
    rw [← String.length_utf8EncodeChar] at hlen
    obtain ⟨x, t, hc⟩ := List.exists_cons_of_length_pos hlen
    rw [hc] at hfirst
    refine ⟨x, t, hc, (hfirst 0 (by simp)).mpr rfl, ?_⟩
    intro y hy hy'
    obtain ⟨i, hi, rfl⟩ := List.getElem_of_mem hy
    have hzero := (hfirst (i + 1) (by simpa using hi)).mp (by simpa using hy')
    omega
  · rintro c d ⟨b, hb⟩
    have hdecode := ByteArray.utf8DecodeChar?_utf8EncodeChar_append (b := b.toByteArray) (c := c)
    have hempty := ByteArray.utf8DecodeChar?_utf8EncodeChar_append (b := [].toByteArray) (c := d)
    rw [← List.toByteArray_append, hb] at hdecode
    rw [← List.toByteArray_append, List.append_nil, hdecode] at hempty
    cases hempty
    rfl

end code
