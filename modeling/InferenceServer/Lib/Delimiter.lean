-- Texts that are cut at a delimiter. A delimiter that does not overlap itself
-- stands at the same places however a text that contains it is read.
import Mathlib.Data.List.Infix

namespace delimiter

variable {α : Type*}

/-- No proper end of the text is also a start of it. -/
def Unbordered (d : List α) : Prop := ∀ k < d.length, 0 < k → ¬ d.drop k <+: d

instance [DecidableEq α] (d : List α) : Decidable (Unbordered d) :=
  inferInstanceAs (Decidable (∀ k < d.length, 0 < k → ¬ d.drop k <+: d))

theorem unbordered_singleton (c : α) : Unbordered [c] := by
  intro k hk h0
  rw [List.length_singleton] at hk
  omega

variable {d a b x y : List α}

/-- Two occurrences of the delimiter do not overlap: the later one starts
behind the first one. -/
theorem no_overlap (hd : Unbordered d) (ha : a ≠ []) (h : a ++ d ++ x = d ++ y) :
    ∃ e, a = d ++ e ∧ y = e ++ d ++ x := by
  rw [List.append_assoc] at h
  rcases List.append_eq_append_iff.mp h with ⟨e, hsplit, hrest⟩ | ⟨e, hsplit, hrest⟩
  · -- the later one starts within the first one, or right behind it
    have hend : e = d.drop a.length := by rw [hsplit, List.drop_left]
    have hshort : e.length ≤ d.length := by
      rw [hend, List.length_drop]
      omega
    have hfront : e <+: d ++ x := ⟨y, hrest.symm⟩
    have hstart : e <+: d :=
      List.prefix_of_prefix_length_le hfront (List.prefix_append d x) hshort
    by_cases hlt : a.length < d.length
    · rw [hend] at hstart
      exact absurd hstart (hd a.length hlt (List.length_pos_of_ne_nil ha))
    · have hnil : e = [] := by rw [hend, List.drop_eq_nil_of_le (not_lt.mp hlt)]
      subst hnil
      rw [List.append_nil] at hsplit
      exact ⟨[], by rw [hsplit, List.append_nil], hrest.symm⟩
  · exact ⟨e, hsplit, by rw [hrest, List.append_assoc]⟩

/-- Two ways to cut a text at the delimiter: they are the same, or the part in
front of one of the cuts contains the other cut. -/
theorem cut_cases (hd : Unbordered d) (h : a ++ d ++ x = b ++ d ++ y) :
    (a = b ∧ x = y) ∨ (∃ e, a = b ++ d ++ e ∧ y = e ++ d ++ x) ∨
      (∃ e, b = a ++ d ++ e ∧ x = e ++ d ++ y) := by
  have hcut : a ++ (d ++ x) = b ++ (d ++ y) := by simpa using h
  rcases List.append_eq_append_iff.mp hcut with ⟨e, rfl, hrest⟩ | ⟨e, rfl, hrest⟩
  · by_cases he : e = []
    · subst he
      exact Or.inl ⟨by simp, List.append_cancel_left hrest⟩
    · obtain ⟨f, rfl, hx⟩ := no_overlap (x := y) (y := x) hd he (by simpa using hrest.symm)
      exact Or.inr (Or.inr ⟨f, by simp, hx⟩)
  · by_cases he : e = []
    · subst he
      exact Or.inl ⟨by simp, (List.append_cancel_left hrest).symm⟩
    · obtain ⟨f, rfl, hy⟩ := no_overlap (x := x) (y := y) hd he (by simpa using hrest.symm)
      exact Or.inr (Or.inl ⟨f, by simp, hy⟩)

/-- The first occurrence of the delimiter cuts the text in one way. -/
theorem cut_unique (hd : Unbordered d) (ha : ¬ d <:+: a) (hb : ¬ d <:+: b)
    (h : a ++ d ++ x = b ++ d ++ y) : a = b ∧ x = y := by
  rcases cut_cases hd h with heq | ⟨e, he, _⟩ | ⟨e, he, _⟩
  · exact heq
  · exact absurd ⟨b, e, he.symm⟩ ha
  · exact absurd ⟨a, e, he.symm⟩ hb

end delimiter
