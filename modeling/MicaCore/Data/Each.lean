import Mathlib.Data.List.Basic

namespace MicaCore.Data

variable {α : Type}

/-- Every entry of a list is backed by the entries before it. -/
def Each (J : List α → α → Prop) (l : List α) : Prop :=
  ∀ before entry after, l = before ++ entry :: after → J before entry

theorem append_singleton_eq_split {a entry : α} {l before after : List α}
    (h : l ++ [a] = before ++ entry :: after) :
    (l = before ∧ a = entry) ∨ ∃ rest, l = before ++ entry :: rest := by
  rcases List.eq_nil_or_concat after with rfl | ⟨rest, last, rfl⟩
  · obtain ⟨hl, ha⟩ := List.append_inj' h rfl
    exact .inl ⟨hl, List.singleton_inj.1 ha⟩
  · rw [List.concat_eq_append, ← List.cons_append, ← List.append_assoc] at h
    exact .inr ⟨rest, (List.append_inj' h rfl).1⟩

namespace Each

variable {J : List α → α → Prop} {l : List α} {a : α}

theorem nil : Each J ([] : List α) := by
  intro before entry after h
  simp at h

theorem snoc (h : Each J l) (ha : J l a) : Each J (l ++ [a]) := by
  intro before entry after hsplit
  rcases append_singleton_eq_split hsplit with ⟨rfl, rfl⟩ | ⟨rest, hrest⟩
  · exact ha
  · exact h before entry rest hrest

theorem append {more : List α} (h : Each J l)
    (hmore : ∀ before, l <+: before → ∀ entry ∈ more, J before entry) : Each J (l ++ more) := by
  induction more generalizing l with
  | nil => simpa using h
  | cons entry more ih =>
    have hentry := hmore l List.prefix_rfl entry List.mem_cons_self
    have hnext := ih (h.snoc hentry) fun before hl e he ↦
      hmore before ((List.prefix_append l [entry]).trans hl) e (List.mem_cons_of_mem _ he)
    simpa using hnext

theorem of_append {more : List α} (h : Each J (l ++ more)) : Each J l := by
  rintro before entry after rfl
  exact h before entry (after ++ more) (by simp)

end Each

end MicaCore.Data
