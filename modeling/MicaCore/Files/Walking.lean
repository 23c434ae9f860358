import MicaCore.Files.Disk
import Mathlib.Data.List.Induction

namespace MicaCore.Files

open Data

namespace Walk

variable {w : Walk} {before : List Path} {next : ℕ → Path → Walk}

@[simp] theorem after_found : (w.after before).found = w.found := rfl

theorem andThen_ok {q : Path} (h : w.found = .ok q) :
    w.andThen next = (next w.left q).after w.trail := by
  rw [andThen, h]

theorem andThen_error {e : Failure} (h : w.found = .error e) : w.andThen next = w := by
  rw [andThen, h]

theorem after_andThen : (w.after before).andThen next = (w.andThen next).after before := by
  cases h : w.found with
  | error e => rw [andThen_error h, andThen_error (by simpa using h)]
  | ok q =>
    rw [andThen_ok h, andThen_ok (w := w.after before) (by simpa using h)]
    simp [after]

theorem andThen_assoc {last : ℕ → Path → Walk} :
    (w.andThen next).andThen last = w.andThen fun left q ↦ (next left q).andThen last := by
  cases h : w.found with
  | error e => rw [andThen_error h, andThen_error h, andThen_error h]
  | ok q => rw [andThen_ok h, andThen_ok h, after_andThen]

end Walk

namespace Disk

variable {d : Disk} {q : Path}

theorem entry_of_isPrefix {p : Path} (h : q <+: p) (hne : q ≠ p) (hp : d.entry p ≠ none) :
    d.entry q = some .dir := by
  obtain ⟨s, rfl⟩ := h
  induction s using List.reverseRecOn with
  | nil => simp at hne
  | append_singleton s n ih =>
    rw [← List.append_assoc] at hp
    have hdir := d.closed _ _ hp
    rcases s.eq_nil_or_concat' with rfl | ⟨s, m, rfl⟩
    · simpa using hdir
    · exact ih (by simp) (by simp [hdir])

def follow (d : Disk) : ℕ → ℕ → Path → List Part → Walk
  | 0 => fun _ _ _ ↦ ⟨[], .error .loop, 0⟩
  | depth + 1 => d.walk depth

theorem walk_eq (d : Disk) (depth : ℕ) : d.walk depth = d.walkWith (d.follow depth) := by
  cases depth <;> rfl

variable {follow : ℕ → Path → List Part → Walk} {left : ℕ} {p : Path} {rest : List Part}

theorem walkWith_of_not_dir {x : Part} (h : d.entry p ≠ some .dir) :
    d.walkWith follow left p (x :: rest) = ⟨[], .error .notDirectory, left⟩ := by
  rw [walkWith.eq_def]
  exact if_neg h

theorem walkWith_up (h : d.entry p = some .dir) :
    d.walkWith follow left p (.up :: rest) =
      (d.walkWith follow left p.dropLast rest).after [p.dropLast] := by
  rw [walkWith, if_pos h]

variable {n : Bytes}

theorem walkWith_missing (h : d.entry p = some .dir) (hn : d.entry (p ++ [n]) = none) :
    d.walkWith follow left p (.name n :: rest) = ⟨[], .error .notFound, left⟩ := by
  rw [walkWith, if_pos h]
  simp only [hn]

theorem walkWith_name {e : Entry} (h : d.entry p = some .dir)
    (hn : d.entry (p ++ [n]) = some e) (he : ∀ t, e ≠ .link t) :
    d.walkWith follow left p (.name n :: rest) =
      (d.walkWith follow left (p ++ [n]) rest).after [p ++ [n]] := by
  rw [walkWith, if_pos h]
  cases e with
  | dir | file => simp only [hn]
  | link t => exact absurd rfl (he t)

theorem walkWith_spent {t : Bytes} (h : d.entry p = some .dir)
    (hn : d.entry (p ++ [n]) = some (.link t)) :
    d.walkWith follow 0 p (.name n :: rest) = ⟨[], .error .loop, 0⟩ := by
  rw [walkWith, if_pos h]
  simp only [hn, if_true]

theorem walkWith_link {t : Bytes} (h : d.entry p = some .dir)
    (hn : d.entry (p ++ [n]) = some (.link t)) :
    d.walkWith follow (left + 1) p (.name n :: rest) =
      ((follow left (origin p t) (parts t)).after [origin p t]).andThen
        fun left q ↦ d.walkWith follow left q rest := by
  rw [walkWith, if_pos h]
  simp only [hn, Nat.succ_ne_zero, if_false, Nat.add_sub_cancel]

theorem part_cases (d : Disk) (p : Path) (x : Part) :
    d.entry p ≠ some .dir ∨ d.entry p = some .dir ∧
      (x = .up ∨ ∃ n, x = .name n ∧ (d.entry (p ++ [n]) = none ∨
        (∃ e, d.entry (p ++ [n]) = some e ∧ ∀ t, e ≠ .link t) ∨
        ∃ t, d.entry (p ++ [n]) = some (.link t))) := by
  by_cases h : d.entry p = some .dir
  · refine .inr ⟨h, ?_⟩
    cases x with
    | up => exact .inl rfl
    | name n =>
      refine .inr ⟨n, rfl, ?_⟩
      cases he : d.entry (p ++ [n]) with
      | none => exact .inl rfl
      | some e =>
        cases e with
        | link t => exact .inr (.inr ⟨t, rfl⟩)
        | dir | file => exact .inr (.inl ⟨_, rfl, by simp⟩)
  · exact .inl h

theorem walkWith_append (u v : List Part) :
    d.walkWith follow left p (u ++ v) =
      (d.walkWith follow left p u).andThen fun left q ↦ d.walkWith follow left q v := by
  induction u generalizing left p with
  | nil => rfl
  | cons x u ih =>
    rw [List.cons_append]
    rcases part_cases d p x with h | ⟨h, rfl | ⟨n, rfl, hn | ⟨e, hn, he⟩ | ⟨t, hn⟩⟩⟩
    · rw [walkWith_of_not_dir h, walkWith_of_not_dir h]
      rfl
    · rw [walkWith_up h, walkWith_up h, ih, Walk.after_andThen]
    · rw [walkWith_missing h hn, walkWith_missing h hn]
      rfl
    · rw [walkWith_name h hn he, walkWith_name h hn he, ih, Walk.after_andThen]
    · cases left with
      | zero =>
        rw [walkWith_spent h hn, walkWith_spent h hn]
        rfl
      | succ left =>
        rw [walkWith_link h hn, walkWith_link h hn, Walk.andThen_assoc]
        simp only [ih]

variable (depth : ℕ)

theorem walk_append (u v : List Part) :
    d.walk depth left p (u ++ v) =
      (d.walk depth left p u).andThen fun left q ↦ d.walk depth left q v := by
  rw [walk_eq]
  exact walkWith_append u v

end Disk

end MicaCore.Files
