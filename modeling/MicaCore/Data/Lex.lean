import Mathlib.Data.Prod.Lex
import Mathlib.Order.PiLex
import Mathlib.Algebra.Order.Ring.Nat
import Mathlib.Data.Nat.Digits.Lemmas
import Mathlib.Tactic.Ring

namespace MicaCore.Data

section Sequences

variable {β : Type} [LinearOrder β]

theorem compare_toLex_succ (f g : ℕ → β) : compare (toLex f) (toLex g) =
    (compare (f 0) (g 0)).then (compare (toLex fun i ↦ f (i + 1)) (toLex fun i ↦ g (i + 1))) := by
  have hlt : ∀ f g : ℕ → β, f 0 = g 0 → toLex (fun i ↦ f (i + 1)) < toLex (fun i ↦ g (i + 1)) →
      toLex f < toLex g := by
    rintro f g hzero ⟨i, hbefore, hless⟩
    refine ⟨i + 1, fun j hj ↦ ?_, hless⟩
    cases j with
    | zero => exact hzero
    | succ j => exact hbefore j (Nat.lt_of_succ_lt_succ hj)
  have hfirst : ∀ f g : ℕ → β, f 0 < g 0 → toLex f < toLex g :=
    fun f g h ↦ ⟨0, fun j hj ↦ absurd hj (Nat.not_lt_zero j), h⟩
  cases h : compare (f 0) (g 0) with
  | lt => exact compare_lt_iff_lt.2 (hfirst f g (compare_lt_iff_lt.1 h))
  | gt => exact compare_gt_iff_gt.2 (hfirst g f (compare_gt_iff_gt.1 h))
  | eq =>
    have hzero : f 0 = g 0 := compare_eq_iff_eq.1 h
    rw [Ordering.eq_then]
    cases hrest : compare (toLex fun i ↦ f (i + 1)) (toLex fun i ↦ g (i + 1)) with
    | lt => exact compare_lt_iff_lt.2 (hlt f g hzero (compare_lt_iff_lt.1 hrest))
    | gt => exact compare_gt_iff_gt.2 (hlt g f hzero.symm (compare_gt_iff_gt.1 hrest))
    | eq =>
      have hsame : (fun i ↦ f (i + 1)) = fun i ↦ g (i + 1) := toLex.injective (compare_eq_iff_eq.1 hrest)
      have hfg : f = g := by
        funext i
        cases i with
        | zero => exact hzero
        | succ i => exact congrFun hsame i
      rw [hfg]
      exact compare_eq_iff_eq.2 rfl

theorem compare_toLex_prod {α : Type} [LinearOrder α] (a a' : α) (b b' : β) :
    compare (toLex (a, b)) (toLex (a', b')) = (compare a a').then (compare b b') := by
  rw [Prod.Lex.compare_def]
  rfl

end Sequences

section Numbers

def ofDigits (digits : List ℕ) : ℕ := Nat.ofDigits 10 digits.reverse

theorem ofDigits_cons (d : ℕ) (digits : List ℕ) :
    ofDigits (d :: digits) = d * 10 ^ digits.length + ofDigits digits := by
  rw [ofDigits, ofDigits, List.reverse_cons, Nat.ofDigits_append, Nat.ofDigits_singleton,
    List.length_reverse]
  ring

theorem ofDigits_lt {digits : List ℕ} (h : ∀ d ∈ digits, d < 10) :
    ofDigits digits < 10 ^ digits.length := by
  rw [← List.length_reverse]
  exact Nat.ofDigits_lt_base_pow_length (by decide) fun d hd ↦ h d (List.mem_reverse.1 hd)

theorem ofDigits_dropWhile (digits : List ℕ) :
    ofDigits (digits.dropWhile (· = 0)) = ofDigits digits := by
  induction digits with
  | nil => rfl
  | cons d digits ih =>
    rw [List.dropWhile_cons]
    split
    · next hzero =>
      obtain rfl : d = 0 := by simpa using hzero
      rw [ih, ofDigits_cons, Nat.zero_mul, Nat.zero_add]
    · rfl

variable {a b : List ℕ}

theorem compare_ofDigits_of_length (ha : ∀ d ∈ a, d < 10) (hb : ∀ d ∈ b, d < 10)
    (h : a.length = b.length) : compare (ofDigits a) (ofDigits b) = compare a b := by
  induction a generalizing b with
  | nil =>
    obtain rfl : b = [] := List.length_eq_zero_iff.1 h.symm
    rfl
  | cons x a ih =>
    cases b with
    | nil => cases h
    | cons y b =>
      obtain ⟨-, ha⟩ := List.forall_mem_cons.1 ha
      obtain ⟨-, hb⟩ := List.forall_mem_cons.1 hb
      have hlength : a.length = b.length := Nat.succ.inj h
      have hless := ofDigits_lt ha
      have hless' := ofDigits_lt hb
      rw [← hlength] at hless'
      rw [ofDigits_cons, ofDigits_cons, List.compare_cons_cons, ← ih ha hb hlength, ← hlength]
      rcases Nat.lt_trichotomy x y with hxy | rfl | hxy
      · have hstep : (x + 1) * 10 ^ a.length ≤ y * 10 ^ a.length := Nat.mul_le_mul_right _ hxy
        rw [Nat.add_mul, Nat.one_mul] at hstep
        rw [compare_lt_iff_lt.2 hxy, Ordering.lt_then]
        exact compare_lt_iff_lt.2 (by omega)
      · rw [compare_eq_iff_eq.2 rfl, Ordering.eq_then]
        rcases Nat.lt_trichotomy (ofDigits a) (ofDigits b) with hab | hab | hab
        · rw [compare_lt_iff_lt.2 hab]
          exact compare_lt_iff_lt.2 (by omega)
        · simp [hab]
        · rw [compare_gt_iff_gt.2 hab]
          exact compare_gt_iff_gt.2 (by omega)
      · have hstep : (y + 1) * 10 ^ a.length ≤ x * 10 ^ a.length := Nat.mul_le_mul_right _ hxy
        rw [Nat.add_mul, Nat.one_mul] at hstep
        rw [compare_gt_iff_gt.2 hxy, Ordering.gt_then]
        exact compare_gt_iff_gt.2 (by omega)

theorem le_ofDigits {d : ℕ} {digits : List ℕ} (h : d ≠ 0) :
    10 ^ digits.length ≤ ofDigits (d :: digits) := by
  rw [ofDigits_cons]
  have hd : 1 * 10 ^ digits.length ≤ d * 10 ^ digits.length :=
    Nat.mul_le_mul_right _ (Nat.pos_of_ne_zero h)
  omega

theorem ofDigits_lt_of_length (ha : ∀ d ∈ a, d < 10) (hb : b.head? ≠ some 0)
    (h : a.length < b.length) : ofDigits a < ofDigits b := by
  cases b with
  | nil => exact absurd h (Nat.not_lt_zero _)
  | cons d b =>
    have hd : d ≠ 0 := fun hd ↦ hb (by rw [hd, List.head?_cons])
    have hle : a.length ≤ b.length := Nat.le_of_lt_succ h
    calc ofDigits a < 10 ^ a.length := ofDigits_lt ha
      _ ≤ 10 ^ b.length := Nat.pow_le_pow_right (by decide) hle
      _ ≤ ofDigits (d :: b) := le_ofDigits hd

theorem compare_ofDigits (ha : ∀ d ∈ a, d < 10) (hb : ∀ d ∈ b, d < 10) :
    compare (ofDigits a) (ofDigits b) =
      (compare (a.dropWhile (· = 0)).length (b.dropWhile (· = 0)).length).then
        (compare (a.dropWhile (· = 0)) (b.dropWhile (· = 0))) := by
  have hhead : ∀ l : List ℕ, (l.dropWhile (· = 0)).head? ≠ some 0 := by
    intro l hl
    have hzero := List.head?_dropWhile_not (fun d ↦ decide (d = 0)) l
    rw [hl] at hzero
    simp at hzero
  rw [← ofDigits_dropWhile a, ← ofDigits_dropWhile b]
  have ha' : ∀ d ∈ a.dropWhile (· = 0), d < 10 := fun d hd ↦
    ha d ((List.dropWhile_sublist _).mem hd)
  have hb' : ∀ d ∈ b.dropWhile (· = 0), d < 10 := fun d hd ↦
    hb d ((List.dropWhile_sublist _).mem hd)
  rcases Nat.lt_trichotomy (a.dropWhile (· = 0)).length (b.dropWhile (· = 0)).length with h | h | h
  · rw [compare_lt_iff_lt.2 h, Ordering.lt_then]
    exact compare_lt_iff_lt.2 (ofDigits_lt_of_length ha' (hhead b) h)
  · rw [compare_eq_iff_eq.2 h, Ordering.eq_then]
    exact compare_ofDigits_of_length ha' hb' h
  · rw [compare_gt_iff_gt.2 h, Ordering.gt_then]
    exact compare_gt_iff_gt.2 (ofDigits_lt_of_length hb' (hhead a) h)

end Numbers

end MicaCore.Data
