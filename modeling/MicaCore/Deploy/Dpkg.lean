import MicaCore.Data.Lex

namespace MicaCore.Deploy.Dpkg

open Data

def digit (c : ℕ) : Bool := 48 ≤ c && c ≤ 57

def letter (c : ℕ) : Bool := (97 ≤ c && c ≤ 122) || (65 ≤ c && c ≤ 90)

def text (c : ℕ) : Bool := !digit c

/-- A character's place in a non-digit run: `~`, its end, letters, everything else. -/
def rank : Option ℕ → ℕ ×ₗ ℕ
  | none => toLex (1, 0)
  | some c => if c = 126 then toLex (0, 0) else if letter c then toLex (2, c) else toLex (3, c)

def textKey (run : List ℕ) : Lex (ℕ → ℕ ×ₗ ℕ) := toLex fun i ↦ rank run[i]?

def number (run : List ℕ) : ℕ := ofDigits (run.map (· - 48))

def pair (s : List ℕ) : Lex (ℕ → ℕ ×ₗ ℕ) ×ₗ ℕ :=
  toLex (textKey (s.takeWhile text), number ((s.dropWhile text).takeWhile digit))

def rest (s : List ℕ) : List ℕ := (s.dropWhile text).dropWhile digit

def key (s : List ℕ) : Lex (ℕ → Lex (ℕ → ℕ ×ₗ ℕ) ×ₗ ℕ) := toLex fun i ↦ pair (rest^[i] s)

section Runs

variable {a b : List ℕ} {x y : ℕ}

theorem compare_textKey (a b : List ℕ) : compare (textKey a) (textKey b) =
    (compare (rank a.head?) (rank b.head?)).then (compare (textKey a.tail) (textKey b.tail)) := by
  rw [textKey, textKey, compare_toLex_succ]
  simp [textKey, List.head?_eq_getElem?]

theorem rank_ne_of_some (c : ℕ) : rank (some c) ≠ rank none := by
  have hother : ∀ {n m : ℕ}, n ≠ 1 → toLex (n, m) ≠ toLex (1, 0) :=
    fun hn h ↦ hn (congrArg Prod.fst (toLex.injective h))
  unfold rank
  dsimp only
  split
  · exact hother (by decide)
  · split
    · exact hother (by decide)
    · exact hother (by decide)

theorem compare_key (a b : List ℕ) : compare (key a) (key b) =
    (compare (textKey (a.takeWhile text)) (textKey (b.takeWhile text))).then
      ((compare (number ((a.dropWhile text).takeWhile digit)) (number ((b.dropWhile text).takeWhile digit))).then
        (compare (key (rest a)) (key (rest b)))) := by
  rw [key, key, compare_toLex_succ, Function.iterate_zero_apply,
    Function.iterate_zero_apply, pair, pair,
    compare_toLex_prod, Ordering.then_assoc]
  rfl

theorem compare_key_cons (hx : text x = true) (hy : text y = true) :
    compare (key (x :: a)) (key (y :: b)) =
      (compare (rank (some x)) (rank (some y))).then (compare (key a) (key b)) := by
  rw [compare_key, compare_key a b, List.takeWhile_cons_of_pos hx, List.takeWhile_cons_of_pos hy,
    compare_textKey]
  simp [Ordering.then_assoc, rest, hx, hy]

theorem takeWhile_text_of_head (h : ¬ b.head?.any text = true) :
    b.takeWhile text = [] ∧ b.dropWhile text = b := by
  cases b with
  | nil => exact ⟨rfl, rfl⟩
  | cons y b =>
    have hy : text y = false := by simpa using h
    exact ⟨by rw [List.takeWhile_cons, hy]; rfl, by rw [List.dropWhile_cons, hy]; rfl⟩

theorem then_of_ne_eq {o o' : Ordering} (h : o ≠ .eq) : o.then o' = o := by
  cases o with
  | eq => exact absurd rfl h
  | lt | gt => rfl

theorem compare_key_text_left (hx : text x = true) (hb : ¬ b.head?.any text = true) :
    compare (key (x :: a)) (key b) = compare (rank (some x)) (rank none) := by
  obtain ⟨hrun, -⟩ := takeWhile_text_of_head hb
  have hne : compare (rank (some x)) (rank none) ≠ .eq := fun h ↦
    rank_ne_of_some x (compare_eq_iff_eq.1 h)
  rw [compare_key, hrun, List.takeWhile_cons_of_pos hx, compare_textKey, List.head?_cons,
    List.head?_nil,
    then_of_ne_eq hne, then_of_ne_eq hne]

theorem compare_key_text_right (hy : text y = true) (ha : ¬ a.head?.any text = true) :
    compare (key a) (key (y :: b)) = compare (rank none) (rank (some y)) := by
  obtain ⟨hrun, -⟩ := takeWhile_text_of_head ha
  have hne : compare (rank none) (rank (some y)) ≠ .eq :=
    fun h ↦ rank_ne_of_some y (compare_eq_iff_eq.1 h).symm
  rw [compare_key, hrun, List.takeWhile_cons_of_pos hy, compare_textKey, List.head?_cons,
    List.head?_nil,
    then_of_ne_eq hne, then_of_ne_eq hne]

theorem compare_key_digits (ha : ¬ a.head?.any text = true) (hb : ¬ b.head?.any text = true) :
    compare (key a) (key b) =
      (compare (number (a.takeWhile digit)) (number (b.takeWhile digit))).then
        (compare (key (a.dropWhile digit)) (key (b.dropWhile digit))) := by
  obtain ⟨hruna, hresta⟩ := takeWhile_text_of_head ha
  obtain ⟨hrunb, hrestb⟩ := takeWhile_text_of_head hb
  rw [compare_key, hruna, hrunb, rest, rest, hresta, hrestb, compare_eq_iff_eq.2 rfl,
    Ordering.eq_then]

theorem dropWhile_map_sub {l : List ℕ} (h : ∀ c ∈ l, digit c = true) :
    (l.map (· - 48)).dropWhile (· = 0) = (l.dropWhile (· = 48)).map (· - 48) := by
  induction l with
  | nil => rfl
  | cons c l ih =>
    obtain ⟨hc, hl⟩ := List.forall_mem_cons.1 h
    simp only [digit, Bool.and_eq_true, decide_eq_true_eq] at hc
    by_cases hzero : c = 48
    · subst hzero
      simpa using ih hl
    · have hsub : c - 48 ≠ 0 := by omega
      simp [hzero, hsub]

theorem compare_map_sub {a b : List ℕ} (ha : ∀ c ∈ a, digit c = true) (hb : ∀ c ∈ b, digit c = true) :
    compare (a.map (· - 48)) (b.map (· - 48)) = compare a b := by
  induction a generalizing b with
  | nil => cases b <;> rfl
  | cons x a ih =>
    cases b with
    | nil => rfl
    | cons y b =>
      obtain ⟨hx, ha⟩ := List.forall_mem_cons.1 ha
      obtain ⟨hy, hb⟩ := List.forall_mem_cons.1 hb
      simp only [digit, Bool.and_eq_true, decide_eq_true_eq] at hx hy
      have hsub : compare (x - 48) (y - 48) = compare x y := by
        simp only [Nat.compare_eq_ite_lt]
        have hlt : x - 48 < y - 48 ↔ x < y := by omega
        have hgt : y - 48 < x - 48 ↔ y < x := by omega
        simp only [hlt, hgt]
      rw [List.map_cons, List.map_cons, List.compare_cons_cons, List.compare_cons_cons, ih ha hb, hsub]

theorem compare_number {a b : List ℕ} (ha : ∀ c ∈ a, digit c = true) (hb : ∀ c ∈ b, digit c = true) :
    compare (number a) (number b) =
      (compare (a.dropWhile (· = 48)).length (b.dropWhile (· = 48)).length).then
        (compare (a.dropWhile (· = 48)) (b.dropWhile (· = 48))) := by
  have hbelow : ∀ {l : List ℕ}, (∀ c ∈ l, digit c = true) → ∀ d ∈ l.map (· - 48), d < 10 := by
    intro l hl d hd
    obtain ⟨c, hc, rfl⟩ := List.mem_map.1 hd
    have hdigit := hl c hc
    simp only [digit, Bool.and_eq_true, decide_eq_true_eq] at hdigit
    omega
  rw [number, number, compare_ofDigits (hbelow ha) (hbelow hb), dropWhile_map_sub ha,
    dropWhile_map_sub hb,
    List.length_map, List.length_map]
  congr 1
  exact compare_map_sub (fun c hc ↦ ha c ((List.dropWhile_sublist _).mem hc))
    fun c hc ↦ hb c ((List.dropWhile_sublist _).mem hc)

end Runs

end MicaCore.Deploy.Dpkg
