import MicaCore.Deploy.Dpkg
import MicaCore.Deploy.Objects
import Mathlib.Data.List.TakeWhile

namespace MicaCore.Deploy.DebianVersion

open Data

section Weights

def weightOf : Option ℕ → ℤ
  | none => 0
  | some c => if c = 126 then -1 else if Dpkg.letter c then c else c + 256

theorem weightOf_cases (x : Option ℕ) : ∃ k c, Dpkg.rank x = toLex (k, c) ∧
    (k = 0 ∧ c = 0 ∧ weightOf x = -1 ∨ k = 1 ∧ c = 0 ∧ weightOf x = 0 ∨
      k = 2 ∧ 65 ≤ c ∧ c ≤ 122 ∧ weightOf x = c ∨ k = 3 ∧ weightOf x = c + 256) := by
  cases x with
  | none => exact ⟨1, 0, rfl, .inr (.inl ⟨rfl, rfl, rfl⟩)⟩
  | some c =>
    by_cases htilde : c = 126
    · exact ⟨0, 0, if_pos htilde, .inl ⟨rfl, rfl, if_pos htilde⟩⟩
    · by_cases hletter : Dpkg.letter c = true
      · have hrange : 65 ≤ c ∧ c ≤ 122 := by
          simp only [Dpkg.letter, Bool.or_eq_true, Bool.and_eq_true, decide_eq_true_eq] at hletter
          omega
        refine ⟨2, c, by simp [Dpkg.rank, htilde, hletter], .inr (.inr (.inl ?_))⟩
        exact ⟨rfl, hrange.1, hrange.2, by simp [weightOf, htilde, hletter]⟩
      · refine ⟨3, c, by simp [Dpkg.rank, htilde, hletter], .inr (.inr (.inr ?_))⟩
        exact ⟨rfl, by simp [weightOf, htilde, hletter]⟩

theorem weightOf_lt_iff (x y : Option ℕ) : weightOf x < weightOf y ↔ Dpkg.rank x < Dpkg.rank y := by
  obtain ⟨k, c, hx, hcases⟩ := weightOf_cases x
  obtain ⟨k', c', hy, hcases'⟩ := weightOf_cases y
  rw [hx, hy, Prod.Lex.toLex_lt_toLex]
  dsimp only
  omega

theorem compare_weightOf (x y : Option ℕ) : compare (weightOf x) (weightOf y) =
    compare (Dpkg.rank x) (Dpkg.rank y) := by
  cases h : compare (Dpkg.rank x) (Dpkg.rank y) with
  | lt => exact compare_lt_iff_lt.2 ((weightOf_lt_iff x y).2 (compare_lt_iff_lt.1 h))
  | gt => exact compare_gt_iff_gt.2 ((weightOf_lt_iff y x).2 (compare_gt_iff_gt.1 h))
  | eq =>
    have hrank : Dpkg.rank x = Dpkg.rank y := compare_eq_iff_eq.1 h
    refine compare_eq_iff_eq.2 (le_antisymm ?_ ?_)
    · exact not_lt.1 fun hlt ↦ ((weightOf_lt_iff y x).1 hlt).ne hrank.symm
    · exact not_lt.1 fun hlt ↦ ((weightOf_lt_iff x y).1 hlt).ne hrank

def shown (s : List ℕ) : ℤ := weightOf (s.head?.filter Dpkg.text)

theorem head_cases (s : List ℕ) :
    (∃ x l, s = x :: l ∧ Dpkg.text x = true ∧ shown s = weightOf (some x)) ∨
    ¬ s.head?.any Dpkg.text = true ∧ shown s = weightOf none := by
  cases s with
  | nil => exact .inr ⟨by simp, rfl⟩
  | cons x l =>
    cases hx : Dpkg.text x with
    | true => exact .inl ⟨x, l, rfl, hx, by simp [shown, Option.filter_some, hx]⟩
    | false => exact .inr ⟨by simp [hx], by simp [shown, Option.filter_some, hx]⟩

theorem compare_key_of_shown_ne {a b : List ℕ} (h : shown a ≠ shown b) :
    compare (Dpkg.key a) (Dpkg.key b) = compare (shown a) (shown b) := by
  rcases head_cases a with ⟨x, l, rfl, hx, hshown⟩ | ⟨ha, hshown⟩ <;>
    rcases head_cases b with ⟨y, l', rfl, hy, hshown'⟩ | ⟨hb, hshown'⟩ <;>
    rw [hshown, hshown'] at h ⊢
  · have hne : compare (Dpkg.rank (some x)) (Dpkg.rank (some y)) ≠ .eq := by
      rw [← compare_weightOf]
      exact fun heq ↦ h (compare_eq_iff_eq.1 heq)
    rw [Dpkg.compare_key_cons hx hy, compare_weightOf, Dpkg.then_of_ne_eq hne]
  · rw [Dpkg.compare_key_text_left hx hb, compare_weightOf]
  · rw [Dpkg.compare_key_text_right hy ha, compare_weightOf]
  · exact absurd rfl h

theorem compare_key_of_shown_eq {a b : List ℕ}
    (htext : a.head?.any Dpkg.text = true ∨ b.head?.any Dpkg.text = true)
    (h : shown a = shown b) : a.head?.any Dpkg.text = true ∧ b.head?.any Dpkg.text = true ∧
      compare (Dpkg.key a) (Dpkg.key b) = compare (Dpkg.key a.tail) (Dpkg.key b.tail) := by
  have hrank : ∀ {x y : Option ℕ}, weightOf x = weightOf y → Dpkg.rank x = Dpkg.rank y := fun hw ↦
    compare_eq_iff_eq.1 ((compare_weightOf _ _).symm.trans (compare_eq_iff_eq.2 hw))
  rcases head_cases a with ⟨x, l, rfl, hx, hshown⟩ | ⟨ha, hshown⟩ <;>
    rcases head_cases b with ⟨y, l', rfl, hy, hshown'⟩ | ⟨hb, hshown'⟩ <;>
    rw [hshown, hshown'] at h
  · refine ⟨by simp [hx], by simp [hy], ?_⟩
    rw [Dpkg.compare_key_cons hx hy, compare_eq_iff_eq.2 (hrank h), Ordering.eq_then]
    rfl
  · exact absurd (hrank h) (Dpkg.rank_ne_of_some x)
  · exact absurd (hrank h).symm (Dpkg.rank_ne_of_some y)
  · exact absurd htext (not_or.2 ⟨ha, hb⟩)

end Weights

section Scans

def codes (s : Text) : List ℕ := s.map Char.toNat

def byteCodes (s : Bytes) : List ℕ := s.map UInt8.toNat

noncomputable def Scan.order : Scan → Ordering
  | .round a b | .text a b => compare (Dpkg.key (byteCodes a)) (Dpkg.key (byteCodes b))

theorem isDigit_eq (b : UInt8) : isDigit b = Dpkg.digit b.toNat := by
  simp only [isDigit, Dpkg.digit, UInt8.le_iff_toNat_le]
  rfl

theorem weight_eq (x : Option UInt8) : weight x = weightOf (x.map UInt8.toNat) := by
  cases x with
  | none => rfl
  | some b =>
    have htilde : b = 126 ↔ b.toNat = 126 := ⟨fun h ↦ by rw [h]; rfl, fun h ↦ UInt8.toNat_inj.1 h⟩
    have hletter : isAlphabetic b = Dpkg.letter b.toNat := by
      simp only [isAlphabetic, Dpkg.letter, UInt8.le_iff_toNat_le]
      rfl
    simp only [weight, weightOf, Option.map_some, htilde, hletter]

variable (s : Bytes)

theorem isText_head : isText s.head? = (byteCodes s).head?.any Dpkg.text := by
  cases s with
  | nil => rfl
  | cons b s => simp [isText, byteCodes, isDigit_eq, Dpkg.text]

theorem weight_head :
    weight (s.head?.filter fun _ ↦ isText s.head?) = shown (byteCodes s) := by
  rw [weight_eq]
  cases s with
  | nil => rfl
  | cons b s =>
    have htext : isText (some b) = Dpkg.text b.toNat := isText_head (b :: s)
    cases h : Dpkg.text b.toNat <;> simp [shown, byteCodes, Option.filter_some, htext, h]

theorem compare_byteCodes (a b : Bytes) : compare (byteCodes a) (byteCodes b) = compare a b := by
  induction a generalizing b with
  | nil => cases b <;> rfl
  | cons x a ih =>
    cases b with
    | nil => rfl
    | cons y b =>
      rw [byteCodes, byteCodes, List.map_cons, List.map_cons, List.compare_cons_cons, List.compare_cons_cons]
      have hbyte : compare x.toNat y.toNat = compare x y := by
        simp only [compare, compareOfLessAndEq, UInt8.lt_iff_toNat_lt, ← UInt8.toNat_inj]
      rw [hbyte]
      exact congrArg _ (ih b)

theorem compareDigits_eq {a b : Bytes} (ha : ∀ c ∈ a, isDigit c = true)
    (hb : ∀ c ∈ b, isDigit c = true) :
    compareDigits a b = compare (Dpkg.number (byteCodes a)) (Dpkg.number (byteCodes b)) := by
  have hdigits {l : Bytes} (hl : ∀ c ∈ l, isDigit c = true) :
      ∀ n ∈ byteCodes l, Dpkg.digit n = true := by
    intro n hn
    obtain ⟨c, hc, rfl⟩ := List.mem_map.1 hn
    exact (isDigit_eq c).symm.trans (hl c hc)
  have hzeros (l : Bytes) : (byteCodes l).dropWhile (· = 48) = byteCodes (l.dropWhile (· = 48)) := by
    have hzero (b : UInt8) : b.toNat = 48 ↔ b = 48 := UInt8.toNat_inj (b := 48)
    rw [byteCodes, List.dropWhile_map]
    simp only [Function.comp_def, hzero, byteCodes]
  rw [Dpkg.compare_number (hdigits ha) (hdigits hb), hzeros, hzeros, compare_byteCodes, byteCodes,
    byteCodes, List.length_map, List.length_map]
  rfl

theorem takeWhile_byteCodes :
    (byteCodes s).takeWhile Dpkg.digit = byteCodes (s.takeWhile isDigit) := by
  rw [byteCodes, List.takeWhile_map, byteCodes]
  simp only [Function.comp_def, ← isDigit_eq]

theorem dropWhile_byteCodes :
    (byteCodes s).dropWhile Dpkg.digit = byteCodes (s.dropWhile isDigit) := by
  rw [byteCodes, List.dropWhile_map, byteCodes]
  simp only [Function.comp_def, ← isDigit_eq]

theorem length_dropWhile_of_head {s : Bytes} (h : isText s.head? = false) :
    (s.dropWhile isDigit).length ≤ s.length - 1 := by
  cases s with
  | nil => exact Nat.le_refl _
  | cons c s =>
    have hc : isDigit c = true := by simpa [isText] using h
    rw [List.dropWhile_cons_of_pos hc, List.length_cons, Nat.add_sub_cancel]
    exact (List.dropWhile_sublist _).length_le

theorem Scan.step_text (a b : Bytes) :
    match (Scan.text a b).step with
    | .inl order => (Scan.text a b).order = order
    | .inr scan => (Scan.text a b).order = scan.order ∧ scan.left < (Scan.text a b).left := by
  simp only [Scan.step, weight_head]
  by_cases hneither : (!isText a.head? && !isText b.head?) = true
  · rw [if_pos hneither]
    simp only [Bool.and_eq_true, Bool.not_eq_true'] at hneither
    obtain ⟨ha, hb⟩ := hneither
    have hhead : ∀ {s : Bytes}, isText s.head? = false → ¬ (byteCodes s).head?.any Dpkg.text = true := by
      intro s hs
      rw [← isText_head, hs]
      exact Bool.false_ne_true
    have hkey := Dpkg.compare_key_digits (hhead ha) (hhead hb)
    rw [takeWhile_byteCodes, takeWhile_byteCodes, dropWhile_byteCodes, dropWhile_byteCodes,
      ← compareDigits_eq (fun c hc ↦ List.mem_takeWhile_imp hc) fun c hc ↦ List.mem_takeWhile_imp hc] at hkey
    cases horder : compareDigits (a.takeWhile isDigit) (b.takeWhile isDigit) with
    | lt => rw [Scan.order, hkey, horder, Ordering.lt_then]
    | gt => rw [Scan.order, hkey, horder, Ordering.gt_then]
    | eq =>
      rw [horder, Ordering.eq_then] at hkey
      refine ⟨hkey, ?_⟩
      have hdrop := length_dropWhile_of_head ha
      have hdrop' := length_dropWhile_of_head hb
      simp only [Scan.left]
      split <;> split <;> omega
  · rw [if_neg hneither]
    by_cases hshown : shown (byteCodes a) = shown (byteCodes b)
    swap
    · rw [if_pos hshown]
      exact compare_key_of_shown_ne hshown
    rw [if_neg (not_not.2 hshown)]
    have hone : (byteCodes a).head?.any Dpkg.text = true ∨ (byteCodes b).head?.any Dpkg.text = true := by
      rw [← isText_head, ← isText_head]
      simp only [Bool.and_eq_true, Bool.not_eq_true', not_and_or, Bool.not_eq_false] at hneither
      exact hneither
    obtain ⟨ha, hb, hkey⟩ := compare_key_of_shown_eq hone hshown
    rw [← isText_head] at ha hb
    rw [if_pos ha, if_pos hb]
    cases a with
    | nil => cases ha
    | cons x a =>
      cases b with
      | nil => cases hb
      | cons y b =>
        refine ⟨hkey, ?_⟩
        have hmore : ¬ (x :: a).length + (y :: b).length = 0 := by
          rw [List.length_cons]
          omega
        change (Scan.text a b).left < (Scan.text (x :: a) (y :: b)).left
        rw [Scan.left, Scan.left, if_neg hmore, List.length_cons, List.length_cons]
        split <;> omega

theorem Scan.step_spec (scan : Scan) :
    match scan.step with
    | .inl order => scan.order = order
    | .inr scan' => scan.order = scan'.order ∧ scan'.left < scan.left := by
  cases scan with
  | text a b => exact Scan.step_text a b
  | round a b =>
    rw [Scan.step]
    by_cases hempty : (a.isEmpty && b.isEmpty) = true
    · rw [if_pos hempty]
      simp only [Bool.and_eq_true, List.isEmpty_iff] at hempty
      obtain ⟨rfl, rfl⟩ := hempty
      exact compare_eq_iff_eq.2 rfl
    · rw [if_neg hempty]
      refine ⟨rfl, ?_⟩
      have hsome : a.length + b.length ≠ 0 := by
        intro hzero
        obtain rfl : a = [] := List.length_eq_zero_iff.1 (by omega)
        obtain rfl : b = [] := List.length_eq_zero_iff.1 (by omega)
        exact hempty rfl
      rw [Scan.left, Scan.left, if_neg hsome, if_neg hsome]
      omega

theorem Scan.run_eq {n : ℕ} {scan : Scan} (h : scan.left < n) : scan.run n = some scan.order := by
  induction n generalizing scan with
  | zero => exact absurd h (Nat.not_lt_zero _)
  | succ n ih =>
    have hstep := scan.step_spec
    cases hnext : scan.step with
    | inl order =>
      simp only [hnext] at hstep
      simp only [Scan.run, hnext, hstep]
    | inr scan' =>
      simp only [hnext] at hstep
      simp only [Scan.run, hnext, hstep.1]
      exact ih (by omega)

end Scans

section Versions

noncomputable def Parts.key (p : Parts) : ℕ ×ₗ (Lex (ℕ → Lex (ℕ → ℕ ×ₗ ℕ) ×ₗ ℕ) ×ₗ
    Lex (ℕ → Lex (ℕ → ℕ ×ₗ ℕ) ×ₗ ℕ)) :=
  toLex (p.epoch, toLex (Dpkg.key (codes p.upstream), Dpkg.key (codes p.revision)))

variable {a b : String} {p q : Parts}

theorem byteCodes_asBytes {s : List Char} (h : ∀ c ∈ s, c.toNat < 256) :
    byteCodes (asBytes s) = codes s := by
  rw [byteCodes, asBytes, List.map_map, codes]
  refine List.map_congr_left fun c hc ↦ ?_
  rw [Function.comp_apply, Nat.toUInt8_eq, UInt8.toNat_ofNat', Nat.mod_eq_of_lt (h c hc)]

theorem toNat_lt_of_ok {c : Char} {marks : String} (hmarks : marks.toList.all (·.toNat < 256) = true)
    (h : (asciiAlphanumeric c || marks.toList.contains c) = true) : c.toNat < 256 := by
  rcases Bool.or_eq_true_iff.1 h with h | h
  · have hcode : (Dpkg.letter c.toNat || Dpkg.digit c.toNat) = true := h
    simp only [Dpkg.letter, Dpkg.digit, Bool.or_eq_true, Bool.and_eq_true, decide_eq_true_eq] at hcode
    omega
  · exact of_decide_eq_true (List.all_eq_true.1 hmarks c (List.contains_iff_mem.1 h))

theorem toNat_lt_of_parts (h : parts a = some p) :
    (∀ c ∈ p.upstream, c.toNat < 256) ∧ ∀ c ∈ p.revision, c.toNat < 256 := by
  obtain ⟨_, rest, -, -, -, hupstream, hrevision⟩ := parts_eq_some h
  constructor
  · intro c hc
    have hall := (Bool.and_eq_true_iff.1 hupstream).2
    exact toNat_lt_of_ok rfl (List.all_eq_true.1 hall c hc)
  · intro c hc
    rcases Bool.or_eq_true_iff.1 hrevision with hempty | hall
    · have hnil := List.isEmpty_iff.1 (Bool.and_eq_true_iff.1 hempty).1
      rw [hnil] at hc
      cases hc
    · exact toNat_lt_of_ok rfl (List.all_eq_true.1 (Bool.and_eq_true_iff.1 hall).2 c hc)

theorem comparePart_eq_order (s t : Text) :
    comparePart s t = (Scan.round (asBytes s) (asBytes t)).order := by
  rw [comparePart, Scan.run_eq (Nat.lt_succ_self _), Option.getD_some]

theorem comparePart_eq {s t : Text} (hs : ∀ c ∈ s, c.toNat < 256) (ht : ∀ c ∈ t, c.toNat < 256) :
    comparePart s t = compare (Dpkg.key (codes s)) (Dpkg.key (codes t)) := by
  rw [comparePart_eq_order, Scan.order, byteCodes_asBytes hs, byteCodes_asBytes ht]

theorem compareVersions_eq (ha : parts a = some p) (hb : parts b = some q) :
    compareVersions a b = some (compare p.key q.key) := by
  obtain ⟨hupstream, hrevision⟩ := toNat_lt_of_parts ha
  obtain ⟨hupstream', hrevision'⟩ := toNat_lt_of_parts hb
  rw [compareVersions, ha, hb, Parts.key, Parts.key, compare_toLex_prod, compare_toLex_prod,
    ← comparePart_eq hupstream hupstream', ← comparePart_eq hrevision hrevision']
  rfl

theorem compareVersions_eq_none_iff (a b : String) :
    compareVersions a b = none ↔ valid a = false ∨ valid b = false := by
  rw [valid, valid]
  cases ha : parts a with
  | none => simp [compareVersions, ha]
  | some p =>
    cases hb : parts b with
    | none => simp [compareVersions, ha, hb]
    | some q => simp [compareVersions_eq ha hb]

theorem exists_parts_of_compareVersions {order : Ordering} (h : compareVersions a b = some order) :
    ∃ p q, parts a = some p ∧ parts b = some q ∧ compare p.key q.key = order := by
  cases ha : parts a with
  | none => simp [compareVersions, ha] at h
  | some p =>
    cases hb : parts b with
    | none => simp [compareVersions, ha, hb] at h
    | some q =>
      rw [compareVersions_eq ha hb] at h
      exact ⟨p, q, rfl, rfl, Option.some.inj h⟩

theorem compareVersions_self (h : valid a = true) : compareVersions a a = some .eq := by
  obtain ⟨p, hp⟩ := Option.isSome_iff_exists.1 h
  rw [compareVersions_eq hp hp, compare_eq_iff_eq.2 rfl]

theorem compareVersions_swap (a b : String) :
    compareVersions b a = (compareVersions a b).map Ordering.swap := by
  cases ha : parts a with
  | none => cases hb : parts b <;> simp [compareVersions, ha, hb]
  | some p =>
    cases hb : parts b with
    | none => simp [compareVersions, ha, hb]
    | some q =>
      rw [compareVersions_eq ha hb, compareVersions_eq hb ha, Option.map_some]
      exact congrArg some Std.OrientedOrd.eq_swap

theorem compareVersions_trans {c : String} {order order' : Ordering} (hab : compareVersions a b = some order)
    (hbc : compareVersions b c = some order') (h : order ≠ .gt) (h' : order' ≠ .gt) :
    compareVersions a c = some (order.then order') := by
  obtain ⟨p, q, ha, hb, rfl⟩ := exists_parts_of_compareVersions hab
  obtain ⟨q', r, hb', hc, rfl⟩ := exists_parts_of_compareVersions hbc
  cases hb.symm.trans hb'
  rw [compareVersions_eq ha hc]
  cases hpq : compare p.key q.key with
  | gt => exact absurd hpq h
  | eq =>
    rw [compare_eq_iff_eq.1 hpq]
    rfl
  | lt =>
    cases hqr : compare q.key r.key with
    | gt => exact absurd hqr h'
    | eq => rw [← compare_eq_iff_eq.1 hqr, hpq, Ordering.lt_then]
    | lt =>
      have hlt : p.key < r.key := (compare_lt_iff_lt.1 hpq).trans (compare_lt_iff_lt.1 hqr)
      rw [compare_lt_iff_lt.2 hlt, Ordering.lt_then]

/-- The order is a total preorder where defined, the scan ends, and it is dpkg's rule. -/
structure DpkgOrdered : Prop where
  none_iff : ∀ a b, compareVersions a b = none ↔ valid a = false ∨ valid b = false
  refl : ∀ a, valid a = true → compareVersions a a = some .eq
  swap : ∀ a b, compareVersions b a = (compareVersions a b).map Ordering.swap
  trans : ∀ a b c order order', compareVersions a b = some order →
    compareVersions b c = some order' →
    order ≠ .gt → order' ≠ .gt → compareVersions a c = some (order.then order')
  ends : ∀ a b : Bytes, ∃ n order, (Scan.round a b).run n = some order
  rule : ∀ a b p q, parts a = some p → parts b = some q →
    compareVersions a b = some (compare p.key q.key)
  scans : ∀ a b p q, parts a = some p → parts b = some q →
    ∃ n upstream revision, (Scan.round (asBytes p.upstream) (asBytes q.upstream)).run n =
      some upstream ∧
      (Scan.round (asBytes p.revision) (asBytes q.revision)).run n = some revision ∧
      compareVersions a b = some ((compare p.epoch q.epoch).then (upstream.then revision))

/-- `compareVersions` is dpkg's order of versions. -/
theorem dpkgOrdered : DpkgOrdered where
  none_iff := compareVersions_eq_none_iff
  refl _ := compareVersions_self
  swap := compareVersions_swap
  trans _ _ _ _ _ := compareVersions_trans
  ends a b := ⟨_, _, Scan.run_eq (Nat.lt_succ_self (Scan.round a b).left)⟩
  rule _ _ _ _ := compareVersions_eq
  scans a b p q ha hb := by
    obtain ⟨n, hn, hn'⟩ : ∃ n, (Scan.round (asBytes p.upstream) (asBytes q.upstream)).left < n ∧
        (Scan.round (asBytes p.revision) (asBytes q.revision)).left < n :=
      ⟨_, Nat.lt_succ_of_le (Nat.le_add_right _ _), Nat.lt_succ_of_le (Nat.le_add_left _ _)⟩
    refine ⟨n, _, _, Scan.run_eq hn, Scan.run_eq hn', ?_⟩
    rw [compareVersions, ha, hb, ← comparePart_eq_order, ← comparePart_eq_order]
    rfl

end Versions

end MicaCore.Deploy.DebianVersion
