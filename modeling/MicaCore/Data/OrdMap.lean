import Mathlib.Algebra.Order.Ring.Nat
import Mathlib.Data.List.Sort

namespace MicaCore.Data

/-- A finite map as its entries in ascending key order, each key once. -/
structure OrdMap (κ ν : Type) [LinearOrder κ] where
  entries : List (κ × ν)
  sorted : entries.Pairwise (fun a b ↦ a.1 < b.1)
  deriving DecidableEq

namespace OrdMap

variable {κ ν : Type} [LinearOrder κ]

def empty : OrdMap κ ν := ⟨[], .nil⟩

def keys (m : OrdMap κ ν) : List κ := m.entries.map Prod.fst

def values (m : OrdMap κ ν) : List ν := m.entries.map Prod.snd

def size (m : OrdMap κ ν) : ℕ := m.entries.length

def find (k : κ) : List (κ × ν) → Option ν
  | [] => none
  | (k', v) :: l => if k' = k then some v else find k l

def get (m : OrdMap κ ν) (k : κ) : Option ν := find k m.entries

def insertEntry (k : κ) (v : ν) : List (κ × ν) → List (κ × ν)
  | [] => [(k, v)]
  | (k', v') :: l =>
    if k < k' then (k, v) :: (k', v') :: l
    else if k' = k then (k, v) :: l
    else (k', v') :: insertEntry k v l

variable {k : κ} {v : ν} {l : List (κ × ν)}

theorem mem_insertEntry {e : κ × ν} (h : e ∈ insertEntry k v l) : e = (k, v) ∨ e ∈ l := by
  induction l with
  | nil => simpa [insertEntry] using h
  | cons a l ih =>
    simp only [insertEntry] at h
    split at h
    · simpa using h
    · split at h <;> grind

theorem sorted_insertEntry (k : κ) (v : ν) (h : l.Pairwise (fun a b ↦ a.1 < b.1)) :
    (insertEntry k v l).Pairwise (fun a b ↦ a.1 < b.1) := by
  induction l with
  | nil => simp [insertEntry]
  | cons a l ih =>
    obtain ⟨ha, hl⟩ := List.pairwise_cons.1 h
    simp only [insertEntry]
    split
    · next hlt =>
      refine List.pairwise_cons.2 ⟨fun b hb ↦ ?_, h⟩
      rcases List.mem_cons.1 hb with rfl | hb
      · exact hlt
      · exact hlt.trans (ha b hb)
    · next hge =>
      split
      · next heq => exact List.pairwise_cons.2 ⟨fun b hb ↦ heq ▸ ha b hb, hl⟩
      · next hne =>
        refine List.pairwise_cons.2 ⟨fun b hb ↦ ?_, ih hl⟩
        rcases mem_insertEntry hb with rfl | hb
        · exact lt_of_le_of_ne (not_lt.1 hge) hne
        · exact ha b hb

def insert (m : OrdMap κ ν) (k : κ) (v : ν) : OrdMap κ ν :=
  ⟨insertEntry k v m.entries, sorted_insertEntry k v m.sorted⟩

def filter (m : OrdMap κ ν) (p : κ → ν → Bool) : OrdMap κ ν :=
  ⟨m.entries.filter (fun e ↦ p e.1 e.2), m.sorted.filter _⟩

def erase (m : OrdMap κ ν) (k : κ) : OrdMap κ ν := m.filter (fun k' _ ↦ k' ≠ k)

theorem find_eq_none_of_forall_ne (h : ∀ e ∈ l, e.1 ≠ k) : find k l = none := by
  induction l with
  | nil => rfl
  | cons a l ih => grind [find]

theorem find_eq_some_iff (h : l.Pairwise (fun a b ↦ a.1 < b.1)) :
    find k l = some v ↔ (k, v) ∈ l := by
  induction l with
  | nil => simp [find]
  | cons a l ih =>
    obtain ⟨ha, hl⟩ := List.pairwise_cons.1 h
    simp only [find, List.mem_cons]
    split
    · next heq =>
      have hnot : (k, v) ∉ l := fun hmem ↦ absurd (ha _ hmem) (by simp [heq])
      grind
    · next hne => rw [ih hl]; grind

variable {m : OrdMap κ ν}

theorem get_eq_some_iff :
    m.get k = some v ↔ (k, v) ∈ m.entries := find_eq_some_iff m.sorted

@[simp] theorem get_empty (k : κ) : (empty : OrdMap κ ν).get k = none := rfl

theorem find_insertEntry (k k' : κ) (v : ν) (l : List (κ × ν)) :
    find k' (insertEntry k v l) = if k' = k then some v else find k' l := by
  induction l with
  | nil => grind [insertEntry, find]
  | cons a l ih => grind [insertEntry, find]

theorem get_insert (m : OrdMap κ ν) (k k' : κ) (v : ν) :
    (m.insert k v).get k' = if k' = k then some v else m.get k' :=
  find_insertEntry k k' v m.entries

theorem get_filter_eq_some {p : κ → ν → Bool} :
    (m.filter p).get k = some v ↔ m.get k = some v ∧ p k v := by
  simp [get_eq_some_iff, filter]

theorem get_erase (m : OrdMap κ ν) (k k' : κ) :
    (m.erase k).get k' = if k' = k then none else m.get k' := by
  refine Option.ext fun v ↦ ?_
  rw [erase, get_filter_eq_some]
  split <;> simp_all

theorem ext_get {m' : OrdMap κ ν} (h : ∀ k, m.get k = m'.get k) : m = m' := by
  have hmem : ∀ e, e ∈ m.entries ↔ e ∈ m'.entries := fun e ↦ by
    rw [← get_eq_some_iff, ← get_eq_some_iff, h]
  have hasymm : Std.Asymm fun a b : κ × ν ↦ a.1 < b.1 := ⟨fun _ _ ↦ lt_asymm⟩
  have hentries : m.entries = m'.entries := m.sorted.eq_of_mem_iff m'.sorted hmem
  cases m
  cases m'
  congr

theorem mem_keys : k ∈ m.keys ↔ ∃ v, m.get k = some v := by
  simp [keys, get_eq_some_iff]

theorem size_eq_length {ks : List κ} (h : ks.Nodup) (hmem : ∀ k, k ∈ ks ↔ (m.get k).isSome = true) :
    m.size = ks.length := by
  have hkeys : m.keys.Nodup := (List.pairwise_map.2 m.sorted).imp fun hlt ↦ hlt.ne
  have hperm : ks.Perm m.keys := (List.perm_ext_iff_of_nodup h hkeys).2 fun k ↦ by
    rw [hmem, mem_keys, Option.isSome_iff_exists]
  rw [hperm.length_eq, keys, List.length_map, size]

theorem mem_values : v ∈ m.values ↔ ∃ k, m.get k = some v := by
  simp [values, get_eq_some_iff]

def ofList (l : List (κ × ν)) : OrdMap κ ν := l.foldl (fun m e ↦ m.insert e.1 e.2) .empty

theorem get_foldl_of_not_mem (h : ∀ e ∈ l, e.1 ≠ k) (m : OrdMap κ ν) :
    (l.foldl (fun m e ↦ m.insert e.1 e.2) m).get k = m.get k := by
  induction l generalizing m with
  | nil => rfl
  | cons e l ih =>
    obtain ⟨he, hl⟩ := List.forall_mem_cons.1 h
    rw [List.foldl_cons, ih hl, get_insert, if_neg he.symm]

theorem of_get_foldl
    (h : (l.foldl (fun m e ↦ m.insert e.1 e.2) m).get k = some v) :
    m.get k = some v ∨ (k, v) ∈ l := by
  induction l generalizing m with
  | nil => exact .inl h
  | cons e l ih =>
    rcases ih h with hm | hl
    · rw [get_insert] at hm
      split at hm
      · next hk =>
        subst hk
        obtain rfl : e.2 = v := by simpa using hm
        exact .inr (by simp)
      · exact .inl hm
    · exact .inr (by simp [hl])

theorem isSome_get_foldl (h : k ∈ l.map Prod.fst ∨ (m.get k).isSome = true) :
    ((l.foldl (fun m e ↦ m.insert e.1 e.2) m).get k).isSome = true := by
  induction l generalizing m with
  | nil => simpa using h
  | cons e l ih =>
    refine ih ?_
    rw [get_insert]
    by_cases hk : k = e.1 <;> simp_all

theorem lookup_entries [BEq κ] [LawfulBEq κ] (m : OrdMap κ ν) (k : κ) :
    m.entries.lookup k = m.get k := by
  rw [get]
  induction m.entries with
  | nil => rfl
  | cons e l ih =>
    rw [List.lookup_cons, find]
    by_cases hk : e.1 = k
    · simp [hk]
    · have hne : (k == e.1) = false := beq_eq_false_iff_ne.2 (Ne.symm hk)
      simp [hk, hne, ih]

theorem get_ofList (h : l.Pairwise (fun a b ↦ a.1 < b.1)) (k : κ) :
    (ofList l).get k = find k l := by
  have hfold : ∀ (l : List (κ × ν)) (m : OrdMap κ ν), l.Pairwise (fun a b ↦ a.1 < b.1) →
      (l.foldl (fun m e ↦ m.insert e.1 e.2) m).get k = (find k l).or (m.get k) := by
    intro l
    induction l with
    | nil => exact fun m _ ↦ rfl
    | cons e l ih =>
      intro m hsorted
      obtain ⟨hlt, hl⟩ := List.pairwise_cons.1 hsorted
      rw [List.foldl_cons, ih _ hl, get_insert, find]
      by_cases hk : e.1 = k
      · rw [if_pos hk, if_pos hk.symm, find_eq_none_of_forall_ne fun e' he' heq ↦
          absurd (hlt e' he') (by rw [heq, hk]; exact lt_irrefl k)]
        rfl
      · rw [if_neg hk, if_neg fun h ↦ hk h.symm]
  rw [ofList, hfold l .empty h, get_empty, Option.or_none]

@[simp] theorem ofList_entries (m : OrdMap κ ν) : ofList m.entries = m :=
  ext_get fun k ↦ get_ofList m.sorted k

end OrdMap

end MicaCore.Data
