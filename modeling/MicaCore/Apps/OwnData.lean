import Mathlib.Algebra.Order.Ring.Nat
import Mathlib.Data.List.Basic

namespace MicaCore.Apps

structure Ids where
  uid : ℕ
  gid : ℕ
  deriving DecidableEq

def Ids.of (id : ℕ) : Ids := ⟨id, id⟩

inductive Owned where
  | leaf (ids : Ids)
  | dir (ids : Ids) (entries : List Owned)

def Owned.ids : Owned → Ids
  | .leaf ids | .dir ids _ => ids

mutual
/-- The walk of `chown_tree`, stopped after `reach` entries. -/
def chownTree (id : ℕ) : Owned → ℕ → Owned × Option ℕ
  | path, 0 => (path, none)
  | .leaf _, reach + 1 => (.leaf (.of id), some reach)
  | .dir _ entries, reach + 1 =>
    let (entries, left) := chownEntries id entries reach
    (.dir (.of id) entries, left)

def chownEntries (id : ℕ) : List Owned → ℕ → List Owned × Option ℕ
  | [], reach => ([], some reach)
  | entry :: rest, reach =>
    match chownTree id entry reach with
    | (entry, none) => (entry :: rest, none)
    | (entry, some reach) =>
      let (rest, left) := chownEntries id rest reach
      (entry :: rest, left)
end

def ownData (owner reach : ℕ) (data : Owned) : Owned × Bool :=
  if data.ids.uid = owner ∧ data.ids.gid = owner then (data, true)
  else
    let (data, left) := chownTree owner data reach
    (data, left.isSome)

mutual
def Owned.all : Owned → List Ids
  | .leaf ids => [ids]
  | .dir ids entries => ids :: allOf entries

def allOf : List Owned → List Ids
  | [] => []
  | entry :: rest => entry.all ++ allOf rest
end

def reached (id reach : ℕ) (all : List Ids) : List Ids :=
  List.replicate (min reach all.length) (.of id) ++ all.drop reach

section Walk

variable {id reach : ℕ} {all rest : List Ids}

theorem reached_zero : reached id 0 all = all := by simp [reached]

theorem reached_of_le (h : all.length ≤ reach) :
    reached id reach all = List.replicate all.length (.of id) := by
  rw [reached, min_eq_right h, List.drop_eq_nil_of_le h, List.append_nil]

theorem reached_cons (ids : Ids) :
    reached id (reach + 1) (ids :: all) = .of id :: reached id reach all := by
  simp [reached, Nat.succ_min_succ, List.replicate_succ]

theorem reached_append_of_lt (h : reach < all.length) :
    reached id reach (all ++ rest) = reached id reach all ++ rest := by
  rw [reached, reached, List.drop_append_of_le_length h.le, min_eq_left h.le, List.length_append,
    min_eq_left (by omega), List.append_assoc]

theorem reached_append_of_le (h : all.length ≤ reach) :
    reached id reach (all ++ rest) = reached id reach all ++
    reached id (reach - all.length) rest := by
  have hmin : min reach (all ++ rest).length =
      all.length + min (reach - all.length) rest.length := by
    rw [List.length_append]
    omega
  rw [reached_of_le h, reached, reached, hmin, List.replicate_add, List.append_assoc,
    List.drop_append,
    List.drop_eq_nil_of_le h, List.nil_append]

mutual
theorem chownTree_spec : ∀ (data : Owned) (reach : ℕ),
    (chownTree id data reach).1.all = reached id reach data.all ∧
    (chownTree id data reach).2 =
      if data.all.length ≤ reach then some (reach - data.all.length) else none
  | .leaf ids, 0 | .dir ids entries, 0 | .leaf ids, reach + 1 => by
    simp [chownTree, reached, Owned.all]
  | .dir ids entries, reach + 1 => by
    obtain ⟨hall, hleft⟩ := chownEntries_spec entries reach
    simp only [chownTree, Owned.all, hall, hleft, reached_cons, List.length_cons, Nat.add_le_add_iff_right,
      Nat.add_sub_add_right, and_self]

theorem chownEntries_spec : ∀ (entries : List Owned) (reach : ℕ),
    allOf (chownEntries id entries reach).1 = reached id reach (allOf entries) ∧
    (chownEntries id entries reach).2 =
      if (allOf entries).length ≤ reach then some (reach - (allOf entries).length) else none
  | [], reach => by simp [chownEntries, reached, allOf]
  | entry :: rest, reach => by
    obtain ⟨hall, hleft⟩ := chownTree_spec entry reach
    rw [chownEntries, allOf, List.length_append]
    generalize chownTree id entry reach = walked at hall hleft
    obtain ⟨entry', left⟩ := walked
    simp only at hall hleft
    by_cases hle : entry.all.length ≤ reach
    · rw [if_pos hle] at hleft
      obtain ⟨hrest, hleft'⟩ := chownEntries_spec rest (reach - entry.all.length)
      have hfits : (allOf rest).length ≤ reach - entry.all.length ↔
          entry.all.length + (allOf rest).length ≤ reach := by omega
      simp only [hleft, allOf, hall, hrest, hleft', reached_append_of_le hle, hfits, Nat.sub_sub, and_self]
    · rw [if_neg hle] at hleft
      simp only [hleft, allOf, hall, reached_append_of_lt (not_le.1 hle), true_and]
      rw [if_neg (by omega)]
end

end Walk

/-- A call that stops after `reach` entries. -/
structure OwnCall where
  owner : ℕ
  reach : ℕ

def afterCalls (data : Owned) (calls : List OwnCall) : Owned :=
  calls.foldl (fun data call ↦ (ownData call.owner call.reach data).1) data

def Owned.Uniform (ids : Ids) (data : Owned) : Prop := ∀ entry ∈ data.all, entry = ids

section Calls

variable {data : Owned} {ids : Ids} {owner reach : ℕ}

theorem Owned.exists_all_eq (data : Owned) : ∃ rest, data.all = data.ids :: rest := by
  cases data <;> exact ⟨_, rfl⟩

theorem Owned.Uniform.ids_eq (h : data.Uniform ids) : data.ids = ids := by
  obtain ⟨rest, hall⟩ := data.exists_all_eq
  exact h _ (hall ▸ List.mem_cons_self)

theorem ids_eq_of_iff : data.ids.uid = owner ∧ data.ids.gid = owner ↔ data.ids = .of owner := by
  cases data.ids
  simp [Ids.of]

theorem ownData_of_owned (h : data.ids = .of owner) : ownData owner reach data = (data, true) :=
  if_pos (ids_eq_of_iff.2 h)

theorem ownData_of_ne (reach : ℕ) (h : data.ids ≠ .of owner) :
    (ownData owner reach data).1.all = reached owner reach data.all ∧
    ((ownData owner reach data).2 = true ↔ data.all.length ≤ reach) := by
  obtain ⟨hall, hleft⟩ : (chownTree owner data reach).1.all = _ ∧
      (chownTree owner data reach).2 = _ :=
    chownTree_spec data reach
  rw [ownData, if_neg (mt ids_eq_of_iff.1 h)]
  refine ⟨hall, ?_⟩
  change (chownTree owner data reach).2.isSome = true ↔ _
  rw [hleft]
  by_cases hle : data.all.length ≤ reach <;> simp [hle]

theorem Owned.Uniform.of_reached (h : data.all.length ≤ reach) {data' : Owned}
    (hall : data'.all = reached owner reach data.all) : data'.Uniform (.of owner) := by
  intro entry hentry
  rw [hall, reached_of_le h] at hentry
  exact List.eq_of_mem_replicate hentry

theorem Owned.Uniform.ownData (owner : ℕ) (h : data.Uniform ids)
    (hwhole : reach = 0 ∨ data.all.length ≤ reach) :
    (∃ ids, (ownData owner reach data).1.Uniform ids) ∧
      (Apps.ownData owner reach data).1.all.length = data.all.length := by
  by_cases hown : data.ids = .of owner
  · rw [ownData_of_owned hown]
    exact ⟨⟨ids, h⟩, rfl⟩
  · obtain ⟨hall, -⟩ := ownData_of_ne reach hown
    rcases hwhole with rfl | hle
    · rw [reached_zero] at hall
      exact ⟨⟨ids, fun entry hentry ↦ h entry (hall ▸ hentry)⟩, by rw [hall]⟩
    · exact ⟨⟨_, .of_reached hle hall⟩, by rw [hall, reached_of_le hle, List.length_replicate]⟩

theorem Owned.Uniform.afterCalls (h : data.Uniform ids) {calls : List OwnCall}
    (hwhole : ∀ call ∈ calls, call.reach = 0 ∨ data.all.length ≤ call.reach) :
    ∃ ids, (afterCalls data calls).Uniform ids := by
  induction calls generalizing data ids with
  | nil => exact ⟨ids, h⟩
  | cons call calls ih =>
    obtain ⟨hcall, hcalls⟩ := List.forall_mem_cons.1 hwhole
    obtain ⟨⟨ids', h'⟩, hlength⟩ := h.ownData call.owner hcall
    exact ih h' (hlength ▸ hcalls)

theorem Owned.Uniform.owned (h : data.Uniform ids)
    (hok : (Apps.ownData owner reach data).2 = true) :
    (Apps.ownData owner reach data).1.Uniform (.of owner) := by
  by_cases hown : data.ids = .of owner
  · rw [ownData_of_owned hown]
    rwa [← hown, h.ids_eq]
  · obtain ⟨hall, hiff⟩ := ownData_of_ne reach hown
    exact .of_reached (hiff.1 hok) hall

theorem not_uniform_of_stopped (h : data.Uniform ids) (hids : ids ≠ .of owner) (hpos : reach ≠ 0)
    (hlt : reach < data.all.length) :
    (Apps.ownData owner reach data).1.ids = .of owner ∧
      ¬ (Apps.ownData owner reach data).1.Uniform (.of owner) := by
  obtain ⟨hall, -⟩ := ownData_of_ne reach (h.ids_eq ▸ hids)
  rw [reached, min_eq_left hlt.le] at hall
  constructor
  · obtain ⟨rest, hrest⟩ := (Apps.ownData owner reach data).1.exists_all_eq
    obtain ⟨n, rfl⟩ := Nat.exists_eq_succ_of_ne_zero hpos
    rw [hrest, List.replicate_succ] at hall
    exact (List.cons.inj hall).1
  · intro huniform
    have hlast : data.all.getLast (List.ne_nil_of_length_pos (by omega)) ∈ data.all.drop reach := by
      rw [← List.getLast_drop (by simpa using hlt)]
      exact List.getLast_mem _
    refine hids ((h _ (List.mem_of_mem_drop hlast)).symm.trans (huniform _ ?_))
    rw [hall]
    exact List.mem_append_right _ hlast

/-- Data belongs to its owner if every earlier call stopped at its start or not at all. -/
theorem owned_of_whole_calls (h : data.Uniform ids) (owner reach : ℕ) :
    (∀ calls : List OwnCall, (∀ call ∈ calls, call.reach = 0 ∨ data.all.length ≤ call.reach) →
      (Apps.ownData owner reach (afterCalls data calls)).2 = true →
        (Apps.ownData owner reach (afterCalls data calls)).1.Uniform (.of owner)) ∧
    (ids ≠ .of owner → data.all.length ≤ reach → ∀ stopped,
      (Apps.ownData owner reach (afterCalls data [⟨owner, stopped⟩])).2 = true ∧
        ((Apps.ownData owner reach (afterCalls data [⟨owner, stopped⟩])).1.Uniform (.of owner) ↔
          stopped = 0 ∨ data.all.length ≤ stopped)) := by
  constructor
  · intro calls hwhole hok
    obtain ⟨ids', h'⟩ := h.afterCalls hwhole
    exact h'.owned hok
  · intro hids hreach stopped
    change (Apps.ownData owner reach (Apps.ownData owner stopped data).1).2 = true ∧
      ((Apps.ownData owner reach (Apps.ownData owner stopped data).1).1.Uniform (.of owner) ↔ _)
    by_cases hwhole : stopped = 0 ∨ data.all.length ≤ stopped
    · obtain ⟨⟨ids', h'⟩, hlength⟩ := h.ownData owner hwhole
      have hok : (Apps.ownData owner reach (Apps.ownData owner stopped data).1).2 = true := by
        by_cases hown : (Apps.ownData owner stopped data).1.ids = .of owner
        · rw [ownData_of_owned hown]
        · exact (ownData_of_ne reach hown).2.2 (hlength ▸ hreach)
      exact ⟨hok, iff_of_true (h'.owned hok) hwhole⟩
    · obtain ⟨hpos, hlt⟩ := not_or.1 hwhole
      obtain ⟨hown, hnot⟩ := not_uniform_of_stopped h hids hpos (not_le.1 hlt)
      rw [ownData_of_owned hown]
      exact ⟨rfl, iff_of_false hnot hwhole⟩

end Calls

def sampleData : Owned := .dir ⟨0, 0⟩ [.leaf ⟨0, 0⟩]

theorem uniform_sampleData : sampleData.Uniform ⟨0, 0⟩ := by
  change ∀ entry ∈ [(⟨0, 0⟩ : Ids), ⟨0, 0⟩], entry = ⟨0, 0⟩
  decide

theorem owned_of_whole_calls_sampleData :
    (∀ calls : List OwnCall, (∀ call ∈ calls, call.reach = 0 ∨ sampleData.all.length ≤ call.reach) →
      (ownData 7 2 (afterCalls sampleData calls)).2 = true →
        (ownData 7 2 (afterCalls sampleData calls)).1.Uniform (.of 7)) ∧
    ((⟨0, 0⟩ : Ids) ≠ .of 7 → sampleData.all.length ≤ 2 → ∀ stopped,
      (ownData 7 2 (afterCalls sampleData [⟨7, stopped⟩])).2 = true ∧
        ((ownData 7 2 (afterCalls sampleData [⟨7, stopped⟩])).1.Uniform (.of 7) ↔
          stopped = 0 ∨ sampleData.all.length ≤ stopped)) :=
  owned_of_whole_calls uniform_sampleData 7 2

/-- A stopped call has owned the root, so the next call passes over the rest. -/
theorem not_forall_owned_of_calls :
    ¬ ∀ (data : Owned) (ids : Ids) (calls : List OwnCall) (owner reach : ℕ), data.Uniform ids →
      (ownData owner reach (afterCalls data calls)).2 = true →
        (ownData owner reach (afterCalls data calls)).1.Uniform (.of owner) := by
  intro h
  have hall := h sampleData ⟨0, 0⟩ [⟨7, 1⟩] 7 2 uniform_sampleData rfl
  exact absurd (hall ⟨0, 0⟩ (List.mem_cons_of_mem _ List.mem_cons_self)) (by decide)

end MicaCore.Apps
