import MicaCore.Deploy.Settle

namespace MicaCore.Deploy

open Data

namespace SetState

variable {state : SetState} {retained : List Text} {booted : Text}

theorem mem_ids {x : Text} : x ∈ state.ids ↔
    state.current = some x ∨ state.pending = some x ∨ state.pair = some x ∨
      (∃ own, state.bound.get x = some own) ∨ ∃ deployment, state.bound.get deployment = some x := by
  simp [ids, OrdMap.mem_keys, OrdMap.mem_values, or_assoc, @eq_comm _ (some x)]

theorem mem_named {x : Text} : x ∈ state.named ↔
    state.current = some x ∨ state.pending = some x ∨
    ∃ deployment, state.bound.get deployment = some x := by
  simp [named, OrdMap.mem_values, or_assoc, @eq_comm _ (some x)]

theorem named_subset_ids : state.named ⊆ state.ids := by
  intro x hx
  rw [mem_named] at hx
  rw [mem_ids]
  rcases hx with hx | hx | hx
  · exact .inl hx
  · exact .inr (.inl hx)
  · exact .inr (.inr (.inr (.inr hx)))

variable {id : Text}

theorem get_makeCurrent (deployment : Text) :
    (state.makeCurrent retained booted id).bound.get deployment =
      (state.bound.get deployment).or
        (if deployment ∈ retained ∧ deployment ≠ booted then state.current else none) := by
  unfold makeCurrent
  cases state.current with
  | none => simp
  | some old =>
    simp only
    generalize state.bound = bound
    induction retained generalizing bound with
    | nil => simp
    | cons d ds ih =>
      rw [List.foldl_cons, ih]
      by_cases hd : d != booted && (bound.get d).isNone
      · rw [if_pos hd, OrdMap.get_insert]
        simp only [Bool.and_eq_true, bne_iff_ne, Option.isNone_iff_eq_none] at hd
        by_cases he : deployment = d
        · subst he
          simp [hd]
        · simp [he]
      · rw [if_neg hd]
        simp only [Bool.and_eq_true, bne_iff_ne, Option.isNone_iff_eq_none, not_and] at hd
        by_cases he : deployment = d
        · subst he
          by_cases hb : deployment = booted
          · simp [hb]
          · obtain ⟨x, hx⟩ := Option.ne_none_iff_exists'.1 (hd hb)
            simp [hx]
        · simp [he]

@[simp] theorem current_makeCurrent : (state.makeCurrent retained booted id).current = some id := by
  unfold makeCurrent
  cases state.current <;> rfl

@[simp] theorem pending_makeCurrent :
    (state.makeCurrent retained booted id).pending = state.pending := by
  unfold makeCurrent
  cases state.current <;> rfl

@[simp] theorem pair_makeCurrent : (state.makeCurrent retained booted id).pair = state.pair := by
  unfold makeCurrent
  cases state.current <;> rfl

section

variable {verdict : SetSettlement} {deployment x : Text}

theorem applyVerdict_eq : (state.applyVerdict retained booted verdict).current =
      (if verdict = .committed then state.pending.or state.current else state.current) ∧
    (state.applyVerdict retained booted verdict).pending =
      (if verdict = .unchanged then state.pending else none) ∧
    (state.applyVerdict retained booted verdict).pair = state.pair := by
  cases verdict with
  | committed =>
    simp only [applyVerdict]
    cases hp : state.pending <;> simp [hp]
  | _ => exact ⟨rfl, rfl, rfl⟩

theorem get_applyVerdict : (state.applyVerdict retained booted verdict).bound.get deployment =
    (state.bound.get deployment).or
      (if verdict = .committed ∧ state.pending.isSome ∧ deployment ∈ retained ∧ deployment ≠ booted
        then state.current else none) := by
  cases verdict with
  | committed =>
    simp only [applyVerdict]
    cases hp : state.pending
    · simp
    · simp [get_makeCurrent]
  | _ => simp [applyVerdict]

theorem takeOwn_eq : (state.takeOwn retained booted).bound.get booted = none ∧
    (state.takeOwn retained booted).current = (state.bound.get booted).or state.current ∧
    (state.takeOwn retained booted).pending = state.pending ∧
    (state.takeOwn retained booted).pair = state.pair := by
  unfold takeOwn
  cases hown : state.bound.get booted with
  | none => exact ⟨hown, rfl, rfl, rfl⟩
  | some own =>
    simp only
    split
    · next hcur => exact ⟨by simp [OrdMap.get_erase], by simpa using hcur, rfl, rfl⟩
    · simp [get_makeCurrent, OrdMap.get_erase]

theorem get_tidy : (state.tidy retained).bound.get deployment = some x ↔
    state.bound.get deployment = some x ∧ deployment ∈ retained ∧ state.current ≠ some x := by
  simp [tidy, OrdMap.get_filter_eq_some]

theorem get_settle_self : (state.settle retained booted verdict).bound.get booted = none := by
  refine Option.eq_none_iff_forall_ne_some.2 fun x hx ↦ ?_
  rw [settle, get_tidy, takeOwn_eq.1] at hx
  simp at hx

theorem current_settle : (state.settle retained booted verdict).current =
    (state.bound.get booted).or
      (if verdict = .committed then state.pending.or state.current else state.current) := by
  have htidy : (state.settle retained booted verdict).current =
      ((state.applyVerdict retained booted verdict).takeOwn retained booted).current := rfl
  rw [htidy, takeOwn_eq.2.1, get_applyVerdict, applyVerdict_eq.1]
  simp

theorem pending_settle : (state.settle retained booted verdict).pending =
    if verdict = .unchanged then state.pending else none := by
  have htidy : (state.settle retained booted verdict).pending =
      ((state.applyVerdict retained booted verdict).takeOwn retained booted).pending := rfl
  rw [htidy, takeOwn_eq.2.2.1, applyVerdict_eq.2.1]

theorem pair_settle : (state.settle retained booted verdict).pair =
    if (state.settle retained booted verdict).pending.isNone then none else state.pair := by
  have htidy : (state.settle retained booted verdict).pair =
      if ((state.applyVerdict retained booted verdict).takeOwn retained booted).pending.isNone then none
      else ((state.applyVerdict retained booted verdict).takeOwn retained booted).pair := rfl
  rw [htidy, takeOwn_eq.2.2.2, applyVerdict_eq.2.2]
  rfl

theorem mem_named_makeCurrent {id : Text} (h : x ∈ (state.makeCurrent retained booted id).named) :
    x = id ∨ x ∈ state.named := by
  rw [mem_named] at h ⊢
  rcases h with h | h | ⟨deployment, h⟩
  · exact .inl (by simpa [eq_comm] using h)
  · exact .inr (.inr (.inl (by simpa using h)))
  · rw [get_makeCurrent, Option.or_eq_some_iff] at h
    rcases h with h | ⟨-, h⟩
    · exact .inr (.inr (.inr ⟨deployment, h⟩))
    · split at h
      · exact .inr (.inl h)
      · cases h

theorem named_applyVerdict_subset :
    (state.applyVerdict retained booted verdict).named ⊆ state.named := by
  intro x hx
  have hdrop : { state with pending := none }.named ⊆ state.named := fun y hy ↦ by
    rw [mem_named] at hy ⊢
    exact hy.imp id fun hy ↦ .inr (hy.resolve_left (by simp))
  cases verdict with
  | unchanged => exact hx
  | dropped => exact hdrop hx
  | committed =>
    simp only [applyVerdict] at hx
    cases hp : state.pending with
    | none => simpa [hp] using hx
    | some p =>
      rw [hp] at hx
      rcases mem_named_makeCurrent hx with rfl | hx
      · exact mem_named.2 (.inr (.inl hp))
      · exact hdrop hx

theorem named_takeOwn_subset : (state.takeOwn retained booted).named ⊆ state.named := by
  intro x hx
  have herase : { state with bound := state.bound.erase booted }.named ⊆ state.named :=
    fun y hy ↦ by
    rw [mem_named] at hy ⊢
    refine hy.imp id fun hy ↦ hy.imp id ?_
    rintro ⟨deployment, hy⟩
    rw [OrdMap.get_erase] at hy
    split at hy
    · cases hy
    · exact ⟨deployment, hy⟩
  unfold takeOwn at hx
  cases hown : state.bound.get booted with
  | none => simpa [hown] using hx
  | some own =>
    simp only [hown] at hx
    split at hx
    · exact herase hx
    · rcases mem_named_makeCurrent hx with rfl | hx
      · exact mem_named.2 (.inr (.inr ⟨booted, hown⟩))
      · exact herase hx

theorem named_tidy_subset : (state.tidy retained).named ⊆ state.named := by
  intro x hx
  rw [mem_named] at hx ⊢
  refine hx.imp id fun hx ↦ hx.imp id ?_
  rintro ⟨deployment, hx⟩
  exact ⟨deployment, (get_tidy.1 hx).1⟩

theorem named_settle_subset : (state.settle retained booted verdict).named ⊆ state.named :=
  fun _ hx ↦ named_applyVerdict_subset (named_takeOwn_subset (named_tidy_subset hx))

theorem mem_retained_of_get_settle
    (h : (state.settle retained booted verdict).bound.get deployment = some x) :
    deployment ∈ retained := (get_tidy.1 h).2.1

end

end SetState

end MicaCore.Deploy
