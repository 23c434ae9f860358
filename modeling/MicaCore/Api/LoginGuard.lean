import MicaCore.Concurrent.Threads

namespace MicaCore.Api

open Concurrent

def second : ℕ := 1000000000

/-- A clock reading; the wall clock and the monotonic one advance together. -/
structure Instant where
  nanos : ℕ
  fits : nanos < 2 ^ 63 * second

def backoffBase : ℕ := 1

def backoffMax : ℕ := 300

def backoffFor (failures : ℕ) : ℕ :=
  if failures = 0 then 0
  else
    let factor := if failures - 1 < 64 then 2 ^ (failures - 1) else 2 ^ 64 - 1
    let secs := min (backoffBase * factor) (2 ^ 64 - 1)
    min secs backoffMax * second

structure LoginGuard where
  failures : ℕ := 0
  lockedUntil : Option ℕ := none
  deriving DecidableEq

namespace LoginGuard

def check (guard : LoginGuard) (now : ℕ) : Bool × LoginGuard :=
  match guard.lockedUntil with
  | some end_ => if end_ > now then (false, guard) else (true, { guard with lockedUntil := none })
  | none => (true, guard)

def arm (guard : LoginGuard) (now : Instant) : LoginGuard :=
  { guard with lockedUntil := some (now.nanos + backoffFor guard.failures) }

def recordFailure (guard : LoginGuard) (now : Instant) : LoginGuard :=
  { guard with failures := min (guard.failures + 1) (2 ^ 32 - 1) }.arm now

def beginAttempt (guard : LoginGuard) (checked armed : Instant) : Bool × LoginGuard :=
  match guard.check checked.nanos with
  | (false, guard) => (false, guard)
  | (true, guard) => (true, guard.recordFailure armed)

def confirmFailure (guard : LoginGuard) (now : Instant) : LoginGuard := guard.arm now

def recordSuccess (_guard : LoginGuard) : LoginGuard := {}

end LoginGuard

structure PersistedGuard where
  failures : ℕ
  lockedUntilUnix : ℕ

def nowUnix (wall : Instant) : ℕ := wall.nanos / second

def toPersisted (guard : LoginGuard) (now wall : Instant) : PersistedGuard :=
  let remaining := (guard.lockedUntil.map (· - now.nanos)).getD 0
  { failures := guard.failures
    lockedUntilUnix := if remaining = 0 then 0
      else min (nowUnix wall + max (remaining / second) 1) (2 ^ 64 - 1) }

def fromPersisted (persisted : PersistedGuard) (wall now : Instant) : LoginGuard :=
  let remaining := min (persisted.lockedUntilUnix - nowUnix wall) backoffMax
  { failures := persisted.failures
    lockedUntil := if remaining = 0 then none else some (now.nanos + remaining * second) }

structure Saved where
  guard : LoginGuard
  now : Instant
  wall : Instant

/-- The guard in memory and on disk, what was saved and the clock's last reading. -/
structure GuardStore where
  guard : LoginGuard := {}
  file : Option PersistedGuard := none
  now : ℕ := 0
  saved : Option Saved := none

/-- Calls on the store, with their clock readings and whether the write reached the disk. -/
inductive GuardCall where
  | beginAttempt (checked armed now wall : Instant) (written : Bool)
  | confirmFailure (armed now wall : Instant) (written : Bool)
  | recordSuccess (now wall : Instant) (written : Bool)
  | restart (wall now : Instant)

namespace GuardStore

def persist (store : GuardStore) (guard : LoginGuard) (now wall : Instant) (written : Bool) :
    GuardStore :=
  if guard ≠ store.guard ∧ written = true then
    { guard := guard, file := some (toPersisted guard now wall), now := wall.nanos,
      saved := some ⟨guard, now, wall⟩ }
  else { store with guard := guard, now := wall.nanos }

def inOrder (past : ℕ) : List Instant → Bool
  | [] => true
  | t :: ts => past ≤ t.nanos && inOrder t.nanos ts

theorem inOrder_cons {past : ℕ} {t : Instant} {ts : List Instant} :
    inOrder past (t :: ts) = true ↔ past ≤ t.nanos ∧ inOrder t.nanos ts = true := by
  simp [inOrder]

def step (store : GuardStore) : GuardCall → Option GuardStore
  | .beginAttempt checked armed now wall written =>
    if inOrder store.now [checked, armed, now, wall] then
      some (store.persist (store.guard.beginAttempt checked armed).2 now wall written)
    else none
  | .confirmFailure armed now wall written =>
    if inOrder store.now [armed, now, wall] then
      some (store.persist (store.guard.confirmFailure armed) now wall written)
    else none
  | .recordSuccess now wall written =>
    if inOrder store.now [now, wall] then
      some (store.persist store.guard.recordSuccess now wall written)
    else none
  | .restart wall now =>
    if inOrder store.now [wall, now] then
      some { store with
        guard := match store.file with
          | some persisted => fromPersisted persisted wall now
          | none => {}
        now := now.nanos }
    else none

end GuardStore

theorem backoffFor_le (failures : ℕ) : backoffFor failures ≤ backoffMax * second := by
  by_cases h : failures = 0
  · have h0 : backoffFor failures = 0 := if_pos h
    omega
  · have hmin : backoffFor failures = min _ backoffMax * second := if_neg h
    rw [hmin]
    exact Nat.mul_le_mul_right second (Nat.min_le_right _ _)

/-- A lockout ends within the longest back-off. -/
def LoginGuard.Within (guard : LoginGuard) (now : ℕ) : Prop :=
  ∀ end_, guard.lockedUntil = some end_ → end_ ≤ now + backoffMax * second

namespace LoginGuard

variable {guard : LoginGuard} {now later : ℕ}

theorem Within.mono (h : guard.Within now) (hle : now ≤ later) : guard.Within later := by
  intro end_ hend
  have := h end_ hend
  omega

theorem within_arm (guard : LoginGuard) (armed : Instant) (hle : armed.nanos ≤ now) :
    (guard.arm armed).Within now := by
  intro end_ hend
  cases hend
  have := backoffFor_le guard.failures
  omega

theorem within_beginAttempt {checked armed : Instant} (h : guard.Within now)
    (hle : armed.nanos ≤ now) : (guard.beginAttempt checked armed).2.Within now := by
  unfold beginAttempt check
  cases hg : guard.lockedUntil with
  | none => exact within_arm _ armed hle
  | some end_ =>
    by_cases hend : end_ > checked.nanos
    · simpa only [hend, if_true] using h
    · simp only [hend, if_false]
      exact within_arm _ armed hle

end LoginGuard

theorem within_fromPersisted (persisted : PersistedGuard) (wall now : Instant) :
    (fromPersisted persisted wall now).Within now.nanos := by
  intro end_ hend
  obtain ⟨-, hsome⟩ := Option.ite_none_left_eq_some.1 hend
  cases hsome
  have := Nat.mul_le_mul_right second (Nat.min_le_right (persisted.lockedUntilUnix - nowUnix wall) backoffMax)
  omega

namespace GuardStore

structure Kept (store : GuardStore) : Prop where
  window : store.guard.Within store.now
  file : store.file = store.saved.map fun f ↦ toPersisted f.guard f.now f.wall
  saved : ∀ f, store.saved = some f →
    f.guard.Within f.now.nanos ∧ f.now.nanos ≤ f.wall.nanos ∧ f.wall.nanos ≤ store.now

variable {store next : GuardStore} {call : GuardCall}

theorem Kept.persist {guard : LoginGuard} {now wall : Instant} (h : Kept store) (written : Bool)
    (hguard : guard.Within now.nanos) (hnow : store.now ≤ now.nanos)
    (hwall : now.nanos ≤ wall.nanos) : Kept (store.persist guard now wall written) := by
  unfold GuardStore.persist
  split
  · refine ⟨hguard.mono hwall, rfl, ?_⟩
    intro f hf
    cases hf
    exact ⟨hguard, hwall, le_rfl⟩
  · refine ⟨hguard.mono hwall, h.file, ?_⟩
    intro f hf
    obtain ⟨hw, hle, hpast⟩ := h.saved f hf
    exact ⟨hw, hle, hpast.trans (hnow.trans hwall)⟩

theorem Kept.step (h : Kept store) (hstep : store.step call = some next) : Kept next := by
  cases call with
  | beginAttempt checked armed now wall written =>
    obtain ⟨horder, hnext⟩ := Option.ite_none_right_eq_some.1 hstep
    cases hnext
    simp only [inOrder_cons] at horder
    obtain ⟨h₁, h₂, h₃, h₄, -⟩ := horder
    apply h.persist written _ (by omega) h₄
    exact LoginGuard.within_beginAttempt (h.window.mono (by omega)) h₃
  | confirmFailure armed now wall written =>
    obtain ⟨horder, hnext⟩ := Option.ite_none_right_eq_some.1 hstep
    cases hnext
    simp only [inOrder_cons] at horder
    obtain ⟨h₁, h₂, h₃, -⟩ := horder
    exact h.persist written (LoginGuard.within_arm _ armed h₂) (by omega) h₃
  | recordSuccess now wall written =>
    obtain ⟨horder, hnext⟩ := Option.ite_none_right_eq_some.1 hstep
    cases hnext
    simp only [inOrder_cons] at horder
    obtain ⟨h₁, h₂, -⟩ := horder
    apply h.persist written _ h₁ h₂
    intro end_ hend
    cases hend
  | restart wall now =>
    obtain ⟨horder, hnext⟩ := Option.ite_none_right_eq_some.1 hstep
    cases hnext
    simp only [inOrder_cons] at horder
    obtain ⟨h₁, h₂, -⟩ := horder
    refine ⟨?_, h.file, ?_⟩
    · intro end_ hend
      cases hf : store.file with
      | none =>
        rw [hf] at hend
        cases hend
      | some persisted =>
        rw [hf] at hend
        exact within_fromPersisted persisted wall now end_ hend
    · intro f hf
      obtain ⟨hw, hle, hpast⟩ := h.saved f hf
      exact ⟨hw, hle, by simp only; omega⟩

/-- The fractions of a second lost at the save and won at the load make up for each other. -/
def InPhase (f : Saved) (end_ : ℕ) (wall now : Instant) : Prop :=
  f.wall.nanos % second + (end_ - f.now.nanos) ≤
    max ((end_ - f.now.nanos) / second * second) second + (f.wall.nanos - f.now.nanos) +
      wall.nanos % second + (now.nanos - wall.nanos)

theorem lockedUntil_reloaded {f : Saved} {end_ : ℕ} {wall now : Instant}
    (hend : f.guard.lockedUntil = some end_) (hwithin : f.guard.Within f.now.nanos)
    (hsave : f.now.nanos ≤ f.wall.nanos) (hload : f.wall.nanos ≤ wall.nanos)
    (hnow : wall.nanos ≤ now.nanos) (hbefore : now.nanos < end_) :
    (∃ t, (fromPersisted (toPersisted f.guard f.now f.wall) wall now).lockedUntil = some t ∧
      end_ ≤ t) ↔ InPhase f end_ wall now := by
  have hwindow := hwithin end_ hend
  have hfits := f.wall.fits
  have hleft : end_ - f.now.nanos ≠ 0 := by omega
  simp only [fromPersisted, toPersisted, hend, Option.map_some, Option.getD_some, if_neg hleft,
    nowUnix, InPhase, Option.ite_none_left_eq_some, Option.some_inj]
  simp only [second, backoffMax] at hwindow hfits ⊢
  constructor
  · rintro ⟨t, ⟨hne, rfl⟩, hle⟩
    omega
  · intro hphase
    refine ⟨_, ⟨?_, rfl⟩, ?_⟩ <;> omega

theorem refuses_until_iff {guard : LoginGuard} {now end_ : ℕ} (hbefore : now < end_) :
    (∀ t, now ≤ t → t < end_ → (guard.check t).1 = false) ↔
      ∃ t, guard.lockedUntil = some t ∧ end_ ≤ t := by
  unfold LoginGuard.check
  cases hg : guard.lockedUntil with
  | none =>
    simp only [reduceCtorEq, false_and, exists_false, iff_false, not_forall]
    exact ⟨now, le_rfl, hbefore, by simp⟩
  | some u =>
    simp only [Option.some_inj, exists_eq_left']
    constructor
    · intro h
      by_contra hlt
      have := h (max now u) (le_max_left _ _) (by omega)
      rw [if_neg (by omega)] at this
      cases this
    · intro hle t _ ht
      rw [if_pos (by omega)]

theorem kept_new : Kept {} :=
  ⟨fun _ he ↦ (by cases he), rfl, fun _ hf ↦ (by cases hf)⟩

/-- A restart keeps the count, and the window exactly if the clock's phases make up for each other. -/
theorem refuses_of_restart_iff {calls : List GuardCall}
    (h : Trace step (fun _ _ ↦ True) {} calls store) {f : Saved} {end_ : ℕ} {wall now : Instant}
    (hf : store.saved = some f) (hend : f.guard.lockedUntil = some end_)
    (horder : inOrder store.now [wall, now] = true) (hbefore : now.nanos < end_) :
    ∃ next, store.step (.restart wall now) = some next ∧
      next.guard.failures = f.guard.failures ∧ next.guard.Within now.nanos ∧
      ((∀ t, now.nanos ≤ t → t < end_ → (next.guard.check t).1 = false) ↔
        InPhase f end_ wall now) := by
  have hkept : Kept store := by
    apply h.invariant (I := Kept) (fun _ _ _ hs _ hstep ↦ hs.step hstep)
    refine ⟨?_, rfl, ?_⟩
    · intro end_ he
      cases he
    · intro f hf
      cases hf
  obtain ⟨hwithin, hsave, hpast⟩ := hkept.saved f hf
  have hfile : store.file = some (toPersisted f.guard f.now f.wall) := by
    rw [hkept.file, hf, Option.map_some]
  refine ⟨_, if_pos horder, ?_⟩
  simp only [hfile]
  refine ⟨rfl, within_fromPersisted _ wall now, ?_⟩
  simp only [inOrder_cons] at horder
  obtain ⟨h₁, h₂, -⟩ := horder
  rw [refuses_until_iff hbefore]
  exact lockedUntil_reloaded hend hwithin hsave (hpast.trans h₁) h₂ hbefore

/-- Nobody is locked out for good: whatever the failures and restarts, an attempt is
admitted once the longest window has passed. -/
theorem admits_after_backoffMax {calls : List GuardCall}
    (h : Trace step (fun _ _ ↦ True) {} calls store)
    {t : ℕ} (ht : store.now + backoffMax * second ≤ t) : (store.guard.check t).1 = true := by
  have hkept := h.invariant (I := Kept) (fun _ _ _ hs _ hstep ↦ hs.step hstep) kept_new
  unfold LoginGuard.check
  cases hend : store.guard.lockedUntil with
  | none => rfl
  | some end_ =>
    have := hkept.window end_ hend
    simp only [if_neg (show ¬ end_ > t by omega)]

def atMillis (n : Fin 10000) : Instant where
  nanos := n * 1000000
  fits := by
    have := n.isLt
    simp only [second]
    omega

def charged (n : Fin 10000) : GuardStore :=
  let guard : LoginGuard := { failures := 1, lockedUntil := some ((atMillis n).nanos + 1000000000) }
  { guard := guard
    file := some (toPersisted guard (atMillis n) (atMillis n))
    now := (atMillis n).nanos
    saved := some ⟨guard, atMillis n, atMillis n⟩ }

theorem trace_charged (n : Fin 10000) :
    Trace step (fun _ _ ↦ True) {}
      [.beginAttempt (atMillis n) (atMillis n) (atMillis n) (atMillis n) true] (charged n) := by
  apply Trace.one trivial
  simp [step, inOrder, LoginGuard.beginAttempt, LoginGuard.check, LoginGuard.recordFailure,
    LoginGuard.arm, persist, backoffFor, backoffBase, backoffMax, second, charged]

theorem refuses_of_restart_inPhase :
    ∃ next, (charged 200).step (.restart (atMillis 900) (atMillis 900)) = some next ∧
      next.guard.failures = 1 ∧ next.guard.Within (atMillis 900).nanos ∧
      ((∀ t, (atMillis 900).nanos ≤ t → t < 1200000000 → (next.guard.check t).1 = false) ↔
        InPhase ⟨{ failures := 1, lockedUntil := some 1200000000 }, atMillis 200, atMillis 200⟩
          1200000000 (atMillis 900) (atMillis 900)) :=
  refuses_of_restart_iff (trace_charged 200) rfl rfl (by decide) (by decide)

theorem admits_after_backoffMax_charged :
    ((charged 200).guard.check ((charged 200).now + backoffMax * second)).1 = true :=
  admits_after_backoffMax (trace_charged 200) le_rfl

/-- A window armed at nine tenths of a second ends nine tenths too early. -/
theorem admits_of_restart :
    ∃ store next f, Trace step (fun _ _ ↦ True) {}
        [.beginAttempt (atMillis 900) (atMillis 900) (atMillis 900) (atMillis 900) true] store ∧
      store.saved = some f ∧ f.guard.lockedUntil = some 1900000000 ∧
      store.step (.restart (atMillis 1000) (atMillis 1000)) = some next ∧
      (atMillis 1000).nanos = 1000000000 ∧ (next.guard.check 1000000000).1 = true :=
  ⟨charged 900, _, _, trace_charged 900, rfl, rfl, rfl, rfl, rfl⟩

end GuardStore

end MicaCore.Api
