import MicaCore.Deploy.Identity

namespace MicaCore.Ble

open Data

def maxFailures : ℕ := 5

def lockouts : List ℕ := [600, 3600, 86400]

def lockoutSeconds (level : ℕ) : ℕ := lockouts.getD (min level (lockouts.length - 1)) 0

structure Lockout where
  failures : ℕ := 0
  level : ℕ := 0
  lockedUntil : Option ℕ := none
  deriving DecidableEq

namespace Lockout

variable {l before : Lockout} {now : ℕ}

def remaining (l : Lockout) (now : ℕ) : Option ℕ :=
  (l.lockedUntil.filter (now < ·)).map (· - now)

def attemptsLeft (l : Lockout) : ℕ := maxFailures - l.failures

def locks (l : Lockout) : Bool := maxFailures ≤ l.failures + 1

def charge (l : Lockout) (now : ℕ) : Lockout :=
  if l.locks then
    { failures := 0
      level := min (l.level + 1) (2 ^ 32 - 1)
      lockedUntil := some (now + lockoutSeconds l.level) }
  else { l with failures := l.failures + 1 }

def succeed (_l before : Lockout) : Lockout := { before with failures := 0 }

theorem remaining_eq_none :
    l.remaining now = none ↔ ∀ until_, l.lockedUntil = some until_ → until_ ≤ now := by
  unfold remaining
  cases l.lockedUntil with
  | none => simp
  | some until_ => simp [Option.filter]

theorem charge_of_locks (h : l.locks = true) : l.charge now =
    ⟨0, min (l.level + 1) (2 ^ 32 - 1), some (now + lockoutSeconds l.level)⟩ :=
  if_pos h

theorem charge_of_not_locks (h : l.locks = false) :
    l.charge now = { l with failures := l.failures + 1 } := by
  rw [charge, if_neg (by simp [h])]

theorem failures_charge_lt (h : l.failures < maxFailures) :
    (l.charge now).failures < maxFailures := by
  cases hl : l.locks with
  | true =>
    rw [charge_of_locks hl]
    exact Nat.zero_lt_of_lt h
  | false =>
    rw [charge_of_not_locks hl]
    simp only [locks, decide_eq_false_iff_not] at hl
    exact Nat.lt_of_not_le hl

theorem lockoutSeconds_min (k : ℕ) : lockoutSeconds (min k (2 ^ 32 - 1)) = lockoutSeconds k := by
  simp only [lockoutSeconds, lockouts, List.length_cons, List.length_nil]
  congr 1
  omega

end Lockout

def bootSeconds : ℕ := 600

def offlineDelay : ℕ := 120

inductive Trigger where
  | unclaimed
  | boot
  | offline
  | manual
  deriving DecidableEq

inductive Auth where
  | none
  | password
  | tempCode
  deriving DecidableEq

def Auth.name : Auth → Text
  | .none => "none".toList
  | .password => "password".toList
  | .tempCode => "temp-code".toList

structure Open where
  trigger : Trigger
  auth : Auth
  closesAt : Option ℕ
  deriving DecidableEq

structure Windows where
  claimedAtBoot : Bool
  bootClosed : Bool := false
  hadRoute : Bool := false
  lostSince : Option ℕ := none
  manualUntil : Option ℕ := none
  deriving DecidableEq

namespace Windows

def route (w : Windows) (now : ℕ) (present : Bool) : Windows :=
  if present then { w with hadRoute := true, lostSince := none }
  else if w.hadRoute && w.lostSince.isNone then { w with lostSince := some now }
  else w

def openManual (w : Windows) (now seconds : ℕ) : Windows :=
  { w with manualUntil := some (now + seconds) }

def closeManual (w : Windows) : Windows := { w with manualUntil := none }

def finish (w : Windows) (now : ℕ) : Windows :=
  { w with
    bootClosed := true
    manualUntil := none
    lostSince := w.lostSince.map fun _ ↦ now }

def current (w : Windows) (now : ℕ) (claimed autoWhenOffline : Bool) : Option Open :=
  let boot := !w.bootClosed && decide (now < bootSeconds)
  if !claimed then
    if boot && !w.claimedAtBoot then some ⟨.unclaimed, .none, some bootSeconds⟩ else none
  else
    match w.manualUntil.filter (now < ·) with
    | some until_ => some ⟨.manual, .tempCode, some until_⟩
    | none =>
      let offline := autoWhenOffline && w.lostSince.any (· + offlineDelay ≤ now)
      if boot && w.claimedAtBoot then
        some ⟨.boot, .password, if offline then none else some bootSeconds⟩
      else if offline then some ⟨.offline, .password, none⟩
      else none

end Windows

end MicaCore.Ble
