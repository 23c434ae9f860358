import MicaCore.Ble.ServiceSpec
import MicaCore.Concurrent.Threads

namespace MicaCore.Ble

open Concurrent

variable {ρ : Type}

namespace Service

variable {s t : Service ρ}

/-- Attempts answered since the last confirmation or lockout. -/
def streak : List Event → ℕ
  | [] => 0
  | .answered _ :: log => streak log + 1
  | .charged _ before :: log => if before.locks then 0 else streak log
  | .confirmed _ :: _ => 0

/-- Lockouts by attempts that were not confirmed. -/
def standing : List Event → ℕ
  | [] => 0
  | .confirmed true :: .answered _ :: .charged _ _ :: log => standing log
  | .charged _ before :: log => if before.locks then standing log + 1 else standing log
  | _ :: log => standing log

theorem standing_answered (now : ℕ) (log : List Event) :
    standing (.answered now :: log) = standing log := by
  cases log <;> rfl

theorem standing_unstored (log : List Event) :
    standing (.confirmed false :: log) = standing log := by
  cases log <;> rfl

/-- While an exchange is in hand: `before` is the count it was charged on. -/
structure InHand (s : Service ρ) (before : Lockout) (now : ℕ) (rest : List Event) : Prop where
  lockout : s.lockout = before.charge now
  level : before.level = min (standing rest) (2 ^ 32 - 1)
  free : before.remaining now = none
  past : now ≤ s.unix

/-- What the count owes to the phase of the connection in hand. -/
def Owed (s : Service ρ) : Phase ρ → Prop
  | .params _ _ => s.lockout.remaining s.unix = none
  | .answering _ before now => streak s.log ≤ s.lockout.failures ∧
      ∃ rest, s.log = .charged now before :: rest ∧ InHand s before now rest
  | .confirm _ before => ∃ answeredAt now rest,
      s.log = .answered answeredAt :: .charged now before :: rest ∧ InHand s before now rest
  | _ => True

structure Counted (s : Service ρ) : Prop where
  failures : s.lockout.failures < maxFailures
  level : s.lockout.level = min (standing s.log) (2 ^ 32 - 1)
  few : streak s.log ≤ s.lockout.failures + 1
  owed : s.Owed s.engine.phase

theorem Counted.owed_of_eq {phase : Phase ρ} (h : Counted s) (hp : s.engine.phase = phase) :
    s.Owed phase := hp ▸ h.owed

theorem remaining_mono {l : Lockout} {now later : ℕ} (h : l.remaining now = none)
    (hle : now ≤ later) : l.remaining later = none := by
  rw [Lockout.remaining_eq_none] at h ⊢
  intro until_ hu
  exact (h until_ hu).trans hle

theorem InHand.of_eq {before : Lockout} {now : ℕ} {rest : List Event} (h : InHand s before now rest)
    (hlockout : t.lockout = s.lockout) (hunix : s.unix ≤ t.unix) : InHand t before now rest :=
  ⟨hlockout.trans h.lockout, h.level, h.free, h.past.trans hunix⟩

theorem owed_of_calm {phase : Phase ρ} (h : phase.Calm) : s.Owed phase := by
  cases phase <;> first | exact h.elim | trivial

theorem Owed.of_eq {phase : Phase ρ} (h : s.Owed phase) (hunix : s.unix ≤ t.unix)
    (hlockout : t.lockout = s.lockout) (hlog : t.log = s.log) : t.Owed phase := by
  cases phase with
  | params auth record =>
    rw [Owed, hlockout]
    exact remaining_mono h hunix
  | answering auth before now =>
    obtain ⟨hstreak, rest, hrest, hin⟩ := h
    exact ⟨hlockout ▸ hlog ▸ hstreak, rest, hlog.trans hrest, hin.of_eq hlockout hunix⟩
  | confirm auth before =>
    obtain ⟨answeredAt, now, rest, hrest, hin⟩ := h
    exact ⟨answeredAt, now, rest, hlog.trans hrest, hin.of_eq hlockout hunix⟩
  | idle | ready => trivial

theorem Counted.quiet (h : Counted s) (hunix : s.unix ≤ t.unix)
    (phase : t.engine.phase = s.engine.phase ∨ t.engine.phase.Calm)
    (lockout : t.lockout = s.lockout) (log : t.log = s.log) : Counted t := by
  refine ⟨lockout ▸ h.failures, lockout ▸ log ▸ h.level, lockout ▸ log ▸ h.few, ?_⟩
  rcases phase with phase | phase
  · exact Owed.of_eq (h.owed_of_eq phase.symm) hunix lockout log
  · exact owed_of_calm phase

theorem Counted.charged (h : Counted s) (hunix : s.unix ≤ t.unix) {auth : Auth} {record : ρ}
    (before : s.engine.phase = .params auth record)
    (phase : t.engine.phase = .answering auth s.lockout t.unix ∨ t.engine.phase.Calm)
    (lockout : t.lockout = s.lockout.charge t.unix)
    (log : t.log = .charged t.unix s.lockout :: s.log) : Counted t := by
  have hfree := remaining_mono (h.owed_of_eq before) hunix
  have hcharge : t.lockout.level = min (standing t.log) (2 ^ 32 - 1) ∧
      streak t.log ≤ t.lockout.failures := by
    rw [lockout, log]
    cases hl : s.lockout.locks with
    | true =>
      simp only [Lockout.charge_of_locks hl, standing, streak, hl, if_true, h.level]
      omega
    | false =>
      simp only [Lockout.charge_of_not_locks hl, standing, streak, hl, h.level]
      exact ⟨rfl, h.few⟩
  have hfail : t.lockout.failures < maxFailures := by
    rw [lockout]
    exact Lockout.failures_charge_lt h.failures
  refine ⟨hfail, hcharge.1, hcharge.2.trans (Nat.le_succ _), ?_⟩
  rcases phase with phase | phase
  · rw [phase]
    exact ⟨hcharge.2, s.log, log, lockout, h.level, hfree, le_rfl⟩
  · exact owed_of_calm phase

theorem Counted.answered (h : Counted s) (hunix : s.unix ≤ t.unix) {auth : Auth} {before : Lockout}
    {chargedAt : ℕ} (waiting : s.engine.phase = .answering auth before chargedAt)
    (phase : t.engine.phase = .confirm auth before ∨ t.engine.phase.Calm)
    (lockout : t.lockout = s.lockout) (log : t.log = .answered t.unix :: s.log) : Counted t := by
  obtain ⟨hstreak, rest, hlog, hin⟩ := h.owed_of_eq waiting
  refine ⟨lockout ▸ h.failures, ?_, ?_, ?_⟩
  · rw [lockout, log, standing_answered]
    exact h.level
  · rw [lockout, log]
    exact Nat.succ_le_succ hstreak
  · rcases phase with phase | phase
    · rw [phase]
      exact ⟨t.unix, chargedAt, rest, hlog ▸ log, hin.of_eq lockout hunix⟩
    · exact owed_of_calm phase

theorem Counted.confirmed (h : Counted s) {auth : Auth} {before : Lockout} {stored : Bool}
    (waiting : s.engine.phase = .confirm auth before) (phase : t.engine.phase.Calm)
    (lockout : t.lockout = if stored then s.lockout.succeed before else s.lockout)
    (log : t.log = .confirmed stored :: s.log) : Counted t := by
  obtain ⟨answeredAt, now, rest, hlog, hin⟩ := h.owed_of_eq waiting
  refine ⟨?_, ?_, log ▸ Nat.zero_le _, owed_of_calm phase⟩
  · rw [lockout]
    split
    · exact Nat.zero_lt_of_lt h.failures
    · exact h.failures
  · rw [lockout, log]
    cases stored with
    | true =>
      rw [hlog]
      exact hin.level
    | false =>
      rw [standing_unstored]
      exact h.level

theorem Counted.step (h : Counted s) (hunix : s.unix ≤ t.unix) (hm : Moved s t) : Counted t := by
  cases hm with
  | quiet phase lockout log => exact h.quiet hunix phase lockout log
  | began auth record phase free lockout log =>
    refine ⟨lockout ▸ h.failures, lockout ▸ log ▸ h.level, lockout ▸ log ▸ h.few, ?_⟩
    rw [phase, Owed, lockout, free]
  | charged auth record before phase lockout log => exact h.charged hunix before phase lockout log
  | answered auth before chargedAt waiting phase lockout log =>
    exact h.answered hunix waiting phase lockout log
  | confirmed auth before stored waiting phase lockout log =>
    exact h.confirmed waiting phase lockout log

theorem counted_start (facts : Facts) (verifier : Option ρ) (unix : ℕ) :
    Counted (ρ := ρ) { engine := .boot facts, verifier, unix } :=
  ⟨show 0 < maxFailures by decide, rfl, Nat.zero_le _, trivial⟩

theorem stepped_of_next {l : Label ρ} (h : s.next l = some t) : s.unix ≤ t.unix ∧ Moved s t := by
  obtain ⟨⟨t, out⟩, hstep, rfl⟩ := Option.map_eq_some_iff.1 h
  have hst := stepped_of_step hstep
  exact ⟨hst.unix, hst.moved⟩

theorem Counted.run {ls : List (Label ρ)} (h : Counted s)
    (hrun : Trace next (fun _ _ ↦ True) s ls t) :
    Counted t := by
  refine hrun.invariant (I := Counted) (fun s l t hs _ hnext ↦ ?_) h
  obtain ⟨hunix, hmoved⟩ := stepped_of_next hnext
  exact hs.step hunix hmoved

theorem charge_of_log {l : Label ρ} {out : List Output}
    (hstep : s.step l = some (t, out)) {now : ℕ} {before : Lockout}
    (hlog : t.log = .charged now before :: s.log) :
    now = t.unix ∧ before = s.lockout ∧ t.lockout = before.charge now := by
  cases (stepped_of_step hstep).moved with
  | quiet _ _ log | began _ _ _ _ _ log =>
    exact absurd (hlog.symm.trans log) (List.cons_ne_self _ _)
  | charged auth record _ phase lockout log =>
    cases log.symm.trans hlog
    exact ⟨rfl, rfl, lockout⟩
  | answered _ _ _ _ _ _ log | confirmed _ _ _ _ _ _ log => cases log.symm.trans hlog

/-- Shares are answered only once charged, at most five before a lockout, and none within one. The
charge that locks sets the lockout's end, and only charges and valid confirms move it. -/
theorem counted_of_run {facts : Facts} {verifier : Option ρ} {unix : ℕ} {ls : List (Label ρ)}
    (h : Trace next (fun _ _ ↦ True) { engine := .boot facts, verifier, unix } ls s) :
    streak s.log ≤ maxFailures ∧
    ∀ l t out, s.step l = some (t, out) →
      (∀ n, .session (.share n) ∈ out → ∃ before now rest,
        s.log = .charged now before :: rest ∧ s.lockout = before.charge now ∧
          n = s.lockout.attemptsLeft ∧ t.log = .answered t.unix :: s.log ∧
          now ≤ t.unix ∧ ∀ until_, before.lockedUntil = some until_ → until_ ≤ t.unix) ∧
      (∀ now before, t.log = .charged now before :: s.log →
        now = t.unix ∧ before = s.lockout ∧ (before.locks = true →
          t.lockout.lockedUntil = some (t.unix + lockoutSeconds (standing s.log)))) ∧
      (t.lockout.lockedUntil ≠ s.lockout.lockedUntil →
        t.log = .charged t.unix s.lockout :: s.log ∧
            t.lockout.lockedUntil = some (t.unix + lockoutSeconds (standing s.log)) ∨
          t.log = .confirmed true :: s.log ∧ ∃ answeredAt now before rest,
            s.log = .answered answeredAt :: .charged now before :: rest ∧
              t.lockout = { before with failures := 0 }) := by
  have hs := (counted_start facts verifier unix).run h
  have hseconds : s.lockout.locks = true → ∀ now, (s.lockout.charge now).lockedUntil =
      some (now + lockoutSeconds (standing s.log)) := by
    intro hl now
    rw [Lockout.charge_of_locks hl, hs.level, Lockout.lockoutSeconds_min]
  refine ⟨hs.few.trans hs.failures, ?_⟩
  intro l t out hstep
  have hst := stepped_of_step hstep
  refine ⟨?_, ?_, ?_⟩
  · intro n hn
    obtain ⟨auth, before, now, hp, hleft, hlog⟩ := hst.sent n hn
    obtain ⟨-, rest, hcharged, hin⟩ := hs.owed_of_eq hp
    have hnow : now ≤ t.unix := hin.past.trans hst.unix
    refine ⟨before, now, rest, hcharged, hin.lockout, hin.lockout ▸ hleft, hlog, hnow, ?_⟩
    intro until_ hu
    exact (Lockout.remaining_eq_none.1 hin.free until_ hu).trans hnow
  · intro now before hlog
    obtain ⟨rfl, rfl, hcharge⟩ := charge_of_log hstep hlog
    exact ⟨rfl, rfl, fun hl ↦ hcharge ▸ hseconds hl _⟩
  · intro hne
    cases hst.moved with
    | quiet _ lockout _ | began _ _ _ _ lockout _ | answered _ _ _ _ _ lockout _ =>
      exact absurd (congrArg Lockout.lockedUntil lockout) hne
    | charged auth record before phase lockout log =>
      refine .inl ⟨log, ?_⟩
      cases hl : s.lockout.locks with
      | true =>
        rw [lockout]
        exact hseconds hl _
      | false =>
        rw [lockout, Lockout.charge_of_not_locks hl] at hne
        exact absurd rfl hne
    | confirmed auth before stored waiting phase lockout log =>
      cases stored with
      | true =>
        obtain ⟨answeredAt, now, rest, hlog, -⟩ := hs.owed_of_eq waiting
        exact .inr ⟨log, answeredAt, now, before, rest, hlog, lockout⟩
      | false => exact absurd (congrArg Lockout.lockedUntil lockout) hne

def claimedDevice : Service Unit :=
  { engine := .boot ⟨true, false, false⟩, verifier := some (), unix := 1000 }

def quietReading (now : ℕ) : Reading := ⟨now, 1000 + now, ⟨true, false, false⟩, ⟨false, .off⟩⟩

def guess (auth : Auth) (now : ℕ) : List (Label Unit) :=
  [.input (quietReading now) .done (.write "phone".toList (.session (.start (some auth.name) true))),
    .input (quietReading now) .done (.write "phone".toList (.session (.share true))),
    .answer (quietReading now)]

def fiveGuesses (auth : Auth) : List (Label Unit) := [1, 2, 3, 4, 5].flatMap (guess auth)

theorem counted_of_run_fiveGuesses :
    ∃ s, Trace next (fun _ _ ↦ True) claimedDevice (fiveGuesses .password) s ∧
      s.lockout = ⟨0, 1, some 1605⟩ ∧ streak s.log ≤ maxFailures := by
  obtain ⟨s, hrun, hs⟩ : ∃ s, Trace next (fun _ _ ↦ True) claimedDevice (fiveGuesses .password) s ∧
      s.lockout = ⟨0, 1, some 1605⟩ := by decide
  exact ⟨s, hrun, hs, (counted_of_run hrun).1⟩

end Service

end MicaCore.Ble
