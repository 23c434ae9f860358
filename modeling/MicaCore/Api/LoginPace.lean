import MicaCore.Api.LoginGuard

namespace MicaCore.Api

open Concurrent

/-- A request's turn with the guard, with its clock readings and what it was told. -/
inductive GuardTurn where
  | beginAttempt (request : ℕ) (checked armed : Instant) (admitted : Bool)
  | confirmFailure (request : ℕ) (armed : Instant)
  | check (request : ℕ) (now : Instant) (admitted : Bool)

def GuardTurn.admits : GuardTurn → Bool
  | .beginAttempt _ _ _ admitted => admitted
  | _ => false

structure PacedGuard where
  guard : LoginGuard := {}
  now : ℕ := 0

namespace PacedGuard

def step (s : PacedGuard) : GuardTurn → Option PacedGuard
  | .beginAttempt _ checked armed admitted =>
    if GuardStore.inOrder s.now [checked, armed] ∧
      (s.guard.beginAttempt checked armed).1 = admitted then
      some ⟨(s.guard.beginAttempt checked armed).2, armed.nanos⟩
    else none
  | .confirmFailure _ armed =>
    if GuardStore.inOrder s.now [armed] then
      some ⟨s.guard.confirmFailure armed, armed.nanos⟩
    else none
  | .check _ now admitted =>
    if GuardStore.inOrder s.now [now] ∧ (s.guard.check now.nanos).1 = admitted then
      some ⟨(s.guard.check now.nanos).2, now.nanos⟩
    else none

abbrev Run : PacedGuard → List GuardTurn → PacedGuard → Prop := Trace step fun _ _ ↦ True

def ClosedUntil (s : PacedGuard) (until_ : ℕ) : Prop :=
  match s.guard.lockedUntil with
  | some u => until_ ≤ u
  | none => until_ ≤ s.now

end PacedGuard

theorem backoffFor_of_le {failures : ℕ} (h : 10 ≤ failures) :
    backoffFor failures = backoffMax * second := by
  have hpow : 2 ^ 9 ≤ 2 ^ (failures - 1) := Nat.pow_le_pow_right (by decide) (by omega)
  rw [backoffFor, if_neg (by omega)]
  simp only [backoffBase, backoffMax]
  refine congrArg (· * second) ?_
  split <;> omega

theorem backoffFor_monotone : Monotone backoffFor := by
  intro m n hmn
  by_cases hn : 10 ≤ n
  · rw [backoffFor_of_le hn]
    exact backoffFor_le m
  · have hsmall : ∀ n < 10, ∀ m ≤ n, backoffFor m ≤ backoffFor n := by decide
    exact hsmall n (not_le.1 hn) m hmn

theorem backoffFor_min (n : ℕ) : backoffFor (min n (2 ^ 32 - 1)) = backoffFor n := by
  rcases le_total n (2 ^ 32 - 1) with h | h
  · rw [min_eq_left h]
  · rw [min_eq_right h, backoffFor_of_le (by decide), backoffFor_of_le (by omega)]

namespace LoginGuard

variable {guard : LoginGuard}

theorem check_failures (guard : LoginGuard) (now : ℕ) :
    (guard.check now).2.failures = guard.failures := by
  unfold check
  split
  · split <;> rfl
  · rfl

theorem beginAttempt_admitted {checked armed : Instant} (h : (guard.beginAttempt checked armed).1 = true) :
    (∀ u, guard.lockedUntil = some u → u ≤ checked.nanos) ∧
      (guard.beginAttempt checked armed).2.failures = min (guard.failures + 1) (2 ^ 32 - 1) ∧
      (guard.beginAttempt checked armed).2.lockedUntil =
        some (armed.nanos + backoffFor (min (guard.failures + 1) (2 ^ 32 - 1))) := by
  unfold beginAttempt at h ⊢
  split at h
  · cases h
  · next checkedGuard hcheck =>
    have hfailures : checkedGuard.failures = guard.failures := by rw [← guard.check_failures checked.nanos, hcheck]
    refine ⟨fun u hu ↦ ?_, by simp [recordFailure, arm, hfailures], by simp [recordFailure, arm, hfailures]⟩
    rw [check, hu] at hcheck
    by_contra hlt
    rw [not_le] at hlt
    simp [hlt] at hcheck

theorem beginAttempt_refused {checked armed : Instant} (h : (guard.beginAttempt checked armed).1 = false) :
    (guard.beginAttempt checked armed).2 = guard := by
  unfold beginAttempt check at h ⊢
  split at h
  · next hcheck =>
    split at hcheck
    · split at hcheck
      · cases hcheck
        rfl
      · cases hcheck
    · cases hcheck
  · cases h

end LoginGuard

namespace PacedGuard

variable {s t : PacedGuard} {turn : GuardTurn} {turns : List GuardTurn} {u : ℕ}

/-- The window stays shut until `u`, and is not re-armed to end before it. -/
def Paced (s : PacedGuard) (u : ℕ) : Prop :=
  s.ClosedUntil u ∧ u ≤ s.now + backoffFor s.guard.failures

variable {request : ℕ} {armed : Instant}

theorem step_admitted {checked : Instant}
    (h : s.step (.beginAttempt request checked armed true) = some t) :
    s.now ≤ checked.nanos ∧ (∀ u, s.guard.lockedUntil = some u → u ≤ checked.nanos) ∧
      t.guard.failures = min (s.guard.failures + 1) (2 ^ 32 - 1) ∧
      t.guard.lockedUntil = some (armed.nanos + backoffFor t.guard.failures) ∧
      t.now = armed.nanos := by
  obtain ⟨⟨horder, hadmitted⟩, ht⟩ := Option.ite_none_right_eq_some.1 h
  cases ht
  obtain ⟨hpast, hfailures, hlocked⟩ := LoginGuard.beginAttempt_admitted hadmitted
  simp only [GuardStore.inOrder_cons] at horder
  exact ⟨horder.1, hpast, hfailures, by rw [hlocked, hfailures], rfl⟩

theorem step_confirm (h : s.step (.confirmFailure request armed) = some t) :
    s.now ≤ t.now ∧ t.now = armed.nanos ∧ t.guard.failures = s.guard.failures ∧
      t.guard.lockedUntil = some (armed.nanos + backoffFor s.guard.failures) := by
  obtain ⟨horder, ht⟩ := Option.ite_none_right_eq_some.1 h
  cases ht
  simp only [GuardStore.inOrder_cons] at horder
  exact ⟨horder.1, rfl, rfl, rfl⟩

theorem step_other (h : s.step turn = some t) (hother : turn.admits = false) :
    s.now ≤ t.now ∧ t.guard.failures = s.guard.failures ∧
      (t.guard.lockedUntil = s.guard.lockedUntil ∨
        t.guard.lockedUntil = none ∧ (∃ u, s.guard.lockedUntil = some u ∧ u ≤ t.now) ∨
        t.guard.lockedUntil = some (t.now + backoffFor t.guard.failures)) := by
  cases turn with
  | beginAttempt request checked armed admitted =>
    obtain rfl : admitted = false := hother
    obtain ⟨⟨horder, hrefused⟩, ht⟩ := Option.ite_none_right_eq_some.1 h
    cases ht
    simp only [GuardStore.inOrder_cons] at horder
    rw [LoginGuard.beginAttempt_refused hrefused]
    exact ⟨horder.1.trans horder.2.1, rfl, .inl rfl⟩
  | confirmFailure request armed =>
    obtain ⟨hnow, harmed, hfailures, hlocked⟩ := step_confirm h
    exact ⟨hnow, hfailures, .inr (.inr (by rw [hlocked, harmed, hfailures]))⟩
  | check request now admitted =>
    obtain ⟨⟨horder, -⟩, ht⟩ := Option.ite_none_right_eq_some.1 h
    cases ht
    simp only [GuardStore.inOrder_cons] at horder
    refine ⟨horder.1, s.guard.check_failures now.nanos, ?_⟩
    unfold LoginGuard.check
    split
    · next u hu =>
      split
      · exact .inl rfl
      · next hover => exact .inr (.inl ⟨rfl, u, hu, not_lt.1 hover⟩)
    · exact .inl rfl

theorem Paced.step (h : s.Paced u) (hstep : s.step turn = some t) (hother : turn.admits = false) :
    t.Paced u := by
  obtain ⟨hclosed, hle⟩ := h
  obtain ⟨hnow, hfailures, hwindow⟩ := step_other hstep hother
  unfold Paced ClosedUntil at *
  rw [hfailures]
  refine ⟨?_, hle.trans (Nat.add_le_add_right hnow _)⟩
  rcases hwindow with hsame | ⟨hnone, w, hw, hover⟩ | harmed
  · rw [hsame]
    split
    · next hu => rwa [hu] at hclosed
    · next hu =>
      rw [hu] at hclosed
      exact hclosed.trans hnow
  · rw [hw] at hclosed
    rw [hnone]
    exact hclosed.trans hover
  · rw [harmed, hfailures]
    exact hle.trans (Nat.add_le_add_right hnow _)

theorem Paced.run (h : s.Paced u) (hrun : Run s turns t)
    (hother : ∀ turn ∈ turns, turn.admits = false) :
    t.Paced u := by
  induction hrun with
  | nil => exact h
  | cons _ hstep _ ih =>
    obtain ⟨hturn, hrest⟩ := List.forall_mem_cons.1 hother
    exact ih (h.step hstep hturn) hrest

theorem Paced.le_checked {checked : Instant} (h : s.Paced u)
    (hstep : s.step (.beginAttempt request checked armed true) = some t) : u ≤ checked.nanos := by
  obtain ⟨hnow, hover, -⟩ := step_admitted hstep
  have hclosed := h.1
  unfold ClosedUntil at hclosed
  split at hclosed
  · next hu => exact hclosed.trans (hover _ hu)
  · exact hclosed.trans hnow

theorem run_failures {n : ℕ} (hs : s.guard.failures = min n (2 ^ 32 - 1)) (hrun : Run s turns t) :
    t.guard.failures = min (n + turns.countP GuardTurn.admits) (2 ^ 32 - 1) := by
  induction hrun generalizing n with
  | nil => exact hs
  | @cons s _ _ turn turns _ hstep _ ih =>
    rw [List.countP_cons]
    cases hadmits : turn.admits with
    | true =>
      cases turn with
      | beginAttempt request checked armed admitted =>
        obtain rfl : admitted = true := hadmits
        have hcharged := (step_admitted hstep).2.2.1
        rw [ih (n := n + 1) (by omega), if_pos rfl]
        congr 1
        omega
      | confirmFailure | check => cases hadmits
    | false => exact ih ((step_other hstep hadmits).2.1.trans hs)

theorem run_failures_eq {n : ℕ} (hs : s.guard.failures = min n (2 ^ 32 - 1)) (hrun : Run s turns t)
    (hother : ∀ turn ∈ turns, turn.admits = false) : t.guard.failures = min n (2 ^ 32 - 1) := by
  rw [run_failures hs hrun, List.countP_eq_zero.2 fun turn hturn ↦ by simp [hother turn hturn],
    Nat.add_zero]

end PacedGuard

open PacedGuard in
/-- Each admitted attempt waits out the backoff of the one before it. -/
theorem attempts_paced :
    (∀ (before between rest : List GuardTurn) (a b : ℕ) (checked armed checked' armed' : Instant) (s : PacedGuard),
      Run {} (before ++ .beginAttempt a checked armed true ::
        (between ++ .beginAttempt b checked' armed' true :: rest)) s →
      (∀ turn ∈ between, turn.admits = false) →
      let k := before.countP GuardTurn.admits + 1
      armed.nanos + backoffFor k ≤ checked'.nanos ∧
        ∀ confirmed, .confirmFailure a confirmed ∈ between → confirmed.nanos + backoffFor k ≤ checked'.nanos) ∧
    Monotone backoffFor ∧ ∀ n, backoffFor n ≤ backoffMax * second := by
  refine ⟨?_, backoffFor_monotone, backoffFor_le⟩
  intro before between rest a b checked armed checked' armed' s hrun hbetween k
  obtain ⟨s₁, hbefore, hrun⟩ := hrun.split
  cases hrun with
  | @cons _ s₂ _ _ _ _ hfirst hrun =>
    obtain ⟨s₃, hmiddle, hrun⟩ := hrun.split
    cases hrun with
    | cons _ hsecond _ =>
      obtain ⟨-, -, hcharged, hlocked, hnow⟩ := step_admitted hfirst
      have hcount : s₂.guard.failures = min k (2 ^ 32 - 1) := by
        rw [hcharged, run_failures (n := 0) rfl hbefore]
        simp only [k]
        omega
      have hbackoff : backoffFor s₂.guard.failures = backoffFor k := by rw [hcount, backoffFor_min]
      constructor
      · have hpaced : s₂.Paced (armed.nanos + backoffFor k) := by
          refine ⟨?_, by rw [hnow, hbackoff]⟩
          rw [ClosedUntil, hlocked, hbackoff]
        exact (hpaced.run hmiddle hbetween).le_checked hsecond
      · -- A confirmation re-arms the window for the same count, and nothing later shortens it.
        intro confirmed hmem
        obtain ⟨early, late, rfl⟩ := List.append_of_mem hmem
        obtain ⟨hearly, hlate⟩ := List.forall_mem_append.1 hbetween
        obtain ⟨s', hfront, hback⟩ := hmiddle.split
        cases hback with
        | @cons _ s'' _ _ _ _ hconfirm hback =>
          obtain ⟨-, hnow', hsame, hrearmed⟩ := step_confirm hconfirm
          have hcount' : s'.guard.failures = min k (2 ^ 32 - 1) := run_failures_eq hcount hfront hearly
          have hpaced : s''.Paced (confirmed.nanos + backoffFor k) := by
            refine ⟨?_, by rw [hnow', hsame, hcount', backoffFor_min]⟩
            rw [ClosedUntil, hrearmed, hcount', backoffFor_min]
          exact (hpaced.run hback (List.forall_mem_cons.1 hlate).2).le_checked hsecond

theorem attempts_paced_sample :
    (GuardStore.atMillis 0).nanos + backoffFor 1 ≤ (GuardStore.atMillis 1500).nanos ∧
      ∀ confirmed, GuardTurn.confirmFailure 7 confirmed ∈ [.confirmFailure 7 (GuardStore.atMillis 500)] →
        confirmed.nanos + backoffFor 1 ≤ (GuardStore.atMillis 1500).nanos := by
  have hrun : ∃ s, PacedGuard.Run {} [.beginAttempt 7 (GuardStore.atMillis 0) (GuardStore.atMillis 0) true,
      .confirmFailure 7 (GuardStore.atMillis 500),
      .beginAttempt 8 (GuardStore.atMillis 1500) (GuardStore.atMillis 1500) true] s :=
    ⟨_, .cons trivial rfl (.cons trivial rfl (.cons trivial rfl (.nil _)))⟩
  obtain ⟨s, hrun⟩ := hrun
  exact attempts_paced.1 [] [.confirmFailure 7 (GuardStore.atMillis 500)] [] 7 8 _ _ _ _ s hrun
    (by simp [GuardTurn.admits])

end MicaCore.Api
