import MicaCore.Ble.Lockout
import MicaCore.Concurrent.Threads

namespace MicaCore.Ble

open Data Concurrent

/-- The stored hash's password, the verifier with its generation, and the password set last. -/
structure Facade (ρ : Type) where
  admin : Option Text := none
  verifier : Option ρ := none
  generation : ℕ := 0
  current : Option Text := none

/-- A login goes on to `logged_in`, a change to `password_set`; each then derives. -/
inductive Caller where
  | idle
  | verified (password : Text)
  | loggedIn (password : Text) (generation : ℕ)
  | changed (password : Text)
  | making (password : Text) (generation : ℕ)
  deriving DecidableEq

inductive CallerAct where
  | verify (password : Text)
  | change (password : Text)
  | readGeneration
  | readVerifier (readable : Bool)
  | replace (removed : Bool)
  | store (salt : Text) (written : Bool)
  deriving DecidableEq

namespace Facade

variable {ρ : Type} (makeRecord : Text → Text → ρ)

/-- The generation and the verifier are read apart; a record is stored under the lock. -/
def turn (s : Facade ρ) : Caller → CallerAct → Option (Facade ρ × Caller)
  | .idle, .verify password =>
    if s.admin = some password then some (s, .verified password) else none
  | .idle, .change password => some ({ s with admin := some password }, .changed password)
  | .verified password, .readGeneration => some (s, .loggedIn password s.generation)
  | .loggedIn password generation, .readVerifier readable =>
    if readable && s.verifier.isNone then some (s, .making password generation)
    else some (s, .idle)
  | .changed password, .replace removed =>
    if removed then
      some ({ s with
        verifier := none
        generation := s.generation + 1
        current := some password }, .making password (s.generation + 1))
    else some (s, .idle)
  | .making password generation, .store salt written =>
    if written && s.generation = generation then
      some ({ s with verifier := some (makeRecord password salt) }, .idle)
    else some (s, .idle)
  | _, _ => none

def orderly (s : Facade ρ) : Caller → CallerAct → Bool
  | .verified password, .readGeneration =>
    s.verifier.isSome || s.current.all (· = password)
  | _, _ => true

/-- The verifier is absent or made of the password set last. -/
def Follows (s : Facade ρ) : Prop :=
  ∀ password, s.current = some password →
    s.verifier = none ∨ ∃ salt, s.verifier = some (makeRecord password salt)

/-- A thread of the current generation derives the password set last, or nothing. -/
def Relies (s : Facade ρ) : Caller → Prop
  | .loggedIn password generation => generation ≤ s.generation ∧
      (generation = s.generation → s.verifier.isSome = true ∨ ∀ p, s.current = some p → p = password)
  | .making password generation => generation ≤ s.generation ∧
      (generation = s.generation → ∀ p, s.current = some p → p = password)
  | _ => True

/-- A step moves the generation, or keeps the password and removes no verifier. -/
def Guarantees (s t : Facade ρ) : Prop :=
  s.generation < t.generation ∨
    t.generation = s.generation ∧ t.current = s.current ∧
      (s.verifier.isSome = true → t.verifier.isSome = true)

variable {makeRecord} {s t : Facade ρ} {c c' : Caller} {a : CallerAct}

theorem Guarantees.refl (s : Facade ρ) : Guarantees s s := .inr ⟨rfl, rfl, id⟩

theorem Relies.stable (h : Relies s c) (hg : Guarantees s t) : Relies t c := by
  cases c with
  | loggedIn password generation =>
    obtain ⟨hle, hown⟩ := h
    rcases hg with hlt | ⟨hgen, hcur, hver⟩
    · exact ⟨by omega, fun heq ↦ by omega⟩
    · refine ⟨hgen ▸ hle, fun heq ↦ ?_⟩
      rcases hown (hgen ▸ heq) with hv | hp
      · exact .inl (hver hv)
      · exact .inr (hcur ▸ hp)
  | making password generation =>
    obtain ⟨hle, hown⟩ := h
    rcases hg with hlt | ⟨hgen, hcur, -⟩
    · exact ⟨by omega, fun heq ↦ by omega⟩
    · exact ⟨hgen ▸ hle, fun heq ↦ hcur ▸ hown (hgen ▸ heq)⟩
  | _ => trivial

theorem keeps_turn (hf : Follows makeRecord s) (hr : Relies s c) (ha : s.orderly c a = true)
    (h : turn makeRecord s c a = some (t, c')) :
    Follows makeRecord t ∧ Relies t c' ∧ Guarantees s t := by
  unfold turn at h
  split at h
  · split at h <;> cases h
    exact ⟨hf, trivial, .refl s⟩
  · cases h
    exact ⟨hf, trivial, .inr ⟨rfl, rfl, id⟩⟩
  · next password =>
    cases h
    refine ⟨hf, ⟨le_rfl, fun _ ↦ ?_⟩, .refl s⟩
    rcases Bool.or_eq_true_iff.1 ha with hv | hp
    · exact .inl hv
    · refine .inr fun p hcur ↦ ?_
      rw [hcur] at hp
      exact of_decide_eq_true hp
  · next password generation readable =>
    split at h
    · next hnone =>
      cases h
      obtain ⟨hle, hown⟩ := hr
      refine ⟨hf, ⟨hle, fun heq ↦ ?_⟩, .refl s⟩
      rcases hown heq with hv | hp
      · have hmissing := (Bool.and_eq_true_iff.1 hnone).2
        rw [Option.isNone_iff_eq_none] at hmissing
        rw [hmissing] at hv
        cases hv
      · exact hp
    · cases h
      exact ⟨hf, trivial, .refl s⟩
  · next password removed =>
    split at h
    · cases h
      refine ⟨fun p _ ↦ .inl rfl, ⟨le_rfl, fun _ p hp ↦ ?_⟩, .inl (Nat.lt_succ_self _)⟩
      cases hp
      rfl
    · cases h
      exact ⟨hf, trivial, .refl s⟩
  · next password generation salt written =>
    split at h
    · next hown =>
      cases h
      obtain ⟨-, hlast⟩ := hr
      have heq : s.generation = generation := of_decide_eq_true (Bool.and_eq_true_iff.1 hown).2
      refine ⟨fun p hcur ↦ .inr ⟨salt, ?_⟩, trivial, .inr ⟨rfl, rfl, fun _ ↦ rfl⟩⟩
      rw [hlast heq.symm p hcur]
    · cases h
      exact ⟨hf, trivial, .refl s⟩
  · cases h

/-- With orderly logins, the verifier is absent or made of the password set last. -/
theorem follows_of_runs {p q : Pool (Facade ρ) Caller} {ls : List (ℕ × CallerAct)}
    (hstart : p.shared.current = none) (hidle : ∀ i, p.thread i = .idle)
    (h : Pool.Runs (turn makeRecord) (fun s c a ↦ s.orderly c a = true) p ls q) :
    Follows makeRecord q.shared := by
  refine (Pool.invariant (L := fun _ ↦ Relies) (G := Guarantees) ?_ ?_ ⟨?_, ?_⟩ h).1
  · intro _ s c a t c' hf hr ha ht
    exact keeps_turn hf hr ha ht
  · intro _ s t c _ hr hg
    exact hr.stable hg
  · intro password hcur
    rw [hstart] at hcur
    cases hcur
  · intro i
    rw [hidle i]
    trivial

def resting : Pool (Facade (Text × Text)) Caller := ⟨{}, fun _ ↦ .idle⟩

def changePassword (i : ℕ) (password : Text) : List (ℕ × CallerAct) :=
  [(i, .change password), (i, .replace true)]

def promptLogin : List (ℕ × CallerAct) :=
  changePassword 0 "new".toList ++ [(1, .verify "new".toList), (1, .readGeneration),
    (1, .readVerifier true), (0, .store "a".toList true), (1, .store "b".toList true)]

theorem follows_of_runs_promptLogin :
    ∃ q, Pool.Runs (turn Prod.mk) (fun s c a ↦ s.orderly c a = true) resting promptLogin q ∧
      q.shared.current = some "new".toList ∧ q.shared.verifier = some ("new".toList, "b".toList) ∧
      Follows Prod.mk q.shared := by
  obtain ⟨q, hrun, hcurrent, hverifier⟩ : ∃ q, Pool.Runs (turn Prod.mk)
      (fun s c a ↦ s.orderly c a = true) resting promptLogin q ∧
    q.shared.current = some "new".toList ∧
    q.shared.verifier = some ("new".toList, "b".toList) := by decide
  exact ⟨q, hrun, hcurrent, hverifier, follows_of_runs rfl (fun _ ↦ rfl) hrun⟩

def lateLogin : List (ℕ × CallerAct) :=
  changePassword 0 "old".toList ++ [(0, .store "a".toList true), (1, .verify "old".toList)] ++
    changePassword 2 "new".toList ++ [(1, .readGeneration), (1, .readVerifier true),
      (2, .store "b".toList true), (1, .store "c".toList true)]

/-- A login that checked the old password stores its verifier over the new one. -/
theorem not_follows_of_lateLogin :
    ∃ q, Pool.Runs (turn Prod.mk) (fun _ _ _ ↦ True) resting lateLogin q ∧
      q.shared.current = some "new".toList ∧ q.shared.verifier = some ("old".toList, "c".toList) ∧
      ¬ Follows Prod.mk q.shared := by
  obtain ⟨q, hrun, hcurrent, hverifier⟩ : ∃ q, Pool.Runs (turn Prod.mk) (fun _ _ _ ↦ True) resting
      lateLogin q ∧ q.shared.current = some "new".toList ∧
    q.shared.verifier = some ("old".toList, "c".toList) := by decide
  refine ⟨q, hrun, hcurrent, hverifier, ?_⟩
  intro hfollows
  rcases hfollows _ hcurrent with hnone | ⟨salt, hsome⟩
  · rw [hverifier] at hnone
    cases hnone
  · rw [hverifier] at hsome
    cases hsome

end Facade

end MicaCore.Ble
