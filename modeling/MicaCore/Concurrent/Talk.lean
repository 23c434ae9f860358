import Mathlib.Algebra.Order.Ring.Nat

namespace MicaCore.Concurrent

/-- A program against an environment that answers as it likes: calls, result, and what is left. -/
def Talk (σ κ ε α : Type) := σ → List κ × Except ε α × σ

namespace Talk

variable {σ κ ε α β : Type}

instance : Monad (Talk σ κ ε) where
  pure a := fun s ↦ ([], .ok a, s)
  bind p f := fun s ↦
    match p s with
    | (calls, .ok a, t) => (calls ++ (f a t).1, (f a t).2)
    | (calls, .error e, t) => (calls, .error e, t)

theorem bind_apply (p : Talk σ κ ε α) (f : α → Talk σ κ ε β) (s : σ) :
    (p >>= f) s = match p s with
      | (calls, .ok a, t) => (calls ++ (f a t).1, (f a t).2)
      | (calls, .error e, t) => (calls, .error e, t) := rfl

def call (f : σ → Except ε α × σ) (record : Except ε α → κ) : Talk σ κ ε α := fun s ↦
  ([record (f s).1], f s)

def quiet (f : σ → α × σ) : Talk σ κ ε α := fun s ↦ ([], .ok (f s).1, (f s).2)

def ask (f : σ → α × σ) (record : α → κ) : Talk σ κ ε α := fun s ↦
  ([record (f s).1], .ok (f s).1, (f s).2)

def others (f : σ → List κ × σ) : Talk σ κ ε Unit := fun s ↦ ((f s).1, .ok (), (f s).2)

def ofExcept (x : Except ε α) : Talk σ κ ε α := fun s ↦ ([], x, s)

def attempt (p : Talk σ κ ε α) : Talk σ κ ε (Except ε α) := fun s ↦
  ((p s).1, .ok (p s).2.1, (p s).2.2)

/-- The program keeps `I` of the transcript from `P`, and answers only where `Q` holds. -/
def Ensures (I P : List κ → Prop) (p : Talk σ κ ε α) (Q : α → List κ → Prop) : Prop :=
  ∀ past s, I past → P past →
    I (past ++ (p s).1) ∧ ∀ a, (p s).2.1 = .ok a → Q a (past ++ (p s).1)

namespace Ensures

variable {I P P' : List κ → Prop} {p : Talk σ κ ε α} {Q Q' : α → List κ → Prop}

theorem mono (h : Ensures I P p Q) (hP : ∀ past, P' past → P past)
    (hQ : ∀ a past, Q a past → Q' a past) :
    Ensures I P' p Q' := by
  intro past s hI hpre
  obtain ⟨hkept, hpost⟩ := h past s hI (hP past hpre)
  exact ⟨hkept, fun a ha ↦ hQ a _ (hpost a ha)⟩

theorem pure {a : α} (h : ∀ past, P past → Q a past) :
    Ensures I P (Pure.pure a : Talk σ κ ε α) Q := by
  intro past s hI hpre
  have hnone : past ++ ((Pure.pure a : Talk σ κ ε α) s).1 = past := List.append_nil past
  rw [hnone]
  refine ⟨hI, fun b hb ↦ ?_⟩
  cases hb
  exact h past hpre

theorem bind {f : α → Talk σ κ ε β} {R : β → List κ → Prop} (h : Ensures I P p Q)
    (hf : ∀ a, Ensures I (Q a) (f a) R) : Ensures I P (p >>= f) R := by
  intro past s hI hpre
  obtain ⟨hkept, hpost⟩ := h past s hI hpre
  rw [bind_apply]
  rcases hp : p s with ⟨calls, r, t⟩
  rw [hp] at hkept hpost
  cases r with
  | error e => exact ⟨hkept, fun b hb ↦ by cases hb⟩
  | ok a =>
    have hnext := hf a (past ++ calls) t hkept (hpost a rfl)
    rw [List.append_assoc] at hnext
    exact hnext

theorem ofExcept {x : Except ε α} (h : ∀ a past, x = .ok a → P past → Q a past) :
    Ensures I P (Talk.ofExcept x : Talk σ κ ε α) Q := by
  intro past s hI hpre
  have hnone : past ++ ((Talk.ofExcept x : Talk σ κ ε α) s).1 = past := List.append_nil past
  rw [hnone]
  exact ⟨hI, fun a ha ↦ h a past ha hpre⟩

theorem quiet {f : σ → α × σ} (h : ∀ a past, P past → Q a past) :
    Ensures I P (Talk.quiet f : Talk σ κ ε α) Q := by
  intro past s hI hpre
  have hnone : past ++ ((Talk.quiet f : Talk σ κ ε α) s).1 = past := List.append_nil past
  rw [hnone]
  exact ⟨hI, fun a _ ↦ h a past hpre⟩

theorem call {f : σ → Except ε α × σ} {record : Except ε α → κ}
    (hI : ∀ past r, I past → P past → I (past ++ [record r]))
    (h : ∀ past a, I past → P past → Q a (past ++ [record (.ok a)])) :
    Ensures I P (Talk.call f record) Q := by
  intro past s hpast hpre
  refine ⟨hI past _ hpast hpre, fun a ha ↦ ?_⟩
  have hf : (f s).1 = .ok a := ha
  show Q a (past ++ [record (f s).1])
  rw [hf]
  exact h past a hpast hpre

theorem ask {f : σ → α × σ} {record : α → κ}
    (hI : ∀ past a, I past → P past → I (past ++ [record a]))
    (h : ∀ past a, P past → Q a (past ++ [record a])) :
    Ensures I P (Talk.ask f record : Talk σ κ ε α) Q := by
  intro past s hpast hpre
  refine ⟨hI past _ hpast hpre, fun a ha ↦ ?_⟩
  cases ha
  exact h past _ hpre

theorem others {f : σ → List κ × σ} {Q : Unit → List κ → Prop}
    (hI : ∀ past s, I past → P past → I (past ++ (f s).1))
    (h : ∀ past s, P past → Q () (past ++ (f s).1)) :
    Ensures I P (Talk.others f : Talk σ κ ε Unit) Q := fun past s hpast hpre ↦
  ⟨hI past s hpast hpre, fun _ _ ↦ h past s hpre⟩

theorem attempt (h : Ensures I P p Q) {R : Except ε α → List κ → Prop}
    (hR : ∀ r past, I past → R r past) : Ensures I P (Talk.attempt p) R := by
  intro past s hI hpre
  obtain ⟨hkept, -⟩ := h past s hI hpre
  exact ⟨hkept, fun r _ ↦ hR r _ hkept⟩

end Ensures

/-- Each call keeps the link between the transcript and the environment. -/
def Follows (R : List κ → σ → Prop) (p : Talk σ κ ε α) : Prop :=
  ∀ past s, R past s → R (past ++ (p s).1) (p s).2.2

namespace Follows

variable {R : List κ → σ → Prop} {p : Talk σ κ ε α}

theorem pure {a : α} : Follows R (Pure.pure a : Talk σ κ ε α) := by
  intro past s h
  have hnone : past ++ ((Pure.pure a : Talk σ κ ε α) s).1 = past := List.append_nil past
  rw [hnone]
  exact h

theorem bind {f : α → Talk σ κ ε β} (h : Follows R p) (hf : ∀ a, Follows R (f a)) :
    Follows R (p >>= f) := by
  intro past s hR
  have hkept := h past s hR
  rw [bind_apply]
  rcases hp : p s with ⟨calls, r, t⟩
  rw [hp] at hkept
  cases r with
  | error e => exact hkept
  | ok a =>
    have hnext := hf a (past ++ calls) t hkept
    rw [List.append_assoc] at hnext
    exact hnext

theorem ask {f : σ → α × σ} {record : α → κ}
    (h : ∀ past s, R past s → R (past ++ [record (f s).1]) (f s).2) :
    Follows R (Talk.ask f record : Talk σ κ ε α) := h

theorem others {f : σ → List κ × σ} (h : ∀ past s, R past s → R (past ++ (f s).1) (f s).2) :
    Follows R (Talk.others f : Talk σ κ ε Unit) := h

end Follows

end Talk

end MicaCore.Concurrent
