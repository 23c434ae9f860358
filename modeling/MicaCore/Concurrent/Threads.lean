import Mathlib.Algebra.Order.Ring.Nat
import Mathlib.Logic.Function.Basic

namespace MicaCore.Concurrent

variable {σ τ ι α : Type}

/-- Runs in which every step is taken where `A` allows it. -/
inductive Trace (step : σ → ι → Option σ) (A : σ → ι → Prop) : σ → List ι → σ → Prop
  | nil (s : σ) : Trace step A s [] s
  | cons {s t u : σ} {i : ι} {is : List ι} :
      A s i → step s i = some t → Trace step A t is u → Trace step A s (i :: is) u

/-- The state a list of steps leads to, if each is possible and allowed. -/
def exec (step : σ → ι → Option σ) (A : σ → ι → Prop) [∀ s i, Decidable (A s i)] :
    σ → List ι → Option σ
  | s, [] => some s
  | s, i :: is => if A s i then (step s i).bind fun t ↦ exec step A t is else none

namespace Trace

variable {step : σ → ι → Option σ} {A : σ → ι → Prop} {s t u : σ} {is js : List ι}

theorem one {i : ι} (ha : A s i) (h : step s i = some t) : Trace step A s [i] t :=
  .cons ha h (.nil t)

theorem snoc {i : ι} (h : Trace step A s is t) (ha : A t i) (hi : step t i = some u) :
    Trace step A s (is ++ [i]) u := by
  induction h with
  | nil => exact .one ha hi
  | cons hb hst _ ih => exact .cons hb hst (ih ha hi)

theorem split (h : Trace step A s (is ++ js) u) :
    ∃ t, Trace step A s is t ∧ Trace step A t js u := by
  induction is generalizing s with
  | nil => exact ⟨s, .nil s, h⟩
  | cons i is ih =>
    cases h with
    | cons ha hs h =>
      obtain ⟨t, h₁, h₂⟩ := ih h
      exact ⟨t, .cons ha hs h₁, h₂⟩

theorem exec_eq_some_iff [∀ s i, Decidable (A s i)] :
    exec step A s is = some t ↔ Trace step A s is t := by
  induction is generalizing s with
  | nil =>
    refine ⟨fun h ↦ ?_, fun h ↦ ?_⟩ <;> cases h
    · exact .nil _
    · rfl
  | cons i is ih =>
    rw [exec]
    refine ⟨fun h ↦ ?_, fun h ↦ ?_⟩
    · split at h
      · next ha =>
        obtain ⟨u, hu, hrest⟩ := Option.bind_eq_some_iff.1 h
        exact .cons ha hu (ih.1 hrest)
      · cases h
    · cases h with
      | cons ha hst hrest => rw [if_pos ha, hst, Option.bind_some, ih.2 hrest]

/-- How a run ends is decided by running it. -/
instance decidableExists [∀ s i, Decidable (A s i)] (P : σ → Prop) [DecidablePred P] :
    Decidable (∃ t, Trace step A s is t ∧ P t) :=
  decidable_of_iff (∃ t ∈ exec step A s is, P t)
    (exists_congr fun _ ↦ and_congr_left' exec_eq_some_iff)

theorem imp_mem {B : σ → ι → Prop} (h : Trace step A s is t) (hB : ∀ i ∈ is, ∀ s, A s i → B s i) :
    Trace step B s is t := by
  induction h with
  | nil => exact .nil _
  | cons ha hst _ ih =>
    exact .cons (hB _ (by simp) _ ha) hst (ih fun i hi ↦ hB i (by simp [hi]))

/-- What every allowed step keeps holds all along every run. -/
theorem invariant {I : σ → Prop} (hI : ∀ s i t, I s → A s i → step s i = some t → I t)
    (hs : I s) (h : Trace step A s is t) : I t := by
  induction h with
  | nil => exact hs
  | cons ha hst _ ih => exact ih (hI _ _ _ hs ha hst)

/-- If a step does `P` exactly if allowed, and then keeps `I`, all steps do so exactly if all are. -/
theorem forall_step_iff {I : σ → Prop} {P : σ → ι → σ → Prop}
    (hP : ∀ s i t, I s → step s i = some t → (P s i t ↔ A s i))
    (hI : ∀ s i t, I s → step s i = some t → P s i t → I t)
    (hs : I s) (h : Trace step (fun _ _ ↦ True) s is t) :
    (∀ js i ks u v, is = js ++ i :: ks → Trace step (fun _ _ ↦ True) s js u → step u i = some v → P u i v) ↔
      Trace step A s is t := by
  induction h with
  | nil s => exact iff_of_true (fun js _ _ _ _ hnil ↦ by cases js <;> cases hnil) (.nil s)
  | @cons s t u i is _ hst htail ih =>
    constructor
    · intro hall
      have hstep : P s i t := hall [] i is s t rfl (.nil s) hst
      refine .cons ((hP s i t hs hst).1 hstep) hst ((ih (hI s i t hs hst hstep)).1 ?_)
      intro js j ks v w heq hjs hv
      exact hall (i :: js) j ks v w (by rw [heq]; rfl) (.cons trivial hst hjs) hv
    · intro hrun js j ks v w heq hjs hv
      cases hrun with
      | cons ha hst' hrest =>
        obtain rfl := Option.some.inj (hst.symm.trans hst')
        have hstep : P s i t := (hP s i t hs hst).2 ha
        cases js with
        | nil =>
          cases heq
          cases hjs
          exact Option.some.inj (hst.symm.trans hv) ▸ hstep
        | cons k js =>
          cases heq
          cases hjs with
          | cons _ hsk hjs =>
            obtain rfl := Option.some.inj (hst.symm.trans hsk)
            exact (ih (hI s _ t hs hst hstep)).2 hrest js j ks v w rfl hjs hv

end Trace

structure Pool (σ τ : Type) where
  shared : σ
  thread : ℕ → τ

namespace Pool

variable {turn : σ → τ → α → Option (σ × τ)} {A : σ → τ → α → Prop} {p q : Pool σ τ}

def step (turn : σ → τ → α → Option (σ × τ)) (p : Pool σ τ) (l : ℕ × α) : Option (Pool σ τ) :=
  (turn p.shared (p.thread l.1) l.2).map fun (s, r) ↦ ⟨s, Function.update p.thread l.1 r⟩

abbrev Runs (turn : σ → τ → α → Option (σ × τ)) (A : σ → τ → α → Prop) :=
  Trace (step turn) (fun p l ↦ A p.shared (p.thread l.1) l.2)

theorem step_eq_some {l : ℕ × α} (h : step turn p l = some q) :
    ∃ s r, turn p.shared (p.thread l.1) l.2 = some (s, r) ∧
      q = ⟨s, Function.update p.thread l.1 r⟩ := by
  obtain ⟨⟨s, r⟩, ht, hq⟩ := Option.map_eq_some_iff.1 h
  exact ⟨s, r, ht, hq.symm⟩

/-- Rely and guarantee: a turn keeps `J` and its own `L`, and its `G` spoils no other `L`. -/
theorem invariant {J : σ → Prop} {L : ℕ → σ → τ → Prop} {G : σ → σ → Prop}
    (hturn : ∀ i s r a s' r', J s → L i s r → A s r a → turn s r a = some (s', r') →
      J s' ∧ L i s' r' ∧ G s s')
    (hstable : ∀ i s s' r, J s → L i s r → G s s' → L i s' r) {ls : List (ℕ × α)}
    (hp : J p.shared ∧ ∀ i, L i p.shared (p.thread i)) (h : Runs turn A p ls q) :
    J q.shared ∧ ∀ i, L i q.shared (q.thread i) := by
  refine h.invariant (I := fun p ↦ J p.shared ∧ ∀ i, L i p.shared (p.thread i)) ?_ hp
  rintro p ⟨k, a⟩ q ⟨hJ, hL⟩ ha hstep
  obtain ⟨s, r, ht, rfl⟩ := step_eq_some hstep
  obtain ⟨hJ', hown, hG⟩ := hturn _ _ _ _ _ _ hJ (hL k) ha ht
  refine ⟨hJ', fun i ↦ ?_⟩
  by_cases hi : i = k
  · subst hi
    simpa using hown
  · simpa [hi] using hstable _ _ _ _ hJ (hL i) hG

end Pool

end MicaCore.Concurrent
