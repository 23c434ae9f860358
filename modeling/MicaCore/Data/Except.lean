import Mathlib.Algebra.Order.Ring.Nat
import Mathlib.Data.List.Basic

namespace MicaCore.Data

variable {ε α β : Type}

def ensure (b : Bool) (e : ε) : Except ε Unit := if b then .ok () else .error e

def orError (e : ε) : Option α → Except ε α
  | some a => .ok a
  | none => .error e

def context (msg : String) : Except String α → Except String α
  | .ok a => .ok a
  | .error e => .error (msg ++ ": " ++ e)

@[simp] theorem ensure_eq_ok {b : Bool} {e : ε} {u : Unit} : ensure b e = .ok u ↔ b = true := by
  cases b <;> simp [ensure]

variable {a : α}

@[simp] theorem orError_eq_ok {e : ε} {o : Option α} : orError e o = .ok a ↔ o = some a := by
  cases o <;> simp [orError]

@[simp] theorem context_eq_ok {msg : String} {x : Except String α} :
    context msg x = .ok a ↔ x = .ok a := by
  cases x <;> simp [context]

@[simp] theorem bind_eq_ok {x : Except ε α} {f : α → Except ε β} {b : β} :
    (x >>= f) = .ok b ↔ ∃ a, x = .ok a ∧ f a = .ok b := by
  cases x <;> simp [bind, Except.bind]

@[simp] theorem pure_eq_ok {b : α} : (pure a : Except ε α) = .ok b ↔ a = b := by
  simp [pure, Except.pure]

theorem map_eq_ok {x : Except ε α} {f : α → β} {b : β} :
    x.map f = .ok b ↔ ∃ a, x = .ok a ∧ f a = b := by
  cases x <;> simp [Except.map]

variable {xs : List α}

theorem forM_eq_ok {f : α → Except ε Unit} {u : Unit} :
    forM xs f = .ok u ↔ ∀ x ∈ xs, f x = .ok () := by
  induction xs with
  | nil => simp [pure, Except.pure]
  | cons x xs ih =>
    rw [List.forM_cons, bind_eq_ok]
    simp only [ih, List.mem_cons, forall_eq_or_imp]
    exact ⟨fun ⟨_, hx, hxs⟩ ↦ ⟨hx, hxs⟩, fun ⟨hx, hxs⟩ ↦ ⟨(), hx, hxs⟩⟩

theorem exists_of_foldlM_eq_ok {f : β → α → Except ε β} {b c : β} (h : xs.foldlM f b = .ok c) :
    ∀ x ∈ xs, ∃ b c, f b x = .ok c := by
  induction xs generalizing b with
  | nil => simp
  | cons x xs ih =>
    rw [List.foldlM_cons, bind_eq_ok] at h
    obtain ⟨b', hx, hxs⟩ := h
    exact List.forall_mem_cons.2 ⟨⟨b, b', hx⟩, ih hxs⟩

theorem mapM_orError_eq_ok {f : α → Option β} {e : α → ε} {ys : List β} :
    xs.mapM (fun x ↦ orError (e x) (f x)) = .ok ys ↔ xs.mapM f = some ys := by
  induction xs generalizing ys with
  | nil => simp
  | cons x xs ih =>
    simp only [List.mapM_cons, bind_eq_ok, pure_eq_ok, orError_eq_ok, ih, Option.bind_eq_bind,
      Option.bind_eq_some_iff, Option.pure_def, Option.some.injEq]

theorem exists_of_mapM_eq_ok {f : α → Except ε β} {ys : List β} (h : xs.mapM f = .ok ys) :
    (∀ x ∈ xs, ∃ y ∈ ys, f x = .ok y) ∧ ∀ y ∈ ys, ∃ x ∈ xs, f x = .ok y := by
  induction xs generalizing ys with
  | nil =>
    obtain rfl : [] = ys := by simpa using h
    simp
  | cons x xs ih =>
    simp only [List.mapM_cons, bind_eq_ok, pure_eq_ok] at h
    obtain ⟨y, hy, rest, hrest, rfl⟩ := h
    obtain ⟨hfrom, hto⟩ := ih hrest
    constructor
    · rintro x' (_ | ⟨_, hx'⟩)
      · exact ⟨y, by simp, hy⟩
      · obtain ⟨y', hy', hf⟩ := hfrom x' hx'
        exact ⟨y', by simp [hy'], hf⟩
    · rintro y' (_ | ⟨_, hy'⟩)
      · exact ⟨x, by simp, hy⟩
      · obtain ⟨x', hx', hf⟩ := hto y' hy'
        exact ⟨x', by simp [hx'], hf⟩

end MicaCore.Data
