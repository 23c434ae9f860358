import MicaCore.Data.Bytes
import MicaCore.Data.Except

namespace MicaCore.Data

/-- A reader refuses the bytes, or leaves the bounds of a slice or of an integer. -/
inductive Fault
  | refused (message : String)
  | panic
  deriving DecidableEq

abbrev Checked := Except Fault

section Operations

def refuse (ok : Bool) (message : String) : Checked Unit := ensure ok (.refused message)

def slice (bytes : List UInt8) (first last : ℕ) : Checked (List UInt8) :=
  if first ≤ last ∧ last ≤ bytes.length then .ok ((bytes.drop first).take (last - first)) else
    .error .panic

def byteAt (bytes : List UInt8) (i : ℕ) : Checked UInt8 := orError .panic bytes[i]?

def addU64 (a b : ℕ) : Checked ℕ := if a + b < 2 ^ 64 then .ok (a + b) else .error .panic

def mulU64 (a b : ℕ) : Checked ℕ := if a * b < 2 ^ 64 then .ok (a * b) else .error .panic

def subU64 (a b : ℕ) : Checked ℕ := if b ≤ a then .ok (a - b) else .error .panic

end Operations

section Slices

variable {bytes raw : List UInt8} {first last : ℕ}

theorem slice_eq (h : first ≤ last) (h' : last ≤ bytes.length) :
    slice bytes first last = .ok ((bytes.drop first).take (last - first)) := if_pos ⟨h, h'⟩

theorem slice_of_drop {tail : List UInt8} (h : bytes.drop first = raw ++ tail)
    (hfirst : first + raw.length ≤ bytes.length) :
    slice bytes first (first + raw.length) = .ok raw := by
  rw [slice_eq (Nat.le_add_right _ _) hfirst, Nat.add_sub_cancel_left, h, List.take_left]

theorem slice_append {front tail : List UInt8} (h : bytes = front ++ (raw ++ tail))
    (hfirst : front.length = first) (hlast : first + raw.length = last) :
    slice bytes first last = .ok raw := by
  subst h hfirst hlast
  exact slice_of_drop List.drop_left (by simp)

theorem slice_eq_take (h : slice bytes first last = .ok raw) :
    last ≤ bytes.length ∧ raw = (bytes.drop first).take (last - first) := by
  unfold slice at h
  split at h
  · next hbounds =>
    cases h
    exact ⟨hbounds.2, rfl⟩
  · cases h

theorem slice_eq_ok (h : slice bytes first last = .ok raw) :
    raw.length = last - first ∧ bytes.drop first = raw ++ bytes.drop last := by
  unfold slice at h
  split at h
  · next hbounds =>
    cases h
    refine ⟨by rw [List.length_take, List.length_drop]; omega, ?_⟩
    have hdrop : bytes.drop last = (bytes.drop first).drop (last - first) := by
      rw [List.drop_drop, Nat.add_sub_cancel' hbounds.1]
    rw [hdrop, List.take_append_drop]
  · cases h

end Slices

section Numbers

variable {a b c : ℕ}

theorem addU64_eq (h : a + b < 2 ^ 64) : addU64 a b = .ok (a + b) := if_pos h

theorem mulU64_eq (h : a * b < 2 ^ 64) : mulU64 a b = .ok (a * b) := if_pos h

theorem subU64_eq (h : b ≤ a) : subU64 a b = .ok (a - b) := if_pos h

theorem addU64_eq_ok (h : addU64 a b = .ok c) : c = a + b := by
  unfold addU64 at h
  split at h <;> cases h
  rfl

theorem mulU64_eq_ok (h : mulU64 a b = .ok c) : c = a * b := by
  unfold mulU64 at h
  split at h <;> cases h
  rfl

theorem subU64_eq_ok (h : subU64 a b = .ok c) : b ≤ a ∧ c = a - b := by
  unfold subU64 at h
  split at h
  · next hle =>
    cases h
    exact ⟨hle, rfl⟩
  · cases h

end Numbers

def Calm {α : Type} (x : Checked α) : Prop := x ≠ .error .panic

namespace Calm

variable {α β : Type}

theorem ok (a : α) : Calm (.ok a) := fun h ↦ by cases h

theorem pure (a : α) : Calm (Pure.pure a) := ok a

theorem bind {x : Checked α} {f : α → Checked β} (hx : Calm x) (hf : ∀ a, x = .ok a → Calm (f a)) :
    Calm (x >>= f) := by
  cases x with
  | error e => exact fun h ↦ hx (by cases h; rfl)
  | ok a => exact hf a rfl

theorem refuse (b : Bool) (message : String) : Calm (Data.refuse b message) := by
  cases b <;> exact fun h ↦ by cases h

theorem guarded {x : Checked α} {b : α → Bool} {message : α → String} {f : α → Checked β}
    (hx : Calm x)
    (hf : ∀ a, Calm (f a)) : Calm (x >>= fun a ↦ Data.refuse (b a) (message a) >>= fun _ ↦ f a) :=
  hx.bind fun a _ ↦ (refuse _ _).bind fun _ _ ↦ hf a

theorem orError (o : Option α) (message : String) : Calm (Data.orError (.refused message) o) := by
  cases o <;> exact fun h ↦ by cases h

theorem slice {bytes : List UInt8} {first last : ℕ} (h : first ≤ last) (h' : last ≤ bytes.length) :
    Calm (Data.slice bytes first last) := by
  rw [slice_eq h h']
  exact ok _

theorem byteAt {bytes : List UInt8} {i : ℕ} (h : i < bytes.length) :
    Calm (Data.byteAt bytes i) := by
  rw [Data.byteAt, List.getElem?_eq_getElem h]
  exact ok _

theorem addU64 {a b : ℕ} (h : a + b < 2 ^ 64) : Calm (Data.addU64 a b) := by
  rw [addU64_eq h]
  exact ok _

theorem mulU64 {a b : ℕ} (h : a * b < 2 ^ 64) : Calm (Data.mulU64 a b) := by
  rw [mulU64_eq h]
  exact ok _

theorem subU64 {a b : ℕ} (h : b ≤ a) : Calm (Data.subU64 a b) := by
  rw [subU64_eq h]
  exact ok _

end Calm

end MicaCore.Data
