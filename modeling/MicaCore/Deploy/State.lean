import MicaCore.Deploy.Device

namespace MicaCore.Deploy

open Data

namespace State

def ids (state : State) : List Text :=
  [state.current, state.fallback, state.candidate].filterMap id ++ state.failed

def highest (state : State) (entries : List Record) : ℕ :=
  max state.highestGeneration ((entries.map Record.generation).foldr max 0)

def confirmed (state : State) (entries : List Record) : Option Record :=
  entries.find? fun e ↦ e.triesLeft.isNone && !state.failed.contains e.id

def usable (state : State) (entries : List Record) (confirmed : Record) (id : Text) : Bool :=
  entries.any fun e ↦
    e.id == id && e.id != confirmed.id && e.triesLeft != some 0 && !state.failed.contains id

def reconcile (state : State) (entries : List Record) : State :=
  match state.confirmed entries with
  | some confirmed =>
    if state.current = some confirmed.id then state
    else { state with
      fallback := (state.current.filter (state.usable entries confirmed)).or
        (state.fallback.filter (state.usable entries confirmed))
      current := some confirmed.id }
  | none => state

def dropAbsentFallback (state : State) (entries : List Record) : State :=
  { state with fallback := state.fallback.filter fun id ↦ entries.any (·.id == id) }

def candidates (state : State) (entries : List Record) (generation : ℕ) : List Record :=
  entries.filter fun e ↦ decide (generation < e.generation) && e.triesLeft.any (0 < ·) &&
    !state.failed.contains e.id && state.fallback != some e.id

def findCandidate (state : State) (entries : List Record) : Except String State :=
  match state.current with
  | none => pure state
  | some current => do
    let entry ← orError "confirmed deployment entry is missing" (entries.find? (·.id == current))
    let candidates := state.candidates entries entry.generation
    ensure (candidates.length ≤ 1) "ambiguous pending deployments"
    pure { state with candidate := candidates.head?.map Record.id }

def raise (state : State) (entries : List Record) : State :=
  { state with highestGeneration := state.highest entries }

def effective (state : State) (entries : List Record) : Except String State :=
  (((state.raise entries).reconcile entries).dropAbsentFallback entries).findCandidate entries

end State

namespace Device

def state (d : Device) : Except String State :=
  context "shared DATA metadata unavailable; recovery required" <|
    match d.data with
    | none => pure {}
    | some state => do
      ensure (state.failed.length ≤ 128) "failed deployment set exceeds limit"
      forM state.ids validId
      pure state

def effectiveState (d : Device) : Except String State := do
  let state ← d.state
  let entries ← d.boot.entries
  state.effective entries

def recorded (d : Device) : State := d.data.getD {}

end Device

inductive BootTrust
  | fit
  | none
  deriving DecidableEq

def Device.validateReceipt (bootTrust : BootTrust) (d : Device) (receipt : BootReceipt) :
    Except String Unit := do
  ensure receipt.contentVerified "running content is not authenticated"
  validId receipt.deploymentId
  if d.boot.isFit then
    ensure (receipt.backend == .ubootFit && !receipt.secureBoot &&
      receipt.bootVerified == (bootTrust == .fit)) "boot receipt backend mismatch"
    ensure (receipt.entry == ['f', 'i', 't', ':'] ++ receipt.deploymentId)
      "boot receipt identity mismatch"
    let (_, copy) ← d.boot.load
    ensure (copy.records.any fun r ↦ r.id == receipt.deploymentId && r.kernelId == receipt.kernelId)
      "boot receipt kernel mismatch"
  else
    ensure (receipt.backend == .uefi && receipt.bootVerified == receipt.secureBoot)
      "boot receipt backend mismatch"
    let selected ← selectedEntry receipt.entry
    ensure (selected == receipt.deploymentId) "boot receipt identity mismatch"

theorem Device.state_eq_ok {d : Device} {state : State} (h : d.state = .ok state) :
    state = d.recorded := by
  unfold Device.state at h
  rw [context_eq_ok] at h
  unfold recorded
  cases hd : d.data with
  | none =>
    rw [hd, pure_eq_ok] at h
    exact h.symm
  | some st =>
    simp only [hd, bind_eq_ok, pure_eq_ok] at h
    obtain ⟨_, _, _, _, rfl⟩ := h
    rfl

namespace State

variable {state st : State} {entries : List Record}

@[simp] theorem failed_reconcile : (state.reconcile entries).failed = state.failed := by
  unfold reconcile; split
  · split <;> rfl
  · rfl

@[simp] theorem highestGeneration_reconcile :
    (state.reconcile entries).highestGeneration = state.highestGeneration := by
  unfold reconcile; split
  · split <;> rfl
  · rfl

theorem current_reconcile :
    (state.reconcile entries).current = ((state.confirmed entries).map Record.id).or
      state.current := by
  unfold reconcile
  split
  · next c hc => split <;> simp_all
  · next hc => simp [hc]

theorem findCandidate_eq_ok (h : state.findCandidate entries = .ok st) :
    (state.current = none ∧ st = state) ∨ ∃ current entry, state.current = some current ∧
      entries.find? (·.id == current) = some entry ∧
      (state.candidates entries entry.generation).length ≤ 1 ∧
      st = { state with candidate := (state.candidates entries entry.generation).head?.map Record.id } := by
  unfold findCandidate at h
  split at h
  · next hc => exact .inl ⟨hc, (pure_eq_ok.1 h).symm⟩
  · next current hc =>
    simp only [bind_eq_ok, pure_eq_ok, orError_eq_ok, ensure_eq_ok, decide_eq_true_eq] at h
    obtain ⟨entry, hentry, _, hlen, rfl⟩ := h
    exact .inr ⟨current, entry, hc, hentry, hlen, rfl⟩

theorem fallback_reconcile {id : Text} (h : (state.reconcile entries).fallback = some id) :
    state.current = some id ∨ state.fallback = some id := by
  unfold reconcile at h
  split at h
  · split at h
    · exact .inr h
    · simp only [Option.or_eq_some_iff, Option.filter_eq_some_iff] at h
      rcases h with h | ⟨-, h⟩
      · exact .inl h.1
      · exact .inr h.1
  · exact .inr h

@[simp] theorem candidate_reconcile : (state.reconcile entries).candidate = state.candidate := by
  unfold reconcile; split
  · split <;> rfl
  · rfl

theorem fallback_effective {id : Text} (h : state.effective entries = .ok st)
    (hid : st.fallback = some id) : state.current = some id ∨ state.fallback = some id := by
  have hbase : ∀ {id}, (((state.raise entries).reconcile entries).dropAbsentFallback entries).fallback =
      some id → state.current = some id ∨ state.fallback = some id := by
    intro id h
    simp only [dropAbsentFallback, Option.filter_eq_some_iff] at h
    have hraise : (state.raise entries).current = some id ∨ (state.raise entries).fallback = some id :=
      fallback_reconcile h.1
    exact hraise
  rcases findCandidate_eq_ok h with ⟨-, rfl⟩ | ⟨_, _, -, -, -, rfl⟩ <;> exact hbase hid

theorem effective_eq_ok (h : state.effective entries = .ok st) :
    st.failed = state.failed ∧ st.highestGeneration = state.highest entries ∧
      st.current = ((state.confirmed entries).map Record.id).or state.current := by
  have hcurrent : ((state.raise entries).reconcile entries).current =
      ((state.confirmed entries).map Record.id).or state.current := current_reconcile
  rcases findCandidate_eq_ok h with ⟨-, rfl⟩ | ⟨_, _, -, -, -, rfl⟩ <;>
    exact ⟨by simp [dropAbsentFallback, raise], by simp [dropAbsentFallback, raise], hcurrent⟩

end State

end MicaCore.Deploy
