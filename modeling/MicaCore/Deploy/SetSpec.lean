import MicaCore.Deploy.SettleSpec

namespace MicaCore.Deploy

open Data Crash Prog

structure SetSeen (store : Store) (envelope : Bytes) (set : UpdateSet) (state : SetState)
    (s : Device) : Prop where
  authentic : store.trust.authenticateSet envelope = .ok set
  effective : ∃ effective, s.effectiveState = .ok effective ∧ effective.candidate = none
  pending : state.pending = none
  current : state.current ≠ some (store.trust.setId set)
  read : s.readState = .ok state

variable {store : Store} {state : SetState}

theorem Store.setSeen_of_planInstallSet {envelope : Bytes} {target : SetTarget}
    {s : Device} {set : UpdateSet} (h : store.planInstallSet envelope target s = .ok (set, state)) :
    SetSeen store envelope set state s := by
  simp only [Store.planInstallSet, bind_eq_ok, ensure_eq_ok] at h
  obtain ⟨set', hauth, _, _, effective, heff, _, hcand, state', hstate, _, hpending, _, hcurrent,
    _, _, _, _, heq⟩ := h
  cases heq
  exact ⟨hauth, ⟨effective, heff, by simpa using hcand⟩, by simpa using hpending,
    by simpa using hcurrent, hstate⟩

def SetState.tryAlone (state : SetState) (retained : List Text) (id : Text) : SetState :=
  { state with
    pair := none
    bound := state.bound.filter fun deployment _ ↦ retained.contains deployment
    pending := some id }

/-- A set's objects, then its trial, and last the write that names it. -/
inductive InstallSetWrite (store : Store) (envelope : Bytes) (set : UpdateSet) (state : SetState)
    (s : Device) : Device → Device → Prop
  | adds {u v : Device} : Adds u v → InstallSetWrite store envelope set state s u v
  | trial {u v : Device} {i : AList fun _ : Item ↦ Bytes} : Adds s u → SameItems u.items i →
      v = { u with trial := some ⟨.core, store.trust.setId set, trialAttempts⟩, items := i } →
      InstallSetWrite store envelope set state s u v
  | name {u v : Device} {i : AList fun _ : Item ↦ Bytes} {retained : List Text} :
      (∃ i, u = { s with trial := some ⟨.core, store.trust.setId set, trialAttempts⟩, items := i }) →
      SetComplete store.trust set envelope u → s.retainedDeployments none = .ok retained →
      (state.tryAlone retained (store.trust.setId set)).bound.size ≤ 2 → SameItems u.items i →
      v = { u with sets := some (state.tryAlone retained (store.trust.setId set)), items := i } →
      InstallSetWrite store envelope set state s u v

theorem Store.wp_installSet (store : Store) (envelope : Bytes) (target : SetTarget)
    (objects : Sources) (s : Device) :
    wp (store.installSet envelope target objects)
      (fun u v ↦ ∃ set state, SetSeen store envelope set state s ∧
        InstallSetWrite store envelope set state s u v) (fun _ _ ↦ True) s := by
  unfold Store.installSet
  refine wp_read_seq fun (set, state) hplan ↦ ?_
  have hseen := Store.setSeen_of_planInstallSet hplan
  have hpublish := wp_invariant (Adds s) (.refl s) (fun _ _ h h' ↦ h.trans h')
    (store.wp_publishSet set envelope objects s)
  refine wp_seq hpublish (fun _ t ⟨hadds, _, hcomplete⟩ ↦ ?_)
    fun u v huv ↦ ⟨set, state, hseen, .adds huv.2⟩
  have hret : t.retainedDeployments none = s.retainedDeployments none := by
    obtain ⟨i, rfl, -⟩ := hadds
    rfl
  refine wp_read_seq fun retained hretained ↦ ?_
  rw [startTrial, wp_bind]
  refine wp_replace (fun i hi ↦ ⟨set, state, hseen, .adds hi.adds⟩)
    (fun i i' hi hi' ↦ ⟨set, state, hseen, .trial (i := i') (hadds.trans hi.adds) (hi.both hi') rfl⟩)
    fun i hi ↦ ?_
  have hform : ∃ j, { t with items := i, trial := some ⟨.core, store.trust.setId set, trialAttempts⟩ } =
      { s with trial := some ⟨.core, store.trust.setId set, trialAttempts⟩, items := j } := by
    obtain ⟨j, rfl, -⟩ := hadds
    exact ⟨i, rfl⟩
  rw [andThen_ok, wp_bind]
  refine wp_writeState (fun j hj ↦ ⟨set, state, hseen, .adds hj.adds⟩)
    (fun j j' hsize hj hj' ↦ ⟨set, state, hseen, ?_⟩) (fun _ ↦ trivial) fun _ _ _ ↦ by simp
  refine .name (i := j') ?_ (hcomplete.of_same rfl (hi.trans hj)) (hret ▸ hretained) hsize
    (hj.both hj') rfl
  obtain ⟨k, hk⟩ := hform
  exact ⟨j, by simp only [Device.mk.injEq] at hk ⊢; simp [hk]⟩

/-- The trial of `pending` has a boot left and it is spent. -/
def Spends (pending : Text) (trial spent : Option SetTrial) : Prop :=
  ∃ n, trial = some ⟨.core, pending, n + 1⟩ ∧ spent = some ⟨.core, pending, n⟩

/-- Which set a boot composes; `alone` is a pending set without its own deployment. -/
inductive Composes (state : SetState) (deployment : Text) : Bool → CoreBoot → Prop
  | paired {pending : Text} : state.pending = some pending → state.paired = some deployment →
      Composes state deployment false ⟨pending, true, true⟩
  | bound {id : Text} : state.paired ≠ some deployment → state.bound.get deployment = some id →
      Composes state deployment false ⟨id, false, false⟩
  | alone {pending : Text} : state.pending = some pending → state.paired = none →
      state.bound.get deployment = none → Composes state deployment true ⟨pending, true, false⟩
  | current {id : Text} : state.paired ≠ some deployment → state.bound.get deployment = none →
      state.current = some id → Composes state deployment false ⟨id, false, false⟩

/-- A boot of `deployment` would try the pending set alone. -/
structure TriesAlone (state : SetState) (deployment pending : Text) : Prop where
  pending : state.pending = some pending
  paired : state.paired = none
  bound : state.bound.get deployment = none

/-- At most one boot of a set alone is spent, and one is if it is composed. -/
structure Composed (state : SetState) (deployment : Text) (core : CoreBoot) (s t : Device) :
    Prop where
  form : ∃ trial i, t = { s with trial := trial, items := i } ∧ SameItems s.items i
  trial : t.trial = s.trial ∨ ∃ pending, TriesAlone state deployment pending ∧
    Spends pending s.trial t.trial
  composes : ∃ alone, Composes state deployment alone core ∧
    (alone = true → Spends core.coreSetId s.trial t.trial)

theorem Composed.refl {deployment : Text} {core : CoreBoot} {s : Device}
    (h : Composes state deployment false core) : Composed state deployment core s s where
  form := ⟨s.trial, s.items, rfl, .refl _⟩
  trial := .inl rfl
  composes := ⟨false, h, by simp⟩

def SpendWrite (state : SetState) (deployment : Text) (s u v : Device) : Prop :=
  ∃ pending trial i i', TriesAlone state deployment pending ∧ Spends pending s.trial trial ∧
    SameItems s.items i ∧ SameItems s.items i' ∧ u = { s with items := i } ∧
    v = { s with items := i', trial := trial }

theorem wp_spendAttempt {write : WriteEnd} {pending : Text} {G : Device → Device → Prop}
    {R : Except String Bool → Device → Prop} {s : Device}
    (hscratch : ∀ i, SameItems s.items i → G s { s with items := i })
    (hspend : ∀ trial i i', Spends pending s.trial trial → SameItems s.items i →
    SameItems s.items i' →
      G { s with items := i } { s with items := i', trial := trial })
    (hkept : R (.ok false) s)
    (hdone : ∀ tried trial i, Spends pending s.trial trial → SameItems s.items i →
      R (.ok tried) { s with items := i, trial := trial }) :
    wp (spendAttempt write pending) G R s := by
  unfold spendAttempt
  rw [wp_get_bind]
  cases hread : s.readTrial with
  | none => simpa using hkept
  | some trial =>
  obtain ⟨kind, id, left⟩ := trial
  simp only
  split
  · simpa using hkept
  next hnot =>
  simp only [Bool.or_eq_true, bne_iff_ne, beq_iff_eq, not_or, not_not] at hnot
  obtain ⟨⟨-, rfl⟩, hleft⟩ := hnot
  cases kind
  have hspends : Spends id s.trial (some ⟨.core, id, left - 1⟩) := by
    have htrial : s.trial = some ⟨.core, id, left⟩ := by
      rw [Device.readTrial, Option.filter_eq_some_iff] at hread
      exact hread.1
    exact ⟨left - 1, by rw [htrial]; congr; omega, rfl⟩
  have hwrite : ∀ tried, wp (do writeTrial ⟨.core, id, left - 1⟩; pure tried : Op Bool) G R s := by
    intro tried
    rw [wp_bind]
    exact wp_replace hscratch (fun i i' hi hi' ↦ hspend _ i i' hspends hi hi')
      fun i hi ↦ by simpa using hdone tried _ i hspends hi
  cases write with
  | done => exact hwrite true
  | lost => simpa using hkept
  | unreported => exact hwrite false

theorem Store.coreBoot_of_composed {d : Device} {root : BootRoot} {id : Text}
    {pending paired : Bool} {c : Composition} (h : store.composed d root id pending paired = .ok c) :
    c.coreBoot = ⟨id, pending, paired⟩ := by
  simp only [Store.composed, bind_eq_ok, pure_eq_ok] at h
  obtain ⟨_, _, rfl⟩ := h
  rfl

theorem Store.coreBoot_of_composeCurrent {d : Device}
    {root : BootRoot} {c : Composition} (h : store.composeCurrent d state root = .ok c) :
    ∃ id, state.current = some id ∧ c.coreBoot = ⟨id, false, false⟩ := by
  simp only [Store.composeCurrent, bind_eq_ok, orError_eq_ok, context_eq_ok] at h
  obtain ⟨id, hid, h⟩ := h
  exact ⟨id, hid, coreBoot_of_composed h⟩

theorem Composed.current {deployment : Text} {s t : Device} {root : BootRoot} {c : Composition}
    (hpaired : state.paired ≠ some deployment) (hbound : state.bound.get deployment = none)
    (form : ∃ trial i, t = { s with trial := trial, items := i } ∧ SameItems s.items i)
    (trial : t.trial = s.trial ∨ ∃ pending, TriesAlone state deployment pending ∧
      Spends pending s.trial t.trial)
    (h : store.composeCurrent t state root = .ok c) : Composed state deployment c.coreBoot s t := by
  obtain ⟨id, hid, hcore⟩ := Store.coreBoot_of_composeCurrent h
  exact ⟨form, trial, false, hcore ▸ .current hpaired hbound hid, by simp⟩

theorem Store.wp_composition (store : Store) (write : WriteEnd) (root : BootRoot)
    (deployment : Text) (s : Device) :
    wp (store.composition write root deployment)
      (fun u v ↦ Adds u v ∨ ∃ state, s.readState = .ok state ∧ SpendWrite state deployment s u v)
      (onOk fun c t ↦ ∃ state, s.readState = .ok state ∧ Composed state deployment c.coreBoot s t)
      s := by
  unfold Store.composition
  refine wp_read_seq fun state hstate ↦ ?_
  have hcomposed : ∀ {id : Text} {pending paired : Bool} {message : String},
      Composes state deployment false ⟨id, pending, paired⟩ →
      ∀ c, context message (store.composed s root id pending paired) = .ok c →
        ∃ state, s.readState = .ok state ∧ Composed state deployment c.coreBoot s s := by
    intro id pending paired message hc c h
    exact ⟨state, hstate, coreBoot_of_composed (context_eq_ok.1 h) ▸ .refl hc⟩
  have hsame : ∃ trial i, s = { s with trial := trial, items := i } ∧ SameItems s.items i :=
    ⟨s.trial, s.items, rfl, .refl _⟩
  cases hpending : state.pending with
  | none =>
    have hpaired : state.paired ≠ some deployment := by simp [SetState.paired, hpending]
    cases hbound : state.bound.get deployment with
    | some id => exact wp_read_onOk (hcomposed (.bound hpaired hbound))
    | none => exact wp_read_onOk fun c h ↦ ⟨state, hstate, .current hpaired hbound hsame (.inl rfl) h⟩
  | some pending =>
    simp only
    split
    · next hpaired => exact wp_read_onOk (hcomposed (.paired hpending hpaired))
    next hpaired =>
    cases hbound : state.bound.get deployment with
    | some id => exact wp_read_onOk (hcomposed (.bound hpaired hbound))
    | none =>
    simp only
    split
    · exact wp_read_onOk fun c h ↦ ⟨state, hstate, .current hpaired hbound hsame (.inl rfl) h⟩
    next halone =>
    have hnone : state.paired = none := by simpa using halone
    have htries : TriesAlone state deployment pending := ⟨hpending, hnone, hbound⟩
    rw [wp_bind]
    refine wp_spendAttempt (fun i hi ↦ .inl hi.adds) (fun trial i i' hs hi hi' ↦ .inr
      ⟨state, hstate, pending, trial, i, i', htries, hs, hi, hi', rfl, rfl⟩) ?_ fun tried trial i hs hi ↦ ?_
    · rw [andThen_ok, wp_get_bind]
      exact wp_read_onOk fun c h ↦ ⟨state, hstate, .current hpaired hbound hsame (.inl rfl) h⟩
    · have hform : ∃ trial' i', { s with items := i, trial := trial } =
          { s with trial := trial', items := i' } ∧ SameItems s.items i' := ⟨trial, i, rfl, hi⟩
      rw [andThen_ok, wp_get_bind]
      split
      · next c htrue hc =>
        rw [wp_pure, onOk_ok]
        refine ⟨state, hstate, hform, .inr ⟨pending, htries, hs⟩, true, ?_, fun _ ↦ ?_⟩
        · rw [coreBoot_of_composed hc]
          exact .alone hpending hnone hbound
        · rw [coreBoot_of_composed hc]
          exact hs
      · exact wp_read_onOk fun c h ↦
          ⟨state, hstate, .current hpaired hbound hform (.inr ⟨pending, htries, hs⟩) h⟩

end MicaCore.Deploy
