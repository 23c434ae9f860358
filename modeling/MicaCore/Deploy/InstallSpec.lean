import MicaCore.Deploy.LifecycleSpec

namespace MicaCore.Deploy

open Data Crash Prog

section

variable {G : Device → Device → Prop} {R : Except String Unit → Device → Prop} {s : Device}

theorem wp_writeState {state : SetState}
    (hscratch : ∀ i, SameItems s.items i → G s { s with items := i })
    (hsave : ∀ i i', state.bound.size ≤ 2 → SameItems s.items i → SameItems s.items i' →
      G { s with items := i } { s with items := i', sets := some state })
    (herr : ∀ e, R (.error e) s)
    (hok : ∀ i, state.bound.size ≤ 2 → SameItems s.items i →
      R (.ok ()) { s with items := i, sets := some state }) :
    wp (writeState state) G R s := by
  rw [writeState, wp_bind, wp_ensure]
  refine ⟨fun hsize ↦ ?_, fun _ ↦ herr _⟩
  have hsize : state.bound.size ≤ 2 := by simpa using hsize
  exact wp_replace hscratch (fun i i' ↦ hsave i i' hsize) fun i ↦ hok i hsize

end

structure Installation.Seen (plan : Installation) (store : Store) (envelope : Bytes)
    (receipt : BootReceipt) (s : Device) : Prop where
  authentic : store.trust.authenticateDeployment envelope = .ok plan.deployment
  id_eq : plan.id = store.trust.deploymentId plan.deployment
  effective : s.effectiveState = .ok plan.state
  entries : s.boot.entries = .ok plan.entries
  fresh : ∀ e ∈ plan.entries, e.id ≠ plan.id
  unfailed : plan.id ∉ plan.state.failed
  candidate : plan.state.candidate = none
  choice : ∃ target objects latest,
    store.coreChoice s plan.deployment target objects latest = .ok plan.choice
  current : plan.state.current = some receipt.deploymentId
  running : ∃ e ∈ plan.entries, e.id = receipt.deploymentId ∧ e.triesLeft = none
  trusted : receipt.deploymentId ∉ plan.state.failed
  newer : plan.state.highestGeneration < plan.deployment.generation
  newest : ∀ e ∈ plan.entries, e.generation < plan.deployment.generation
  files : plan.files = objectPaths s.boot plan.deployment
  collection : store.collection s receipt [receipt.deploymentId] (some plan.deployment) =
    .ok plan.collection

theorem Store.seen_of_planInstall {store : Store} {envelope : Bytes} {target : Target}
    {objects : Sources} {receipt : BootReceipt} {latest : Option Bytes} {s : Device}
    {plan : Installation} (h : store.planInstall envelope target objects receipt latest s = .ok plan) :
    plan.Seen store envelope receipt s := by
  simp only [Store.planInstall, bind_eq_ok, pure_eq_ok, ensure_eq_ok] at h
  obtain ⟨deployment, hauth, _, _, _, _, _, _, state, heff, entries, hentries, _, hfresh, _, hcand,
    choice, hchoice, _, _, _, hrun, _, hnew, _, _, demand, _, collection, hcoll, _, _, rfl⟩ := h
  simp only [Bool.and_eq_true, Bool.not_eq_true', List.any_eq_false, beq_iff_eq, List.any_eq_true,
    List.all_eq_true, decide_eq_true_eq, Option.isNone_iff_eq_none] at hfresh hcand hrun hnew
  exact ⟨hauth, rfl, heff, hentries, hfresh.1, by simpa using hfresh.2, hcand,
    ⟨target, objects, latest, hchoice⟩, hrun.1.1,
    hrun.1.2, by simpa using hrun.2, hnew.1, hnew.2, rfl,
    hcoll⟩

section

variable {store : Store} {d : Device} {deployment : Deployment} {target : Target} {objects : Sources}
  {latest : Option Bytes}

theorem Store.state_of_coreChoice {choice : CoreChoice}
    (h : store.coreChoice d deployment target objects latest = .ok choice) :
    ∃ state, d.readState = .ok state ∧ state.pending = none ∧ state.current.isSome := by
  simp only [Store.coreChoice, bind_eq_ok, ensure_eq_ok, orError_eq_ok] at h
  obtain ⟨state, hstate, _, hpending, current, hcurrent, -⟩ := h
  exact ⟨state, hstate, by simpa using hpending, by simp [hcurrent]⟩

/-- A set to be paired is signed, and newer than the current one. -/
structure NewerSet (trust : Trust) (current : Option Text) (id : Text) (set : UpdateSet)
    (envelope : Bytes) : Prop where
  id_eq : id = trust.setId set
  authentic : trust.authenticateSet envelope = .ok set
  newer : ∃ held heldEnvelope, trust.authenticateSet heldEnvelope = .ok held ∧
    current = some (trust.setId held) ∧ held.generation < set.generation

variable {arch : String} {image : CoreSetRef}

theorem Store.image_of_newerImageSet {state : SetState}
    (hstate : d.readState = .ok state) (h : store.newerImageSet d deployment arch = .ok (some image)) :
    ∃ held heldEnvelope, store.trust.authenticateSet heldEnvelope = .ok held ∧
      state.current = some (store.trust.setId held) ∧ held.generation < image.generation := by
  unfold Store.newerImageSet at h
  cases himage : deployment.coreSet.filter (·.channel == general) with
  | none => simp [himage] at h
  | some image' =>
    simp only [himage, bind_eq_ok] at h
    obtain ⟨state', hstate', h⟩ := h
    obtain rfl : state = state' := by simpa [hstate] using hstate'
    cases hcurrent : state.current with
    | none => simp [hcurrent] at h
    | some current =>
      simp only [hcurrent, bind_eq_ok, pure_eq_ok, Store.loadSet, ensure_eq_ok, context_eq_ok] at h
      obtain ⟨⟨held, heldEnvelope⟩, ⟨_, _, _, _, held', hauth, _, hid, _, _, _, _, heq⟩, h⟩ := h
      cases heq
      split at h
      · next hnewer =>
        simp only [Bool.and_eq_true, beq_iff_eq, decide_eq_true_eq] at hnewer hid
        cases h
        exact ⟨held, heldEnvelope, hauth, by rw [hid], hnewer.2⟩
      · cases h

variable {set : UpdateSet} {envelope : Bytes}

theorem Store.set_of_imageSet (h : store.imageSet image objects arch = .ok (set, envelope)) :
    image.id = store.trust.setId set ∧ store.trust.authenticateSet envelope = .ok set ∧
      set.generation = image.generation := by
  simp only [Store.imageSet, bind_eq_ok, ensure_eq_ok, pure_eq_ok] at h
  obtain ⟨_, _, _, _, _, _, _, hauth, _, hsame, heq⟩ := h
  cases heq
  simp only [Bool.and_eq_true, beq_iff_eq] at hsame
  exact ⟨hsame.1.1.1.1.symm, hauth, hsame.1.2⟩

theorem Store.set_of_latestSet (h : store.latestSet image arch latest = .ok (some (set, envelope))) :
    store.trust.authenticateSet envelope = .ok set ∧ image.generation ≤ set.generation := by
  unfold Store.latestSet at h
  cases latest with
  | none => simp at h
  | some bytes =>
    simp only [bind_eq_ok, pure_eq_ok] at h
    obtain ⟨set', hauth, h⟩ := h
    split at h
    · next hsuits =>
      simp only [Bool.and_eq_true, decide_eq_true_eq] at hsuits
      cases h
      exact ⟨hauth, hsuits.2⟩
    · cases h

theorem Store.pair_of_newest {imageSet : UpdateSet × Bytes}
    {newest : Option (UpdateSet × Bytes)} {features : List String} {root : RootFacts} {id : Text}
        (h : store.newest image imageSet newest features root = .ok (.pair id set envelope)) :
    (id = image.id ∧ imageSet = (set, envelope)) ∨
      (id = store.trust.setId set ∧ newest = some (set, envelope)) := by
  unfold Store.newest at h
  cases newest with
  | none =>
    simp only at h
    split at h
    · cases h
      exact .inl ⟨rfl, rfl⟩
    · cases h
  | some latest =>
    simp only at h
    split at h
    · cases h
      exact .inr ⟨rfl, rfl⟩
    · split at h
      · cases h
        exact .inl ⟨rfl, rfl⟩
      · cases h

theorem Store.newerSet_of_coreChoice {id : Text} {state : SetState} (hstate : d.readState = .ok state)
    (h : store.coreChoice d deployment target objects latest = .ok (.pair id set envelope)) :
    NewerSet store.trust state.current id set envelope := by
  simp only [Store.coreChoice, bind_eq_ok, ensure_eq_ok, orError_eq_ok] at h
  obtain ⟨_, _, _, _, _, _, image, himage, h⟩ := h
  cases image with
  | none =>
    simp only [bind_eq_ok, pure_eq_ok] at h
    obtain ⟨_, _, _, _, h⟩ := h
    cases h
  | some image =>
    simp only [bind_eq_ok] at h
    obtain ⟨⟨imageSet, imageEnvelope⟩, hset, newest, hlatest, h⟩ := h
    obtain ⟨held, heldEnvelope, hheld, hcurrent, hnewer⟩ :=
      store.image_of_newerImageSet hstate himage
    rcases store.pair_of_newest h with ⟨rfl, heq⟩ | ⟨rfl, rfl⟩
    · cases heq
      obtain ⟨hid, hauth, hgen⟩ := store.set_of_imageSet hset
      exact ⟨hid, hauth, held, heldEnvelope, hheld, hcurrent, hgen ▸ hnewer⟩
    · obtain ⟨hauth, hgen⟩ := store.set_of_latestSet hlatest
      exact ⟨rfl, hauth, held, heldEnvelope, hheld, hcurrent, hnewer.trans_le hgen⟩

end

namespace Installation

variable (plan : Installation)

def retainedState : State := { plan.state with fallback := none, candidate := none }

def finalState : State := { plan.retainedState with
  highestGeneration := plan.deployment.generation, candidate := some plan.id }

def record : Record := ⟨plan.id, plan.deployment.kernel.id, plan.deployment.generation, some 3⟩

end Installation

structure Retained (keep : List (Option Text)) (b b' : BootRecords) : Prop where
  retaining : Retaining keep b b'
  held : ∀ r ∈ b'.held, keeps keep r = true

/-- An installation that brings a set names the pair before its entry exists. -/
inductive Named (store : Store) (plan : Installation) (running : Text) (held : SetState) :
    SetState → Device → Prop
  | keep {u : Device} : plan.choice = .keep →
      Named store plan running held { held with
        pair := none
        bound := held.bound.filter fun deployment _ ↦ deployment == running } u
  | pair {setId : Text} {set : UpdateSet} {envelope : Bytes} {u : Device} :
      plan.choice = .pair setId set envelope → SetComplete store.trust set envelope u →
      Named store plan running held { held with
        pair := some plan.id
        pending := some setId
        bound := held.bound.filter fun deployment _ ↦ deployment == running } u

/-- Entries go, DATA forgets, objects go and come, the set is named, the entry written and recorded. -/
inductive InstallWrite (store : Store) (plan : Installation) (running : Text) (envelope : Bytes)
    (s : Device) : Device → Device → Prop
  | adds {u v : Device} : Adds u v → InstallWrite store plan running envelope s u v
  | retain {b b' : BootRecords} :
      Retaining [some running] s.boot b → Retaining [some running] s.boot b' → b'.view ⊆ b.view →
      InstallWrite store plan running envelope s { s with boot := b } { s with boot := b' }
  | save {b : BootRecords} {i i' : AList fun _ : Item ↦ Bytes} :
      Retained [some running] s.boot b → SameItems s.items i → SameItems s.items i' →
      InstallWrite store plan running envelope s { s with boot := b, items := i }
        { s with boot := b, items := i', data := some plan.retainedState }
  | drops {b : BootRecords} {i : AList fun _ : Item ↦ Bytes} {u v : Device} :
      Retained [some running] s.boot b → SameItems s.items i →
      Drops plan.collection { s with boot := b, items := i, data := some plan.retainedState } u →
      Drops plan.collection u v → InstallWrite store plan running envelope s u v
  | name {b : BootRecords} {i i' : AList fun _ : Item ↦ Bytes}
    {held cores : SetState} {u : Device} :
      Retained [some running] s.boot b → s.readState = .ok held →
      u = { s with boot := b, data := some plan.retainedState, items := i } →
      Named store plan running held cores u → cores.bound.size ≤ 2 → SameItems i i' →
      InstallWrite store plan running envelope s u { u with sets := some cores, items := i' }
  | insert {b b' b'' : BootRecords} {i i' : AList fun _ : Item ↦ Bytes} {held cores : SetState}
      {u : Device} :
      Retained [some running] s.boot b → s.readState = .ok held →
      u = { s with boot := b', data := some plan.retainedState, items := i, sets := some cores } →
      Named store plan running held cores u →
      Complete plan.files plan.deployment plan.id envelope u →
      Kept b b' → Kept b b'' ∨ Inserted plan.record b b'' → SameItems i i' →
      InstallWrite store plan running envelope s u { u with boot := b'', items := i' }
  | final {b b' : BootRecords} {i i' : AList fun _ : Item ↦ Bytes} {held cores : SetState}
      {u : Device} :
      Retained [some running] s.boot b → s.readState = .ok held →
      Inserted plan.record b b' →
      u = { s with boot := b', data := some plan.retainedState, items := i, sets := some cores } →
      Named store plan running held cores u → SameItems i i' →
      InstallWrite store plan running envelope s u { u with data := some plan.finalState, items := i' }

/-- One write names the set; everything before it only adds. -/
structure Naming (store : Store) (plan : Installation) (running : Text) (held : SetState)
    (u v w : Device) : Prop where
  adds : Adds u v
  write : ∃ cores i, Named store plan running held cores v ∧ cores.bound.size ≤ 2 ∧
    SameItems v.items i ∧ w = { v with sets := some cores, items := i }

variable {u : Device}

theorem Store.wp_nameSet (store : Store) (plan : Installation) (running : Text) (objects : Sources)
    {held : SetState} (hheld : u.readState = .ok held) :
    wp (store.nameSet plan.choice plan.id running objects)
      (fun v w ↦ Adds v w ∨ Naming store plan running held u v w)
      (onOk fun _ w ↦ ∃ v, Naming store plan running held u v w) u := by
  unfold Store.nameSet
  rw [wp_bind, wp_read, hheld, andThen_ok]
  cases hchoice : plan.choice with
  | keep =>
    exact wp_writeState (fun i hi ↦ .inl hi.adds)
      (fun i i' hsize hi hi' ↦ .inr ⟨hi.adds, _, i', .keep hchoice, hsize, hi.both hi', rfl⟩)
      (fun _ ↦ trivial) fun i hsize hi ↦ ⟨u, .refl u, _, i, .keep hchoice, hsize, hi, rfl⟩
  | pair setId set envelope =>
    have hpublish := wp_invariant (Adds u) (.refl u) (fun _ _ h h' ↦ h.trans h')
      (store.wp_publishSet set envelope objects u)
    refine wp_seq hpublish (fun _ t ⟨hadds, _, hcomplete⟩ ↦ ?_) fun _ _ h ↦ .inl h.2
    refine wp_writeState (fun i hi ↦ .inl hi.adds)
      (fun i i' hsize hi hi' ↦ .inr ⟨hadds.trans hi.adds, ?_⟩) (fun _ ↦ trivial)
      fun i hsize hi ↦ ⟨t, hadds, _, i, .pair hchoice hcomplete, hsize, hi, rfl⟩
    exact ⟨_, i', .pair hchoice (hcomplete.of_adds hi.adds), hsize, hi.both hi', rfl⟩

theorem setObjects_congr {b b' : BootRecords} (h : b'.isUbi = b.isUbi) (set : UpdateSet) :
    setObjects b' set = setObjects b set := by
  simp [setObjects, largeObject, h]

theorem SetComplete.of_same {trust : Trust} {set : UpdateSet} {envelope : Bytes} {v : Device}
    (h : SetComplete trust set envelope u) (hboot : v.boot.isUbi = u.boot.isUbi)
    (hitems : SameItems u.items v.items) : SetComplete trust set envelope v where
  objects f hf := by
    rw [setObjects_congr hboot] at hf
    rw [Has, hitems _ f.1.scratch_item]
    exact h.objects f hf
  hashes core hcore := by
    rw [Has, hitems _ rfl]
    exact h.hashes core hcore
  envelope := by
    rw [hitems _ rfl]
    exact h.envelope

theorem Named.of_same {store : Store} {plan : Installation} {running : Text} {held cores : SetState}
    {v : Device} (h : Named store plan running held cores u) (hboot : v.boot.isUbi = u.boot.isUbi)
    (hitems : SameItems u.items v.items) : Named store plan running held cores v := by
  cases h with
  | keep hk => exact .keep hk
  | pair hp hc => exact .pair hp (hc.of_same hboot hitems)

theorem Complete.of_same {files : List (Place × Artifact)} {deployment : Deployment} {id : Text}
    {envelope : Bytes} {v : Device} (h : Complete files deployment id envelope u)
    (hitems : SameItems u.items v.items) : Complete files deployment id envelope v where
  objects f hf := by rw [Has, hitems _ f.1.scratch_item]; exact h.objects f hf
  hashes x hx := by rw [Has, hitems _ rfl]; exact h.hashes x hx
  descriptor := by rw [hitems _ rfl]; exact h.descriptor

theorem Store.wp_install (store : Store) (envelope : Bytes) (target : Target) (objects : Sources)
    (receipt : BootReceipt) (latest : Option Bytes) (s : Device) :
    wp (store.install envelope target objects receipt latest)
      (fun u v ↦ ∃ plan, plan.Seen store envelope receipt s ∧
        InstallWrite store plan receipt.deploymentId envelope s u v) (fun _ _ ↦ True) s := by
  unfold Store.install
  refine wp_read_seq fun plan hplan ↦ ?_
  have hseen := Store.seen_of_planInstall hplan
  rw [wp_bind]
  refine wp_retainEntries (fun b b' hb hb' hsub ↦ ⟨plan, hseen, .retain hb hb' hsub⟩)
    (fun _ _ _ ↦ trivial) (fun r _ hr ↦ (BootRecords.mem_view_of_mem_entries hseen.entries).2 hr)
    fun b hb hheld ↦ ?_
  have hret : Retained [some receipt.deploymentId] s.boot b := ⟨hb, hheld⟩
  rw [andThen_ok, wp_bind]
  refine wp_replace (fun i hi ↦ ⟨plan, hseen, .adds hi.adds⟩)
    (fun i i' hi hi' ↦ ⟨plan, hseen, .save hret hi hi'⟩) fun i hi ↦ ?_
  rw [andThen_ok]
  have hdrops := wp_invariant (Drops plan.collection
    { s with boot := b, items := i, data := some plan.retainedState }) (.refl _ _)
    (fun _ _ h h' ↦ h.trans h') (wp_apply plan.collection _)
  refine wp_seq hdrops (fun _ t ht ↦ ?_) fun u v huv ↦ ⟨plan, hseen, .drops hret hi huv.1 huv.2⟩
  obtain ⟨⟨i₁, rfl, -⟩, -⟩ := ht
  refine wp_read_seq fun _ _ ↦ ?_
  refine wp_seq (store.wp_publishDeployment plan envelope objects _) (fun _ t ht ↦ ?_)
    fun u v huv ↦ ⟨plan, hseen, .adds huv⟩
  obtain ⟨⟨i₂, rfl, -, -⟩, hcomplete⟩ := ht
  cases hstate : s.readState with
  | error e =>
    rw [wp_bind, Store.nameSet, wp_bind, wp_read]
    have : Device.readState { s with boot := b, data := some plan.retainedState, items := i₂ } =
      .error e := hstate
    simp only [this]
    trivial
  | ok held =>
  refine wp_seq (store.wp_nameSet plan receipt.deploymentId objects hstate) (fun _ t ht ↦ ?_)
    fun u v huv ↦ ?_
  case refine_2 =>
    rcases huv with huv | ⟨hadds, cores, i', hnamed, hsize, hi', rfl⟩
    · exact ⟨plan, hseen, .adds huv⟩
    · obtain ⟨i₃, rfl, -, -⟩ := hadds
      exact ⟨plan, hseen, .name hret hstate rfl hnamed hsize hi'⟩
  obtain ⟨v, hadds, cores, i', hnamed, hsize, hi', rfl⟩ := ht
  have hcomplete' := hcomplete.of_adds hadds
  obtain ⟨i₃, rfl, -, -⟩ := hadds
  have hfresh : ∀ r ∈ b.view, r.id ≠ plan.record.id := fun r hr ↦
    hseen.fresh r ((BootRecords.mem_view_of_mem_entries hseen.entries).2 (hb.sub.subset hr))
  rw [wp_bind]
  refine wp_insertEntry hfresh (fun c c' j j' hc hc' hj hj' ↦ ⟨plan, hseen, ?_⟩) (fun _ ↦ trivial)
    fun c j hc hj ↦ ?_
  · exact .insert (i := j) hret hstate rfl (hnamed.of_same hc.isUbi (hi'.trans hj))
      (hcomplete'.of_same (hi'.trans hj)) hc hc' (hj.both hj')
  · rw [andThen_ok, wp_bind]
    refine wp_replace (fun k hk ↦ ⟨plan, hseen, .adds hk.adds⟩)
      (fun k k' hk hk' ↦ ⟨plan, hseen, ?_⟩) fun _ _ ↦ by simp
    exact .final (i := k) hret hstate hc rfl (hnamed.of_same hc.isUbi ((hi'.trans hj).trans hk))
      (hk.both hk')

end MicaCore.Deploy
