import MicaCore.Deploy.EntrySpec

namespace MicaCore.Deploy

open Data Crash Prog

/-- The signed descriptor is there, and the objects and root hashes it names. -/
def Installed (store : Store) (d : Device) (id : Text) : Prop :=
  ∃ bytes deployment, store.trust.authenticateDeployment bytes = .ok deployment ∧
    store.trust.deploymentId deployment = id ∧
    Complete (objectPaths d.boot deployment) deployment id bytes d

/-- Every entry of every copy of the boot records has all it refers to. -/
def EntriesInstalled (store : Store) (d : Device) : Prop :=
  ∀ r ∈ d.boot.held, Installed store d r.id

variable {b : BootRecords}

theorem objectPaths_congr {b' : BootRecords} (hfit : b'.isFit = b.isFit) (hubi : b'.isUbi = b.isUbi)
    (deployment : Deployment) : objectPaths b' deployment = objectPaths b deployment := by
  simp [objectPaths, largeObject, hfit, hubi]

def Refers (b : BootRecords) (deployment : Deployment) (id : Text) (k : Item) : Prop :=
  (∃ f ∈ objectPaths b deployment, k = f.1.item) ∨ (∃ h ∈ rootHashes deployment, k = .file h.1) ∨
    k = .file (.descriptor id)

variable {deployment : Deployment} {id : Text} {k : Item}

section

variable (h : Refers b deployment id k)

include h

theorem Refers.item :
    k = .file (.rootfsImg deployment.rootfs.id) ∨ k = .volume (.root deployment.rootfs.id) ∨
      k = .file (.rootfsSignature deployment.rootfs.id) ∨
      k = .file (.rootfsHash deployment.rootfs.id) ∨ k = .file (.supportImg deployment.kernel.id) ∨
      k = .volume (.support deployment.kernel.id) ∨
      k = .file (.supportSignature deployment.kernel.id) ∨
      k = .file (.supportHash deployment.kernel.id) ∨ k = .file (.bootItb deployment.kernel.id) ∨
      k = .volume (.kernel deployment.kernel.id) ∨ k = .file (.uki deployment.kernel.id) ∨
      k = .file (.descriptor id) := by
  rcases h with ⟨f, hf, rfl⟩ | ⟨h, hh, rfl⟩ | rfl
  · simp only [objectPaths, largeObject, List.mem_cons, List.not_mem_nil, or_false] at hf
    rcases hf with rfl | rfl | rfl | rfl | rfl
    · dsimp only; split <;> simp [Place.item]
    · simp [Place.item]
    · dsimp only; split <;> simp [Place.item]
    · simp [Place.item]
    · dsimp only; split
      · split <;> simp [Place.item]
      · simp [Place.item]
  · simp only [rootHashes, List.mem_cons, List.not_mem_nil, or_false] at hh
    rcases hh with rfl | rfl <;> simp
  · simp

theorem Refers.scratch : k.scratch = false := by
  rcases h.item with rfl | rfl | rfl | rfl | rfl | rfl | rfl | rfl | rfl | rfl | rfl | rfl <;> rfl

theorem Refers.componentOf : componentOf k = none := by
  rcases h.item with rfl | rfl | rfl | rfl | rfl | rfl | rfl | rfl | rfl | rfl | rfl | rfl <;> rfl

theorem Refers.ne_setEnvelope {set : Text} : k ≠ .file (.setEnvelope set) := by
  rcases h.item with rfl | rfl | rfl | rfl | rfl | rfl | rfl | rfl | rfl | rfl | rfl | rfl <;> simp

theorem Refers.not_removable {keep : Keep} (hid : id ∈ keep.retained)
    (hroot : deployment.rootfs.id ∈ keep.roots) (hkernel : deployment.kernel.id ∈ keep.kernels) :
    keep.removable k = false := by
  rcases h.item with rfl | rfl | rfl | rfl | rfl | rfl | rfl | rfl | rfl | rfl | rfl | rfl <;>
    simp [Keep.removable, Path.parent, Keep.objectDir, hid, hroot, hkernel]

end

section

variable {store : Store} {u v : Device}

theorem Installed.of_lookup {id : Text} (h : Installed store u id)
    (hfit : v.boot.isFit = u.boot.isFit) (hubi : v.boot.isUbi = u.boot.isUbi)
    (hitems : ∀ bytes deployment k, store.trust.authenticateDeployment bytes = .ok deployment →
      u.items.lookup (.file (.descriptor id)) = some bytes → Refers u.boot deployment id k →
      Has k u → v.items.lookup k = u.items.lookup k) : Installed store v id := by
  obtain ⟨bytes, deployment, hauth, hid, hcomplete⟩ := h
  have hkeep := fun k ↦ hitems bytes deployment k hauth hcomplete.descriptor
  refine ⟨bytes, deployment, hauth, hid, fun f hf ↦ ?_, fun x hx ↦ ?_, ?_⟩
  · rw [objectPaths_congr hfit hubi] at hf
    have hhas := hcomplete.objects f hf
    rw [Has, hkeep _ (.inl ⟨f, hf, rfl⟩) hhas]
    exact hhas
  · have hhas := hcomplete.hashes x hx
    rw [Has, hkeep _ (.inr (.inl ⟨x, hx, rfl⟩)) hhas]
    exact hhas
  · rw [hkeep _ (.inr (.inr rfl)) (by rw [Has, hcomplete.descriptor]; rfl), hcomplete.descriptor]

theorem Installed.of_same {id : Text} (h : Installed store u id)
    (hfit : v.boot.isFit = u.boot.isFit) (hubi : v.boot.isUbi = u.boot.isUbi)
    (hitems : SameItems u.items v.items) : Installed store v id :=
  h.of_lookup hfit hubi fun _ _ k _ _ hk _ ↦ hitems k hk.scratch

theorem EntriesInstalled.of_adds (h : EntriesInstalled store u) (hadds : Adds u v) :
    EntriesInstalled store v := by
  intro r hr
  rw [hadds.boot_eq] at hr
  refine (h r hr).of_lookup (by rw [hadds.boot_eq]) (by rw [hadds.boot_eq]) fun _ _ k _ _ hk hhas ↦ ?_
  obtain ⟨bytes, hb⟩ := Option.isSome_iff_exists.1 hhas
  rw [hb, hadds.lookup hk.scratch hb]

theorem EntriesInstalled.of_held (h : EntriesInstalled store u)
    (hheld : ∀ r ∈ v.boot.held, ∃ r' ∈ u.boot.held, r'.id = r.id)
    (hfit : v.boot.isFit = u.boot.isFit) (hubi : v.boot.isUbi = u.boot.isUbi)
    (hitems : SameItems u.items v.items) : EntriesInstalled store v := by
  intro r hr
  obtain ⟨r', hr', hid⟩ := hheld r hr
  exact hid ▸ (h r' hr').of_same hfit hubi hitems

theorem EntriesInstalled.of_same (h : EntriesInstalled store u) (hboot : v.boot = u.boot)
    (hitems : SameItems u.items v.items) : EntriesInstalled store v :=
  h.of_held (fun r hr ↦ ⟨r, hboot ▸ hr, rfl⟩) (by rw [hboot]) (by rw [hboot]) hitems

theorem EntriesInstalled.of_drops {s t : Device} {receipt : BootReceipt} {retained : List Text}
    {incoming : Option Deployment} {c : Collection}
    (hc : store.collection s receipt retained incoming = .ok c)
    (ht : ∀ k, k.scratch = false → t.items.lookup k = s.items.lookup k)
    (hretained : ∀ r ∈ t.boot.held, r.id ∈ retained) (htu : Drops c t u) (huv : Drops c u v)
    (h : EntriesInstalled store u) : EntriesInstalled store v := by
  obtain ⟨keep, hremovable, hkeep, hread⟩ := store.removable_of_collection hc
  intro r hr
  rw [huv.boot_eq] at hr
  have hid : r.id ∈ retained := hretained r (htu.boot_eq ▸ hr)
  obtain ⟨bytes, deployment, hlook, hauth, hroot, hkernel⟩ := hread r.id hid
  have hspared : ∀ k, Refers u.boot deployment r.id k → k ∉ c.items := fun k hk hmem ↦ by
    have := hremovable k hmem
    rw [hk.not_removable (hkeep ▸ hid) hroot hkernel] at this
    cases this
  have hdescriptor : u.items.lookup (.file (.descriptor r.id)) = some bytes := by
    rw [htu.lookup (hspared _ (.inr (.inr rfl))), ht _ rfl, hlook]
  refine (h r hr).of_lookup (by rw [huv.boot_eq]) (by rw [huv.boot_eq])
    fun bytes' deployment' k hauth' hlook' hk _ ↦ ?_
  obtain rfl : bytes = bytes' := by simpa [hdescriptor] using hlook'
  obtain rfl : deployment = deployment' := by simpa [hauth] using hauth'
  exact huv.lookup (hspared k hk)

end

section

variable {store : Store} {s u v : Device}

theorem EntriesInstalled.of_tried {id : Text} {tries : Option (Fin 4)} {b : BootRecords}
    (hs : EntriesInstalled store s) (hb : Kept s.boot b ∨ Tried id tries s.boot b)
    (run : Option Running) : EntriesInstalled store { s with boot := b, run := run } := by
  rcases hb with hb | hb
  · exact hs.of_held (fun r hr ↦ ⟨r, hb.held hr, rfl⟩) hb.isFit hb.isUbi (.refl _)
  · exact hs.of_held hb.held hb.isFit hb.isUbi (.refl _)

variable (hu : EntriesInstalled store u)

include hu

theorem ConfirmWrite.entriesInstalled {plan : Store.Confirmation} (hs : EntriesInstalled store s)
    (h : ConfirmWrite plan s u v) : EntriesInstalled store v := by
  cases h with
  | adds h => exact hu.of_adds h
  | tries _ _ hb => exact hs.of_tried hb _
  | save _ hi hi' => exact hu.of_same rfl (hi.both hi')
  | retain htried hi _ hret _ =>
    exact hs.of_held (fun r hr ↦ htried.held r (hret.held hr)) (hret.isFit.trans htried.isFit)
      (hret.isUbi.trans htried.isUbi) hi

theorem RejectWrite.entriesInstalled {plan : Rejection} (hs : EntriesInstalled store s)
    (h : RejectWrite plan s u v) : EntriesInstalled store v := by
  cases h with
  | adds h => exact hu.of_adds h
  | tries _ _ hb => exact hs.of_tried hb _
  | save _ hi hi' => exact hu.of_same rfl (hi.both hi')

variable {receipt : BootReceipt}

theorem CollectWrite.entriesInstalled (hs : EntriesInstalled store s)
    (h : CollectWrite store receipt s u v) : EntriesInstalled store v := by
  cases h with
  | retain _ _ hb _ =>
    exact hs.of_held (fun r hr ↦ ⟨r, hb.held hr, rfl⟩) hb.isFit hb.isUbi (.refl _)
  | @drops entries retained c b _ _ _ hc hretained _ hheld htu huv =>
    refine hu.of_drops (t := { s with boot := b }) hc (fun _ _ ↦ rfl) (fun r hr ↦ ?_) htu huv
    obtain ⟨e, he, hid⟩ : ∃ e ∈ entries, e.id = r.id := by simpa [keeps] using hheld r hr
    exact hid ▸ hretained e he

theorem InstallWrite.entriesInstalled {plan : Installation} {envelope : Bytes}
    (hseen : plan.Seen store envelope receipt s) (hs : EntriesInstalled store s)
    (h : InstallWrite store plan receipt.deploymentId envelope s u v) :
    EntriesInstalled store v := by
  cases h with
  | adds h => exact hu.of_adds h
  | retain _ hb _ =>
    exact hs.of_held (fun r hr ↦ ⟨r, hb.held hr, rfl⟩) hb.isFit hb.isUbi (.refl _)
  | save _ hi hi' => exact hu.of_same rfl (hi.both hi')
  | @drops b i _ _ hret hi htu huv =>
    refine hu.of_drops (t := { s with boot := b, items := i, data := some plan.retainedState })
      hseen.collection hi (fun r hr ↦ ?_) htu huv
    simpa [keeps] using hret.held r hr
  | name _ _ hw _ _ hi =>
    subst hw
    exact hu.of_same rfl hi
  | @insert b b' b'' i i' held cores _ hret _ hw _ hcomplete hb' hb'' hi =>
    subst hw
    -- every entry the retained copies hold was installed before
    have hold : ∀ r ∈ b.held, Installed store { s with
        boot := b, data := some plan.retainedState, items := i, sets := some cores } r.id := by
      intro r hr
      have hid : r.id = receipt.deploymentId := by simpa [keeps] using hret.held r hr
      obtain ⟨e, he, heid, -⟩ := hseen.running
      have hview : e ∈ b'.view := by
        rw [hb'.view]
        refine hret.retaining.kept e ((BootRecords.mem_view_of_mem_entries hseen.entries).1 he) ?_
        simp [keeps, heid]
      rw [hid, ← heid]
      exact (hu e (BootRecords.view_subset_held b' hview)).of_same hb'.isFit.symm hb'.isUbi.symm
        (.refl _)
    have hcons : ∀ (c : BootRecords), c.isFit = b.isFit → c.isUbi = b.isUbi →
        (∀ r ∈ c.held, r = plan.record ∨ r ∈ b.held) → EntriesInstalled store { s with
          boot := c, data := some plan.retainedState, items := i', sets := some cores } := by
      intro c hfit hubi hheld r hr
      rcases hheld r hr with rfl | hr
      · refine ⟨envelope, plan.deployment, hseen.authentic, hseen.id_eq.symm, ?_⟩
        have hfiles : objectPaths c plan.deployment = plan.files := by
          rw [hseen.files]
          exact objectPaths_congr (hfit.trans hret.retaining.isFit) (hubi.trans hret.retaining.isUbi) _
        change Complete (objectPaths c plan.deployment) _ _ _ _
        rw [hfiles]
        exact hcomplete.of_same hi
      · exact (hold r hr).of_same hfit hubi hi
    rcases hb'' with hb'' | hb''
    · exact hcons b'' hb''.isFit hb''.isUbi fun r hr ↦ .inr (hb''.held hr)
    · exact hcons b'' hb''.isFit hb''.isUbi hb''.held
  | final _ _ _ hw _ hi =>
    subst hw
    exact hu.of_same rfl hi

theorem SettleWrite.entriesInstalled {booted : Text} {boot : CoreBoot}
    (h : SettleWrite store booted boot s u v) : EntriesInstalled store v := by
  cases h with
  | adds h => exact hu.of_adds h
  | sets _ _ _ _ hi hi' => exact hu.of_same rfl (hi.both hi')
  | trial => exact hu.of_same rfl (.refl _)
  | envelope =>
    exact fun r hr ↦ (hu r hr).of_lookup rfl rfl fun _ _ k _ _ hk _ ↦
      AList.lookup_erase_ne hk.ne_setEnvelope
  | release _ _ _ _ _ h =>
    obtain ⟨k', id, hk', -, rfl, -⟩ := h
    refine fun r hr ↦ (hu r hr).of_lookup rfl rfl fun _ _ k _ _ hk _ ↦ AList.lookup_erase_ne ?_
    rintro rfl
    rw [hk.componentOf] at hk'
    cases hk'

theorem BootWrite.entriesInstalled {id : Text} (hs : EntriesInstalled store s)
    (h : BootWrite store id receipt s u v) : EntriesInstalled store v := by
  cases h with
  | adds h => exact hu.of_adds h
  | stop => exact hu.of_same rfl (.refl _)
  | count _ _ _ _ _ _ hb => exact hs.of_tried hb none
  | spend _ _ h =>
    obtain ⟨_, _, _, _, -, -, hi, hi', rfl, rfl⟩ := h
    exact hu.of_same rfl (hi.both hi')
  | run _ _ _ hv =>
    subst hv
    exact hu.of_same rfl (.refl _)

theorem InstallSetWrite.entriesInstalled {envelope : Bytes} {set : UpdateSet} {state : SetState}
    (h : InstallSetWrite store envelope set state s u v) : EntriesInstalled store v := by
  cases h with
  | adds h => exact hu.of_adds h
  | trial _ hi hv | name _ _ _ _ hi hv =>
    subst hv
    exact hu.of_same rfl hi

theorem CommandWrite.entriesInstalled {op : Command} (hs : EntriesInstalled store s)
    (h : CommandWrite store s op u v) : EntriesInstalled store v := by
  cases h with
  | install _ hseen h => exact h.entriesInstalled hu hseen hs
  | installSet _ h => exact h.entriesInstalled hu
  | confirm _ _ h | confirmation _ _ h => exact h.entriesInstalled hu hs
  | settle _ h | settlement _ _ _ h => exact h.entriesInstalled hu
  | reject _ h | rollback _ _ h => exact h.entriesInstalled hu hs
  | failBoot _ h | retire h =>
    cases h with
    | tries _ _ _ _ _ _ _ _ hb => exact hs.of_tried hb _
  | collect _ h | boot h => exact h.entriesInstalled hu hs
  | reset => exact hu.of_same rfl (.refl _)

end

/-- In every run, every entry of either copy has all it refers to. -/
theorem entriesInstalled_of_run (store : Store) {s t : Device} {es : List (Event Command Device)}
    (hs : EntriesInstalled store s) (hrun : Run store.exec (fun _ _ ↦ True) s es t) :
    ∀ u ∈ s :: states es, EntriesInstalled store u :=
  Store.run_invariant (fun hs _ h hu ↦ h.entriesInstalled hu hs) hs hrun

theorem Sample.entriesInstalled_device : EntriesInstalled Sample.store Sample.device := by
  intro r hr
  obtain rfl : r = ⟨Sample.hexId 1, Sample.hexId 12, 1, none⟩ := by
    simpa [Sample.device, BootRecords.held] using hr
  exact ⟨[1], Sample.deployment 1 none, by decide, by decide,
    ⟨by decide, by decide, by decide⟩⟩

theorem entriesInstalled_of_run_updatedTwice : EntriesInstalled Sample.store
    ((states (Run.play Sample.store.exec Sample.device Sample.updatedTwice)).getLastD Sample.device) :=
  have hrun := Run.of_play Sample.store.exec (fun _ _ ↦ True) Sample.device Sample.updatedTwice
    fun _ _ ↦ trivial
  entriesInstalled_of_run Sample.store Sample.entriesInstalled_device hrun _ hrun.end_mem

end MicaCore.Deploy
