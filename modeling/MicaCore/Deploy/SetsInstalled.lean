import MicaCore.Deploy.OneTrial

namespace MicaCore.Deploy

open Data Crash Prog

/-- The signed envelope of a set is there, and every object it lists. -/
def SetInstalled (store : Store) (d : Device) (id : Text) : Prop :=
  ∃ envelope set, store.trust.authenticateSet envelope = .ok set ∧ store.trust.setId set = id ∧
    SetComplete store.trust set envelope d

/-- Every named set is installed, and no component's file is outside its directory. -/
structure SetsInstalled (store : Store) (d : Device) : Prop where
  named : ∀ id ∈ d.names.named, SetInstalled store d id
  rooted : Rooted d.items

/-- An item that sets alone have: an envelope, or part of a component. -/
def OfSet (k : Item) : Prop :=
  k.scratch = false ∧ ((∃ id, k = .file (.setEnvelope id)) ∨ (componentOf k).isSome = true)

theorem not_removable_of_ofSet {k : Item} (hk : OfSet k) (keep : Keep) :
    keep.removable k = false := by
  obtain ⟨hscratch, ⟨id, rfl⟩ | hc⟩ := hk
  · rfl
  · cases k with
    | dir dir => cases dir <;> simp_all [componentOf, Keep.removable, Keep.objectDir]
    | file p => cases p <;> simp_all [componentOf, Path.parent, Keep.removable, Keep.objectDir]
    | volume v => cases v <;> simp_all [componentOf, Keep.removable]
    | temporary | pendingVolume => cases hscratch

theorem componentOf_of_setObjects {b : BootRecords} {set : UpdateSet} {f : Place × Artifact}
    (h : f ∈ setObjects b set) : ∃ core ∈ set.components, componentOf f.1.item = some core.id := by
  obtain ⟨core, hcore, hf⟩ := List.mem_flatMap.1 h
  refine ⟨core, hcore, ?_⟩
  simp only [largeObject, List.mem_cons, List.not_mem_nil, or_false] at hf
  rcases hf with rfl | rfl
  · dsimp only
    split <;> rfl
  · rfl

structure SetItemsKept (u v : Device) : Prop where
  isUbi : v.boot.isUbi = u.boot.isUbi
  items : ∀ k, OfSet k → v.items.lookup k = u.items.lookup k

/-- It adds, changes nothing, or removes what no named set has or lists. -/
inductive ItemWrite (store : Store) (u v : Device) : Prop
  | adds : Adds u v → ItemWrite store u v
  | kept : SetItemsKept u v → ItemWrite store u v
  | forget {id : Text} : id ∉ u.names.named → v = u.remove (.file (.setEnvelope id)) →
      ItemWrite store u v
  | release {kept : List Text} : store.heldComponents u = .ok kept → Releases kept u v →
      ItemWrite store u v

theorem SameItems.setItemsKept {u v : Device} (h : SameItems u.items v.items)
    (hubi : v.boot.isUbi = u.boot.isUbi) : SetItemsKept u v :=
  ⟨hubi, fun k hk ↦ h k hk.1⟩

theorem setItemsKept_of_eq {u v : Device} (h : v.items = u.items) (hubi : v.boot.isUbi = u.boot.isUbi) :
    SetItemsKept u v :=
  ⟨hubi, fun _ _ ↦ by rw [h]⟩

section

variable {store : Store} {s t u v : Device}

variable {receipt : BootReceipt}

theorem Drops.setItemsKept {retained : List Text} {incoming : Option Deployment} {c : Collection}
    (hc : store.collection s receipt retained incoming = .ok c) (h : Drops c u v) :
    SetItemsKept u v := by
  obtain ⟨keep, hremovable, -⟩ := store.removable_of_collection hc
  refine ⟨by rw [h.boot_eq], fun k hk ↦ h.lookup fun hmem ↦ ?_⟩
  have hnot := hremovable k hmem
  rw [not_removable_of_ofSet hk keep] at hnot
  cases hnot

variable {envelope : Bytes}

theorem InstallWrite.items {plan : Installation} (hseen : plan.Seen store envelope receipt s)
    (h : InstallWrite store plan receipt.deploymentId envelope s u v) : ItemWrite store u v := by
  cases h with
  | adds h => exact .adds h
  | retain hb hb' _ => exact .kept (setItemsKept_of_eq rfl (hb'.isUbi.trans hb.isUbi.symm))
  | save _ hi hi' => exact .kept ((hi.both hi').setItemsKept rfl)
  | drops _ _ _ h => exact .kept (h.setItemsKept hseen.collection)
  | name _ _ hw _ _ hi =>
    subst hw
    exact .kept (hi.setItemsKept rfl)
  | insert _ _ hw _ _ hb' hb'' hi =>
    subst hw
    refine .kept (hi.setItemsKept ?_)
    rcases hb'' with hb'' | hb''
    · exact hb''.isUbi.trans hb'.isUbi.symm
    · exact hb''.isUbi.trans hb'.isUbi.symm
  | final _ _ _ hw _ hi =>
    subst hw
    exact .kept (hi.setItemsKept rfl)

variable {state : SetState}

theorem InstallSetWrite.items {set : UpdateSet}
    (h : InstallSetWrite store envelope set state s u v) : ItemWrite store u v := by
  cases h with
  | adds h => exact .adds h
  | trial _ hi hv | name _ _ _ _ hi hv =>
    subst hv
    exact .kept (hi.setItemsKept rfl)

variable {id : Text}

theorem setItemsKept_tried {tries : Option (Fin 4)} {b b' : BootRecords} (hb : Kept s.boot b)
    (hb' : Kept s.boot b' ∨ Tried id tries s.boot b') (run : Option Running) :
    SetItemsKept { s with boot := b, run := run } { s with boot := b', run := run } := by
  refine setItemsKept_of_eq rfl ?_
  rcases hb' with hb' | hb'
  · exact hb'.isUbi.trans hb.isUbi.symm
  · exact hb'.isUbi.trans hb.isUbi.symm

theorem ConfirmWrite.items {plan : Store.Confirmation} (h : ConfirmWrite plan s u v) :
    ItemWrite store u v := by
  cases h with
  | adds h => exact .adds h
  | tries _ hb hb' => exact .kept (setItemsKept_tried hb hb' s.run)
  | save _ hi hi' => exact .kept ((hi.both hi').setItemsKept rfl)
  | retain _ _ hb hb' _ =>
    exact .kept (setItemsKept_of_eq rfl (hb'.isUbi.trans hb.isUbi.symm))

theorem RejectWrite.items {plan : Rejection} (h : RejectWrite plan s u v) :
    ItemWrite store u v := by
  cases h with
  | adds h => exact .adds h
  | tries _ hb hb' => exact .kept (setItemsKept_tried hb hb' s.run)
  | save _ hi hi' => exact .kept ((hi.both hi').setItemsKept rfl)

theorem RetireWrite.items (h : RetireWrite id s u v) : ItemWrite store u v := by
  cases h with
  | tries _ _ _ _ _ _ _ hb hb' => exact .kept (setItemsKept_tried hb hb' s.run)

theorem CollectWrite.items (h : CollectWrite store receipt s u v) : ItemWrite store u v := by
  cases h with
  | retain _ hb hb' _ => exact .kept (setItemsKept_of_eq rfl (hb'.isUbi.trans hb.isUbi.symm))
  | drops _ hc _ _ _ _ h => exact .kept (h.setItemsKept hc)

theorem BootWrite.items (h : BootWrite store id receipt s u v) : ItemWrite store u v := by
  cases h with
  | adds h => exact .adds h
  | stop => exact .kept (setItemsKept_of_eq rfl rfl)
  | count _ _ _ _ _ hb hb' => exact .kept (setItemsKept_tried hb hb' none)
  | spend _ _ h =>
    obtain ⟨_, _, _, _, -, -, hi, hi', rfl, rfl⟩ := h
    exact .kept ((hi.both hi').setItemsKept rfl)
  | run _ _ _ hv =>
    subst hv
    exact .kept (setItemsKept_of_eq rfl rfl)

theorem Released.heldComponents_eq {kept : List Text} (h : Released kept s t) :
    store.heldComponents t = store.heldComponents s := by
  obtain ⟨i, rfl⟩ := h.only
  have hread : ∀ id, store.setComponents { s with items := i } id = store.setComponents s id := by
    intro id
    have hspared := h.spared (.file (.setEnvelope id)) (fun _ hid ↦ by cases hid)
    simp only [Store.setComponents, Device.readBounded]
    rw [hspared]
  have hfun : store.setComponents { s with items := i } = store.setComponents s := funext hread
  rw [Store.heldComponents, Store.heldComponents, hfun]
  rfl

theorem Settling.names_eq {held : SetState} (h : Settling held state s u) : u.names = state := by
  obtain ⟨trial, i, rfl, -⟩ := h.form
  rfl

theorem SettleWrite.items {booted : Text} {boot : CoreBoot} (h : SettleWrite store booted boot s u v) :
    ItemWrite store u v := by
  cases h with
  | adds h => exact .adds h
  | sets _ _ _ _ hi hi' => exact .kept ((hi.both hi').setItemsKept rfl)
  | trial => exact .kept (setItemsKept_of_eq rfl rfl)
  | envelope _ _ hsettling hid =>
    refine .forget ?_ rfl
    rw [hsettling.names_eq]
    simpa using (List.mem_filter.1 hid).2
  | release _ _ _ hkept hrel h => exact .release (hrel.heldComponents_eq ▸ hkept) h

variable {op : Command}

theorem CommandWrite.items (h : CommandWrite store s op u v) : ItemWrite store u v := by
  cases h with
  | install _ hseen h => exact h.items hseen
  | installSet _ h => exact h.items
  | confirm _ _ h | confirmation _ _ h => exact h.items
  | settle _ h | settlement _ _ _ h => exact h.items
  | reject _ h | rollback _ _ h => exact h.items
  | failBoot _ h | retire h => exact h.items
  | collect _ h | boot h => exact h.items
  | reset => exact .kept (setItemsKept_of_eq rfl rfl)

theorem SetInstalled.of_lookup (h : SetInstalled store u id) (hubi : v.boot.isUbi = u.boot.isUbi)
    (henvelope : ∀ bytes, u.items.lookup (.file (.setEnvelope id)) = some bytes →
      v.items.lookup (.file (.setEnvelope id)) = some bytes)
    (hitems : ∀ envelope set core k, u.items.lookup (.file (.setEnvelope id)) = some envelope →
      store.trust.authenticateSet envelope = .ok set → core ∈ set.components → OfSet k →
      componentOf k = some core.id → Has k u → Has k v) : SetInstalled store v id := by
  obtain ⟨envelope, set, hauth, rfl, hcomplete⟩ := h
  have hkept := fun core k ↦ hitems envelope set core k hcomplete.envelope hauth
  refine ⟨envelope, set, hauth, rfl, fun f hf ↦ ?_, fun core hcore ↦ ?_,
    henvelope _ hcomplete.envelope⟩
  · rw [setObjects_congr hubi] at hf
    obtain ⟨core, hcore, hof⟩ := componentOf_of_setObjects hf
    exact hkept core _ hcore ⟨f.1.scratch_item, .inr (by rw [hof]; rfl)⟩ hof (hcomplete.objects f hf)
  · exact hkept core _ hcore ⟨rfl, .inr rfl⟩ rfl (hcomplete.hashes core hcore)

theorem SetInstalled.of_adds (h : SetInstalled store u id) (hadds : Adds u v) :
    SetInstalled store v id :=
  h.of_lookup (by rw [hadds.boot_eq]) (fun _ hb ↦ hadds.lookup rfl hb)
    fun _ _ _ _ _ _ _ hk _ hhas ↦ hadds.has hk.1 hhas

theorem SetInstalled.of_kept (h : SetInstalled store u id) (hkept : SetItemsKept u v) :
    SetInstalled store v id := by
  refine h.of_lookup hkept.isUbi (fun _ hb ↦ ?_) fun _ _ _ _ _ _ _ hk _ hhas ↦ ?_
  · rw [hkept.items _ ⟨rfl, .inl ⟨_, rfl⟩⟩, hb]
  · rwa [Has, hkept.items _ hk]

theorem SetItemsKept.rooted (h : SetItemsKept u v) (hu : Rooted u.items) : Rooted v.items := by
  intro p id hp hf
  have hcomponent : componentOf (.file p) = some id := by simp [componentOf, hp]
  rw [h.items _ ⟨rfl, .inr (by rw [hcomponent]; rfl)⟩] at hf
  rw [h.items _ ⟨rfl, .inr rfl⟩]
  exact hu p id hp hf

theorem mem_heldComponents {kept : List Text} {set : UpdateSet}
    {core : CoreComponent} (h : store.heldComponents u = .ok kept) (hid : id ∈ u.names.named)
    (henvelope : u.items.lookup (.file (.setEnvelope id)) = some envelope)
    (hauth : store.trust.authenticateSet envelope = .ok set) (hcore : core ∈ set.components) :
    core.id ∈ kept := by
  simp only [Store.heldComponents, bind_eq_ok, pure_eq_ok] at h
  obtain ⟨state, hstate, lists, hlists, rfl⟩ := h
  obtain ⟨rfl, -⟩ := Device.readState_eq_ok.1 hstate
  obtain ⟨list, hlist, hread⟩ := (exists_of_mapM_eq_ok hlists).1 id hid
  simp only [Store.setComponents, Device.readBounded, bind_eq_ok, pure_eq_ok, orError_eq_ok,
    henvelope, Option.some.injEq] at hread
  obtain ⟨_, ⟨_, rfl, _, _, rfl⟩, set', hauth', rfl⟩ := hread
  obtain rfl : set = set' := by simpa [hauth] using hauth'
  exact List.mem_flatten.2 ⟨_, hlist, List.mem_map_of_mem hcore⟩

theorem ItemWrite.setInstalled (h : ItemWrite store u v) (hid : id ∈ v.names.named)
    (hu : SetInstalled store u id) : SetInstalled store v id := by
  cases h with
  | adds h => exact hu.of_adds h
  | kept h => exact hu.of_kept h
  | @forget id' hnot hv =>
    subst hv
    have hne : id ≠ id' := by
      rintro rfl
      exact hnot hid
    refine hu.of_lookup rfl (fun bytes hb ↦ ?_) fun _ _ _ k _ _ _ _ hk hhas ↦ ?_
    · exact (AList.lookup_erase_ne (by simpa using hne)).trans hb
    · refine has_remove.2 ⟨?_, hhas⟩
      rintro rfl
      cases hk
  | @release kept hkept h =>
    obtain ⟨k', core', hk', hnot, rfl, -⟩ := h
    refine hu.of_lookup rfl (fun bytes hb ↦ ?_)
      fun envelope set core k henv hauth hcore _ hk hhas ↦ ?_
    · refine (AList.lookup_erase_ne ?_).trans hb
      rintro rfl
      cases hk'
    · refine has_remove.2 ⟨?_, hhas⟩
      rintro rfl
      obtain rfl : core.id = core' := by simpa [hk] using hk'
      exact hnot (mem_heldComponents hkept hid henv hauth hcore)

theorem ItemWrite.rooted (h : ItemWrite store u v) (hu : Rooted u.items) : Rooted v.items := by
  cases h with
  | adds h =>
    obtain ⟨i, rfl, -, hrooted⟩ := h
    exact hrooted hu
  | kept h => exact h.rooted hu
  | forget _ hv =>
    subst hv
    exact hu.erase fun _ _ hk ↦ by cases hk
  | release _ h =>
    obtain ⟨_, _, _, _, rfl, hrooted⟩ := h
    exact hrooted hu

theorem SetState.mem_named_filter {pair pending : Option Text} {p : Text → Text → Bool} {x : Text}
    (h : x ∈ { state with pair := pair, pending := pending, bound := state.bound.filter p }.named) :
    pending = some x ∨ x ∈ state.named := by
  rcases SetState.mem_named.1 h with h | h | ⟨deployment, h⟩
  · exact .inr (SetState.mem_named.2 (.inl h))
  · exact .inl h
  · exact .inr (SetState.mem_named.2 (.inr (.inr ⟨deployment, (OrdMap.get_filter_eq_some.1 h).1⟩)))

theorem NameWrite.named (h : NameWrite store s op u v)
    (hid : id ∈ v.names.named) : id ∈ u.names.named ∨ SetInstalled store u id := by
  have hsame : v.sets = u.sets → id ∈ u.names.named := by
    intro h
    rwa [Device.names, ← h]
  cases h with
  | same h _ | stop h _ => exact .inl (hsame h)
  | boot _ _ _ hv => exact .inl (hsame (by rw [hv]))
  | @install _ r plan held cores _ _ _ hseen _ hheld hsets _ hnamed _ hv =>
    subst hv
    rw [Device.names_of_readState hheld hsets]
    obtain ⟨_, _, _, hchoice⟩ := hseen.choice
    cases hnamed with
    | keep _ =>
      rcases SetState.mem_named_filter hid with hp | hid
      · exact .inl (SetState.mem_named.2 (.inr (.inl hp)))
      · exact .inl hid
    | pair hpair hcomplete =>
      have hnewer := Store.newerSet_of_coreChoice hheld (hpair ▸ hchoice)
      rcases SetState.mem_named_filter hid with hp | hid
      · cases hp
        exact .inr ⟨_, _, hnewer.authentic, hnewer.id_eq.symm, hcomplete⟩
      · exact .inl hid
  | installSet hseen hcomplete _ hsets _ _ hv =>
    subst hv
    rw [Device.names_of_readState hseen.read hsets]
    rcases SetState.mem_named_filter hid with hp | hid
    · cases hp
      exact .inr ⟨_, _, hseen.authentic, rfl, hcomplete⟩
    · exact .inl hid
  | settle _ _ hheld hsettle _ _ _ hsets hv =>
    subst hv
    rw [Device.names_of_readState hheld hsets]
    obtain ⟨held', retained, hheld', -, -, rfl⟩ := Device.settlement_eq_ok hsettle
    rw [hheld] at hheld'
    cases hheld'
    exact .inl (SetState.named_settle_subset hid)

theorem CommandWrite.setsInstalled (hu : SetsInstalled store u)
    (h : CommandWrite store s op u v) : SetsInstalled store v where
  named id hid := by
    rcases h.names.named hid with hid' | hinstalled
    · exact h.items.setInstalled hid (hu.named id hid')
    · exact h.items.setInstalled hid hinstalled
  rooted := h.items.rooted hu.rooted

end

/-- In every run, every named set has its envelope and all it lists. -/
theorem setsInstalled_of_run (store : Store) {s t : Device} {es : List (Event Command Device)}
    (hs : SetsInstalled store s) (hrun : Run store.exec (fun _ _ ↦ True) s es t) :
    ∀ u ∈ s :: states es, SetsInstalled store u :=
  Store.run_invariant (fun _ _ h hu ↦ h.setsInstalled hu) hs hrun

end MicaCore.Deploy
