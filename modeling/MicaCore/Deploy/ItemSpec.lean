import MicaCore.Deploy.Install

namespace MicaCore.Deploy

open Data Crash Prog

def Grows (items items' : AList fun _ : Item ↦ Bytes) : Prop :=
  ∀ k : Item, k.scratch = false → ∀ bytes, items.lookup k = some bytes →
    items'.lookup k = some bytes

theorem Grows.refl (items : AList fun _ : Item ↦ Bytes) : Grows items items := fun _ _ _ h ↦ h

variable {items items' : AList fun _ : Item ↦ Bytes}

theorem Grows.trans {items'' : AList fun _ : Item ↦ Bytes}
    (h : Grows items items') (h' : Grows items' items'') : Grows items items'' :=
  fun k hk bytes hb ↦ h' k hk bytes (h k hk bytes hb)

theorem SameItems.grows (h : SameItems items items') :
    Grows items items' := fun k hk _ hb ↦ (h k hk).trans hb

variable {k : Item}

theorem grows_insert (hk : items.lookup k = none) (bytes : Bytes) :
    Grows items (items.insert k bytes) := by
  intro k' _ bytes' hb
  have hne : k' ≠ k := by rintro rfl; simp [hk] at hb
  rw [AList.lookup_insert_ne hne, hb]

def Rooted (items : AList fun _ : Item ↦ Bytes) : Prop :=
  ∀ (p : Path) (id : Text), p.parent = some (.component id) →
    (items.lookup (.file p)).isSome → (items.lookup (.dir (.component id))).isSome

def Adds (u v : Device) : Prop :=
  ∃ items, v = { u with items := items } ∧ Grows u.items items ∧ (Rooted u.items → Rooted items)

theorem Adds.refl (u : Device) : Adds u u := ⟨u.items, rfl, .refl _, id⟩

variable {u v : Device}

theorem Adds.trans {w : Device} (h : Adds u v) (h' : Adds v w) : Adds u w := by
  obtain ⟨i, rfl, hi, hroot⟩ := h
  obtain ⟨i', rfl, hi', hroot'⟩ := h'
  exact ⟨i', rfl, hi.trans hi', hroot' ∘ hroot⟩

variable {bytes : Bytes}

theorem Adds.lookup (h : Adds u v) (hk : k.scratch = false)
    (hb : u.items.lookup k = some bytes) : v.items.lookup k = some bytes := by
  obtain ⟨i, rfl, hi, -⟩ := h
  exact hi k hk bytes hb

theorem SameItems.rooted (h : SameItems items items') (hr : Rooted items) : Rooted items' := by
  intro p id hp hf
  rw [h (.file p) rfl] at hf
  rw [h (.dir (.component id)) rfl]
  exact hr p id hp hf

theorem SameItems.adds (h : SameItems u.items items) : Adds u { u with items := items } :=
  ⟨items, rfl, h.grows, h.rooted⟩

theorem adds_put_scratch (u : Device) (hk : k.scratch = true) (bytes : Bytes) :
    Adds u (u.put k bytes) := (sameItems_insert hk bytes).adds

theorem adds_remove_scratch (u : Device) (hk : k.scratch = true) :
    Adds u (u.remove k) := (sameItems_erase hk).adds

theorem isSome_lookup_insert {k' : Item}
    (h : (items.lookup k').isSome) : ((items.insert k bytes).lookup k').isSome := by
  by_cases hk : k' = k
  · subst hk; simp
  · rwa [AList.lookup_insert_ne hk]

theorem adds_put (hk : u.items.lookup k = none)
    (hdir : ∀ p id, k = .file p → p.parent = some (.component id) →
      (u.items.lookup (.dir (.component id))).isSome) (bytes : Bytes) : Adds u (u.put k bytes) := by
  refine ⟨_, rfl, grows_insert hk bytes, fun hr p id hp hf ↦ ?_⟩
  apply isSome_lookup_insert
  by_cases hkp : k = .file p
  · exact hdir p id hkp hp
  · rw [AList.lookup_insert_ne (Ne.symm hkp)] at hf
    exact hr p id hp hf

theorem Place.scratch_item (p : Place) : p.item.scratch = false := by cases p <;> rfl

theorem Place.scratch_pending (p : Place) : p.pending.scratch = true := by cases p <;> rfl

theorem Device.holds_eq_false {d : Device} (h : ¬ d.holds k = true) : d.items.lookup k = none := by
  simpa [Device.holds] using h

theorem Device.exists_lookup {d : Device} (h : d.holds k = true) :
    ∃ bytes, d.items.lookup k = some bytes := by
  simpa [Device.holds, Option.isSome_iff_exists] using h

variable {p : Path}

theorem lookup_eq_none_of_scratch (hp : u.items.lookup (.file p) = none) (bytes : Bytes) :
    ((u.put (.temporary p) bytes).remove (.temporary p)).items.lookup (.file p) = none := by
  rw [← hp]
  exact sameItems_erase_insert rfl bytes (.file p) rfl

theorem wp_directory (s : Device) (dir : Option Dir) :
    wp (directory dir) Adds (onOk fun _ t ↦ Adds s t ∧
      (∀ k : Item, (∀ dir', k ≠ .dir dir') → t.items.lookup k = s.items.lookup k) ∧
      ∀ dir', dir = some dir' → (t.items.lookup (.dir dir')).isSome) s := by
  unfold directory
  rw [wp_get_bind]
  cases dir with
  | none => simpa using Adds.refl s
  | some dir =>
    simp only
    split
    · next h =>
      rw [wp_pure, onOk_ok]
      refine ⟨.refl s, fun _ _ ↦ rfl, fun dir' hd ↦ ?_⟩
      cases hd
      exact Option.isSome_iff_exists.2 (Device.exists_lookup h)
    · next h =>
      have hadds := adds_put (Device.holds_eq_false h) (fun _ _ h ↦ by cases h) []
      rw [wp_write, onOk_ok]
      refine ⟨hadds, hadds, fun k hk ↦ AList.lookup_insert_ne (hk dir), fun dir' hd ↦ ?_⟩
      cases hd
      exact Option.isSome_iff_exists.2 ⟨[], AList.lookup_insert _⟩

theorem Place.item_ne_dir (p : Place) (dir : Dir) : p.item ≠ .dir dir := by
  cases p <;> simp [Place.item]

theorem Place.parent_of_item_eq {place : Place} (h : place.item = .file p) :
    place.parent = p.parent := by
  cases place with
  | file p' => cases h; rfl
  | volume v => cases h

theorem adds_rename {place : Place} (hnone : u.items.lookup place.item = none)
    (hdir : ∀ dir, place.parent = some dir → (u.items.lookup (.dir dir)).isSome) (bytes : Bytes) :
    Adds u ((u.remove place.pending).put place.item bytes) := by
  have hremove := adds_remove_scratch u place.scratch_pending
  refine hremove.trans (adds_put ?_ (fun p id hk hp ↦ ?_) bytes)
  · exact (sameItems_erase place.scratch_pending _ place.scratch_item).trans hnone
  · have hheld := hdir (.component id) (by rw [Place.parent_of_item_eq hk, hp])
    rwa [← sameItems_erase place.scratch_pending _ rfl] at hheld

variable (store : Store)

theorem Store.wp_publish (s : Device) (objects : Sources) (place : Place) (artifact : Artifact) :
    wp (store.publish objects place artifact) Adds (onOk fun _ t ↦ Adds s t ∧
      (t.items.lookup place.item).isSome) s := by
  unfold Store.publish
  rw [wp_get_bind]
  split
  · next hheld => exact wp_read_onOk fun _ _ ↦ ⟨.refl s, hheld⟩
  · next hheld =>
    refine wp_seq (wp_directory s place.parent) fun u t ⟨hst, hsame, hdir⟩ ↦ ?_
    have hnone : t.items.lookup place.item = none := by
      rw [hsame _ (place.item_ne_dir ·), Device.holds_eq_false hheld]
    rw [wp_bind]
    have hstale : wp (when (s.holds place.pending)
        (Prog.write (Device.remove place.pending)) : Op Unit) Adds
        (fun r t' ↦ r = .ok () ∧ Adds t t' ∧ SameItems t.items t'.items) t := by
      have := adds_remove_scratch t place.scratch_pending
      rw [wp_when, wp_write]
      exact ⟨fun _ ↦ ⟨this, rfl, this, sameItems_erase place.scratch_pending⟩,
        fun _ ↦ ⟨rfl, .refl t, .refl _⟩⟩
    refine wp_mono hstale (fun _ _ h ↦ h) fun r t' ht' ↦ ?_
    obtain ⟨rfl, htt', hsame'⟩ := ht'
    rw [andThen_ok]
    refine wp_ofExcept_seq fun bytes _ ↦ ?_
    have hput := adds_put_scratch t' place.scratch_pending bytes
    rw [wp_bind, wp_write, andThen_ok, wp_bind, wp_ofExcept]
    refine ⟨hput, ?_⟩
    cases store.verifyBytes bytes artifact place.display with
    | error e => trivial
    | ok u =>
    have hsame'' := hsame'.trans (sameItems_insert place.scratch_pending bytes)
    have hrename : Adds (t'.put place.pending bytes)
        (((t'.put place.pending bytes).remove place.pending).put place.item bytes) := by
      refine adds_rename ?_ (fun dir hd ↦ ?_) bytes
      · exact (hsame'' _ place.scratch_item).trans hnone
      · have := hdir dir hd
        rwa [← hsame'' (.dir dir) rfl] at this
    rw [andThen_ok, wp_write, onOk_ok]
    exact ⟨hrename, hst.trans (htt'.trans (hput.trans hrename)),
      Option.isSome_iff_exists.2 ⟨bytes, AList.lookup_insert _⟩⟩

theorem wp_atomicWrite {s : Device} (hp : s.items.lookup (.file p) = none) (bytes : Bytes) :
    wp (atomicWrite p bytes) Adds
      (onOk fun _ t ↦ Adds s t ∧ t.items.lookup (.file p) = some bytes) s := by
  rw [atomicWrite, wp_get_bind, wp_bind, wp_ensure]
  refine ⟨fun hparent ↦ ?_, fun _ ↦ trivial⟩
  rw [andThen_ok, wp_atomicUpdate]
  have hscratch : (Item.temporary p).scratch = true := rfl
  have h₁ := adds_put_scratch s hscratch bytes
  have h₂ := adds_remove_scratch (s.put (.temporary p) bytes) hscratch
  have h₃ := adds_put (lookup_eq_none_of_scratch hp bytes) (fun p' id hk hp' ↦ by
    cases hk
    obtain ⟨held, hheld⟩ := Device.exists_lookup (by simpa [hp'] using hparent)
    exact Option.isSome_iff_exists.2 ⟨held, (h₁.trans h₂).lookup rfl hheld⟩) bytes
  exact ⟨h₁, h₂.trans h₃, h₁.trans (h₂.trans h₃), AList.lookup_insert _⟩

theorem wp_writeOnce (s : Device) (p : Path) (bytes : Bytes) (limit : ℕ) (differs : String) :
    wp (writeOnce p bytes limit differs) Adds
      (onOk fun _ t ↦ Adds s t ∧ t.items.lookup (.file p) = some bytes) s := by
  unfold writeOnce
  rw [wp_get_bind]
  split
  · refine wp_read_seq fun held hr ↦ ?_
    rw [wp_ensure]
    refine ⟨fun heq ↦ ⟨.refl s, ?_⟩, fun _ ↦ trivial⟩
    simp only [Device.readBounded, bind_eq_ok, orError_eq_ok, pure_eq_ok] at hr
    obtain ⟨_, hlook, _, _, rfl⟩ := hr
    rw [hlook, beq_iff_eq.1 heq]
  · next h => exact wp_atomicWrite (Device.holds_eq_false h) bytes

theorem wp_forM_adds {β : Type} {f : β → Op Unit} (xs : List β) (P : β → Device → Prop)
    (hmono : ∀ x u v, Adds u v → P x u → P x v)
    (hf : ∀ x ∈ xs, ∀ s, wp (f x) Adds (onOk fun _ t ↦ Adds s t ∧ P x t) s) (s : Device) :
    wp (forM xs f) Adds (onOk fun _ t ↦ Adds s t ∧ ∀ x ∈ xs, P x t) s := by
  induction xs generalizing s with
  | nil => simpa using Adds.refl s
  | cons x xs ih =>
    rw [List.forM_cons]
    refine wp_seq (hf x (by simp) s) fun u t ⟨hst, hx⟩ ↦ ?_
    refine wp_mono_ok (ih (fun y hy ↦ hf y (by simp [hy])) t) fun _ t' ht' ↦ ?_
    exact ⟨hst.trans ht'.1, by simpa using ⟨hmono x t t' ht'.1 hx, ht'.2⟩⟩

def Has (k : Item) (d : Device) : Prop := (d.items.lookup k).isSome

instance (k : Item) (d : Device) : Decidable (Has k d) := by
  unfold Has
  infer_instance

theorem Adds.has (h : Adds u v) (hk : k.scratch = false) (hu : Has k u) : Has k v := by
  obtain ⟨bytes, hb⟩ := Option.isSome_iff_exists.1 hu
  exact Option.isSome_iff_exists.2 ⟨bytes, h.lookup hk hb⟩

theorem Adds.boot_eq (h : Adds u v) : v.boot = u.boot := by
  obtain ⟨i, rfl, -⟩ := h
  rfl

theorem onOk_has {s : Device} {r : Except String Unit} {t : Device}
    (h : onOk (fun _ t ↦ Adds s t ∧ t.items.lookup (.file p) = some bytes) r t) :
    onOk (fun _ t ↦ Adds s t ∧ Has (.file p) t) r t := by
  cases r with
  | error e => trivial
  | ok u => exact ⟨h.1, Option.isSome_iff_exists.2 ⟨bytes, h.2⟩⟩

structure Complete (files : List (Place × Artifact)) (deployment : Deployment) (id : Text)
    (envelope : Bytes) (d : Device) : Prop where
  objects : ∀ f ∈ files, Has f.1.item d
  hashes : ∀ h ∈ rootHashes deployment, Has (.file h.1) d
  descriptor : d.items.lookup (.file (.descriptor id)) = some envelope

theorem Complete.of_adds {files : List (Place × Artifact)} {deployment : Deployment} {id : Text}
    {envelope : Bytes} (h : Complete files deployment id envelope u) (hadds : Adds u v) :
    Complete files deployment id envelope v where
  objects f hf := hadds.has f.1.scratch_item (h.objects f hf)
  hashes x hx := hadds.has rfl (h.hashes x hx)
  descriptor := hadds.lookup rfl h.descriptor

theorem Store.wp_publishDeployment (plan : Installation) (envelope : Bytes)
    (objects : Sources) (s : Device) :
    wp (store.publishDeployment plan envelope objects) Adds (onOk fun _ t ↦ Adds s t ∧
      Complete plan.files plan.deployment plan.id envelope t) s := by
  unfold Store.publishDeployment
  have hobjects := wp_forM_adds plan.files (fun f ↦ Has f.1.item)
    (fun f _ _ h ↦ h.has f.1.scratch_item) (fun f _ s ↦ store.wp_publish s objects f.1 f.2) s
  refine wp_seq hobjects fun u t ht ↦ ?_
  have hhashes := wp_forM_adds (rootHashes plan.deployment) (fun h ↦ Has (.file h.1))
    (fun _ _ _ h ↦ h.has rfl)
    (fun h _ s ↦ wp_mono (wp_writeOnce s h.1 (asBytes h.2) 64 "existing root hash differs")
      (fun _ _ h ↦ h) fun _ _ ↦ onOk_has) t
  refine wp_seq hhashes fun u t' ht' ↦ ?_
  refine wp_mono_ok (wp_writeOnce t' _ _ _ _) fun _ t'' ⟨hadds, hdescriptor⟩ ↦ ?_
  refine ⟨ht.1.trans (ht'.1.trans hadds), fun f hf ↦ ?_, fun h hh ↦ ?_, hdescriptor⟩
  · exact (ht'.1.trans hadds).has f.1.scratch_item (ht.2 f hf)
  · exact hadds.has rfl (ht'.2 h hh)

structure SetComplete (trust : Trust) (set : UpdateSet) (envelope : Bytes) (d : Device) : Prop where
  objects : ∀ f ∈ setObjects d.boot set, Has f.1.item d
  hashes : ∀ core ∈ set.components, Has (.file (.coreHash core.id)) d
  envelope : d.items.lookup (.file (.setEnvelope (trust.setId set))) = some envelope

theorem SetComplete.of_adds {trust : Trust} {set : UpdateSet} {envelope : Bytes}
    (h : SetComplete trust set envelope u) (hadds : Adds u v) :
    SetComplete trust set envelope v where
  objects f hf := hadds.has f.1.scratch_item (h.objects f (hadds.boot_eq ▸ hf))
  hashes core hcore := hadds.has rfl (h.hashes core hcore)
  envelope := hadds.lookup rfl h.envelope

theorem Store.wp_publishSet (set : UpdateSet) (envelope : Bytes) (objects : Sources) (s : Device) :
    wp (store.publishSet set envelope objects) Adds (onOk fun _ t ↦ Adds s t ∧
      SetComplete store.trust set envelope t) s := by
  unfold Store.publishSet
  refine wp_read_seq fun u _ ↦ ?_
  rw [wp_get_bind]
  have hobjects := wp_forM_adds (setObjects s.boot set) (fun f ↦ Has f.1.item)
    (fun f _ _ h ↦ h.has f.1.scratch_item) (fun f _ s ↦ store.wp_publish s objects f.1 f.2) s
  refine wp_seq hobjects fun u t ht ↦ ?_
  have hhashes := wp_forM_adds set.components (fun core ↦ Has (.file (.coreHash core.id)))
    (fun _ _ _ h ↦ h.has rfl)
    (fun core _ s ↦ wp_mono (wp_writeOnce s (.coreHash core.id) (asBytes core.content.rootHash) 64
      "existing root hash differs") (fun _ _ h ↦ h) fun _ _ ↦ onOk_has) t
  refine wp_seq hhashes fun u t' ht' ↦ ?_
  refine wp_mono_ok (wp_writeOnce t' _ _ _ _) fun _ t'' ⟨hadds, henvelope⟩ ↦ ?_
  have hall := ht.1.trans (ht'.1.trans hadds)
  refine ⟨hall, fun f hf ↦ ?_, fun core hcore ↦ ?_, henvelope⟩
  · exact (ht'.1.trans hadds).has f.1.scratch_item (ht.2 f (hall.boot_eq ▸ hf))
  · exact hadds.has rfl (ht'.2 core hcore)

end MicaCore.Deploy
