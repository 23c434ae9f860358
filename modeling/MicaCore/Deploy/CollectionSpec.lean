import MicaCore.Deploy.ItemSpec

namespace MicaCore.Deploy

open Data Crash Prog

def Collection.items (c : Collection) : List Item :=
  c.files ++ c.directories.map Item.dir ++ c.volumes

def Drops (c : Collection) (u v : Device) : Prop :=
  ∃ items, v = { u with items := items } ∧ ∀ k, k ∉ c.items → items.lookup k = u.items.lookup k

theorem Drops.refl (c : Collection) (u : Device) : Drops c u u := ⟨u.items, rfl, fun _ _ ↦ rfl⟩

variable {c : Collection} {u : Device}

theorem Drops.trans {v w : Device} (h : Drops c u v) (h' : Drops c v w) : Drops c u w := by
  obtain ⟨i, rfl, hi⟩ := h
  obtain ⟨i', rfl, hi'⟩ := h'
  exact ⟨i', rfl, fun k hk ↦ (hi' k hk).trans (hi k hk)⟩

theorem drops_remove {k : Item} (hk : k ∈ c.items) (u : Device) : Drops c u (u.remove k) :=
  ⟨_, rfl, fun _ hk' ↦ AList.lookup_erase_ne fun h ↦ hk' (h ▸ hk)⟩

theorem Drops.lookup {v : Device} (h : Drops c u v) {k : Item}
    (hk : k ∉ c.items) : v.items.lookup k = u.items.lookup k := by
  obtain ⟨i, rfl, hi⟩ := h
  exact hi k hk

theorem wp_removeAll {β : Type} (f : β → Item) {xs : List β}
    (hxs : ∀ x ∈ xs, f x ∈ c.items) {s : Device} (hu : Drops c s u) :
    wp (forM xs fun x ↦ Prog.write (Device.remove (f x)) : Op Unit) (Drops c)
      (fun _ t ↦ Drops c s t) u :=
  wp_forM (Drops c s) (fun x hx t ht ↦ by
    have := drops_remove (hxs x hx) t
    exact (wp_write _).2 ⟨this, ht.trans this⟩) hu

theorem wp_apply (c : Collection) (s : Device) :
    wp c.apply (Drops c) (fun _ t ↦ Drops c s t) s := by
  unfold Collection.apply
  refine wp_seq (wp_removeAll id (fun x hx ↦ by simp [Collection.items, hx]) (.refl c s)) fun u t ht ↦ ?_
  refine wp_seq (wp_removeAll Item.dir (fun x hx ↦ by simp [Collection.items, hx]) ht) fun u t ht ↦ ?_
  refine wp_seq (wp_removeAll id (fun x hx ↦ by simp [Collection.items, hx]) ht) fun _ t ht ↦ ?_
  simpa using ht

/-- Unfinished writes, and components and deployments not kept; never sets' objects. -/
def Keep.removable (keep : Keep) : Item → Bool
  | .temporary _ | .pendingVolume _ => true
  | .dir dir => keep.objectDir dir == some false
  | .file (.descriptor id) => !keep.retained.contains id
  | .file (.uki id) => !keep.kernels.contains id
  | .file p => (p.parent.bind keep.objectDir).any (!·)
  | .volume (.root id) => !keep.roots.contains id
  | .volume (.kernel id) | .volume (.support id) => !keep.kernels.contains id
  | .volume (.core _) => false

namespace Keep

variable {keep : Keep} {k : Item}

theorem removable_of_dropsChild (h : keep.dropsChild k = true) : keep.removable k = true := by
  cases k with
  | file p =>
    cases p <;> simp_all [dropsChild, removable, Path.parent]
  | _ => simp_all [dropsChild, removable]

theorem removable_of_dropsDescriptor (h : keep.dropsDescriptor k = true) :
    keep.removable k = true := by
  unfold dropsDescriptor at h
  split at h <;> simp_all [removable]

theorem removable_of_dropsEsp (h : keep.dropsEsp k = true) : keep.removable k = true := by
  unfold dropsEsp at h
  split at h <;> simp_all [removable]

theorem removable_of_dropsVolume (h : keep.dropsVolume k = true) : keep.removable k = true := by
  unfold dropsVolume at h
  split at h <;> simp_all [removable]

theorem removable_of_dropsDir {dir : Dir} (h : keep.dropsDir k = some dir) :
    keep.removable (.dir dir) = true := by
  cases k with
  | dir dir' =>
    simp only [dropsDir] at h
    split at h
    · cases h; simpa [removable]
    · cases h
  | _ => simp [dropsDir] at h

end Keep

variable {d : Device}

theorem removable_of_mem_collection {keep : Keep} {incoming : Bool}
    (h : planCollection d keep incoming = .ok c) {k : Item} (hk : k ∈ c.items) :
    keep.removable k = true := by
  simp only [planCollection, bind_eq_ok, pure_eq_ok, ensure_eq_ok] at h
  obtain ⟨_, _, _, _, _, _, rfl⟩ := h
  simp only [Collection.items, List.mem_append, List.mem_map, List.mem_filterMap] at hk
  rcases hk with ((((hk | hk) | hk) | hk) | ⟨dir, ⟨k', _, hk'⟩, rfl⟩) | hk
  · exact Keep.removable_of_dropsChild (List.mem_filter.1 hk).2
  · exact Keep.removable_of_dropsDescriptor (List.mem_filter.1 hk).2
  · split at hk
    · cases hk
    · exact Keep.removable_of_dropsEsp (List.mem_filter.1 hk).2
  · split at hk
    · cases hk
    · have := (List.mem_filter.1 hk).2
      rw [beq_iff_eq] at this
      rw [this]
      rfl
  · exact Keep.removable_of_dropsDir hk'
  · split at hk
    · exact Keep.removable_of_dropsVolume (List.mem_filter.1 hk).2
    · cases hk

theorem Store.mem_readRetained {store : Store} {receipt : BootReceipt}
    {target : Option (String × String)} {ids : List Text} {deployments : List Deployment}
    (h : store.readRetained d receipt target ids = .ok deployments) {id : Text} (hid : id ∈ ids) :
    ∃ bytes deployment, d.items.lookup (.file (.descriptor id)) = some bytes ∧
      store.trust.authenticateDeployment bytes = .ok deployment ∧ deployment ∈ deployments := by
  induction ids generalizing target deployments with
  | nil => simp at hid
  | cons id' ids ih =>
    simp only [Store.readRetained, bind_eq_ok, pure_eq_ok] at h
    obtain ⟨_, _, bytes, hread, deployment, hauth, _, _, _, _, _, _, rest, hrest, rfl⟩ := h
    simp only [Device.readBounded, bind_eq_ok, orError_eq_ok, pure_eq_ok] at hread
    obtain ⟨_, hlook, _, _, rfl⟩ := hread
    rcases List.mem_cons.1 hid with rfl | hid
    · exact ⟨_, deployment, hlook, hauth, by simp⟩
    · obtain ⟨bytes', deployment', hlook', hauth', hmem⟩ := ih hrest hid
      exact ⟨bytes', deployment', hlook', hauth', by simp [hmem]⟩

theorem Store.removable_of_collection {store : Store} {receipt : BootReceipt}
    {retained : List Text} {incoming : Option Deployment}
    (h : store.collection d receipt retained incoming = .ok c) :
    ∃ keep : Keep, (∀ k ∈ c.items, keep.removable k = true) ∧ keep.retained = retained ∧
      ∀ id ∈ retained, ∃ bytes deployment, d.items.lookup (.file (.descriptor id)) = some bytes ∧
        store.trust.authenticateDeployment bytes = .ok deployment ∧
        deployment.rootfs.id ∈ keep.roots ∧ deployment.kernel.id ∈ keep.kernels := by
  simp only [Store.collection, bind_eq_ok] at h
  obtain ⟨_, _, deployments, hread, _, _, hplan⟩ := h
  refine ⟨_, fun k hk ↦ removable_of_mem_collection hplan hk, rfl, fun id hid ↦ ?_⟩
  obtain ⟨bytes, deployment, hlook, hauth, hmem⟩ := Store.mem_readRetained hread hid
  exact ⟨bytes, deployment, hlook, hauth, List.mem_map.2 ⟨deployment, by simp [hmem], rfl⟩,
    List.mem_map.2 ⟨deployment, by simp [hmem], rfl⟩⟩

end MicaCore.Deploy
