import MicaCore.Deploy.InstallSpec
import MicaCore.Deploy.Settle

namespace MicaCore.Deploy

open Data Crash Prog

def componentOf : Item → Option Text
  | .dir (.component id) => some id
  | .file p | .temporary p => match p.parent with
    | some (.component id) => some id
    | _ => none
  | .volume (.core id) => some id
  | _ => none

/-- An item of a component outside `kept` goes, its directory last. -/
def Releases (kept : List Text) (u v : Device) : Prop :=
  ∃ k id, componentOf k = some id ∧ id ∉ kept ∧ v = u.remove k ∧ (Rooted u.items → Rooted v.items)

/-- Only items of components outside `kept` changed, and nothing is new. -/
structure Released (kept : List Text) (s t : Device) : Prop where
  only : ∃ i, t = { s with items := i }
  spared : ∀ k, (∀ id, componentOf k = some id → id ∈ kept) → t.items.lookup k = s.items.lookup k
  old : ∀ k, Has k t → Has k s

variable (kept : List Text)

theorem Released.refl (s : Device) : Released kept s s :=
  ⟨⟨s.items, rfl⟩, fun _ _ ↦ rfl, fun _ h ↦ h⟩

variable {s u : Device}

theorem Released.trans {kept : List Text} {t : Device} (h : Released kept s t)
    (h' : Released kept t u) : Released kept s u := by
  obtain ⟨i, rfl⟩ := h.only
  obtain ⟨i', rfl⟩ := h'.only
  exact ⟨⟨i', rfl⟩, fun k hk ↦ (h'.spared k hk).trans (h.spared k hk),
    fun k hk ↦ h.old k (h'.old k hk)⟩

variable {k : Item}

theorem has_remove {d : Device} {k' : Item} : Has k (d.remove k') ↔ k ≠ k' ∧ Has k d := by
  by_cases h : k = k'
  · subst h; simp [Has, Device.remove]
  · simp [Has, Device.remove, AList.lookup_erase_ne h, h]

variable {id : Text}

theorem released_remove {kept : List Text} (hk : componentOf k = some id)
    (hid : id ∉ kept) (s : Device) : Released kept s (s.remove k) where
  only := ⟨_, rfl⟩
  spared _ hk' := AList.lookup_erase_ne fun h ↦ hid (hk' id (h ▸ hk))
  old _ h := (has_remove.1 h).2

theorem componentOf_of_childOf (h : childOf (.component id) k = true) :
    componentOf k = some id := by
  cases k with
  | file p | temporary p =>
    simp only [childOf, beq_iff_eq] at h
    simp [componentOf, h]
  | _ => simp [childOf] at h

theorem Rooted.erase {items : AList fun _ : Item ↦ Bytes} (h : Rooted items)
    (hk : ∀ p id, k = .dir (.component id) → p.parent = some (.component id) →
      items.lookup (.file p) = none) : Rooted (items.erase k) := by
  intro p id hp hf
  have hne : Item.file p ≠ k := by
    rintro rfl
    simp at hf
  rw [AList.lookup_erase_ne hne] at hf
  rw [AList.lookup_erase_ne]
  · exact h p id hp hf
  · intro hdir
    rw [hk p id hdir.symm hp] at hf
    cases hf

theorem wp_releaseAll {kept : List Text} {xs : List Item}
    (hxs : ∀ k ∈ xs, ∃ id, componentOf k = some id ∧ id ∉ kept ∧ ∀ dir, k ≠ .dir dir)
    (hu : Released kept s u) :
    wp (forM xs fun k ↦ Prog.write (Device.remove k) : Op Unit) (Releases kept)
      (fun _ t ↦ Released kept s t ∧ (∀ k ∈ xs, ¬ Has k t) ∧ ∀ k, Has k t → Has k u) u := by
  induction xs generalizing u with
  | nil =>
    rw [List.forM_nil, wp_pure]
    exact ⟨hu, by simp, fun _ h ↦ h⟩
  | cons k xs ih =>
    obtain ⟨id, hk, hid, hdir⟩ := hxs k (by simp)
    rw [List.forM_cons, wp_bind, wp_write, andThen_ok]
    refine ⟨⟨k, id, hk, hid, rfl, fun hr ↦ hr.erase fun _ _ h _ ↦ absurd h (hdir _)⟩, ?_⟩
    refine wp_mono (ih (fun k' hk' ↦ hxs k' (by simp [hk'])) (hu.trans (released_remove hk hid u)))
      (fun _ _ h ↦ h) fun r t ht ↦ ?_
    obtain ⟨hrel, hgone, hold⟩ := ht
    refine ⟨hrel, fun k' hk' hhas ↦ ?_, fun k' hk' ↦ (has_remove.1 (hold k' hk')).2⟩
    rcases List.mem_cons.1 hk' with rfl | hk'
    · exact (has_remove.1 (hold _ hhas)).1 rfl
    · exact hgone k' hk' hhas

theorem wp_removeComponent (id : Text) (hu : Released kept s u) :
    wp (removeComponent kept id) (Releases kept)
      (onOk fun _ t ↦ Released kept s t ∧ (Has (.dir (.component id)) t → id ∈ kept) ∧
        ∀ k, Has k t → Has k u) u := by
  unfold removeComponent
  refine wp_ofExcept_seq fun x _ ↦ ?_
  split
  · next hkept =>
    rw [wp_pure, onOk_ok]
    exact ⟨hu, fun _ ↦ by simpa using hkept, fun _ h ↦ h⟩
  · next hkept =>
    have hid : id ∉ kept := by simpa using hkept
    rw [wp_get_bind]
    refine wp_seq (wp_releaseAll (fun k hk ↦ ?_) hu) fun _ t ⟨hrel, hgone, hold⟩ ↦ ?_
    · refine ⟨id, componentOf_of_childOf (List.mem_filter.1 hk).2, hid, ?_⟩
      rintro dir rfl
      cases (List.mem_filter.1 hk).2
    have hdir : componentOf (.dir (.component id)) = some id := rfl
    -- the loop before has emptied the directory
    have hempty : ∀ p : Path, p.parent = some (.component id) → t.items.lookup (.file p) = none := by
      intro p hp
      by_contra h
      have hhas : Has (.file p) t := Option.isSome_iff_ne_none.2 h
      refine hgone _ (List.mem_filter.2 ⟨AList.lookup_isSome.1 (hold _ hhas), ?_⟩) hhas
      simp [childOf, hp]
    have hrooted : Rooted t.items → Rooted (t.remove (.dir (.component id))).items := by
      intro hr
      refine hr.erase fun p id' hk hp ↦ hempty p ?_
      cases hk
      exact hp
    rw [wp_write, onOk_ok]
    refine ⟨⟨_, id, hdir, hid, rfl, hrooted⟩, hrel.trans (released_remove hdir hid t), fun h ↦ ?_,
      fun k hk ↦ hold k (has_remove.1 hk).2⟩
    exact absurd rfl (has_remove.1 h).1

theorem wp_removeComponents (ids : List Text) (hu : Released kept s u) :
    wp (forM ids (removeComponent kept)) (Releases kept)
      (onOk fun _ t ↦ Released kept s t ∧ (∀ id ∈ ids, Has (.dir (.component id)) t → id ∈ kept) ∧
        ∀ k, Has k t → Has k u) u := by
  induction ids generalizing u with
  | nil =>
    rw [List.forM_nil, wp_pure, onOk_ok]
    exact ⟨hu, by simp, fun _ h ↦ h⟩
  | cons id ids ih =>
    rw [List.forM_cons]
    refine wp_seq (wp_removeComponent kept id hu) fun _ t ⟨hrel, hdir, hold⟩ ↦ ?_
    refine wp_mono_ok (ih hrel) fun _ t' ⟨hrel', hdirs, hold'⟩ ↦ ?_
    refine ⟨hrel', fun id' hid' h ↦ ?_, fun k hk ↦ hold k (hold' k hk)⟩
    rcases List.mem_cons.1 hid' with rfl | hid'
    · exact hdir (hold' _ h)
    · exact hdirs id' hid' h

/-- No component is left that no held set lists. -/
structure ReleaseDone (kept : List Text) (s t : Device) : Prop where
  released : Released kept s t
  dirs : ∀ id, Has (.dir (.component id)) t → id ∈ kept
  volumes : s.boot.isUbi = true → ∀ id, isId id = true → Has (.volume (.core id)) t → id ∈ kept

theorem Store.wp_releaseUnreferenced (store : Store) (s : Device) :
    wp store.releaseUnreferenced
      (fun u v ↦ ∃ kept, store.heldComponents s = .ok kept ∧ Released kept s u ∧ Releases kept u v)
      (onOk fun _ t ↦ ∃ kept, store.heldComponents s = .ok kept ∧ ReleaseDone kept s t) s := by
  unfold Store.releaseUnreferenced
  refine wp_read_seq fun kept hkept ↦ ?_
  have hG : ∀ u v, Released kept s u → Releases kept u v → Released kept s v := by
    rintro u v hu ⟨k, id, hk, hid, rfl, -⟩
    exact hu.trans (released_remove hk hid u)
  rw [wp_get_bind]
  refine wp_seq (wp_invariant _ (.refl kept s) hG
    (wp_removeComponents kept (componentDirs s) (.refl kept s)))
    (fun _ t ⟨_, hrel, hdirs, hold⟩ ↦ ?_) fun u v h ↦ ⟨kept, hkept, h⟩
  have hdone : ∀ id, Has (.dir (.component id)) t → id ∈ kept := fun id h ↦ by
    refine hdirs id (List.mem_filterMap.2 ⟨.dir (.component id), ?_, rfl⟩) h
    exact AList.lookup_isSome.1 (hold _ h)
  rw [wp_get_bind]
  have hboot : t.boot = s.boot := by obtain ⟨i, rfl⟩ := hrel.only; rfl
  have hvols : ∀ k ∈ (if t.boot.isUbi then t.items.keys.filter (dropsCoreVolume kept) else []),
      ∃ id, componentOf k = some id ∧ id ∉ kept ∧ ∀ dir, k ≠ .dir dir := by
    intro k hk
    split at hk
    · have := (List.mem_filter.1 hk).2
      unfold dropsCoreVolume at this
      split at this
      · next id => exact ⟨id, rfl, by simpa using (Bool.and_eq_true_iff.1 this).2, by simp⟩
      · cases this
    · cases hk
  refine wp_mono_ok (wp_invariant _ hrel hG (wp_releaseAll hvols hrel))
    (fun _ t' ⟨_, hrel', hgone, hold'⟩ ↦ ?_) fun u v h ↦ ⟨kept, hkept, h⟩
  refine ⟨kept, hkept, hrel', fun id h ↦ hdone id (hold' _ h), fun hubi id hid h ↦ ?_⟩
  by_contra hnot
  refine hgone (.volume (.core id)) ?_ h
  rw [hboot, hubi, if_pos rfl]
  exact List.mem_filter.2 ⟨AList.lookup_isSome.1 (hold' _ h), by simp [dropsCoreVolume, hid, hnot]⟩

/-- At most envelopes of the sets `gone` were removed. -/
structure Forgotten (gone : List Text) (i i' : AList fun _ : Item ↦ Bytes) : Prop where
  spared : ∀ k : Item, k.scratch = false → (∀ id ∈ gone, k ≠ .file (.setEnvelope id)) →
    i'.lookup k = i.lookup k
  old : ∀ k : Item, k.scratch = false → (i'.lookup k).isSome → (i.lookup k).isSome

variable {i : AList fun _ : Item ↦ Bytes}

theorem SameItems.forgotten {i' : AList fun _ : Item ↦ Bytes} (h : SameItems i i')
    (gone : List Text) : Forgotten gone i i' :=
  ⟨fun k hk _ ↦ h k hk, fun k hk hi ↦ h k hk ▸ hi⟩

theorem Forgotten.erase {gone : List Text} {i' : AList fun _ : Item ↦ Bytes}
    (h : Forgotten gone i i') (hid : id ∈ gone) :
    Forgotten gone i (i'.erase (.file (.setEnvelope id))) where
  spared k hk hne := (AList.lookup_erase_ne (hne id hid)).trans (h.spared k hk hne)
  old k hk hi := by
    by_cases hke : k = .file (.setEnvelope id)
    · subst hke; simp at hi
    · rw [AList.lookup_erase_ne hke] at hi
      exact h.old k hk hi

theorem wp_removeEnvelopes {gone ids : List Text} (hids : ids ⊆ gone)
    (hu : Forgotten gone i u.items) :
    wp (forM ids removeEnvelope) (fun v w ↦ (∃ j, v = { u with items := j } ∧ Forgotten gone i j) ∧
        ∃ id ∈ gone, w = v.remove (.file (.setEnvelope id)))
      (fun _ t ↦ (∃ j, t = { u with items := j } ∧ Forgotten gone i j) ∧
        (∀ k, Has k t → Has k u) ∧ ∀ id ∈ ids, ¬ Has (.file (.setEnvelope id)) t) u := by
  induction ids generalizing u with
  | nil =>
    rw [List.forM_nil, wp_pure]
    exact ⟨⟨u.items, rfl, hu⟩, fun _ h ↦ h, by simp⟩
  | cons id ids ih =>
    have hid : id ∈ gone := hids (by simp)
    rw [List.forM_cons, wp_bind, removeEnvelope, wp_get_bind, wp_when, wp_write,
      andThen_ok]
    refine ⟨fun _ ↦ ⟨⟨⟨u.items, rfl, hu⟩, id, hid, rfl⟩, ?_⟩, fun hnot ↦ ?_⟩
    · refine wp_mono (ih (fun x hx ↦ hids (by simp [hx])) (u := u.remove _) (hu.erase hid))
        (fun _ _ h ↦ h) fun r t ht ↦ ?_
      obtain ⟨hform, hold, hgone⟩ := ht
      refine ⟨hform, fun k hk ↦ (has_remove.1 (hold k hk)).2, fun x hx hhas ↦ ?_⟩
      rcases List.mem_cons.1 hx with rfl | hx
      · exact (has_remove.1 (hold _ hhas)).1 rfl
      · exact hgone x hx hhas
    · rw [andThen_ok]
      refine wp_mono (ih (fun x hx ↦ hids (by simp [hx])) hu) (fun _ _ h ↦ h) fun r t ht ↦ ?_
      obtain ⟨hform, hold, hgone⟩ := ht
      refine ⟨hform, hold, fun x hx hhas ↦ ?_⟩
      rcases List.mem_cons.1 hx with rfl | hx
      · exact Bool.false_ne_true (hnot.symm.trans (hold _ hhas))
      · exact hgone x hx hhas

def dropped (held state : SetState) : List Text :=
  held.named.filter fun id ↦ !state.named.contains id

/-- The set state is settled, and a trial that was to end may have ended. -/
structure Settling (held state : SetState) (s u : Device) : Prop where
  form : ∃ trial i, u = { s with sets := some state, trial := trial, items := i } ∧
    (trial = s.trial ∨ trial = none)
  items : Forgotten (dropped held state) s.items u.items

/-- Sets and bindings move together, the trial ends, and what is not named any more goes. -/
inductive SettleWrite (store : Store) (booted : Text) (boot : CoreBoot) (s : Device) :
    Device → Device → Prop
  | adds {u v : Device} : Adds u v → SettleWrite store booted boot s u v
  | sets {held state : SetState} {verdict : SetSettlement} {i i' : AList fun _ : Item ↦ Bytes} :
      s.readState = .ok held → s.settlement booted boot = .ok (verdict, state) → state ≠ held →
      state.bound.size ≤ 2 → SameItems s.items i → SameItems s.items i' →
      SettleWrite store booted boot s { s with items := i } { s with items := i', sets := some state }
  | trial {held state : SetState} {verdict : SetSettlement} {u : Device} :
      s.readState = .ok held → s.settlement booted boot = .ok (verdict, state) →
      verdict ≠ .unchanged → Settling held state s u →
      SettleWrite store booted boot s u { u with trial := none }
  | envelope {held state : SetState} {verdict : SetSettlement} {u : Device} {id : Text} :
      s.readState = .ok held → s.settlement booted boot = .ok (verdict, state) →
      Settling held state s u → id ∈ dropped held state →
      SettleWrite store booted boot s u (u.remove (.file (.setEnvelope id)))
  | release {held state : SetState} {verdict : SetSettlement} {w u v : Device} {kept : List Text} :
      s.readState = .ok held → s.settlement booted boot = .ok (verdict, state) →
      Settling held state s w → store.heldComponents w = .ok kept → Released kept w u →
      Releases kept u v → SettleWrite store booted boot s u v

/-- Nothing changed, or exactly what is no longer named or listed is gone. -/
inductive SettleDone (store : Store) (booted : Text) (boot : CoreBoot) (s t : Device) : Prop
  | unchanged {held : SetState} {verdict : SetSettlement} : s.readState = .ok held →
      s.settlement booted boot = .ok (verdict, held) → t = s → SettleDone store booted boot s t
  | changed {held state : SetState} {verdict : SetSettlement} {w : Device} {kept : List Text} :
      s.readState = .ok held → s.settlement booted boot = .ok (verdict, state) → state ≠ held →
      Settling held state s w →
      (∀ id ∈ dropped held state, ¬ Has (.file (.setEnvelope id)) w) →
      store.heldComponents w = .ok kept → ReleaseDone kept w t → SettleDone store booted boot s t

theorem Settling.of_remove {held state : SetState} (h : Settling held state s u)
    {j : AList fun _ : Item ↦ Bytes} (hj : Forgotten (dropped held state) s.items j) :
    Settling held state s { u with items := j } := by
  obtain ⟨trial, i, rfl, ht⟩ := h.form
  exact ⟨⟨trial, j, rfl, ht⟩, hj⟩

theorem Store.wp_settleSets (store : Store) (booted : Text) (boot : CoreBoot) (s : Device) :
    wp (store.settleSets booted boot) (SettleWrite store booted boot s)
      (onOk fun _ t ↦ SettleDone store booted boot s t) s := by
  unfold Store.settleSets
  refine wp_read_seq fun held hheld ↦ ?_
  refine wp_read_seq fun (verdict, state) hset ↦ ?_
  simp only
  split
  · next heq =>
    subst heq
    rw [wp_pure, onOk_ok]
    exact .unchanged hheld hset rfl
  next hne =>
  rw [wp_bind]
  refine wp_writeState (fun i hi ↦ .adds hi.adds)
    (fun i i' hsize hi hi' ↦ .sets hheld hset hne hsize hi hi') (fun _ ↦ trivial)
      fun i hsize hi ↦ ?_
  have hstart : Settling held state s { s with items := i, sets := some state } :=
    ⟨⟨s.trial, i, rfl, .inl rfl⟩, hi.forgotten _⟩
  rw [andThen_ok, wp_bind]
  -- the trial's end changes nothing the release depends on
  have hrest : ∀ u, Settling held state s u →
      wp (do
          forM (dropped held state) removeEnvelope
          store.releaseUnreferenced
          pure verdict : Op SetSettlement) (SettleWrite store booted boot s)
        (onOk fun _ t ↦ SettleDone store booted boot s t) u := by
    intro u hu
    refine wp_seq (wp_removeEnvelopes (fun _ h ↦ h) hu.items) (fun _ t ht ↦ ?_) fun v w hvw ↦ ?_
    · obtain ⟨⟨j, rfl, hj⟩, -, hgone⟩ := ht
      have hw := hu.of_remove hj
      refine wp_seq (store.wp_releaseUnreferenced _) (fun _ t ⟨kept, hkept, hdone⟩ ↦ ?_)
        fun v w ⟨kept, hkept, hrel, hrels⟩ ↦ .release hheld hset hw hkept hrel hrels
      rw [wp_pure, onOk_ok]
      exact .changed hheld hset hne hw hgone hkept hdone
    · obtain ⟨⟨j, rfl, hj⟩, id, hid, rfl⟩ := hvw
      exact .envelope hheld hset (hu.of_remove hj) hid
  rw [wp_when]
  refine ⟨fun hverdict ↦ ?_, fun _ ↦ hrest _ hstart⟩
  have hend : Settling held state s { s with items := i, sets := some state, trial := none } :=
    ⟨⟨none, i, rfl, .inr rfl⟩, hi.forgotten _⟩
  rw [endTrial, wp_get_bind, wp_when, wp_write]
  exact ⟨fun _ ↦ ⟨.trial hheld hset (by simpa using hverdict) hstart, hrest _ hend⟩,
    fun _ ↦ hrest _ hstart⟩

end MicaCore.Deploy
