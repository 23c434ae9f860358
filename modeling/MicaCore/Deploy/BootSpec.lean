import MicaCore.Deploy.Boot

namespace MicaCore.Deploy

open Data Crash Prog

structure Kept (b b' : BootRecords) : Prop where
  view : b'.view = b.view
  held : b'.held ⊆ b.held
  isFit : b'.isFit = b.isFit
  isUbi : b'.isUbi = b.isUbi

structure Saved (records : List Record) (b b' : BootRecords) : Prop where
  view : b'.view = records
  held : ∀ r ∈ b'.held, r ∈ records ∨ r ∈ b.view
  isFit : b'.isFit = b.isFit
  isUbi : b'.isUbi = b.isUbi
  rows : Rows records

theorem Kept.refl (b : BootRecords) : Kept b b := ⟨rfl, fun _ h ↦ h, rfl, rfl⟩

theorem BootRecords.isFit_put (b : BootRecords) (slot : Slot) (c : Option Copy) :
    (b.put slot c).isFit = b.isFit ∧ (b.put slot c).isUbi = b.isUbi := by
  cases b <;> cases slot <;> exact ⟨rfl, rfl⟩

variable {b : BootRecords} {slot : Slot} {copy : Copy}

theorem kept_put_none (h : b.load = .ok (slot, copy)) : Kept b (b.put slot.other none) where
  view := by rw [BootRecords.view_of_load (BootRecords.load_put_none h), BootRecords.view_of_load h]
  held r hr := by
    rcases BootRecords.held_put_subset h none hr with ⟨c, hc, -⟩ | hr
    · cases hc
    · exact BootRecords.view_subset_held b (BootRecords.view_of_load h ▸ hr)
  isFit := (BootRecords.isFit_put _ _ _).1
  isUbi := (BootRecords.isFit_put _ _ _).2

theorem saved_put_some {new : Copy}
    (h : b.load = .ok (slot, copy)) (hflag : new.flag = copy.flag + 1) :
    Saved new.records b (b.put slot.other (some new)) where
  view := BootRecords.view_of_load (BootRecords.load_put_some h hflag)
  held r hr := by
    rcases BootRecords.held_put_subset h _ hr with ⟨c, hc, hr⟩ | hr
    · cases hc; exact .inl hr
    · exact .inr (BootRecords.view_of_load h ▸ hr)
  isFit := (BootRecords.isFit_put _ _ _).1
  isUbi := (BootRecords.isFit_put _ _ _).2
  rows := new.rows

theorem BootRecords.put_put (b : BootRecords) (slot : Slot) (c c' : Option Copy) :
    (b.put slot c).put slot c' = b.put slot c' := by
  cases b <;> cases slot <;> rfl

variable {records : List Record}

theorem wp_saveRecords {G : Device → Device → Prop} {R : Except String Unit → Device → Prop}
    {s : Device} (hload : s.boot.load = .ok (slot, copy))
    (hG : ∀ b b', Kept s.boot b → Kept s.boot b' ∨ Saved records s.boot b' →
      G { s with boot := b } { s with boot := b' })
    (herr : ∀ e, R (.error e) s)
    (hok : ∀ b, Saved records s.boot b → R (.ok ()) { s with boot := b }) :
    wp (saveRecords slot copy.flag records) G R s := by
  unfold saveRecords
  refine wp_ofExcept_seq (fun new henc ↦ ?_) herr
  obtain ⟨rfl, hflag⟩ := Copy.encode_eq_ok henc
  have hnone := kept_put_none hload
  have hsome := saved_put_some hload hflag
  have hread := BootRecords.load_put_some hload hflag
  have hback : wp (readBack slot.other (copy.flag + 1) new.records) G R
      { s with boot := s.boot.put slot.other (some new) } := by
    simp [readBack, hread, hflag, wp_ensure, hok _ hsome]
  rw [wp_get_bind]
  simp only [wp_bind, wp_when, andThen_ok, modifyBoot, wp_write, BootRecords.put_put]
  exact ⟨fun _ ↦ ⟨hG _ _ (.refl _) (.inl hnone), hG _ _ hnone (.inr hsome), hback⟩,
    fun _ ↦ ⟨hG _ _ (.refl _) (.inr hsome), hback⟩⟩

def withTries (id : Text) (tries : Option (Fin 4)) (records : List Record) : List Record :=
  records.map fun r ↦ if r.id = id then { r with triesLeft := tries } else r

variable {id : Text} {tries : Option (Fin 4)}

theorem withTries_of_not_mem (h : ∀ r ∈ records, r.id ≠ id) :
    withTries id tries records = records := by
  refine (List.map_congr_left fun r hr ↦ ?_).trans (List.map_id records)
  simp [h r hr]

variable {entry : Record}

theorem renameFile_eq {files : List Record} (hu : ∀ r ∈ files, r.id = entry.id → r = entry) :
    renameFile entry tries files = withTries entry.id tries files := by
  unfold renameFile withTries
  split
  · next heq =>
    refine (List.map_id files).symm.trans (List.map_congr_left fun r hr ↦ ?_)
    by_cases hid : r.id = entry.id
    · rw [hu r hr hid]; simp [← heq]
    · simp [hid]
  · next hne =>
    have hfilter : files.filter (fun f ↦ !sameFile { entry with triesLeft := tries } f) = files := by
      refine List.filter_eq_self.2 fun r hr ↦ ?_
      by_cases hid : r.id = entry.id
      · simp [sameFile, hu r hr hid, hne]
      · simp [sameFile, hid]
    rw [hfilter]
    refine List.map_congr_left fun r hr ↦ ?_
    by_cases hid : r.id = entry.id
    · simp [sameFile, hu r hr hid]
    · simp [sameFile, hid]

theorem setRecord_eq (hnd : (records.map Record.id).Nodup) (he : entry ∈ records) :
    setRecord entry tries records = .ok (withTries entry.id tries records) := by
  induction records with
  | nil => simp at he
  | cons r rs ih =>
    obtain ⟨hr, hnd⟩ := List.nodup_cons.1 hnd
    rcases List.mem_cons.1 he with rfl | he
    · have hrest : withTries entry.id tries rs = rs :=
        withTries_of_not_mem fun r' hr' hid ↦ hr (hid ▸ List.mem_map_of_mem hr')
      simp only [setRecord, beq_self_eq_true, Bool.and_self, if_true]
      simpa [withTries] using hrest.symm
    · have hid : r.id ≠ entry.id := fun h ↦ hr (h ▸ List.mem_map_of_mem he)
      simp [setRecord, hid, ih hnd he, withTries]

/-- The entry `id` has its count replaced in the records in use. -/
structure Tried (id : Text) (tries : Option (Fin 4)) (b b' : BootRecords) : Prop where
  view : b'.view = withTries id tries b.view
  held : ∀ r ∈ b'.held, ∃ r' ∈ b.held, r'.id = r.id
  isFit : b'.isFit = b.isFit
  isUbi : b'.isUbi = b.isUbi

theorem exists_of_mem_withTries
    {r : Record} (h : r ∈ withTries id tries records) : ∃ r' ∈ records, r'.id = r.id := by
  obtain ⟨r', hr', rfl⟩ := List.mem_map.1 h
  exact ⟨r', hr', by split <;> rfl⟩

variable {b' : BootRecords}

theorem Saved.tried (h : Saved (withTries id tries b.view) b b') : Tried id tries b b' where
  view := h.view
  held r hr := by
    rcases h.held r hr with hr | hr
    · obtain ⟨r', hr', hid⟩ := exists_of_mem_withTries hr
      exact ⟨r', b.view_subset_held hr', hid⟩
    · exact ⟨r, b.view_subset_held hr, rfl⟩
  isFit := h.isFit
  isUbi := h.isUbi

section

variable {G : Device → Device → Prop} {R : Except String Unit → Device → Prop} {s : Device}
  {es : List Record} (hes : s.boot.entries = .ok es) (he : entry ∈ es)
  (hG : ∀ b b', Kept s.boot b → Kept s.boot b' ∨ Tried entry.id tries s.boot b' →
    G { s with boot := b } { s with boot := b' })
  (herr : ∀ e, R (.error e) s)
  (hok : ∀ b, Tried entry.id tries s.boot b → R (.ok ()) { s with boot := b })

include hes he hG herr hok

theorem wp_writeTries : wp (writeTries entry tries) G R s := by
  obtain ⟨hperm, hlist⟩ := BootRecords.entries_eq_ok hes
  have hview : entry ∈ s.boot.view := hperm.mem_iff.1 he
  have hnd : (s.boot.view.map Record.id).Nodup := (hperm.map Record.id).nodup_iff.1 hlist.nodup
  unfold writeTries
  rw [wp_get_bind]
  cases hb : s.boot with
  | uefi files =>
    rw [hb] at hview hnd
    have hu : ∀ r ∈ files, r.id = entry.id → r = entry := fun r hr ↦
      List.inj_on_of_nodup_map hnd hr hview
    have htried : Tried entry.id tries s.boot (.uefi (renameFile entry tries files)) := by
      rw [renameFile_eq hu, hb]
      exact ⟨rfl, fun r hr ↦ exists_of_mem_withTries hr, rfl, rfl⟩
    simp only [wp_bind, wp_ensure, andThen_ok, andThen_error, modifyBoot, wp_write, hb,
      BootRecords.mapFiles]
    exact ⟨fun _ ↦ ⟨hG s.boot _ (.refl _) (.inr htried), hok _ htried⟩, fun _ ↦ herr _⟩
  | fit ubi a c =>
    refine wp_read_seq (fun found hload ↦ ?_) herr
    obtain ⟨slot, copy⟩ := found
    have hrecords := BootRecords.view_of_load hload
    rw [hrecords] at hview hnd
    simp only [wp_bind, wp_ofExcept, setRecord_eq hnd hview, andThen_ok]
    rw [← hrecords]
    exact wp_saveRecords hload (fun b b' hb hb' ↦ hG b b' hb (hb'.imp id Saved.tried)) herr
      fun b hb ↦ hok b hb.tried

theorem wp_setTries : wp (setTries entry tries) G R s := by
  rw [setTries, wp_bind, wp_ensure]
  exact ⟨fun _ ↦ wp_writeTries hes he hG herr hok, fun _ ↦ herr _⟩

end

structure Retaining (keep : List (Option Text)) (b b' : BootRecords) : Prop where
  sub : b'.view.Sublist b.view
  kept : ∀ r ∈ b.view, keeps keep r = true → r ∈ b'.view
  held : b'.held ⊆ b.held
  isFit : b'.isFit = b.isFit
  isUbi : b'.isUbi = b.isUbi

theorem Retaining.refl (keep : List (Option Text)) (b : BootRecords) : Retaining keep b b :=
  ⟨.refl _, fun _ h _ ↦ h, fun _ h ↦ h, rfl, rfl⟩

theorem Retaining.trans {keep : List (Option Text)} {b'' : BootRecords}
    (h : Retaining keep b b') (h' : Retaining keep b' b'') : Retaining keep b b'' :=
  ⟨h'.sub.trans h.sub, fun r hr hk ↦ h'.kept r (h.kept r hr hk) hk,
    fun _ hr ↦ h.held (h'.held hr), h'.isFit.trans h.isFit, h'.isUbi.trans h.isUbi⟩

theorem Kept.retaining (h : Kept b b') (keep : List (Option Text)) : Retaining keep b b' :=
  ⟨by rw [h.view], fun r hr _ ↦ by rwa [h.view], h.held, h.isFit, h.isUbi⟩

theorem Saved.retaining {keep : List (Option Text)} (h : Saved records b b')
    (hsub : records.Sublist b.view)
    (hkeep : ∀ r ∈ b.view, keeps keep r = true → r ∈ records) : Retaining keep b b' where
  sub := by rw [h.view]; exact hsub
  kept r hr hk := by rw [h.view]; exact hkeep r hr hk
  held r hr := by
    rcases h.held r hr with hr | hr
    · exact b.view_subset_held (hsub.subset hr)
    · exact b.view_subset_held hr
  isFit := h.isFit
  isUbi := h.isUbi

section

variable {G : Device → Device → Prop} {R : Except String Unit → Device → Prop} {s : Device}
  {keep : List (Option Text)}
  (hG : ∀ b b', Retaining keep s.boot b → Retaining keep s.boot b' → b'.view ⊆ b.view →
    G { s with boot := b } { s with boot := b' })
  (herr : ∀ e b, Retaining keep s.boot b → R (.error e) { s with boot := b })

include hG herr

theorem wp_removeFiles {files l : List Record}
    (hok : ∀ b, Retaining keep s.boot b → (∀ r ∈ b.held, r ∈ files ∧ ∀ e ∈ l, sameFile e r = false) →
      R (.ok ()) { s with boot := b })
    (hstart : Retaining keep s.boot (.uefi files)) (hl : ∀ e ∈ l, keeps keep e = false) :
    wp (forM l removeFile) G R { s with boot := .uefi files } := by
  induction l generalizing files with
  | nil => simpa using hok _ hstart fun r hr ↦ ⟨hr, by simp⟩
  | cons e l ih =>
    have hnext : Retaining keep (.uefi files) (.uefi (files.filter fun f ↦ !sameFile e f)) := by
      refine ⟨List.filter_sublist, fun r hr hk ↦ ?_, List.filter_subset_self _, rfl, rfl⟩
      have he := hl e (by simp)
      have hne : r.id ≠ e.id := fun h ↦ by simp_all [keeps]
      exact List.mem_filter.2 ⟨hr, by simp [sameFile, hne]⟩
    rw [List.forM_cons, wp_bind, removeFile, wp_get_bind, wp_bind, wp_ensure]
    refine ⟨fun _ ↦ ?_, fun _ ↦ herr _ _ hstart⟩
    rw [andThen_ok, modifyBoot, wp_write]
    refine ⟨hG _ _ hstart (hstart.trans hnext) (List.filter_subset_self _), ?_⟩
    refine ih (fun b hb hb' ↦ hok b hb fun r hr ↦ ?_) (hstart.trans hnext)
      fun e he ↦ hl e (by simp [he])
    obtain ⟨hmem, hne⟩ := hb' r hr
    obtain ⟨hmem, hfirst⟩ := List.mem_filter.1 hmem
    exact ⟨hmem, by simpa using ⟨by simpa using hfirst, hne⟩⟩

theorem wp_retainEntries {entries : List Record}
    (hentries : ∀ r, keeps keep r = false → r ∈ s.boot.view → r ∈ entries)
    (hok : ∀ b, Retaining keep s.boot b → (∀ r ∈ b.held, keeps keep r = true) →
      R (.ok ()) { s with boot := b }) :
    wp (retainEntries entries keep) G R s := by
  unfold retainEntries
  rw [wp_get_bind]
  cases hb : s.boot with
  | uefi files =>
    have hs : s = { s with boot := .uefi files } := by rw [← hb]
    simp only
    rw [hs]
    refine wp_removeFiles (s := s) hG herr (fun b hret hgone ↦ hok b hret fun r hr ↦ ?_)
      (hb ▸ .refl _ _) (by simp)
    obtain ⟨hfile, hsame⟩ := hgone r hr
    by_contra hk
    have hk : keeps keep r = false := by simpa using hk
    have := hsame r (List.mem_filter.2 ⟨hentries r hk (by rw [hb]; exact hfile), by simp [hk]⟩)
    simp [sameFile] at this
  | fit ubi a c =>
    refine wp_read_seq (fun found hload ↦ ?_) (fun e ↦ herr e s.boot (.refl _ _))
    obtain ⟨slot, copy⟩ := found
    have hrecords := BootRecords.view_of_load hload
    simp only [wp_bind]
    rw [← hrecords]
    have hfirst : ∀ b, Saved (s.boot.view.filter (keeps keep)) s.boot b → Retaining keep s.boot b :=
      fun b h ↦ h.retaining List.filter_sublist fun r hr hk ↦ List.mem_filter.2 ⟨hr, hk⟩
    refine wp_saveRecords hload (fun b b' hb hb' ↦ ?_) (fun e ↦ herr e s.boot (.refl _ _))
      fun b hsaved ↦ ?_
    · rcases hb' with hb' | hb'
      · exact hG b b' (hb.retaining keep) (hb'.retaining keep) (by rw [hb.view, hb'.view]; simp)
      · refine hG b b' (hb.retaining keep) (hfirst b' hb') ?_
        rw [hb.view, hb'.view]
        exact List.filter_subset_self _
    · rw [andThen_ok]
      refine wp_read_seq (fun found hload' ↦ ?_) fun e ↦ herr e b (hfirst b hsaved)
      obtain ⟨slot', copy'⟩ := found
      have hview' : b.view = copy'.records := BootRecords.view_of_load hload'
      have hsecond : ∀ b', Saved copy'.records b b' → Retaining keep b b' :=
        fun b' h ↦ h.retaining (hview' ▸ .refl _) fun r hr _ ↦ hview' ▸ hr
      refine wp_saveRecords (s := { s with boot := b }) hload' (fun c c' hc hc' ↦ ?_)
        (fun e ↦ herr e b (hfirst b hsaved)) fun c hc ↦ ?_
      · rcases hc' with hc' | hc'
        · exact hG c c' ((hfirst b hsaved).trans (hc.retaining keep))
            ((hfirst b hsaved).trans (hc'.retaining keep)) (by rw [hc.view, hc'.view]; simp)
        · refine hG c c' ((hfirst b hsaved).trans (hc.retaining keep))
            ((hfirst b hsaved).trans (hsecond c' hc')) ?_
          rw [hc.view, hc'.view, hview']
          exact fun _ h ↦ h
      · refine hok c ((hfirst b hsaved).trans (hsecond c hc)) fun r hr ↦ ?_
        have hmem : r ∈ b.view := by
          rcases hc.held r hr with hr | hr
          · exact hview' ▸ hr
          · exact hr
        rw [hsaved.view] at hmem
        exact (List.mem_filter.1 hmem).2

end

structure Inserted (record : Record) (b b' : BootRecords) : Prop where
  view : b'.view.Perm (record :: b.view)
  held : ∀ r ∈ b'.held, r = record ∨ r ∈ b.held
  isFit : b'.isFit = b.isFit
  isUbi : b'.isUbi = b.isUbi

theorem Saved.inserted {record : Record}
    (h : Saved (record :: b.view) b b') : Inserted record b b' where
  view := by rw [h.view]
  held r hr := by
    rcases h.held r hr with hr | hr
    · exact (List.mem_cons.1 hr).imp id fun hr ↦ b.view_subset_held hr
    · exact .inr (b.view_subset_held hr)
  isFit := h.isFit
  isUbi := h.isUbi

theorem wp_insertEntry {G : Device → Device → Prop} {R : Except String Unit → Device → Prop}
    {s : Device} {record : Record} (hnew : ∀ r ∈ s.boot.view, r.id ≠ record.id)
    (hG : ∀ b b' i i', Kept s.boot b → Kept s.boot b' ∨ Inserted record s.boot b' →
      SameItems s.items i → SameItems s.items i' →
      G { s with boot := b, items := i } { s with boot := b', items := i' })
    (herr : ∀ e, R (.error e) s)
    (hok : ∀ b i, Inserted record s.boot b → SameItems s.items i →
      R (.ok ()) { s with boot := b, items := i }) :
    wp (insertEntry record) G R s := by
  obtain ⟨boot, data, sets, trial, items, run⟩ := s
  unfold insertEntry
  rw [wp_get_bind]
  cases boot with
  | uefi files =>
    have hfilter : files.filter (!sameFile record ·) = files :=
      List.filter_eq_self.2 fun r hr ↦ by simp [sameFile, hnew r hr]
    have hins : Inserted record (.uefi files) (.uefi (files ++ [record])) :=
      ⟨List.perm_append_singleton record files, fun r hr ↦ by
        simpa [BootRecords.held, or_comm] using hr, rfl, rfl⟩
    have htemp : (Item.temporary (.entry record.id)).scratch = true := rfl
    simp only [wp_atomicUpdate, Device.put, Device.remove, BootRecords.mapFiles, hfilter]
    exact ⟨hG _ _ _ _ (.refl _) (.inl (.refl _)) (.refl _) (sameItems_insert htemp []),
      hG _ _ _ _ (.refl _) (.inr hins) (sameItems_insert htemp []) (sameItems_erase_insert htemp []),
      hok _ _ hins (sameItems_erase_insert htemp [])⟩
  | fit ubi a c =>
    refine wp_read_seq (fun found hload ↦ ?_) herr
    obtain ⟨slot, copy⟩ := found
    simp only [← BootRecords.view_of_load hload]
    exact wp_saveRecords hload
      (fun b b' hb hb' ↦ hG b b' _ _ hb (hb'.imp id Saved.inserted) (.refl _) (.refl _)) herr
      fun b hb ↦ hok b _ hb.inserted (.refl _)

end MicaCore.Deploy
