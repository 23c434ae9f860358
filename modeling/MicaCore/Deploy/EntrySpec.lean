import MicaCore.Deploy.CommandSpec

namespace MicaCore.Deploy

open Data Crash Prog

def Command.retires (s : Device) : Command → Option Text
  | .reject id | .retire id => some id
  | .rollback | .failBoot => s.run.map (·.receipt.deploymentId)
  | _ => none

def Command.isInstall : Command → Bool
  | .install .. => true
  | _ => false

/-- About to write its entry: only the running one is there, and its set is named. -/
structure Inserts (store : Store) (s : Device) (op : Command) (u : Device) (r : Running)
    (plan : Installation) (cores : SetState) : Prop where
  isInstall : op.isInstall = true
  run : s.run = some r
  seen : ∃ envelope, plan.Seen store envelope r.receipt s
  named : ∃ held, s.readState = .ok held ∧ Named store plan r.receipt.deploymentId held cores u
  sets : u.sets = some cores
  data : u.data = some plan.retainedState
  retained : ∃ b, Retained [some r.receipt.deploymentId] s.boot b ∧ u.boot.view = b.view

/-- The loader takes a boot of a counted entry, the others all while another has one left. -/
inductive Lowers (s : Device) : Command → Record → Fin 4 → Prop
  | boot {entry : Record} {m n : Fin 4} {receipt : BootReceipt} {root : BootRoot} {write : WriteEnd} :
      entry.triesLeft = some m → m.val = n.val + 1 →
      Lowers s (.boot entry.id receipt root write) entry n
  | retire {op : Command} {entry e : Record} : op.retires s = some entry.id → e ∈ s.boot.view →
      e.id ≠ entry.id → e.triesLeft ≠ some 0 → Lowers s op entry 0

/-- What a write of a command started in `s` makes of the records in use. -/
inductive EntryWrite (store : Store) (s : Device) (op : Command) (u v : Device) : Prop
  | same : v.boot.view = u.boot.view → EntryWrite store s op u v
  | confirm {entry : Record} : entry ∈ s.boot.view → u.boot.view = s.boot.view →
      v.boot.view = withTries entry.id none s.boot.view → EntryWrite store s op u v
  | retain {r : Record} {view : List Record} :
      (view = s.boot.view ∨ ∃ id, view = withTries id none s.boot.view) → v.boot.view.Sublist view →
      v.boot.view ⊆ u.boot.view → r ∈ v.boot.view → r.triesLeft = none →
      u.run.map (·.receipt.deploymentId) = some r.id → EntryWrite store s op u v
  | insert {r : Running} {plan : Installation} {cores : SetState} :
      Inserts store s op u r plan cores →
      v.boot.view.Perm (plan.record :: u.boot.view) → EntryWrite store s op u v
  | lower {entry : Record} {n : Fin 4} : entry ∈ s.boot.view → Lowers s op entry n →
      u.boot.view = s.boot.view → v.boot.view = withTries entry.id (some n) s.boot.view →
      EntryWrite store s op u v

structure SameDeployments (u v : Device) : Prop where
  boot : v.boot = u.boot
  data : v.data = u.data
  run : v.run = u.run

theorem Adds.sameDeployments {u v : Device} (h : Adds u v) : SameDeployments u v := by
  obtain ⟨i, rfl, -⟩ := h
  exact ⟨rfl, rfl, rfl⟩

theorem Drops.boot_eq {c : Collection} {u v : Device} (h : Drops c u v) : v.boot = u.boot := by
  obtain ⟨i, rfl, -⟩ := h
  rfl

variable {id : Text} {records : List Record}

theorem mem_withTries_self {tries : Option (Fin 4)} {r : Record}
    (hr : r ∈ records) (hid : r.id = id) :
    { r with triesLeft := tries } ∈ withTries id tries records :=
  List.mem_map.2 ⟨r, hr, by simp [hid]⟩

theorem mem_withTries_of_ne {tries : Option (Fin 4)} {r : Record}
    (hr : r ∈ records) (hid : r.id ≠ id) : r ∈ withTries id tries records :=
  List.mem_map.2 ⟨r, hr, by simp [hid]⟩

section

variable {store : Store} {s u v : Device} {op : Command}

variable {plan : Installation} {receipt : BootReceipt} {envelope : Bytes} {b : BootRecords}

theorem Installation.Seen.running_kept (hseen : plan.Seen store envelope receipt s)
    (hb : Retaining [some receipt.deploymentId] s.boot b) :
    ∃ r ∈ b.view, r.id = receipt.deploymentId ∧ r.triesLeft = none := by
  obtain ⟨r, hr, hid, htries⟩ := hseen.running
  have hview : r ∈ s.boot.view := (BootRecords.mem_view_of_mem_entries hseen.entries).1 hr
  exact ⟨r, hb.kept r hview (by simp [keeps, hid]), hid, htries⟩

variable {id : Text}

theorem Retained.id_eq {b' : BootRecords} (h : Retained [some id] b b') {r : Record}
    (hr : r ∈ b'.view) : r.id = id := by
  simpa [keeps, eq_comm] using h.held r (BootRecords.view_subset_held b' hr)

variable {r : Running} {cores : SetState}

theorem Inserts.running_kept (h : Inserts store s op u r plan cores) :
    ∃ e ∈ u.boot.view, e.id = r.receipt.deploymentId ∧ e.triesLeft = none := by
  obtain ⟨_, hseen⟩ := h.seen
  obtain ⟨b, hb, hu⟩ := h.retained
  rw [hu]
  exact hseen.running_kept hb.retaining

theorem Inserts.of_mem (h : Inserts store s op u r plan cores) {e : Record} (he : e ∈ u.boot.view) :
    e ∈ s.boot.view ∧ e.id = r.receipt.deploymentId := by
  obtain ⟨b, hb, hu⟩ := h.retained
  rw [hu] at he
  exact ⟨hb.retaining.sub.subset he, hb.id_eq he⟩

theorem Inserts.id_ne
    (h : Inserts store s op u r plan cores) {e : Record} (he : e ∈ s.boot.view) :
    e.id ≠ plan.id := by
  obtain ⟨_, hseen⟩ := h.seen
  exact hseen.fresh e ((BootRecords.mem_view_of_mem_entries hseen.entries).2 he)

theorem ConfirmWrite.entries {plan : Store.Confirmation} (hrun : s.run = some r)
    (hseen : plan.Seen r.receipt s) (h : ConfirmWrite plan s u v) : EntryWrite store s op u v := by
  have hmem : plan.current ∈ s.boot.view :=
    (BootRecords.mem_view_of_mem_entries hseen.entries).1 hseen.current
  cases h with
  | adds h => exact .same (by rw [h.boot_eq])
  | tries _ hb hb' =>
    rcases hb' with hb' | hb'
    · exact .same (hb'.view.trans hb.view.symm)
    · exact .confirm hmem hb.view hb'.view
  | save => exact .same rfl
  | @retain b₀ b b' i htried _ _ hret' hsub =>
    have hkept : { plan.current with triesLeft := none } ∈ b'.view := by
      refine hret'.kept _ (htried.view ▸ mem_withTries_self hmem rfl) ?_
      obtain ⟨_, _, _, hstate⟩ := hseen.state
      simp [keeps, Store.Confirmation.keep, hstate, State.confirm, State.clearCandidate]
    exact .retain (.inr ⟨_, rfl⟩) (htried.view ▸ hret'.sub) hsub hkept rfl
      (by simp [hrun, hseen.id])

theorem RejectWrite.entries {plan : Rejection} (hplan : planReject id s = .ok plan)
    (hop : op.retires s = some id) (h : RejectWrite plan s u v) : EntryWrite store s op u v := by
  have hseen := seen_of_planReject hplan
  obtain ⟨entries, hentries, hmem, e, he, hne, hleft⟩ := hseen.entries
  have hview := fun r ↦ (BootRecords.mem_view_of_mem_entries hentries (r := r)).1
  cases h with
  | adds h => exact .same (by rw [h.boot_eq])
  | tries _ hb hb' =>
    rcases hb' with hb' | hb'
    · exact .same (hb'.view.trans hb.view.symm)
    · refine .lower (hview _ hmem) (.retire ?_ (hview _ he) ?_ hleft) hb.view hb'.view
      · rw [hop, hseen.entry_id]
      · rwa [hseen.entry_id]
  | save => exact .same rfl

theorem RetireWrite.entries (hop : op.retires s = some id) (h : RetireWrite id s u v) :
    EntryWrite store s op u v := by
  cases h with
  | tries hentries hmem hid _ he hne hleft hb hb' =>
    have hview := fun r ↦ (BootRecords.mem_view_of_mem_entries hentries (r := r)).1
    subst hid
    rcases hb' with hb' | hb'
    · exact .same (hb'.view.trans hb.view.symm)
    · exact .lower (hview _ hmem) (.retire hop (hview _ he) hne hleft) hb.view hb'.view

theorem Retaining.view_eq_of_entries {entries : List Record} {b' : BootRecords}
    (h : Retaining (entries.map fun e ↦ some e.id) b b') (hentries : b.entries = .ok entries) :
    b'.view = b.view := by
  obtain ⟨hperm, hlist⟩ := BootRecords.entries_eq_ok hentries
  have hnd : b.view.Nodup := hperm.nodup_iff.1 (List.Nodup.of_map _ hlist.nodup)
  have hsub : b.view ⊆ b'.view := fun r hr ↦ h.kept r hr (by
    simpa [keeps] using ⟨r, hperm.mem_iff.2 hr, rfl⟩)
  exact h.sub.eq_of_length_le (List.subperm_of_subset hnd hsub).length_le

theorem CollectWrite.entries (h : CollectWrite store receipt s u v) :
    EntryWrite store s op u v := by
  cases h with
  | @retain entries b b' hentries hb hb' _ =>
    exact .same ((hb'.view_eq_of_entries hentries).trans (hb.view_eq_of_entries hentries).symm)
  | drops _ _ _ _ _ _ h => exact .same (by rw [h.boot_eq])

theorem InstallWrite.entries
    (hop : op.isInstall = true) (hrun : s.run = some r)
    (hseen : plan.Seen store envelope r.receipt s)
    (h : InstallWrite store plan r.receipt.deploymentId envelope s u v) :
    EntryWrite store s op u v := by
  cases h with
  | adds h => exact .same (by rw [h.boot_eq])
  | retain _ hb' hsub =>
    obtain ⟨e, he, hid, htries⟩ := hseen.running_kept hb'
    exact .retain (.inl rfl) hb'.sub hsub he htries (by simp [hrun, hid])
  | save => exact .same rfl
  | drops _ _ _ h => exact .same (by rw [h.boot_eq])
  | name _ _ _ _ _ _ => exact .same rfl
  | insert hret hheld hu hnamed _ hb' hb'' _ =>
    rcases hb'' with hb'' | hb''
    · exact .same (hb''.view.trans (hu ▸ hb'.view.symm))
    · subst hu
      exact .insert ⟨hop, hrun, ⟨_, hseen⟩, ⟨_, hheld, hnamed⟩, rfl, rfl, _, hret, hb'.view⟩
        (hb'.view.symm ▸ hb''.view)
  | final _ _ _ hu _ _ => exact .same rfl

theorem BootWrite.entries {root : BootRoot} {write : WriteEnd}
    (h : BootWrite store id receipt s u v) :
    EntryWrite store s (.boot id receipt root write) u v := by
  cases h with
  | adds h => exact .same (by rw [h.boot_eq])
  | stop => exact .same rfl
  | count hentries hmem hid htries hn hb hb' =>
    subst hid
    rcases hb' with hb' | hb'
    · exact .same (hb'.view.trans hb.view.symm)
    · exact .lower ((BootRecords.mem_view_of_mem_entries hentries).1 hmem) (.boot htries hn) hb.view
        hb'.view
  | spend _ _ h =>
    obtain ⟨_, _, _, _, -, -, -, -, rfl, rfl⟩ := h
    exact .same rfl
  | run _ _ _ hv => exact .same (by rw [hv])

theorem SettleWrite.sameDeployments {booted : Text} {boot : CoreBoot}
    (h : SettleWrite store booted boot s u v) : SameDeployments u v := by
  cases h with
  | adds h => exact h.sameDeployments
  | sets | trial | envelope => exact ⟨rfl, rfl, rfl⟩
  | release _ _ _ _ _ h =>
    obtain ⟨k, id, -, -, rfl, -⟩ := h
    exact ⟨rfl, rfl, rfl⟩

theorem InstallSetWrite.sameDeployments {set : UpdateSet} {state : SetState}
    (h : InstallSetWrite store envelope set state s u v) : SameDeployments u v := by
  cases h with
  | adds h => exact h.sameDeployments
  | trial _ _ hv | name _ _ _ _ _ hv =>
    subst hv
    exact ⟨rfl, rfl, rfl⟩

theorem CommandWrite.entries (h : CommandWrite store s op u v) : EntryWrite store s op u v := by
  cases h with
  | install hrun hseen h => exact h.entries rfl hrun hseen
  | installSet _ h => exact .same (by rw [h.sameDeployments.boot])
  | confirm hrun hplan h | confirmation hrun hplan h =>
    exact h.entries hrun (Store.seen_of_planConfirm hplan)
  | settle _ h | settlement _ _ _ h => exact .same (by rw [h.sameDeployments.boot])
  | reject hplan h => exact h.entries hplan rfl
  | rollback hrun hplan h => exact h.entries hplan (by simp [Command.retires, hrun])
  | failBoot hrun h => exact h.entries (by simp [Command.retires, hrun])
  | retire h => exact h.entries rfl
  | collect _ h | boot h => exact h.entries
  | reset => exact .same rfl

end

theorem Listed.withTries (h : Listed records) (id : Text)
    (tries : Option (Fin 4)) : Listed (withTries id tries records) where
  length_le := by simpa [Deploy.withTries] using h.length_le
  isId r hr := by
    obtain ⟨r', hr', hid⟩ := exists_of_mem_withTries hr
    exact hid ▸ h.isId r' hr'
  pos r hr := by
    obtain ⟨r', hr', rfl⟩ := List.mem_map.1 hr
    have := h.pos r' hr'
    split <;> exact this
  nodup := by
    have hids : (Deploy.withTries id tries records).map Record.id = records.map Record.id := by
      rw [Deploy.withTries, List.map_map]
      refine List.map_congr_left fun r _ ↦ ?_
      simp only [Function.comp_apply]
      split <;> rfl
    rw [hids]
    exact h.nodup

theorem Listed.length_le_one (h : Listed records)
    (hall : ∀ r ∈ records, r.id = id) : records.length ≤ 1 := by
  match records, h with
  | [], _ => simp
  | [r], _ => simp
  | r :: r' :: rest, h =>
    have := h.nodup
    simp [hall r (by simp), hall r' (by simp)] at this

theorem Listed.cons (h : Listed records) {record : Record}
    (hlen : records.length ≤ 1) (hid : Deploy.isId record.id = true) (hpos : 0 < record.generation)
    (hnew : ∀ r ∈ records, r.id ≠ record.id) : Listed (record :: records) where
  length_le := by simp; omega
  isId := by simpa [hid] using h.isId
  pos := by simpa [hpos] using h.pos
  nodup := by
    rw [List.map_cons, List.nodup_cons]
    refine ⟨fun hmem ↦ ?_, h.nodup⟩
    obtain ⟨r, hr, he⟩ := List.mem_map.1 hmem
    exact hnew r hr he

namespace EntryWrite

variable {store : Store} {s u v : Device} {op : Command}

theorem listed (h : EntryWrite store s op u v) (hs : Listed s.boot.view) (hu : Listed u.boot.view) :
    Listed v.boot.view := by
  cases h with
  | same h => rwa [h]
  | confirm _ _ h | lower _ _ _ h => exact h ▸ hs.withTries _ _
  | retain hview hsub _ _ _ _ =>
    rcases hview with rfl | ⟨id, rfl⟩
    · exact hs.sublist hsub
    · exact (hs.withTries id none).sublist hsub
  | @insert r plan cores hins hperm =>
    obtain ⟨_, hseen⟩ := hins.seen
    refine (hu.cons (hu.length_le_one fun x hx ↦ (hins.of_mem hx).2) ?_ ?_ fun x hx ↦ ?_).perm hperm
    · rw [Installation.record, hseen.id_eq]
      exact store.trust.isId_deploymentId _
    · exact (Nat.zero_le _).trans_lt hseen.newer
    · exact hins.id_ne (hins.of_mem hx).1

theorem exists_left (h : EntryWrite store s op u v) {P : Option (Fin 4) → Prop} (hP : P none)
    (hlower : ∀ entry ∈ s.boot.view, ∀ n, Lowers s op entry n →
      ∃ r ∈ s.boot.view, r.id ≠ entry.id ∧ P r.triesLeft)
    (hu : ∃ r ∈ u.boot.view, P r.triesLeft) : ∃ r ∈ v.boot.view, P r.triesLeft := by
  cases h with
  | same h => rwa [h]
  | confirm hmem _ h => exact ⟨_, h ▸ mem_withTries_self hmem rfl, hP⟩
  | retain _ _ _ hr htries _ => exact ⟨_, hr, htries ▸ hP⟩
  | insert hins hperm =>
    obtain ⟨r, hr, -, htries⟩ := hins.running_kept
    exact ⟨r, hperm.mem_iff.2 (by simp [hr]), htries ▸ hP⟩
  | lower hmem hlow _ h =>
    obtain ⟨r, hr, hne, hr'⟩ := hlower _ hmem _ hlow
    exact ⟨r, h ▸ mem_withTries_of_ne hr hne, hr'⟩

end EntryWrite

end MicaCore.Deploy
