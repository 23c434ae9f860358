import MicaCore.Deploy.EntrySpec

namespace MicaCore.Deploy

open Data Crash Prog

def Record.Counted (r : Record) : Prop := ∃ n, r.triesLeft = some n ∧ 0 < n

variable {r : Record}

theorem Record.counted_iff : r.Counted ↔ r.triesLeft.any (0 < ·) = true := by
  unfold Record.Counted
  cases r.triesLeft <;> simp

/-- A counted entry that is the newest, did not fail, and is beside a current one. -/
structure Candidate (state : State) (view : List Record) (e : Record) : Prop where
  current : ∃ x, state.current = some x ∧ x ≠ e.id
  failed : e.id ∉ state.failed
  fallback : state.fallback ≠ some e.id
  newest : ∀ r ∈ view, r ≠ e → r.generation < e.generation

/-- What DATA and the boot records agree on in every durable state. -/
structure OnRecord (d : Device) : Prop where
  listed : Listed d.boot.view
  counted : ∀ e ∈ d.boot.view, e.Counted → Candidate d.recorded d.boot.view e
  candidate : d.recorded.candidate = none ∨ d.recorded.current.isSome

section

variable {state st : State} {entries : List Record}

theorem exists_entry_of_effective {id : Text} (h : state.effective entries = .ok st)
    (hid : st.current = some id) : ∃ e ∈ entries, e.id = id := by
  rcases State.findCandidate_eq_ok h with ⟨hnone, rfl⟩ | ⟨current, entry, hcurrent, hfind, -, rfl⟩
  · rw [hnone] at hid
    cases hid
  · obtain rfl : current = id := by simpa [hcurrent] using hid
    obtain ⟨hmem, he⟩ := mem_of_find_id hfind
    exact ⟨entry, hmem, he⟩

/-- The state reports the entry as its candidate, and as nothing else. -/
structure Reported (st : State) (e : Record) : Prop where
  candidate : st.candidate = some e.id
  current : ∃ x, st.current = some x ∧ x ≠ e.id
  fallback : st.fallback ≠ some e.id
  failed : e.id ∉ st.failed

section

variable {e : Record} (hlist : EntryList entries) (he : e ∈ entries) (hcounted : e.Counted)
  (h : Candidate state entries e) (heff : state.effective entries = .ok st)

include hlist he hcounted h heff

theorem Candidate.current_effective : ∃ x, st.current = some x ∧ x ≠ e.id := by
  obtain ⟨-, -, hcurrent⟩ := State.effective_eq_ok heff
  obtain ⟨x, hx, hxe⟩ := h.current
  cases hconf : state.confirmed entries with
  | none => exact ⟨x, by rw [hcurrent, hconf, hx]; rfl, hxe⟩
  | some c =>
    have hc := List.find?_some hconf
    refine ⟨c.id, by rw [hcurrent, hconf]; rfl, fun hid ↦ ?_⟩
    rw [hlist.eq_of_id_eq (List.mem_of_find?_eq_some hconf) he hid] at hc
    obtain ⟨n, hn, -⟩ := hcounted
    simp [hn] at hc

theorem Candidate.reported : Reported st e := by
  have hcurrent := h.current_effective hlist he hcounted heff
  have hfailed := (State.effective_eq_ok heff).1
  have hfallback : st.fallback ≠ some e.id := fun hf ↦ by
    rcases State.fallback_effective heff hf with hf | hf
    · obtain ⟨x, hx, hxe⟩ := h.current
      exact hxe (by simpa [hx] using hf)
    · exact h.fallback hf
  refine ⟨?_, hcurrent, hfallback, hfailed ▸ h.failed⟩
  obtain ⟨x, hx, hxe⟩ := hcurrent
  rcases State.findCandidate_eq_ok heff with ⟨hnone, rfl⟩ | ⟨current, entry, hcur, hfind, hlen, rfl⟩
  · rw [hnone] at hx
    cases hx
  · obtain rfl : current = x := by simpa [hcur] using hx
    obtain ⟨hmem, hid⟩ := mem_of_find_id hfind
    have hnewer : entry.generation < e.generation :=
      h.newest entry hmem fun hee ↦ hxe (hee ▸ hid.symm)
    have hcand : e ∈ State.candidates
        (((state.raise entries).reconcile entries).dropAbsentFallback entries) entries
        entry.generation := by
      refine List.mem_filter.2 ⟨he, ?_⟩
      simp only [Bool.and_eq_true, decide_eq_true_eq, Bool.not_eq_true', bne_iff_ne]
      refine ⟨⟨⟨hnewer, Record.counted_iff.1 hcounted⟩, ?_⟩, hfallback⟩
      simpa [State.dropAbsentFallback, State.raise] using h.failed
    obtain ⟨c, hc⟩ := List.length_eq_one_iff.1 (le_antisymm hlen (List.length_pos_of_mem hcand))
    rw [hc, List.mem_singleton] at hcand
    simp [hc, hcand]

end

theorem candidate_eq_none (hcounted : ∀ e ∈ entries, ¬ e.Counted)
    (hcand : state.candidate = none ∨ state.current.isSome) (heff : state.effective entries = .ok st) :
    st.candidate = none := by
  have hcurrent := (State.effective_eq_ok heff).2.2
  rcases State.findCandidate_eq_ok heff with ⟨hnone, rfl⟩ | ⟨current, entry, hcur, hfind, hlen, rfl⟩
  · rcases hcand with hcand | hcand
    · simpa [State.dropAbsentFallback, State.raise] using hcand
    · rw [hnone] at hcurrent
      obtain ⟨x, hx⟩ := Option.isSome_iff_exists.1 hcand
      simp [hx] at hcurrent
  · have hnil : State.candidates (((state.raise entries).reconcile entries).dropAbsentFallback entries)
        entries entry.generation = [] := by
      refine List.filter_eq_nil_iff.2 fun e he h ↦ hcounted e he (Record.counted_iff.2 ?_)
      simp only [Bool.and_eq_true] at h
      exact h.1.1.2
    simp [hnil]

end

theorem Device.effective_of_effectiveState {d : Device} {st : State} (h : d.effectiveState = .ok st) :
    ∃ entries, d.boot.entries = .ok entries ∧ d.recorded.effective entries = .ok st := by
  simp only [Device.effectiveState, bind_eq_ok] at h
  obtain ⟨state, hstate, entries, hentries, h⟩ := h
  exact ⟨entries, hentries, Device.state_eq_ok hstate ▸ h⟩

namespace OnRecord

variable {d : Device} {st : State}

theorem candidate_of_entries {entries : List Record} (h : OnRecord d)
    (hentries : d.boot.entries = .ok entries) {e : Record} (he : e ∈ entries)
    (hcounted : e.Counted) :
    Candidate d.recorded entries e := by
  have hmem := fun r ↦ BootRecords.mem_view_of_mem_entries hentries (r := r)
  have hcand := h.counted e ((hmem e).1 he) hcounted
  exact ⟨hcand.current, hcand.failed, hcand.fallback, fun r hr ↦ hcand.newest r ((hmem r).1 hr)⟩

theorem reported (h : OnRecord d) (heff : d.effectiveState = .ok st) {e : Record}
    (he : e ∈ d.boot.view) (hcounted : e.Counted) : Reported st e := by
  obtain ⟨entries, hentries, heff⟩ := Device.effective_of_effectiveState heff
  have hmem : e ∈ entries := (BootRecords.mem_view_of_mem_entries hentries).2 he
  exact (h.candidate_of_entries hentries hmem hcounted).reported
    (BootRecords.entries_eq_ok hentries).2
    hmem hcounted heff

theorem candidate_eq_none_iff (h : OnRecord d) (heff : d.effectiveState = .ok st) :
    st.candidate = none ↔ ∀ e ∈ d.boot.view, ¬ e.Counted := by
  constructor
  · intro hnone e he hcounted
    rw [(h.reported heff he hcounted).candidate] at hnone
    cases hnone
  · intro hall
    obtain ⟨entries, hentries, heff⟩ := Device.effective_of_effectiveState heff
    exact candidate_eq_none
      (fun e he ↦ hall e ((BootRecords.mem_view_of_mem_entries hentries).1 he)) h.candidate heff

theorem candidate_effective (h : OnRecord d) (heff : d.effectiveState = .ok st) :
    st.candidate = none ∨ st.current.isSome := by
  obtain ⟨entries, hentries, heff⟩ := Device.effective_of_effectiveState heff
  rcases State.findCandidate_eq_ok heff with ⟨hnone, rfl⟩ | ⟨current, _, hcur, -, -, rfl⟩
  · refine .inl ?_
    rcases h.candidate with hc | hc
    · simpa [State.dropAbsentFallback, State.raise] using hc
    · have hcurrent := (State.effective_eq_ok heff).2.2
      rw [hnone] at hcurrent
      obtain ⟨x, hx⟩ := Option.isSome_iff_exists.1 hc
      simp [hx] at hcurrent
  · exact .inr (by simp [hcur])

theorem of_entries {u v : Device} (hu : OnRecord u) (hlisted : Listed v.boot.view)
    (hdata : v.data = u.data)
    (hview : ∀ e ∈ v.boot.view, ∃ e' ∈ u.boot.view, e'.id = e.id ∧ e'.generation = e.generation ∧
      (e.Counted → e'.Counted)) : OnRecord v where
  listed := hlisted
  counted e he hcounted := by
    obtain ⟨e', he', hid, hgen, hcounted'⟩ := hview e he
    have hcand := hu.counted e' he' (hcounted' hcounted)
    rw [Device.recorded, hdata]
    refine ⟨hid ▸ hcand.current, hid ▸ hcand.failed, hid ▸ hcand.fallback, fun r hr hne ↦ ?_⟩
    obtain ⟨r', hr', hrid, hrgen, -⟩ := hview r hr
    rw [← hrgen, ← hgen]
    refine hcand.newest r' hr' fun heq ↦ hne ?_
    exact List.inj_on_of_nodup_map hlisted.nodup hr he (by rw [← hrid, ← hid, heq])
  candidate := by
    rw [Device.recorded, hdata]
    exact hu.candidate

theorem of_eq {u v : Device} (hu : OnRecord u) (hview : v.boot.view = u.boot.view)
    (hdata : v.data = u.data) : OnRecord v :=
  hu.of_entries (hview ▸ hu.listed) hdata fun e he ↦ ⟨e, hview ▸ he, rfl, rfl, fun h ↦ h⟩

theorem of_same {u v : Device} (hu : OnRecord u) (h : SameDeployments u v) : OnRecord v :=
  hu.of_eq (by rw [h.boot]) h.data

end OnRecord

theorem exists_of_mem_withTries_counted {id : Text} {tries : Option (Fin 4)} {records : List Record}
    (htries : ∀ r ∈ records, r.id = id → { r with triesLeft := tries }.Counted → r.Counted)
    {e : Record} (he : e ∈ withTries id tries records) :
    ∃ e' ∈ records, e'.id = e.id ∧ e'.generation = e.generation ∧ (e.Counted → e'.Counted) := by
  obtain ⟨r, hr, rfl⟩ := List.mem_map.1 he
  refine ⟨r, hr, ?_⟩
  split
  · next hid => exact ⟨rfl, rfl, htries r hr hid⟩
  · exact ⟨rfl, rfl, fun h ↦ h⟩

theorem not_counted_none (h : r.triesLeft = none) : ¬ r.Counted := by
  rintro ⟨n, hn, -⟩
  rw [h] at hn
  cases hn

theorem not_counted_zero (h : r.triesLeft = some 0) : ¬ r.Counted := by
  rintro ⟨n, hn, hpos⟩
  obtain rfl : 0 = n := by simpa [h] using hn
  exact absurd hpos (by decide)

section

variable {store : Store} {s u v : Device} {op : Command}

variable {id : Text} {b : BootRecords}

theorem OnRecord.of_tried {tries : Option (Fin 4)} {run : Option Running}
    (hs : OnRecord s) (htries : tries = none ∨ tries = some 0)
    (hb : Kept s.boot b ∨ Tried id tries s.boot b) : OnRecord { s with boot := b, run := run } := by
  rcases hb with hb | hb
  · exact hs.of_eq hb.view rfl
  · refine hs.of_entries (hb.view ▸ hs.listed.withTries id tries) rfl fun e he ↦ ?_
    refine exists_of_mem_withTries_counted (fun r _ _ hcounted ↦ absurd hcounted ?_) (hb.view ▸ he)
    rcases htries with rfl | rfl
    · exact not_counted_none rfl
    · exact not_counted_zero rfl

theorem mem_failed_pushFailed {state : State} {x : Text} (h : x ∈ (state.pushFailed id).failed) :
    x ∈ state.failed ∨ x = id := by
  unfold State.pushFailed at h
  split at h
  · exact .inl h
  · simp only [List.mem_append, List.mem_singleton] at h
    refine h.imp (fun h ↦ ?_) fun h ↦ h
    split at h
    · exact List.mem_of_mem_tail h
    · exact h

variable {running : Text}

theorem mem_failed_recordFailures {state : State} {entries : List Record} {x : Text}
    (h : x ∈ (state.recordFailures entries running).failed) :
    x ∈ state.failed ∨ ∃ e ∈ entries, e.id = x ∧ e.triesLeft = some 0 := by
  unfold State.recordFailures at h
  simp only [State.clearCandidate] at h
  induction entries generalizing state with
  | nil => exact .inl h
  | cons e es ih =>
    rw [List.foldl_cons] at h
    rcases ih h with h | ⟨e', he', h'⟩
    · split at h
      · next hcond =>
        rcases mem_failed_pushFailed h with h | rfl
        · exact .inl h
        · simp only [Bool.and_eq_true, beq_iff_eq] at hcond
          exact .inr ⟨e, by simp, rfl, hcond.2⟩
      · exact .inl h
    · exact .inr ⟨e', by simp [he'], h'⟩

theorem recordFailures_current_fallback {state : State} {entries : List Record} :
    (state.recordFailures entries running).current = state.current ∧
      (state.recordFailures entries running).fallback = state.fallback := by
  unfold State.recordFailures
  simp only [State.clearCandidate]
  induction entries generalizing state with
  | nil => exact ⟨rfl, rfl⟩
  | cons e es ih =>
    rw [List.foldl_cons]
    rw [ih.1, ih.2]
    split
    · unfold State.pushFailed
      split <;> exact ⟨rfl, rfl⟩
    · exact ⟨rfl, rfl⟩

variable {e : Record}

/-- A confirmation never makes a candidate the fallback: that would be three entries. -/
theorem nextFallback_ne {entries : List Record} (hlist : EntryList entries)
    {state effective : State}
    {current : Record} (hcurrent : current ∈ entries) (he : e ∈ entries)
    (hne : current.id ≠ e.id) (heff : state.effective entries = .ok effective)
    (hreported : Reported effective e) :
    (effective.recordFailures entries running).nextFallback entries current ≠ some e.id := by
  obtain ⟨x, hx, hxe⟩ := hreported.current
  obtain ⟨c, hc, hcx⟩ := exists_entry_of_effective heff hx
  have hthree : x = current.id := by
    by_contra hxc
    have hsub : [c.id, current.id, e.id] ⊆ entries.map Record.id := by
      simpa using ⟨⟨c, hc, rfl⟩, ⟨current, hcurrent, rfl⟩, e, he, rfl⟩
    have hnd : [c.id, current.id, e.id].Nodup := by
      simp [hcx, hxc, hxe, hne]
    have hlen := (List.subperm_of_subset hnd hsub).length_le
    rw [List.length_map] at hlen
    have := hlist.length_le
    simp only [List.length_cons, List.length_nil] at hlen
    omega
  unfold State.nextFallback
  rw [recordFailures_current_fallback.1, recordFailures_current_fallback.2, hx, hthree, if_pos rfl]
  intro h
  exact hreported.fallback (Option.filter_eq_some_iff.1 h).1

theorem Tried.mem_of_counted {tries : Option (Fin 4)}
    (htries : tries = none ∨ tries = some 0) (hb : Tried id tries s.boot b)
    (he : e ∈ b.view) (hcounted : e.Counted) : e ∈ s.boot.view ∧ e.id ≠ id := by
  rw [hb.view] at he
  obtain ⟨r, hr, rfl⟩ := List.mem_map.1 he
  split at hcounted
  · refine absurd hcounted ?_
    rcases htries with rfl | rfl
    · exact not_counted_none rfl
    · exact not_counted_zero rfl
  · next hid => simpa [hid] using hr

variable {receipt : BootReceipt}

theorem ConfirmWrite.onRecord {plan : Store.Confirmation}
    (hseen : plan.Seen receipt s) (hs : OnRecord s) (hu : OnRecord u)
    (h : ConfirmWrite plan s u v) :
    OnRecord v := by
  cases h with
  | adds h => exact hu.of_same h.sameDeployments
  | tries _ _ hb => exact hs.of_tried (.inl rfl) hb
  | @save b i i' htried _ _ =>
    obtain ⟨effective, heff, -, hstate⟩ := hseen.state
    refine ⟨hu.listed, fun e he hcounted ↦ ?_, .inr ?_⟩
    · obtain ⟨hmem, hne⟩ := htried.mem_of_counted (.inl rfl) he hcounted
      obtain ⟨entries, hentries, heff'⟩ := Device.effective_of_effectiveState heff
      obtain rfl : entries = plan.entries := by simpa [hentries] using hseen.entries
      have hlist := (BootRecords.entries_eq_ok hentries).2
      have hreported := hs.reported heff hmem hcounted
      have hmem' : e ∈ plan.entries := (BootRecords.mem_view_of_mem_entries hentries).2 hmem
      refine ⟨⟨plan.current.id, ?_, hne.symm⟩, fun hfailed ↦ ?_, ?_, (hu.counted e he hcounted).newest⟩
      · rw [Device.recorded, hstate]
        rfl
      · rw [Device.recorded, hstate] at hfailed
        rcases mem_failed_recordFailures hfailed with hfailed | ⟨e', he', hid, hzero⟩
        · exact hreported.failed hfailed
        · rw [hlist.eq_of_id_eq he' hmem' hid] at hzero
          exact not_counted_zero hzero hcounted
      · rw [Device.recorded, hstate]
        exact nextFallback_ne hlist hseen.current hmem' hne.symm heff' hreported
    · rw [Device.recorded, hstate]
      rfl
  | retain htried _ _ hret hsub =>
    refine hu.of_entries ?_ rfl fun e he ↦ ⟨e, hsub he, rfl, rfl, fun h ↦ h⟩
    exact (htried.view ▸ hs.listed.withTries _ _ : Listed _).sublist hret.sub

theorem RejectWrite.onRecord {plan : Rejection} (hplan : planReject id s = .ok plan)
    (hs : OnRecord s) (hu : OnRecord u) (h : RejectWrite plan s u v) : OnRecord v := by
  cases h with
  | adds h => exact hu.of_same h.sameDeployments
  | tries _ _ hb => exact hs.of_tried (.inr rfl) hb
  | @save b i i' htried _ _ =>
    obtain ⟨effective, heff, -, hstate⟩ := (seen_of_planReject hplan).state
    have hcurrent : plan.state.current = effective.current ∧ plan.state.fallback = effective.fallback := by
      rw [hstate]
      simp only [State.clearCandidate, State.pushFailed]
      split <;> exact ⟨rfl, rfl⟩
    refine ⟨hu.listed, fun e he hcounted ↦ ?_, ?_⟩
    · obtain ⟨hmem, hne⟩ := htried.mem_of_counted (.inr rfl) he hcounted
      have hreported := hs.reported heff hmem hcounted
      rw [(seen_of_planReject hplan).entry_id] at hne
      refine ⟨hcurrent.1 ▸ hreported.current, fun hfailed ↦ ?_, hcurrent.2 ▸ hreported.fallback,
        (hu.counted e he hcounted).newest⟩
      rw [Device.recorded, hstate] at hfailed
      rcases mem_failed_pushFailed hfailed with hfailed | hid
      · exact hreported.failed hfailed
      · exact hne hid
    · refine (hs.candidate_effective heff).imp (fun hnone ↦ ?_) fun hsome ↦ ?_
      · rw [Device.recorded, hstate]
        simp only [State.clearCandidate, State.pushFailed]
        split <;> simp [hnone]
      · exact hcurrent.1 ▸ hsome

theorem RetireWrite.onRecord (hs : OnRecord s) (h : RetireWrite id s u v) : OnRecord v := by
  cases h with
  | tries _ _ _ _ _ _ _ _ hb => exact hs.of_tried (.inr rfl) hb

theorem CollectWrite.onRecord (hs : OnRecord s) (hu : OnRecord u)
    (h : CollectWrite store receipt s u v) : OnRecord v := by
  cases h with
  | retain hentries _ hb _ => exact hs.of_eq (hb.view_eq_of_entries hentries) rfl
  | drops _ _ _ _ _ _ h =>
    obtain ⟨i, rfl, -⟩ := h
    exact hu.of_eq rfl rfl

variable {plan : Installation} {envelope : Bytes}

theorem Installation.Seen.not_counted (hseen : plan.Seen store envelope receipt s)
    (hb : Retained [some receipt.deploymentId] s.boot b) (he : e ∈ b.view) : ¬ e.Counted := by
  obtain ⟨r, hr, hid, htries⟩ := hseen.running
  have hmem : e ∈ plan.entries :=
    (BootRecords.mem_view_of_mem_entries hseen.entries).2 (hb.retaining.sub.subset he)
  refine not_counted_none ?_
  rw [(BootRecords.entries_eq_ok hseen.entries).2.eq_of_id_eq hmem hr ((hb.id_eq he).trans hid.symm),
    htries]

theorem Installation.Seen.onRecord_inserted (hseen : plan.Seen store envelope receipt s)
    (hb : Retained [some receipt.deploymentId] s.boot b) (hv : Inserted plan.record b v.boot)
    (hlisted : Listed v.boot.view)
    (hdata : v.data = some plan.retainedState ∨ v.data = some plan.finalState) : OnRecord v := by
  have hcurrent : v.recorded.current = some receipt.deploymentId := by
    rcases hdata with h | h <;> rw [Device.recorded, h] <;> exact hseen.current
  have hrest : v.recorded.failed = plan.state.failed ∧ v.recorded.fallback = none := by
    rcases hdata with h | h <;> rw [Device.recorded, h] <;> exact ⟨rfl, rfl⟩
  refine ⟨hlisted, fun e he hcounted ↦ ?_, .inr (by rw [hcurrent]; rfl)⟩
  obtain ⟨r, hr, hid, -⟩ := hseen.running
  obtain rfl : e = plan.record := by
    rcases List.mem_cons.1 (hv.view.mem_iff.1 he) with he | he
    · exact he
    · exact absurd hcounted (hseen.not_counted hb he)
  refine ⟨⟨_, hcurrent, fun h ↦ hseen.fresh r hr (hid.trans h)⟩, hrest.1 ▸ hseen.unfailed,
    by rw [hrest.2]; simp, fun x hx hne ↦ ?_⟩
  have hx : x ∈ b.view := ((List.mem_cons.1 (hv.view.mem_iff.1 hx)).resolve_left hne)
  exact hseen.newest x
    ((BootRecords.mem_view_of_mem_entries hseen.entries).2 (hb.retaining.sub.subset hx))

theorem InstallWrite.onRecord
    (hseen : plan.Seen store envelope receipt s) (hu : OnRecord u) (hlisted : Listed v.boot.view)
    (h : InstallWrite store plan receipt.deploymentId envelope s u v) : OnRecord v := by
  cases h with
  | adds h => exact hu.of_same h.sameDeployments
  | retain _ _ hsub => exact hu.of_entries hlisted rfl fun e he ↦ ⟨e, hsub he, rfl, rfl, fun h ↦ h⟩
  | save hb _ _ =>
    refine ⟨hu.listed, fun e he hcounted ↦ absurd hcounted (hseen.not_counted hb he), .inr ?_⟩
    rw [Device.recorded, Option.getD_some, Installation.retainedState, hseen.current]
    rfl
  | drops _ _ _ h =>
    obtain ⟨i, rfl, -⟩ := h
    exact hu.of_eq rfl rfl
  | name _ _ _ _ _ _ => exact hu.of_eq rfl rfl
  | insert hb _ hu' _ _ hb' hb'' _ =>
    rcases hb'' with hb'' | hb''
    · exact hu.of_eq (hb''.view.trans (hu' ▸ hb'.view.symm)) rfl
    · exact hseen.onRecord_inserted hb hb'' hlisted (.inl (hu' ▸ rfl))
  | final hb _ hb' hu' _ _ =>
    exact hseen.onRecord_inserted hb (hu' ▸ hb') hlisted (.inr rfl)

theorem BootWrite.onRecord (hs : OnRecord s) (hu : OnRecord u)
    (h : BootWrite store id receipt s u v) : OnRecord v := by
  cases h with
  | adds h => exact hu.of_same h.sameDeployments
  | stop => exact hs.of_eq rfl rfl
  | @count entries entry n n' b b' hentries hmem hid htries hn hb hb' =>
    rcases hb' with hb' | hb'
    · exact hs.of_eq hb'.view rfl
    · refine hs.of_entries (hb'.view ▸ hs.listed.withTries _ _) rfl fun e he ↦ ?_
      refine exists_of_mem_withTries_counted (fun r hr hrid _ ↦ ⟨n, ?_, ?_⟩) (hb'.view ▸ he)
      · have hmem' := (BootRecords.mem_view_of_mem_entries hentries).1 hmem
        rwa [List.inj_on_of_nodup_map hs.listed.nodup hr hmem' (hrid.trans hid.symm)]
      · exact Fin.lt_def.2 (by simp [hn])
  | spend _ _ h =>
    obtain ⟨_, _, _, _, -, -, -, -, rfl, rfl⟩ := h
    exact hu.of_eq rfl rfl
  | run _ _ _ hv => exact hu.of_eq (by rw [hv]) (by rw [hv])

theorem CommandWrite.onRecord (h : CommandWrite store s op u v) (hs : OnRecord s)
    (hu : OnRecord u) :
    OnRecord v := by
  have hlisted := h.entries.listed hs.listed hu.listed
  cases h with
  | install _ hseen h => exact h.onRecord hseen hu hlisted
  | installSet _ h => exact hu.of_same h.sameDeployments
  | confirm _ hplan h | confirmation _ hplan h =>
    exact h.onRecord (Store.seen_of_planConfirm hplan) hs hu
  | settle _ h | settlement _ _ _ h => exact hu.of_same h.sameDeployments
  | reject hplan h | rollback _ hplan h => exact h.onRecord hplan hs hu
  | failBoot _ h | retire h => exact h.onRecord hs
  | collect _ h | boot h => exact h.onRecord hs hu
  | reset => exact hs.of_eq rfl rfl

theorem EntryWrite.counted (h : EntryWrite store s op u v) (hs : Listed s.boot.view)
    (he : e ∈ v.boot.view) (hcounted : e.Counted) :
    (∃ e' ∈ u.boot.view, e'.id = e.id ∧ e'.Counted) ∨
      ∃ r plan cores, Inserts store s op u r plan cores ∧ e = plan.record := by
  have htried : ∀ {id : Text} {tries : Option (Fin 4)}, u.boot.view = s.boot.view →
      v.boot.view = withTries id tries s.boot.view →
      (∀ r ∈ s.boot.view, r.id = id → { r with triesLeft := tries }.Counted → r.Counted) →
      ∃ e' ∈ u.boot.view, e'.id = e.id ∧ e'.Counted := by
    intro id tries hu hv htries
    obtain ⟨e', he', hid, -, hcounted'⟩ := exists_of_mem_withTries_counted htries (hv ▸ he)
    exact ⟨e', hu ▸ he', hid, hcounted' hcounted⟩
  cases h with
  | same h => exact .inl ⟨e, h ▸ he, rfl, hcounted⟩
  | confirm _ hu hv => exact .inl (htried hu hv fun _ _ _ h ↦ absurd h (not_counted_none rfl))
  | retain _ _ hsub _ _ _ => exact .inl ⟨e, hsub he, rfl, hcounted⟩
  | insert hins hperm =>
    rcases List.mem_cons.1 (hperm.mem_iff.1 he) with rfl | he
    · exact .inr ⟨_, _, _, hins, rfl⟩
    · exact .inl ⟨e, he, rfl, hcounted⟩
  | @lower entry n hmem hlow hu hv =>
    refine .inl (htried hu hv fun r hr hid hn ↦ ?_)
    cases hlow with
    | retire => exact absurd hn (not_counted_zero rfl)
    | @boot _ m _ _ _ _ hm hval =>
      obtain rfl := List.inj_on_of_nodup_map hs.nodup hr hmem hid
      exact ⟨m, hm, Fin.lt_def.2 (by simp [hval])⟩

end

end MicaCore.Deploy
