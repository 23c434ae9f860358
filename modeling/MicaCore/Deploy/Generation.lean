import MicaCore.Deploy.EntrySpec

namespace MicaCore.Deploy

open Data Crash Prog

theorem State.highest_le {state : State} {entries : List Record} {n : ℕ} :
    state.highest entries ≤ n ↔ state.highestGeneration ≤ n ∧ ∀ r ∈ entries, r.generation ≤ n := by
  have hfold : (entries.map Record.generation).foldr max 0 ≤ n ↔
      ∀ r ∈ entries, r.generation ≤ n := by
    induction entries with
    | nil => simp
    | cons r rs ih => simp [ih]
  rw [State.highest, Nat.max_le, hfold]

namespace Device

def floor (d : Device) : ℕ := d.recorded.highest d.boot.view

variable {d : Device} {n : ℕ}

theorem floor_le : d.floor ≤ n ↔
    d.recorded.highestGeneration ≤ n ∧ ∀ r ∈ d.boot.view, r.generation ≤ n := State.highest_le

theorem recorded_le_floor : d.recorded.highestGeneration ≤ d.floor := (floor_le.1 le_rfl).1

theorem generation_le_floor {r : Record} (h : r ∈ d.boot.view) : r.generation ≤ d.floor :=
  (floor_le.1 le_rfl).2 r h

theorem highestGeneration_effectiveState {state : State} (h : d.effectiveState = .ok state) :
    state.highestGeneration = d.floor := by
  simp only [effectiveState, bind_eq_ok] at h
  obtain ⟨recorded, hrecorded, entries, hentries, h⟩ := h
  rw [(State.effective_eq_ok h).2.1, state_eq_ok hrecorded]
  refine eq_of_forall_ge_iff fun n ↦ ?_
  rw [State.highest_le, floor_le]
  simp only [BootRecords.mem_view_of_mem_entries hentries]

end Device

/-- The write keeps the floor, and a deployment it activates is above it. -/
structure Raises (u v : Device) : Prop where
  floor : u.floor ≤ v.floor
  activated : ∀ r ∈ v.boot.view, (∀ r' ∈ u.boot.view, r'.id ≠ r.id) → u.floor < r.generation

/-- No entry is newer than both DATA's floor and the running entry. -/
def FloorRecorded (s : Device) : Command → Prop
  | .install .. => ∀ r ∈ s.boot.view, r.generation ≤ s.recorded.highestGeneration ∨
      ∃ e ∈ s.boot.view, s.run.map (·.receipt.deploymentId) = some e.id ∧
      r.generation ≤ e.generation
  | _ => True

instance (s : Device) (op : Command) : Decidable (FloorRecorded s op) := by
  unfold FloorRecorded
  split <;> infer_instance

theorem raises_of_eq {u v : Device} (hboot : v.boot.view = u.boot.view)
    (hdata : u.recorded.highestGeneration ≤ v.recorded.highestGeneration) : Raises u v where
  floor := Device.floor_le.2 ⟨hdata.trans Device.recorded_le_floor,
    fun _ hr ↦ Device.generation_le_floor (hboot ▸ hr)⟩
  activated r hr hnew := absurd rfl (hnew r (hboot ▸ hr))

theorem withTries_ids_generations {id : Text} {tries : Option (Fin 4)} {records : List Record} :
    (withTries id tries records).map (fun r ↦ (r.id, r.generation)) =
      records.map fun r ↦ (r.id, r.generation) := by
  rw [withTries, List.map_map]
  refine List.map_congr_left fun r _ ↦ ?_
  simp only [Function.comp_apply]
  split <;> rfl

theorem exists_of_mem_of_map_eq {records records' : List Record}
    (h : records'.map (fun r ↦ (r.id, r.generation)) = records.map fun r ↦ (r.id, r.generation))
    {r : Record} (hr : r ∈ records) : ∃ r' ∈ records', r'.id = r.id ∧
    r'.generation = r.generation := by
  have hmem : (r.id, r.generation) ∈ records'.map fun r ↦ (r.id, r.generation) :=
    h ▸ List.mem_map_of_mem hr
  obtain ⟨r', hr', he⟩ := List.mem_map.1 hmem
  exact ⟨r', hr', by simpa using he⟩

theorem raises_of_map_eq {u v : Device} (hboot : v.boot.view.map (fun r ↦ (r.id, r.generation)) =
      u.boot.view.map fun r ↦ (r.id, r.generation))
    (hdata : u.recorded.highestGeneration ≤ v.recorded.highestGeneration) : Raises u v where
  floor := by
    refine Device.floor_le.2 ⟨hdata.trans Device.recorded_le_floor, fun r hr ↦ ?_⟩
    obtain ⟨r', hr', -, hgen⟩ := exists_of_mem_of_map_eq hboot hr
    exact hgen ▸ Device.generation_le_floor hr'
  activated r hr hnew := by
    obtain ⟨r', hr', hid, -⟩ := exists_of_mem_of_map_eq hboot.symm hr
    exact absurd hid (hnew r' hr')

theorem Tried.map_eq {id : Text} {tries : Option (Fin 4)} {b b' : BootRecords}
    (h : Tried id tries b b') : b'.view.map (fun r ↦ (r.id, r.generation)) =
      b.view.map fun r ↦ (r.id, r.generation) := by
  rw [h.view, withTries_ids_generations]

section

variable {store : Store} {s u v : Device} {op : Command}

variable {id : Text}

theorem raises_of_tried {tries : Option (Fin 4)} {b b' : BootRecords}
    (run : Option Running) (hb : Kept s.boot b) (hb' : Kept s.boot b' ∨ Tried id tries s.boot b') :
    Raises { s with boot := b, run := run } { s with boot := b', run := run } := by
  refine raises_of_map_eq ?_ le_rfl
  rcases hb' with hb' | hb'
  · simp only [hb'.view, hb.view]
  · simp only [hb'.map_eq, hb.view]

theorem raises_of_boot_data {u v : Device} (hboot : v.boot = u.boot) (hdata : v.data = u.data) :
    Raises u v := raises_of_eq (by rw [hboot]) (by rw [Device.recorded, Device.recorded, hdata])

theorem SameDeployments.recorded_le (h : SameDeployments u v) :
    u.recorded.highestGeneration ≤ v.recorded.highestGeneration := by
  rw [Device.recorded, Device.recorded, h.data]

theorem SameDeployments.raises (h : SameDeployments u v) : Raises u v :=
  raises_of_boot_data h.boot h.data

theorem State.highestGeneration_recordFailures {entries : List Record}
    {running : Text} (state : State) :
    (state.recordFailures entries running).highestGeneration = state.highestGeneration := by
  unfold State.recordFailures
  simp only [State.clearCandidate]
  induction entries generalizing state with
  | nil => rfl
  | cons e es ih =>
    rw [List.foldl_cons, ih]
    split
    · unfold State.pushFailed
      split <;> rfl
    · rfl

variable {plan : Store.Confirmation} {receipt : BootReceipt}

theorem Store.Confirmation.Seen.highestGeneration
    (hseen : plan.Seen receipt s) : plan.state.highestGeneration = s.floor := by
  obtain ⟨effective, heff, -, hstate⟩ := hseen.state
  rw [hstate, ← Device.highestGeneration_effectiveState heff]
  exact State.highestGeneration_recordFailures effective

theorem highestGeneration_of_planReject {plan : Rejection}
    (hplan : planReject id s = .ok plan) : plan.state.highestGeneration = s.floor := by
  obtain ⟨effective, heff, -, hstate⟩ := (seen_of_planReject hplan).state
  rw [hstate, ← Device.highestGeneration_effectiveState heff]
  simp only [State.clearCandidate, State.pushFailed]
  split <;> rfl

theorem ConfirmWrite.recorded_le (hseen : plan.Seen receipt s) (h : ConfirmWrite plan s u v) :
    u.recorded.highestGeneration ≤ v.recorded.highestGeneration := by
  cases h with
  | adds h => exact h.sameDeployments.recorded_le
  | tries | retain => exact le_rfl
  | save => exact (Device.recorded_le_floor (d := s)).trans_eq hseen.highestGeneration.symm

theorem RejectWrite.recorded_le {plan : Rejection} (hplan : planReject id s = .ok plan)
    (h : RejectWrite plan s u v) : u.recorded.highestGeneration ≤ v.recorded.highestGeneration := by
  cases h with
  | adds h => exact h.sameDeployments.recorded_le
  | tries => exact le_rfl
  | save => exact (Device.recorded_le_floor (d := s)).trans_eq (highestGeneration_of_planReject hplan).symm

theorem InstallWrite.recorded_le {plan : Installation} {envelope : Bytes}
    (hseen : plan.Seen store envelope receipt s)
    (h : InstallWrite store plan receipt.deploymentId envelope s u v) :
    u.recorded.highestGeneration ≤ v.recorded.highestGeneration := by
  cases h with
  | adds h => exact h.sameDeployments.recorded_le
  | retain | name | insert => exact le_rfl
  | save =>
    exact (Device.recorded_le_floor (d := s)).trans_eq
      (Device.highestGeneration_effectiveState hseen.effective).symm
  | drops _ _ _ h =>
    obtain ⟨i, rfl, -⟩ := h
    exact le_rfl
  | final _ _ _ hu _ _ =>
    subst hu
    exact hseen.newer.le

theorem ConfirmWrite.raises (hseen : plan.Seen receipt s) (h : ConfirmWrite plan s u v) :
    Raises u v := by
  have hgen := hseen.highestGeneration
  have hrecorded := h.recorded_le hseen
  cases h with
  | adds h => exact h.sameDeployments.raises
  | tries _ hb hb' => exact raises_of_tried _ hb hb'
  | save _ _ _ => exact raises_of_eq rfl hrecorded
  | @retain b₀ b b' i htried hi hret hret' hsub =>
    have hfloor : ∀ c : BootRecords, Retaining plan.keep b₀ c →
        Device.floor { s with boot := c, items := i, data := some plan.state } = s.floor := by
      intro c hc
      refine le_antisymm (Device.floor_le.2 ⟨hgen.le, fun r hr ↦ ?_⟩) ?_
      · obtain ⟨r', hr', -, he⟩ := exists_of_mem_of_map_eq htried.map_eq.symm (hc.sub.subset hr)
        exact he ▸ Device.generation_le_floor hr'
      · rw [← hgen]
        exact Device.recorded_le_floor (d := { s with boot := c, items := i, data := some plan.state })
    refine ⟨(hfloor b hret).trans (hfloor b' hret').symm |>.le, fun r hr hnew ↦ ?_⟩
    exact absurd rfl (hnew r (hsub hr))

theorem RejectWrite.raises {plan : Rejection} (hplan : planReject id s = .ok plan)
    (h : RejectWrite plan s u v) : Raises u v := by
  have hrecorded := h.recorded_le hplan
  cases h with
  | adds h => exact h.sameDeployments.raises
  | tries _ hb hb' => exact raises_of_tried _ hb hb'
  | save _ _ _ => exact raises_of_eq rfl hrecorded

theorem RetireWrite.raises (h : RetireWrite id s u v) : Raises u v := by
  cases h with
  | tries _ _ _ _ _ _ _ hb hb' => exact raises_of_tried _ hb hb'

theorem BootWrite.raises (h : BootWrite store id receipt s u v) : Raises u v := by
  cases h with
  | adds h => exact h.sameDeployments.raises
  | stop => exact raises_of_boot_data rfl rfl
  | count _ _ _ _ _ hb hb' => exact raises_of_tried none hb hb'
  | spend _ _ h =>
    obtain ⟨_, _, _, _, -, -, -, -, rfl, rfl⟩ := h
    exact raises_of_boot_data rfl rfl
  | run _ _ _ hv =>
    subst hv
    exact raises_of_boot_data rfl rfl

theorem CollectWrite.raises (h : CollectWrite store receipt s u v) : Raises u v := by
  cases h with
  | @retain entries b b' hentries hb hb' _ =>
    have hview := hb'.view_eq_of_entries hentries
    exact raises_of_eq (hview.trans (hb.view_eq_of_entries hentries).symm) le_rfl
  | drops _ _ _ _ _ _ h =>
    obtain ⟨i, rfl, -⟩ := h
    exact raises_of_boot_data rfl rfl

theorem InstallWrite.raises {plan : Installation} {envelope : Bytes}
    (hseen : plan.Seen store envelope receipt s)
    (hrecorded : ∀ r ∈ s.boot.view, r.generation ≤ s.recorded.highestGeneration ∨
      ∃ e ∈ s.boot.view, receipt.deploymentId = e.id ∧ r.generation ≤ e.generation)
    (h : InstallWrite store plan receipt.deploymentId envelope s u v) : Raises u v := by
  have hle := h.recorded_le hseen
  have hgen : plan.state.highestGeneration = s.floor :=
    Device.highestGeneration_effectiveState hseen.effective
  have hnewer : s.floor < plan.deployment.generation := hgen ▸ hseen.newer
  -- while the running entry stands, the records cannot fall below the floor
  have hkept : ∀ b : BootRecords, Retaining [some receipt.deploymentId] s.boot b →
      Device.floor { s with boot := b } = s.floor := by
    intro b hb
    refine le_antisymm (Device.floor_le.2 ⟨Device.recorded_le_floor (d := s), fun r hr ↦
      Device.generation_le_floor (hb.sub.subset hr)⟩) (Device.floor_le.2 ⟨?_, fun r hr ↦ ?_⟩)
    · exact Device.recorded_le_floor (d := { s with boot := b })
    · rcases hrecorded r hr with h | ⟨e, he, hid, hle⟩
      · exact h.trans (Device.recorded_le_floor (d := { s with boot := b }))
      · refine hle.trans (Device.generation_le_floor (d := { s with boot := b }) (hb.kept e he ?_))
        simp [keeps, hid]
  cases h with
  | adds h => exact h.sameDeployments.raises
  | retain hb hb' hsub =>
    exact ⟨((hkept _ hb).trans (hkept _ hb').symm).le, fun r hr hnew ↦ absurd rfl (hnew r (hsub hr))⟩
  | save _ _ _ => exact raises_of_eq rfl hle
  | drops _ _ _ h =>
    obtain ⟨i, rfl, -⟩ := h
    exact raises_of_boot_data rfl rfl
  | name _ _ hu _ _ _ => exact raises_of_boot_data rfl rfl
  | @insert b b' b'' i i' held cores u hret _ hu _ _ hb' hb'' _ =>
    have hfloor : u.floor = s.floor := by
      subst hu
      refine le_antisymm (Device.floor_le.2 ⟨hgen.le, fun r hr ↦ ?_⟩) (hgen.ge.trans ?_)
      · exact Device.generation_le_floor (hret.retaining.sub.subset (hb'.view ▸ hr))
      · exact Device.recorded_le_floor (d := { s with
          boot := b', data := some plan.retainedState, items := i, sets := some cores })
    rcases hb'' with hb'' | hb''
    · exact raises_of_eq (by rw [hu]; exact hb''.view.trans hb'.view.symm) le_rfl
    · have hview : ∀ r, r ∈ b''.view ↔ r = plan.record ∨ r ∈ u.boot.view := fun r ↦ by
        rw [hb''.view.mem_iff, List.mem_cons, hu, hb'.view]
      refine ⟨Device.floor_le.2 ⟨?_, fun r hr ↦ ?_⟩, fun r hr hnew ↦ ?_⟩
      · exact Device.recorded_le_floor (d := { u with boot := b'', items := i' })
      · exact Device.generation_le_floor (d := { u with boot := b'', items := i' })
          ((hview r).2 (.inr hr))
      · rcases (hview r).1 hr with rfl | hr
        · exact hfloor ▸ hnewer
        · exact absurd rfl (hnew r hr)
  | final _ _ _ _ _ _ => exact raises_of_eq rfl hle

theorem CommandWrite.raises (hrecorded : FloorRecorded s op) (h : CommandWrite store s op u v) :
    Raises u v := by
  cases h with
  | install hrun hseen h =>
    refine h.raises hseen fun r hr ↦ (hrecorded r hr).imp id ?_
    rintro ⟨e, he, hid, hle⟩
    exact ⟨e, he, by simpa [hrun] using hid, hle⟩
  | installSet _ h => exact h.sameDeployments.raises
  | confirm _ hplan h | confirmation _ hplan h => exact h.raises (Store.seen_of_planConfirm hplan)
  | settle _ h | settlement _ _ _ h => exact h.sameDeployments.raises
  | reject hplan h | rollback _ hplan h => exact h.raises hplan
  | failBoot _ h | retire h => exact h.raises
  | collect _ h | boot h => exact h.raises
  | reset => exact raises_of_boot_data rfl rfl

end

/-- Where installations start with that on record, activated deployments are newer than all before. -/
theorem generation_of_run (store : Store) {s t : Device} {es : List (Event Command Device)}
    (hrun : Run store.exec FloorRecorded s es t) :
    (s :: states es).Pairwise (fun u v ↦ ∀ a b, u.effectiveState = .ok a → v.effectiveState = .ok b →
        a.highestGeneration ≤ b.highestGeneration) ∧
      ∀ xs u v ys, s :: states es = xs ++ u :: v :: ys →
        ∀ r ∈ v.boot.view, (∀ r' ∈ u.boot.view, r'.id ≠ r.id) →
          ∀ w ∈ xs ++ [u], ∀ r' ∈ w.boot.view, r'.generation < r.generation := by
  have hchain : List.IsChain Raises (s :: states es) :=
    Store.run_isChain (I := fun _ ↦ True) (fun _ _ _ _ ↦ trivial)
      (fun _ ha h _ ↦ h.raises ha) trivial
      hrun
  have hfloor : (s :: states es).Pairwise fun u v ↦ u.floor ≤ v.floor := by
    have : List.IsChain (fun u v : Device ↦ u.floor ≤ v.floor) (s :: states es) :=
      hchain.imp fun _ _ h ↦ h.floor
    exact (List.isChain_map (f := Device.floor)).2 this |>.pairwise |> List.pairwise_map.1
  refine ⟨hfloor.imp fun huv a b ha hb ↦ ?_, fun xs u v ys hsplit r hr hnew w hw r' hr' ↦ ?_⟩
  · rw [Device.highestGeneration_effectiveState ha, Device.highestGeneration_effectiveState hb]
    exact huv
  · rw [hsplit] at hchain hfloor
    have huv : Raises u v := (List.isChain_append_cons_cons.1 hchain).2.1
    have hwu : w.floor ≤ u.floor := by
      rcases List.mem_append.1 hw with hw | hw
      · exact (List.pairwise_append.1 hfloor).2.2 w hw u (by simp)
      · rw [List.mem_singleton.1 hw]
    calc r'.generation ≤ w.floor := Device.generation_le_floor hr'
      _ ≤ u.floor := hwu
      _ < r.generation := huv.activated r hr hnew

theorem generation_of_run_updatedTwice :
    (Sample.device :: states (Run.play Sample.store.exec Sample.device Sample.updatedTwice)).Pairwise
      fun u v ↦ ∀ a b, u.effectiveState = .ok a → v.effectiveState = .ok b →
        a.highestGeneration ≤ b.highestGeneration :=
  (generation_of_run Sample.store (Run.of_play _ _ _ _ (by decide +kernel))).1

/-- Cuts before DATA records a candidate, and after its entry is retired, forget it. -/
def Sample.candidateForgotten : List (Command × Option ℕ) :=
  [(Sample.boot 1, none), (Sample.install 2, some 8), (Sample.boot 1, none),
    (.reject (Sample.hexId 2), some 1), (Sample.boot 1, none), (Sample.install 3, some 1)]

/-- A forgotten candidate takes its generation with it, and the next may be lower. -/
theorem not_forall_generation :
    ¬ ∀ (store : Store) (s t : Device) (es : List (Event Command Device)),
      Run store.exec (fun _ op ↦ op.onEntries = true) s es t →
        (s :: states es).Pairwise (fun u v ↦ ∀ a b, u.effectiveState = .ok a →
            v.effectiveState = .ok b → a.highestGeneration ≤ b.highestGeneration) ∧
          ∀ xs u v ys, s :: states es = xs ++ u :: v :: ys →
            ∀ r ∈ v.boot.view, (∀ r' ∈ u.boot.view, r'.id ≠ r.id) →
              ∀ w ∈ xs ++ [u], ∀ r' ∈ w.boot.view, r'.generation < r.generation := by
  intro h
  have hrun := Run.of_play Sample.store.exec (fun _ op ↦ op.onEntries = true) Sample.device
    Sample.candidateForgotten (by decide)
  have hfalls : ¬ List.Pairwise
      (fun u v : Device ↦ (u.effectiveState.toOption.map (·.highestGeneration)).getD 0 ≤
        (v.effectiveState.toOption.map (·.highestGeneration)).getD 0)
      (Sample.device :: states (Run.play Sample.store.exec Sample.device
        Sample.candidateForgotten)) := by decide +kernel
  have hread : ∀ u ∈ Sample.device :: states (Run.play Sample.store.exec Sample.device
      Sample.candidateForgotten), u.effectiveState.toOption.isSome = true := by decide +kernel
  refine hfalls ((h _ _ _ _ hrun).1.imp_of_mem fun {u v} hu hv huv ↦ ?_)
  have hok : ∀ {x : Except String State}, x.toOption.isSome = true → ∃ a, x = .ok a := by
    intro x hx
    cases x with
    | error e => cases hx
    | ok a => exact ⟨a, rfl⟩
  obtain ⟨a, ha⟩ := hok (hread u hu)
  obtain ⟨b, hb⟩ := hok (hread v hv)
  rw [ha, hb]
  exact huv a b ha hb

end MicaCore.Deploy
