import MicaCore.Deploy.Leftover
import MicaCore.Deploy.OneTrial
import MicaCore.Deploy.References

namespace MicaCore.Deploy

open Data Crash Prog

/-- What runs has an entry among the records in use. -/
def RunningEntered (d : Device) : Prop :=
  ∀ r, d.run = some r → ∃ e ∈ d.boot.view, e.id = r.receipt.deploymentId

section

variable {store : Store} {s u v : Device} {op : Command} {id : Text}

theorem exists_id_withTries {records : List Record} {tries : Option (Fin 4)}
    (h : ∃ e ∈ records, e.id = id) (other : Text) :
    ∃ e ∈ withTries other tries records, e.id = id := by
  obtain ⟨e, he, rfl⟩ := h
  by_cases hid : e.id = other
  · exact ⟨_, mem_withTries_self he hid, rfl⟩
  · exact ⟨e, mem_withTries_of_ne he hid, rfl⟩

theorem Launched.entered {b b' : BootRecords} (h : Launched id b b') :
    ∃ e ∈ b'.view, e.id = id := by
  cases h with
  | confirmed hentries he hid _ =>
    exact ⟨_, (BootRecords.mem_view_of_mem_entries hentries).1 he, hid⟩
  | counted hentries he hid _ _ hb' =>
    exact hb'.view ▸ exists_id_withTries ⟨_, (BootRecords.mem_view_of_mem_entries hentries).1 he, hid⟩ id

/-- A write that takes entries away keeps the running one. -/
theorem EntryWrite.entered (h : EntryWrite store s op u v) {r : Running} (hrun : u.run = some r)
    (hu : ∃ e ∈ u.boot.view, e.id = r.receipt.deploymentId) :
    ∃ e ∈ v.boot.view, e.id = r.receipt.deploymentId := by
  cases h with
  | same hview => rwa [hview]
  | confirm _ hsame hview | lower _ _ hsame hview =>
    rw [hview]
    exact exists_id_withTries (hsame ▸ hu) _
  | retain _ _ _ he _ hid => exact ⟨_, he, by simpa [hrun, eq_comm] using hid⟩
  | insert _ hview =>
    obtain ⟨e, he, hid⟩ := hu
    exact ⟨e, hview.mem_iff.2 (List.mem_cons_of_mem _ he), hid⟩

theorem CommandWrite.runningEntered (hu : RunningEntered u) (h : CommandWrite store s op u v) :
    RunningEntered v := by
  intro r hv
  have hkept (hrun : u.run = some r) := h.entries.entered hrun (hu r hrun)
  cases h.names with
  | same _ hsame => exact hkept (hsame ▸ hv)
  | stop _ hnone =>
    rw [hnone] at hv
    cases hv
  | boot _ hlaunched _ heq =>
    subst heq
    cases hv
    exact hlaunched.entered
  | install _ _ _ _ _ _ _ _ _ heq | installSet _ _ _ _ _ _ heq | settle _ _ _ _ _ _ _ _ heq =>
    subst heq
    exact hkept hv

theorem Composes.named {state : SetState} {deployment : Text} {alone : Bool} {core : CoreBoot}
    (h : Composes state deployment alone core) : core.coreSetId ∈ state.named := by
  cases h with
  | paired hpending _ | alone hpending _ _ => simp [SetState.named, hpending]
  | bound _ hbound => simpa [SetState.named] using .inr (OrdMap.mem_values.2 ⟨_, hbound⟩)
  | current _ _ hcurrent => simp [SetState.named, hcurrent]

/-- A set that comes up is one the set state names. -/
theorem CommandWrite.comesUp (hv : SetsInstalled store v) (h : CommandWrite store s op u v)
    (hu : u.run = none) {r : Running} (hrun : v.run = some r) :
    SetInstalled store v r.core.coreSetId := by
  have hnever (hsame : v.run = u.run) : SetInstalled store v r.core.coreSetId := by
    rw [hsame, hu] at hrun
    cases hrun
  cases h.names with
  | same _ hsame => exact hnever hsame
  | stop _ hnone =>
    rw [hnone] at hrun
    cases hrun
  | boot hstate _ hc heq =>
    obtain ⟨⟨trial, i, hform, -⟩, -, alone, hcomposes, -⟩ := hc
    refine hv.named _ ?_
    rw [Device.names_of_readState hstate (by rw [heq, hform])]
    subst heq
    cases hrun
    exact hcomposes.named
  | install _ _ _ _ _ _ _ _ _ heq | installSet _ _ _ _ _ _ heq | settle _ _ _ _ _ _ _ _ heq =>
    exact hnever (by rw [heq])

end

section

variable (store : Store) {s t : Device} {es : List (Event Command Device)}

/-- The deployment that runs keeps its entry and what that refers to. -/
theorem running_of_run (hentries : EntriesInstalled store s) (hs : RunningEntered s)
    (hrun : Run store.exec (fun _ _ ↦ True) s es t) : ∀ u ∈ s :: states es, ∀ r, u.run = some r →
      ∃ e ∈ u.boot.view, e.id = r.receipt.deploymentId ∧ Installed store u e.id := by
  intro u hu r hr
  obtain ⟨hinstalled, hentered⟩ := Store.run_invariant
    (I := fun d ↦ EntriesInstalled store d ∧ RunningEntered d)
    (fun hs _ h hu ↦ ⟨h.entriesInstalled hu.1 hs.1, h.runningEntered hu.2⟩) ⟨hentries, hs⟩ hrun u hu
  obtain ⟨e, he, hid⟩ := hentered r hr
  exact ⟨e, he, hid, hinstalled e (BootRecords.view_subset_held _ he)⟩

/-- The set that comes up at a boot is installed. -/
theorem comesUp_of_run (hsets : SetsInstalled store s)
    (hrun : Run store.exec (fun _ _ ↦ True) s es t) :
    (s :: states es).IsChain fun u v ↦ ∀ r, u.run = none → v.run = some r →
      SetInstalled store v r.core.coreSetId :=
  Store.run_isChain (I := SetsInstalled store) (fun _ _ h hu ↦ h.setsInstalled hu)
    (fun _ _ h hu _ hnone hsome ↦ h.comesUp (h.setsInstalled hu) hnone hsome) hsets hrun

/-- A candidate is reported exactly while an entry is on trial, and it is that one. -/
theorem reported_of_run (hs : AtRest s) (hrun : Run store.exec (fun _ _ ↦ True) s es t) :
    ∀ u ∈ s :: states es, Listed u.boot.view ∧ ∀ st, u.effectiveState = .ok st →
      (st.candidate = none ↔ ∀ e ∈ u.boot.view, ¬ e.Counted) ∧
        ∀ e ∈ u.boot.view, e.Counted → Reported st e := by
  intro u hu
  have hrecord := Store.run_invariant (I := OnRecord) (fun hs _ h hu ↦ h.onRecord hs hu)
    hs.onTrial.record
    hrun u hu
  exact ⟨hrecord.listed, fun st heff ↦ ⟨hrecord.candidate_eq_none_iff heff, fun _ ↦ hrecord.reported heff⟩⟩

end

namespace Sample

def last : Device := (states (Run.play store.exec device updatedTwice)).getLastD device

theorem run_updatedTwice :
    Run store.exec (fun _ _ ↦ True) device (Run.play store.exec device updatedTwice) last :=
  Run.of_play _ _ _ _ fun _ _ ↦ trivial

theorem running_of_run_updatedTwice : ∃ r, last.run = some r ∧
    ∃ e ∈ last.boot.view, e.id = r.receipt.deploymentId ∧ Installed store last e.id := by
  obtain ⟨r, hr⟩ := Option.isSome_iff_exists.1 (show last.run.isSome = true by decide +kernel)
  exact ⟨r, hr, running_of_run store entriesInstalled_device (fun _ h ↦ by cases h) run_updatedTwice _
    run_updatedTwice.end_mem r hr⟩

theorem comesUp_of_run_updatedTwice :
    (device :: states (Run.play store.exec device updatedTwice)).IsChain fun u v ↦
      ∀ r, u.run = none → v.run = some r → SetInstalled store v r.core.coreSetId :=
  comesUp_of_run store setsInstalled_device run_updatedTwice

theorem reported_of_run_updatedTwice : Listed last.boot.view :=
  (reported_of_run store atRest run_updatedTwice _ run_updatedTwice.end_mem).1

end Sample

end MicaCore.Deploy
