import MicaCore.Deploy.EntrySpec

namespace MicaCore.Deploy

open Data Crash Prog

/-- Some entry has a boot left. -/
def Device.Bootable (d : Device) : Prop :=
  ∃ entries, d.boot.entries = .ok entries ∧ ∃ r ∈ entries, r.triesLeft ≠ some 0

def Command.isBoot : Command → Bool
  | .boot .. => true
  | _ => false

/-- Confirmed entries are retired only beside another one; without an entry that has a boot left
the command itself refuses. -/
def SparesConfirmed (s : Device) (op : Command) : Prop :=
  ∀ entry ∈ s.boot.view, op.retires s = some entry.id → entry.triesLeft = none →
    (∃ e ∈ s.boot.view, e.id ≠ entry.id ∧ e.triesLeft ≠ some 0) →
      ∃ e ∈ s.boot.view, e.id ≠ entry.id ∧ e.triesLeft = none

instance (s : Device) (op : Command) : Decidable (SparesConfirmed s op) := by
  unfold SparesConfirmed
  infer_instance

theorem bootable_of_listed {d : Device} (h : Listed d.boot.view)
    (hleft : ∃ r ∈ d.boot.view, r.triesLeft ≠ some 0) : d.Bootable := by
  obtain ⟨r, hr, hne⟩ := hleft
  obtain ⟨es, hes⟩ := BootRecords.entries_of_listed h (List.ne_nil_of_mem hr)
  exact ⟨es, hes, r, (BootRecords.mem_view_of_mem_entries hes).2 hr, hne⟩

theorem Device.Bootable.listed {d : Device} (h : d.Bootable) :
    Listed d.boot.view ∧ ∃ r ∈ d.boot.view, r.triesLeft ≠ some 0 := by
  obtain ⟨es, hes, r, hr, hne⟩ := h
  obtain ⟨hperm, hlist⟩ := BootRecords.entries_eq_ok hes
  exact ⟨hlist.toListed.perm hperm.symm, r, hperm.mem_iff.1 hr, hne⟩

theorem exists_confirmed_of_lowers {s : Device} {op : Command} (hs : Listed s.boot.view)
    (hconf : ∃ r ∈ s.boot.view, r.triesLeft = none) (hspare : SparesConfirmed s op) {entry : Record}
    {n : Fin 4} (hmem : entry ∈ s.boot.view) (hlow : Lowers s op entry n) :
    ∃ r ∈ s.boot.view, r.id ≠ entry.id ∧ r.triesLeft = none := by
  obtain ⟨r, hr, hnone⟩ := hconf
  have hother : entry.triesLeft ≠ none → ∃ r ∈ s.boot.view, r.id ≠ entry.id ∧
      r.triesLeft = none := by
    intro hne
    refine ⟨r, hr, fun hid ↦ hne ?_, hnone⟩
    rw [← List.inj_on_of_nodup_map hs.nodup hr hmem hid]
    exact hnone
  cases hlow with
  | boot htries => exact hother (by simp [htries])
  | retire hop he hne hleft =>
    by_cases htries : entry.triesLeft = none
    · exact hspare entry hmem hop htries ⟨_, he, hne, hleft⟩
    · exact hother htries

/-- Only the loader takes the last launchable entry, and not where confirmed ones are spared. -/
theorem bootable_of_run (store : Store) {s t : Device} {es : List (Event Command Device)}
    (hs : ∃ r, s.boot.entries = .ok [r] ∧ r.triesLeft = none)
    (hrun : Run store.exec (fun _ _ ↦ True) s es t) :
    (∀ e ∈ es, e.op.isBoot = false → e.before.Bootable → ∀ u ∈ e.visited, u.Bootable) ∧
      ((∀ e ∈ es, SparesConfirmed e.before e.op) → ∀ u ∈ s :: states es, u.Bootable) := by
  constructor
  · intro e he hop hbefore u hu
    obtain ⟨hvalid, -, -⟩ := hrun.before_mem he
    have hone : Run store.exec (fun _ op ↦ op.isBoot = false) e.before [e] e.after :=
      .one hvalid hop
    obtain ⟨hlisted, hleft⟩ := Store.run_invariant
      (I := fun d ↦ Listed d.boot.view ∧ ∃ r ∈ d.boot.view, r.triesLeft ≠ some 0)
      (fun hs hop h hu ↦ ⟨h.entries.listed hs.1 hu.1, h.entries.exists_left (P := (· ≠ some 0)) (by simp)
        (fun entry _ n hlow ↦ by
          cases hlow with
          | boot => simp [Command.isBoot] at hop
          | retire _ he hne hleft => exact ⟨_, he, hne, hleft⟩) hu.2⟩)
      hbefore.listed hone u (by simp [states, hu])
    exact bootable_of_listed hlisted hleft
  · intro hspare u hu
    obtain ⟨r, hentries, hnone⟩ := hs
    obtain ⟨hperm, hlist⟩ := BootRecords.entries_eq_ok hentries
    obtain ⟨hlisted, r, hr, hnone⟩ := Store.run_invariant
      (I := fun d ↦ Listed d.boot.view ∧ ∃ r ∈ d.boot.view, r.triesLeft = none)
      (fun hs ha h hu ↦ ⟨h.entries.listed hs.1 hu.1, h.entries.exists_left (P := (· = none)) rfl
        (fun entry hmem n hlow ↦ exists_confirmed_of_lowers hs.1 hs.2 ha hmem hlow) hu.2⟩)
      ⟨hlist.toListed.perm hperm.symm, r, hperm.mem_iff.1 (by simp), hnone⟩ (hrun.strengthen hspare) u hu
    exact bootable_of_listed hlisted ⟨r, hr, by simp [hnone]⟩

def Sample.rolledBack : List (Command × Option ℕ) :=
  [(Sample.boot 1, none), (Sample.install 2, none), (Sample.boot 2, none), (.confirm, none),
    (.rollback, some 1), (Sample.boot 1, none)]

theorem bootable_of_run_rolledBack : ((states (Run.play Sample.store.exec Sample.device
    Sample.rolledBack)).getLastD Sample.device).Bootable :=
  have hrun := Run.of_play Sample.store.exec (fun _ _ ↦ True) Sample.device Sample.rolledBack
    fun _ _ ↦ trivial
  (bootable_of_run Sample.store ⟨⟨Sample.hexId 1, Sample.hexId 12, 1, none⟩, by decide⟩
    hrun).2 (by decide +kernel) _ hrun.end_mem

def Sample.confirmedRejected : List (Command × Option ℕ) :=
  [(Sample.boot 1, none), (Sample.install 2, none), (.reject (Sample.hexId 1), none),
    (Sample.boot 2, none), (Sample.boot 2, none), (Sample.boot 2, none)]

/-- Rejecting the confirmed deployment leaves only the candidate, whose boots run out. -/
theorem not_forall_bootable : ¬ ∀ (store : Store) (s t : Device) (es : List (Event Command Device)),
    (∃ r, s.boot.entries = .ok [r] ∧ r.triesLeft = none) →
      Run store.exec (fun _ op ↦ op.onEntries = true) s es t →
      ∀ u ∈ s :: states es, u.Bootable := by
  intro h
  have hrun := Run.of_play Sample.store.exec (fun _ op ↦ op.onEntries = true) Sample.device
    Sample.confirmedRejected (by decide)
  have hbootable := h _ _ _ _ ⟨⟨Sample.hexId 1, Sample.hexId 12, 1, none⟩, by decide⟩ hrun _
    hrun.end_mem
  obtain ⟨-, r, hr, hne⟩ := hbootable.listed
  have hspent : ∀ r ∈ ((states (Run.play Sample.store.exec Sample.device
      Sample.confirmedRejected)).getLastD Sample.device).boot.view, r.triesLeft = some 0 := by
    decide +kernel
  exact hne (hspent r hr)

end MicaCore.Deploy
