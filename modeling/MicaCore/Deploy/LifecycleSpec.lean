import MicaCore.Deploy.BootSpec
import MicaCore.Deploy.CollectionSpec
import Mathlib.Data.List.Dedup

namespace MicaCore.Deploy

open Data Crash Prog

theorem tried_self {b : BootRecords} {es : List Record} {entry : Record}
    (hes : b.entries = .ok es) (he : entry ∈ es) : Tried entry.id entry.triesLeft b b where
  view := by
    obtain ⟨hperm, hlist⟩ := BootRecords.entries_eq_ok hes
    have hnd : (b.view.map Record.id).Nodup := (hperm.map Record.id).nodup_iff.1 hlist.nodup
    refine ((List.map_congr_left fun r hr ↦ ?_).trans (List.map_id b.view)).symm
    split
    · next hid => rw [List.inj_on_of_nodup_map hnd hr (hperm.mem_iff.1 he) hid]; rfl
    · rfl
  held r hr := ⟨r, hr, rfl⟩
  isFit := rfl
  isUbi := rfl

theorem mem_of_find_id {es : List Record} {entry : Record} {id : Text}
    (h : es.find? (·.id == id) = some entry) : entry ∈ es ∧ entry.id = id :=
  ⟨List.mem_of_find?_eq_some h, by simpa using List.find?_some h⟩

structure Store.Confirmation.Seen (plan : Store.Confirmation) (receipt : BootReceipt) (s : Device) :
    Prop where
  entries : s.boot.entries = .ok plan.entries
  current : plan.current ∈ plan.entries
  id : plan.current.id = receipt.deploymentId
  launched : plan.current.triesLeft ≠ some 3
  state : ∃ effective, s.effectiveState = .ok effective ∧
    let failed := effective.recordFailures plan.entries receipt.deploymentId
    plan.current.id ∉ failed.failed ∧
      plan.state = failed.confirm (failed.nextFallback plan.entries plan.current) plan.current

theorem Store.seen_of_planConfirm {store : Store} {receipt : BootReceipt} {s : Device}
    {plan : Store.Confirmation} (h : store.planConfirm receipt s = .ok plan) :
    plan.Seen receipt s := by
  simp only [Store.planConfirm, bind_eq_ok, pure_eq_ok, orError_eq_ok, ensure_eq_ok] at h
  obtain ⟨_, _, effective, heff, entries, hentries, current, hfind, _, hlaunched, _, hfailed, rfl⟩ := h
  obtain ⟨hmem, hid⟩ := mem_of_find_id hfind
  exact ⟨hentries, hmem, hid, by simpa using hlaunched, effective, heff, by simpa using hfailed, rfl⟩

def Store.Confirmation.keep (plan : Store.Confirmation) : List (Option Text) :=
  [plan.state.current, plan.state.fallback, plan.state.candidate]

/-- The entry, DATA's record, and last the entries that are not kept. -/
inductive ConfirmWrite (plan : Store.Confirmation) (s : Device) : Device → Device → Prop
  | adds {u v : Device} : Adds u v → ConfirmWrite plan s u v
  | tries {b b' : BootRecords} : plan.current.triesLeft.isSome → Kept s.boot b →
      Kept s.boot b' ∨ Tried plan.current.id none s.boot b' →
      ConfirmWrite plan s { s with boot := b } { s with boot := b' }
  | save {b : BootRecords} {i i' : AList fun _ : Item ↦ Bytes} :
      Tried plan.current.id none s.boot b →
      SameItems s.items i → SameItems s.items i' →
      ConfirmWrite plan s { s with boot := b, items := i }
        { s with boot := b, items := i', data := some plan.state }
  | retain {b₀ b b' : BootRecords} {i : AList fun _ : Item ↦ Bytes} :
      Tried plan.current.id none s.boot b₀ → SameItems s.items i →
      Retaining plan.keep b₀ b → Retaining plan.keep b₀ b' → b'.view ⊆ b.view →
      ConfirmWrite plan s { s with boot := b, items := i, data := some plan.state }
        { s with boot := b', items := i, data := some plan.state }

def Confirmed (plan : Store.Confirmation) (s t : Device) : Prop :=
  ∃ b₀ b i, Tried plan.current.id none s.boot b₀ ∧ SameItems s.items i ∧ Retaining plan.keep b₀ b ∧
    (∀ r ∈ b.held, keeps plan.keep r = true) ∧
    t = { s with boot := b, items := i, data := some plan.state }

theorem not_mem_entries_of_keeps {plan : Store.Confirmation} {receipt : BootReceipt} {s : Device}
    (hseen : plan.Seen receipt s) {b : BootRecords} (htried : Tried plan.current.id none s.boot b)
    {r : Record} (hk : keeps plan.keep r = false) (hr : r ∈ b.view) : r ∈ plan.entries := by
  have hcurrent : plan.state.current = some plan.current.id := by
    obtain ⟨_, _, _, hstate⟩ := hseen.state
    rw [hstate]
    rfl
  have hne : r.id ≠ plan.current.id := by
    intro h
    simp [keeps, Store.Confirmation.keep, hcurrent, h] at hk
  rw [htried.view] at hr
  obtain ⟨r', hr', rfl⟩ := List.mem_map.1 hr
  split at hne
  · next hid => exact absurd hid hne
  · next hid => simpa [hid] using (BootRecords.mem_view_of_mem_entries hseen.entries).2 hr'

variable (store : Store)

theorem Store.wp_confirm (receipt : BootReceipt) (s : Device) :
    wp (store.confirm receipt)
      (fun u v ↦ ∃ plan, store.planConfirm receipt s = .ok plan ∧ ConfirmWrite plan s u v)
      (onOk fun _ t ↦ ∃ plan, store.planConfirm receipt s = .ok plan ∧ Confirmed plan s t) s := by
  unfold Store.confirm
  refine wp_read_seq fun plan hplan ↦ ?_
  have hseen := Store.seen_of_planConfirm hplan
  rw [wp_bind]
  -- once the entry is uncounted, the rest is the same on both ways here
  have hrest : ∀ b, Tried plan.current.id none s.boot b →
      wp (do
          saveState plan.state
          retainEntries plan.entries plan.keep
          pure plan.state : Op State)
        (fun u v ↦ ∃ plan', store.planConfirm receipt s = .ok plan' ∧ ConfirmWrite plan' s u v)
        (onOk fun _ t ↦ ∃ plan', store.planConfirm receipt s = .ok plan' ∧ Confirmed plan' s t)
        { s with boot := b } := by
    intro b hb
    rw [wp_bind]
    refine wp_replace (fun i hi ↦ ⟨plan, hplan, .adds hi.adds⟩)
      (fun i i' hi hi' ↦ ⟨plan, hplan, .save hb hi hi'⟩) fun i hi ↦ ?_
    rw [andThen_ok, wp_bind]
    refine wp_retainEntries (fun c c' hc hc' hsub ↦ ⟨plan, hplan, .retain hb hi hc hc' hsub⟩)
      (fun _ _ _ ↦ trivial) (fun r hk hr ↦ not_mem_entries_of_keeps hseen hb hk hr) fun c hc hheld ↦ ?_
    rw [andThen_ok, wp_pure, onOk_ok]
    exact ⟨plan, hplan, b, c, i, hb, hi, hc, hheld, rfl⟩
  rw [wp_when]
  refine ⟨fun hsome ↦ ?_, fun hnone ↦ ?_⟩
  · exact wp_setTries hseen.entries hseen.current
      (fun b b' hb hb' ↦ ⟨plan, hplan, .tries hsome hb hb'⟩) (fun _ ↦ trivial) hrest
  · have htries : plan.current.triesLeft = none := by simpa using hnone
    have := tried_self hseen.entries hseen.current
    rw [htries] at this
    exact hrest s.boot this

structure Rejection.Seen (plan : Rejection) (id : Text) (s : Device) : Prop where
  isId : isId id = true
  entries : ∃ entries, s.boot.entries = .ok entries ∧ plan.entry ∈ entries ∧
    ∃ e ∈ entries, e.id ≠ id ∧ e.triesLeft ≠ some 0
  entry_id : plan.entry.id = id
  state : ∃ effective, s.effectiveState = .ok effective ∧ effective.fallback ≠ some id ∧
    plan.state = (effective.pushFailed id).clearCandidate (· == id)

theorem seen_of_planReject {id : Text} {s : Device} {plan : Rejection}
    (h : planReject id s = .ok plan) : plan.Seen id s := by
  simp only [planReject, bind_eq_ok, pure_eq_ok, orError_eq_ok, ensure_eq_ok, validId_eq_ok] at h
  obtain ⟨_, hid, effective, heff, entries, hentries, entry, hfind, _, hany, _, hfallback, rfl⟩ := h
  obtain ⟨hmem, hentry⟩ := mem_of_find_id hfind
  obtain ⟨e, he, hother⟩ := List.any_eq_true.1 hany
  simp only [Bool.and_eq_true, bne_iff_ne] at hother
  exact ⟨hid, ⟨entries, hentries, hmem, e, he, hother⟩, hentry, effective, heff,
    by simpa using hfallback, rfl⟩

/-- The durable writes of a rejection: the entry, then DATA's record. -/
inductive RejectWrite (plan : Rejection) (s : Device) : Device → Device → Prop
  | adds {u v : Device} : Adds u v → RejectWrite plan s u v
  | tries {b b' : BootRecords} : plan.entry.triesLeft ≠ some 0 → Kept s.boot b →
      Kept s.boot b' ∨ Tried plan.entry.id (some 0) s.boot b' →
      RejectWrite plan s { s with boot := b } { s with boot := b' }
  | save {b : BootRecords} {i i' : AList fun _ : Item ↦ Bytes} :
      Tried plan.entry.id (some 0) s.boot b → SameItems s.items i → SameItems s.items i' →
      RejectWrite plan s { s with boot := b, items := i }
        { s with boot := b, items := i', data := some plan.state }

theorem wp_reject (id : Text) (s : Device) :
    wp (reject id) (fun u v ↦ ∃ plan, planReject id s = .ok plan ∧ RejectWrite plan s u v)
      (fun _ _ ↦ True) s := by
  unfold reject
  refine wp_read_seq fun plan hplan ↦ ?_
  have hseen := seen_of_planReject hplan
  obtain ⟨entries, hentries, hmem, -⟩ := hseen.entries
  rw [wp_bind]
  have hrest : ∀ b, Tried plan.entry.id (some 0) s.boot b →
      wp (do
          saveState plan.state
          pure plan.state : Op State)
        (fun u v ↦ ∃ plan', planReject id s = .ok plan' ∧ RejectWrite plan' s u v)
        (fun _ _ ↦ True) { s with boot := b } := by
    intro b hb
    rw [wp_bind]
    exact wp_replace (fun i hi ↦ ⟨plan, hplan, .adds hi.adds⟩)
      (fun i i' hi hi' ↦ ⟨plan, hplan, .save hb hi hi'⟩) fun i hi ↦ by simp
  rw [wp_when]
  refine ⟨fun hne ↦ ?_, fun heq ↦ ?_⟩
  · exact wp_setTries hentries hmem
      (fun b b' hb hb' ↦ ⟨plan, hplan, .tries (by simpa using hne) hb hb'⟩) (fun _ ↦ trivial) hrest
  · have htries : plan.entry.triesLeft = some 0 := by simpa using heq
    have := tried_self hentries hmem
    rw [htries] at this
    exact hrest s.boot this

theorem Store.wp_rollback (receipt : BootReceipt) (s : Device) :
    wp (store.rollback receipt)
      (fun u v ↦ ∃ plan, planReject receipt.deploymentId s = .ok plan ∧ RejectWrite plan s u v)
      (fun _ _ ↦ True) s := by
  rw [Store.rollback]
  exact wp_read_seq fun _ _ ↦ wp_reject receipt.deploymentId s

/-- One confirmed entry goes, beside another that can be launched. -/
inductive RetireWrite (id : Text) (s : Device) : Device → Device → Prop
  | tries {entries : List Record} {entry e : Record} {b b' : BootRecords} :
      s.boot.entries = .ok entries → entry ∈ entries → entry.id = id → entry.triesLeft = none →
      e ∈ entries → e.id ≠ id → e.triesLeft ≠ some 0 → Kept s.boot b →
      Kept s.boot b' ∨ Tried id (some 0) s.boot b' →
      RetireWrite id s { s with boot := b } { s with boot := b' }

theorem wp_retireFailedConfirmed (id : Text) (s : Device) :
    wp (retireFailedConfirmed id) (RetireWrite id s) (fun _ _ ↦ True) s := by
  unfold retireFailedConfirmed
  refine wp_ofExcept_seq fun u _ ↦ ?_
  refine wp_read_seq fun entries hentries ↦ ?_
  refine wp_ofExcept_seq fun entry hfind ↦ ?_
  obtain ⟨hmem, rfl⟩ := mem_of_find_id (orError_eq_ok.1 hfind)
  split
  · simp
  · next hsome =>
    have htries : entry.triesLeft = none := by simpa using hsome
    rw [wp_bind, wp_ensure]
    refine ⟨fun hany ↦ ?_, fun _ ↦ trivial⟩
    obtain ⟨e, he, hother⟩ := List.any_eq_true.1 hany
    simp only [Bool.and_eq_true, bne_iff_ne] at hother
    rw [andThen_ok, wp_bind]
    exact wp_setTries hentries hmem
      (fun b b' hb hb' ↦ .tries hentries hmem rfl htries he hother.1 hother.2 hb hb')
      (fun _ ↦ trivial) fun b _ ↦ by simp

theorem Store.wp_failBoot (receipt : BootReceipt) (s : Device) :
    wp (store.failBoot receipt) (RetireWrite receipt.deploymentId s) (fun _ _ ↦ True) s := by
  rw [Store.failBoot]
  exact wp_read_seq fun _ _ ↦ wp_retireFailedConfirmed receipt.deploymentId s

/-- Both copies forget what the one in use does not hold, then the objects go. -/
inductive CollectWrite (store : Store) (receipt : BootReceipt) (s : Device) : Device → Device → Prop
  | retain {entries : List Record} {b b' : BootRecords} :
      s.boot.entries = .ok entries →
      Retaining (entries.map fun e ↦ some e.id) s.boot b →
      Retaining (entries.map fun e ↦ some e.id) s.boot b' → b'.view ⊆ b.view →
      CollectWrite store receipt s { s with boot := b } { s with boot := b' }
  | drops {entries : List Record} {retained : List Text} {c : Collection} {b : BootRecords}
      {u v : Device} :
      s.boot.entries = .ok entries → store.collection s receipt retained none = .ok c →
      (∀ e ∈ entries, e.id ∈ retained) →
      Retaining (entries.map fun e ↦ some e.id) s.boot b →
      (∀ r ∈ b.held, keeps (entries.map fun e ↦ some e.id) r = true) →
      Drops c { s with boot := b } u → Drops c u v → CollectWrite store receipt s u v

theorem Store.wp_collect (receipt : BootReceipt) (s : Device) :
    wp (store.collect receipt) (CollectWrite store receipt s) (fun _ _ ↦ True) s := by
  unfold Store.collect
  refine wp_read_seq fun state _ ↦ ?_
  refine wp_read_seq fun entries hentries ↦ ?_
  refine wp_read_seq fun c hc ↦ ?_
  rw [wp_bind, wp_read, hentries, andThen_ok, wp_bind]
  refine wp_retainEntries (fun b b' hb hb' hsub ↦ .retain hentries hb hb' hsub)
    (fun _ _ _ ↦ trivial)
    (fun r _ hr ↦ (BootRecords.mem_view_of_mem_entries hentries).2 hr) fun b hb hheld ↦ ?_
  rw [andThen_ok]
  have hdrops := wp_invariant (Drops c { s with boot := b }) (.refl _ _) (fun _ _ h h' ↦ h.trans h')
    (wp_apply c { s with boot := b })
  refine wp_mono hdrops (fun u v huv ↦ ?_) fun _ _ _ ↦ trivial
  refine .drops hentries hc (fun e he ↦ ?_) hb hheld huv.1 huv.2
  rw [List.mem_dedup]
  exact List.mem_append_right _ (List.mem_map_of_mem he)

end MicaCore.Deploy
