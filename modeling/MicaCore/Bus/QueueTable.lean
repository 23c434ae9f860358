import MicaCore.Bus.ApplyQueue

namespace MicaCore.Bus.ApplyQueue

open Concurrent Data Settings

structure Listed (q : ApplyQueue) : Prop where
  nodup : q.order.Nodup
  mem : ∀ id, id ∈ q.order ↔ (q.records.get id).isSome = true

def Backed (q : ApplyQueue) : Prop := ∀ job ∈ q.pending, (q.records.get job.id).isSome = true

/-- Some `next` among the steps took a job that covers the path. -/
def Taken (path : Text) (q : ApplyQueue) (ls : List QueueStep) : Prop :=
  ∃ js ks q₁ q₂ job, ls = js ++ .next :: ks ∧ Runs q js q₁ ∧ q₁.next = some (job, q₂) ∧
    pathSubsumes job.dotPath path = true

def Covers (path : Text) (q : ApplyQueue) : Prop :=
  ∃ job ∈ q.pending, pathSubsumes job.dotPath path = true

/-- What is asked of a state of the queue and of every run that led to it. -/
structure Kept (q : ApplyQueue) : Prop where
  bounded : q.records.size ≤ maxTasks
  backed : q.Backed
  listed : q.Listed
  answers : ∀ operation path source, (q.enqueue operation path source).isSome = true
  running : ∀ js ks q₁ q₂ id, Runs {} js q₁ → (q₁.records.get id).isSome = true →
    q₁.step (.start id) = some q₂ → Runs q₂ ks q → (∀ l ∈ ks, l.finishes ≠ some id) →
    (q.records.get id).isSome = true
  covered : ∀ js ks q₁ q₂ operation path source, Runs {} js q₁ →
    q₁.step (.enqueue operation path source) = some q₂ → Runs q₂ ks q →
    (segments path).isSome = true → Taken path q₂ ks ∨ q.Covers path

variable {q q' : ApplyQueue} {l : QueueStep} {ls : List QueueStep} {id : ℕ}

structure Table (q : ApplyQueue) : Prop extends q.Listed where
  below : ∀ id ∈ q.order, id ≤ q.nextId

theorem Listed.size_eq (h : q.Listed) : q.records.size = q.order.length :=
  OrdMap.size_eq_length h.nodup h.mem

theorem table_new : ({} : ApplyQueue).Table := ⟨⟨.nil, fun _ ↦ by simp⟩, fun _ h ↦ by cases h⟩

theorem Table.cleared (h : q.Table) : q.cleared.Table := by
  obtain ⟨heq, -⟩ | ⟨old, -, heq⟩ := q.cleared_cases <;> rw [heq]
  · exact h
  · refine ⟨⟨h.nodup.erase old, fun id ↦ ?_⟩, fun id hid ↦ h.below id (List.mem_of_mem_erase hid)⟩
    rw [h.nodup.mem_erase_iff, h.mem, OrdMap.get_erase]
    split <;> simp [*]

theorem Table.step (h : q.Table) (hstep : q.step l = some q') : q'.Table := by
  cases changes_of_step hstep with
  | revise f horder hnext hrec _ _ _ =>
    refine ⟨⟨horder ▸ h.nodup, fun id ↦ ?_⟩, horder ▸ hnext ▸ h.below⟩
    rw [horder, h.mem, hrec, Option.isSome_map]
  | add record _ hnext horder hrec _ =>
    have hbelow (id : ℕ) (hid : id ∈ q.cleared.order) : id ≤ q.nextId :=
      q.pending_cleared.2 ▸ h.cleared.below id hid
    refine ⟨⟨?_, fun id ↦ ?_⟩, fun id hid ↦ ?_⟩
    · rw [horder, List.nodup_append]
      refine ⟨h.cleared.nodup, List.nodup_singleton _, fun id hid id' hid' ↦ ?_⟩
      have := hbelow id hid
      rw [List.mem_singleton.1 hid']
      omega
    · rw [horder, List.mem_append, List.mem_singleton, h.cleared.mem, hrec, OrdMap.get_insert]
      split <;> simp [*]
    · rw [horder, List.mem_append, List.mem_singleton] at hid
      rcases hid with hid | rfl
      · exact hnext ▸ (hbelow id hid).trans (Nat.le_succ _)
      · exact hnext.ge

theorem table_of_runs (h : Runs {} ls q) : q.Table :=
  h.invariant (fun _ _ _ hq _ hstep ↦ hq.step hstep) table_new

theorem terminal_of_oldestFinished (h : q.oldestFinished = some id) :
    ∃ record, q.records.get id = some record ∧ record.status = .finished := by
  have hany := List.find?_some h
  cases hget : q.records.get id with
  | none => simp [hget] at hany
  | some record => exact ⟨record, rfl, by simpa [hget, TaskRecord.terminal] using hany⟩

def Running (id : ℕ) (q : ApplyQueue) : Prop :=
  ∃ record, q.records.get id = some record ∧ record.status = .running

theorem Running.step (h : Running id q) (ht : q.Table) (hl : l.finishes ≠ some id)
    (hstep : q.step l = some q') : Running id q' := by
  obtain ⟨record, hget, hstatus⟩ := h
  cases changes_of_step hstep with
  | revise f _ _ hrec _ hrun _ =>
    exact ⟨f id record, by rw [hrec, hget]; rfl, hrun id record hl hstatus⟩
  | add new _ _ _ hrec _ =>
    refine ⟨record, ?_, hstatus⟩
    have hle : id ≤ q.nextId := ht.below id ((ht.mem id).2 (by rw [hget]; rfl))
    rw [hrec, OrdMap.get_insert, if_neg (by omega)]
    obtain ⟨heq, -⟩ | ⟨old, hold, heq⟩ := q.cleared_cases
    · rwa [heq]
    · obtain ⟨r, hr, hterminal⟩ := terminal_of_oldestFinished hold
      have hne : id ≠ old := by
        rintro rfl
        rw [hget] at hr
        cases hr
        rw [hstatus] at hterminal
        cases hterminal
      rw [heq, OrdMap.get_erase, if_neg hne, hget]

theorem running_of_start (hget : (q.records.get id).isSome = true) (h : q.step (.start id) = some q') :
    Running id q' := by
  obtain ⟨record, hrecord⟩ := Option.isSome_iff_exists.1 hget
  cases h
  exact ⟨{ record with status := .running }, by simp [start, update, hrecord, OrdMap.get_insert], rfl⟩

variable {path : Text}

theorem Queues.covers {path' : Text} {created : Bool} (h : q.Queues path' q' id created)
    (hc : q.Covers path) : q'.Covers path := by
  obtain ⟨job, hjob, hsub⟩ := hc
  cases h with
  | @fold folded hb _ _ =>
    obtain ⟨hmem, old, -, -, hbroad, -, hto⟩ := hb.members
    rcases hto job hjob with hjob | rfl
    · exact ⟨job, hjob, hsub⟩
    · exact ⟨folded, hmem, hbroad path hsub⟩
  | add hpending _ _ => exact ⟨job, by simp [hpending, hjob], hsub⟩

theorem Queues.covers_self {created : Bool} (h : q.Queues path q' id created)
    (hpath : (segments path).isSome = true) :
    q'.Covers path := by
  cases h with
  | @fold job hb _ _ => exact ⟨job, hb.members.1, hb.subsumes hpath⟩
  | add hpending _ _ =>
    obtain ⟨ss, hss⟩ := Option.isSome_iff_exists.1 hpath
    exact ⟨_, by rw [hpending]; exact List.mem_concat_self, pathSubsumes_self hss⟩

theorem covers_of_step (hq : q.Keyed) (h : q.step l = some q') (hc : q.Covers path) :
    Taken path q [l] ∨ q'.Covers path := by
  cases moves_of_step hq h with
  | same hpending _ _ _ => exact .inr (by rwa [Covers, hpending])
  | queue _ hqueue => exact .inr (hqueue.covers hc)
  | @take first hnext =>
    obtain ⟨job, hjob, hsub⟩ := hc
    rw [(next_eq hnext).1, List.mem_cons] at hjob
    refine hjob.imp (fun heq ↦ ?_) fun hrest ↦ ⟨job, hrest, hsub⟩
    exact ⟨[], [], q, q', first, rfl, .nil q, hnext, heq ▸ hsub⟩

theorem covers_of_runs (hq : q.Sound) (h : Runs q ls q') (hc : q.Covers path) :
    Taken path q ls ∨ q'.Covers path := by
  induction h with
  | nil => exact .inr hc
  | @cons q q₁ _ l ls _ hstep _ ih =>
    rcases covers_of_step hq.keyed hstep hc with ⟨js, ks, q₂, q₃, job, hl, hrun, hnext, hsub⟩ | hc
    · refine .inl ⟨js, ks ++ ls, q₂, q₃, job, ?_, hrun, hnext, hsub⟩
      rw [← List.singleton_append, hl, List.append_assoc, List.cons_append]
    · rcases ih (hq.step hstep) hc with ⟨js, ks, q₂, q₃, job, rfl, hrun, hnext, hsub⟩ | hc
      · exact .inl ⟨l :: js, ks, q₂, q₃, job, rfl, .cons trivial hstep hrun, hnext, hsub⟩
      · exact .inr hc

theorem isSome_enqueue (h : q.Backed) (operation path source : Text) :
    (q.enqueue operation path source).isSome = true := by
  have hnote (jobs : List ApplyJob) (job old : ApplyJob) (hold : old ∈ q.pending)
      (hid : job.id = old.id) :
      ({ q with pending := jobs }.noteFold job).isSome = true := by
    rw [noteFold, Option.isSome_map, hid]
    exact h old hold
  unfold enqueue
  split
  · next hfold =>
    obtain ⟨-, old, hold, hid, -⟩ := (broadened_of_foldInto hfold).members
    exact hnote _ _ old hold hid
  · split
    · rfl
    · split
      · rfl
      · next job rest _ hpending => exact hnote _ _ job (by simp [hpending]) rfl
      · rfl

theorem Moves.mem_pending (h : q.Moves q' l) (hnext : q'.nextId = q.nextId + 1) {job : ApplyJob}
    (hjob : job ∈ q.pending) : job ∈ q'.pending := by
  cases h with
  | same hpending _ _ _ => rwa [hpending]
  | queue _ hq =>
    cases hq with
    | fold _ _ hsame => omega
    | add hpending _ _ => simp [hpending, hjob]
  | take htake => have := (next_eq htake).2; omega

theorem Moves.id_eq (h : q.Moves q' l) {job : ApplyJob} (hjob : job ∈ q'.pending) :
    (∃ old ∈ q.pending, old.id = job.id) ∨ job.id = q.nextId + 1 ∧ q'.nextId = q.nextId + 1 := by
  cases h with
  | same hpending _ _ _ => exact .inl ⟨job, hpending ▸ hjob, rfl⟩
  | queue _ hq =>
    cases hq with
    | fold hb _ _ =>
      obtain ⟨-, old, hold, hid, -, hfrom, -⟩ := hb.members
      rcases hfrom job hjob with hjob | rfl
      · exact .inl ⟨job, hjob, rfl⟩
      · exact .inl ⟨old, hold, hid.symm⟩
    | add hpending hid hnext =>
      rw [hpending, List.mem_append, List.mem_singleton] at hjob
      rcases hjob with hjob | rfl
      · exact .inl ⟨job, hjob, rfl⟩
      · exact .inr ⟨hid, hnext.trans hid⟩
  | take htake => exact .inl ⟨job, by simp [(next_eq htake).1, hjob], rfl⟩

structure Good (q : ApplyQueue) : Prop where
  sound : q.Sound
  table : q.Table
  bounded : q.records.size ≤ maxTasks
  backed : q.Backed

section Adds

variable {record : TaskRecord} (h : q.Good) (hstep : q.step l = some q')
  (horder : q'.order = q.cleared.order ++ [q.nextId + 1])
  (hrec : q'.records = q.cleared.records.insert (q.nextId + 1) record)

include h hstep horder hrec

theorem Good.of_room (hroom : q.Room) : q'.records.size ≤ maxTasks ∧ q'.Backed := by
  have hcleared : q.cleared.order.length < maxTasks ∧ ∀ job ∈ q.pending,
      (q.cleared.records.get job.id).isSome = true := by
    have hsize := h.table.size_eq
    rcases hroom with hlt | ⟨id, hold, hfree⟩
    · rw [cleared, if_pos hlt]
      exact ⟨hsize ▸ hlt, h.backed⟩
    · obtain ⟨heq, hfull⟩ | ⟨id', hold', heq⟩ := q.cleared_cases
      · rw [heq]
        refine ⟨lt_of_not_ge fun hge ↦ ?_, h.backed⟩
        rw [hfull (hsize ▸ hge)] at hold
        cases hold
      · obtain rfl : id = id' := Option.some.inj (hold.symm.trans hold')
        have hmem : id ∈ q.order := List.mem_of_find?_eq_some hold
        have hpos := List.length_pos_of_mem hmem
        have hle := h.bounded
        rw [heq]
        refine ⟨?_, fun job hjob ↦ ?_⟩
        · change (q.order.erase id).length < maxTasks
          rw [List.length_erase_of_mem hmem]
          omega
        · rw [OrdMap.get_erase, if_neg (hfree job hjob)]
          exact h.backed job hjob
  refine ⟨?_, fun job hjob ↦ ?_⟩
  · rw [(h.table.step hstep).size_eq, horder, List.length_append]
    exact hcleared.1
  · rw [hrec, OrdMap.get_insert]
    split
    · rfl
    · next hne =>
      rcases (moves_of_step h.sound.keyed hstep).id_eq hjob with ⟨old, hold, hid⟩ | ⟨hid, -⟩
      · exact hid ▸ hcleared.2 old hold
      · exact absurd hid hne

theorem Good.room (hnext : q'.nextId = q.nextId + 1) (hsize : q'.records.size ≤ maxTasks)
    (hback : q'.Backed) : q.Room := by
  obtain ⟨heq, -⟩ | ⟨id, hold, heq⟩ := q.cleared_cases
  · rw [(h.table.step hstep).size_eq, horder, heq, List.length_append, ← h.table.size_eq] at hsize
    exact .inl hsize
  · refine .inr ⟨id, hold, fun job hjob hid ↦ ?_⟩
    have hsome := hback job ((moves_of_step h.sound.keyed hstep).mem_pending hnext hjob)
    have hbelow := h.sound.below job hjob
    rw [hrec, OrdMap.get_insert, if_neg (by omega), heq, OrdMap.get_erase, if_pos hid] at hsome
    cases hsome

end Adds

theorem Good.step_iff (h : q.Good) (hstep : q.step l = some q') :
    (q'.records.size ≤ maxTasks ∧ q'.Backed) ↔ q.Fits l := by
  cases changes_of_step hstep with
  | revise f horder hnext hrec _ _ hfits =>
    refine iff_of_true ⟨?_, fun job hjob ↦ ?_⟩ hfits
    · rw [(h.table.step hstep).size_eq, horder, ← h.table.size_eq]
      exact h.bounded
    · rw [hrec, Option.isSome_map]
      rcases (moves_of_step h.sound.keyed hstep).id_eq hjob with ⟨old, hold, hid⟩ | ⟨-, hadd⟩
      · exact hid ▸ h.backed old hold
      · omega
  | add record _ hnext horder hrec hfits =>
    rw [hfits]
    exact ⟨fun ⟨hsize, hback⟩ ↦ h.room hstep horder hrec hnext hsize hback,
      fun hroom ↦ h.of_room hstep horder hrec hroom⟩

theorem good_new : ({} : ApplyQueue).Good :=
  ⟨sound_new, table_new, Nat.zero_le _, fun _ h ↦ by cases h⟩

theorem Table.kept (h : q.Table) (hsize : q.records.size ≤ maxTasks) (hback : q.Backed) :
    q.Kept where
  bounded := hsize
  backed := hback
  listed := h.toListed
  answers := isSome_enqueue hback
  running js ks q₁ q₂ id hrun hget hstart hks hfinish := by
    have htable₂ : q₂.Table := (table_of_runs hrun).step hstart
    have hkept : Trace ApplyQueue.step (fun _ l ↦ l.finishes ≠ some id) q₂ ks q :=
      hks.imp_mem fun l hl _ _ ↦ hfinish l hl
    obtain ⟨-, record, hrecord, -⟩ := hkept.invariant (I := fun q ↦ q.Table ∧ Running id q)
      (fun _ _ _ hq hl hstep ↦ ⟨hq.1.step hstep, hq.2.step hq.1 hl hstep⟩)
      ⟨htable₂, running_of_start hget hstart⟩
    rw [hrecord]
    rfl
  covered js ks q₁ q₂ operation path source hrun henq hks hpath := by
    have hsound := sound_of_runs hrun
    obtain ⟨⟨q₃, e⟩, he, rfl⟩ := Option.map_eq_some_iff.1 henq
    exact covers_of_runs (hsound.step henq) hks
      ((queues_of_enqueue hsound.keyed he).covers_self hpath)

/-- The queue is kept just when every call that adds a task finds room for it. -/
theorem kept_iff_fits (h : Runs {} ls q) :
    (∀ js ks q₁, ls = js ++ ks → Runs {} js q₁ → q₁.Kept) ↔ Trace step Fits {} ls q := by
  have hsteps := h.forall_step_iff (I := Good) (P := fun _ _ q ↦ q.records.size ≤ maxTasks ∧ q.Backed)
    (fun _ _ _ hq hstep ↦ hq.step_iff hstep)
    (fun _ _ _ hq hstep hp ↦ ⟨hq.sound.step hstep, hq.table.step hstep, hp.1, hp.2⟩) good_new
  rw [← hsteps]
  constructor
  · intro hall js l ks q₁ q₂ hls hrun hstep
    have hkept := hall (js ++ [l]) ks q₂ (by simp [hls]) (hrun.snoc trivial hstep)
    exact ⟨hkept.bounded, hkept.backed⟩
  · intro hall js ks q₁ hls hrun
    rcases List.eq_nil_or_concat js with rfl | ⟨js, l, rfl⟩
    · cases hrun
      exact table_new.kept good_new.bounded good_new.backed
    · obtain ⟨q₂, hrun₂, hlast⟩ := (List.concat_eq_append ▸ hrun).split
      cases hlast with
      | cons _ hstep hnil =>
        cases hnil
        obtain ⟨hsize, hback⟩ := hall js l ks q₂ q₁ (by simp [hls]) hrun₂ hstep
        exact (table_of_runs hrun).kept hsize hback

/-- Two jobs, a request that the first takes in, and the worker's taking of it. -/
def foldedSteps : List QueueStep :=
  [.enqueue [] "hostname".toList [], .enqueue [] networkPath [], .enqueue [] "hostname".toList [],
    .next]

theorem kept_iff_fits_foldedSteps : ∃ q, Runs {} foldedSteps q ∧ q.Kept := by
  have hrun : Trace step Fits {} foldedSteps _ :=
    .cons (.inr (.inr (.inl (by decide)))) rfl (.cons (.inr (.inr (.inl (by decide)))) rfl
      (.cons (.inl (by decide)) rfl (.one trivial rfl)))
  have hruns : Runs {} foldedSteps _ :=
    .cons trivial rfl (.cons trivial rfl (.cons trivial rfl (.one trivial rfl)))
  exact ⟨_, hruns, (kept_iff_fits hruns).2 hrun _ [] _ (List.append_nil _).symm hruns⟩

theorem pathSubsumes_replicate {m n : ℕ} (h : m ≠ n) :
    pathSubsumes (List.replicate (m + 1) 'a') (List.replicate (n + 1) 'a') = false := by
  have hsegments (k : ℕ) :
      segments (List.replicate (k + 1) 'a') = some [List.replicate (k + 1) 'a'] := by
    have hok := splitPath_eq_ok.2 (.last (.bare (s := List.replicate (k + 1) 'a') (by simp) (by simp) (by simp)))
    rw [segments, isRoot_eq_false hok, hok]
    rfl
  simp [pathSubsumes, hsegments, List.isPrefixOf, h]

theorem foldInto_eq_none {jobs : List ApplyJob} (h : ∀ job ∈ jobs,
    pathSubsumes job.dotPath path = false ∧ pathSubsumes path job.dotPath = false) :
    foldInto path jobs = none := by
  induction jobs with
  | nil => rfl
  | cons job jobs ih =>
    obtain ⟨hjob, hjobs⟩ := List.forall_mem_cons.1 h
    simp [foldInto, hjob, ih hjobs]

theorem exists_waiting {n : ℕ} (hn : n ≤ maxTasks) : ∃ ls q, Runs {} ls q ∧ q.records.size = n ∧
    (∀ id record, q.records.get id = some record → record.status = .queued) ∧
    ∀ job ∈ q.pending, ∃ m < n, job.dotPath = List.replicate (m + 1) 'a' := by
  induction n with
  | zero => exact ⟨[], {}, .nil _, rfl, fun _ _ h ↦ (by cases h), fun _ h ↦ by cases h⟩
  | succ n ih =>
    obtain ⟨ls, q, hrun, hsize, hqueued, hjobs⟩ := ih (Nat.le_of_succ_le hn)
    have hfold : foldInto (List.replicate (n + 1) 'a') q.pending = none := by
      refine foldInto_eq_none fun job hjob ↦ ?_
      obtain ⟨m, hm, hpath⟩ := hjobs job hjob
      rw [hpath]
      exact ⟨pathSubsumes_replicate hm.ne, pathSubsumes_replicate hm.ne'⟩
    have henq : q.enqueue [] (List.replicate (n + 1) 'a') [] = some (q.push [] (List.replicate (n + 1) 'a') []) := by
      rw [enqueue, hfold]
      exact if_pos (hsize ▸ hn)
    have hrun' := hrun.snoc trivial (step_enqueue henq)
    refine ⟨_, _, hrun', ?_, fun id record hget ↦ ?_, fun job hjob ↦ ?_⟩
    · rw [(table_of_runs hrun').size_eq, ← hsize, (table_of_runs hrun).size_eq]
      exact List.length_append
    · change (q.records.insert (q.nextId + 1) _).get id = some record at hget
      rw [OrdMap.get_insert] at hget
      split at hget
      · cases hget
        rfl
      · exact hqueued id record hget
    · rcases List.mem_append.1 hjob with hjob | hjob
      · obtain ⟨m, hm, hpath⟩ := hjobs job hjob
        exact ⟨m, by omega, hpath⟩
      · exact ⟨n, Nat.lt_succ_self n, by rw [List.mem_singleton.1 hjob]⟩

/-- A task opened beside a full table of waiting ones is one too many. -/
theorem not_forall_bounded : ¬ ∀ ls q, Runs {} ls q → q.Kept := by
  intro h
  obtain ⟨ls, q, hrun, hsize, hqueued, -⟩ := exists_waiting le_rfl
  have hcleared : q.cleared = q := by
    obtain ⟨heq, -⟩ | ⟨id, hold, -⟩ := q.cleared_cases
    · exact heq
    · obtain ⟨record, hget, hfinished⟩ := terminal_of_oldestFinished hold
      rw [hqueued id record hget] at hfinished
      cases hfinished
  have hopen := hrun.snoc (i := .openTask [] .appApply [] []) trivial rfl
  have hle := (h _ _ hopen).bounded
  rw [(table_of_runs hopen).size_eq] at hle
  change (q.cleared.order ++ [_]).length ≤ maxTasks at hle
  rw [hcleared, List.length_append, ← (table_of_runs hrun).size_eq, hsize] at hle
  exact absurd hle (Nat.not_succ_le_self _)

def along (f : ApplyQueue → QueueStep → List ℕ) : ApplyQueue → List QueueStep → List ℕ
  | _, [] => []
  | q, l :: ls => f q l ++ (q.step l).elim [] fun q ↦ along f q ls

/-- What is made joins at the end, and what is taken leaves at the front. -/
theorem ids_of_step (hq : q.Keyed) (h : q.step l = some q') :
    q.pending.map ApplyJob.id ++ q.makes l = q.takes l ++ q'.pending.map ApplyJob.id ∧
      q.nextId ≤ q'.nextId ∧ (q.makes l = [] ∨ q.makes l = [q'.nextId] ∧ q.nextId < q'.nextId) := by
  cases moves_of_step hq h with
  | same hpending hle hmakes htakes => simp [hpending, hle, hmakes, htakes]
  | queue henq hqueue =>
    cases hqueue with
    | fold hb _ hnext hcreated =>
      obtain ⟨before, old, after, hjobs, hjobs', hid, -⟩ := hb.place
      simp [makes, takes, henq, hcreated, hjobs, hjobs', hid, hnext]
    | add hpending hid hnext hcreated => simp [makes, takes, henq, hcreated, hpending, hnext, hid]
  | take hnext => simp [makes, takes, hnext, next_eq hnext]

theorem ids_of_runs (hq : q.Sound) (h : Runs q ls q') :
    q.pending.map ApplyJob.id ++ along makes q ls = along takes q ls ++ q'.pending.map ApplyJob.id ∧
      (along makes q ls).Pairwise (· < ·) ∧ ∀ id ∈ along makes q ls, q.nextId < id := by
  induction h with
  | nil => simp [along]
  | @cons q q₁ q' l ls _ hstep _ ih =>
    obtain ⟨hids, hle, hmakes⟩ := ids_of_step hq.keyed hstep
    obtain ⟨hrest, hsorted, habove⟩ := ih (hq.step hstep)
    simp only [along, hstep, Option.elim_some]
    refine ⟨?_, ?_⟩
    · rw [← List.append_assoc, hids, List.append_assoc, hrest, List.append_assoc]
    · have hlater := fun id hid ↦ hle.trans_lt (habove id hid)
      rcases hmakes with hnone | ⟨hone, hlt⟩
      · rw [hnone]
        exact ⟨hsorted, hlater⟩
      · rw [hone, List.singleton_append, List.pairwise_cons, List.forall_mem_cons]
        exact ⟨⟨habove, hsorted⟩, hlt, hlater⟩

/-- Jobs are taken once, in the order in which they were made, or still wait. -/
theorem made_eq_taken (h : Runs {} ls q) :
    along makes {} ls = along takes {} ls ++ q.pending.map ApplyJob.id ∧
      (along makes {} ls).Pairwise (· < ·) :=
  ⟨by simpa using (ids_of_runs sound_new h).1, (ids_of_runs sound_new h).2.1⟩

theorem made_eq_taken_foldedSteps : ∃ q, Runs {} foldedSteps q ∧
    along makes {} foldedSteps = [1, 2] ∧
    along takes {} foldedSteps = [1] ∧
    along makes {} foldedSteps = along takes {} foldedSteps ++ q.pending.map ApplyJob.id := by
  have hrun : Runs {} foldedSteps _ :=
    .cons trivial rfl (.cons trivial rfl (.cons trivial rfl (.one trivial rfl)))
  exact ⟨_, hrun, by decide, by decide, (made_eq_taken hrun).1⟩

end MicaCore.Bus.ApplyQueue
