import MicaCore.Bus.Overlap
import MicaCore.Concurrent.Threads

namespace MicaCore.Bus

open Concurrent Data Settings

def maxTasks : ℕ := 128

inductive Status where
  | queued
  | running
  | finished
  deriving DecidableEq

inductive TaskKind where
  | networkApply
  | appApply
  | settingsApply
  deriving DecidableEq

structure TaskRecord where
  id : ℕ
  operation : Text
  kind : TaskKind
  dotPath : Text
  source : Text
  status : Status := .queued
  outcome : Option Text := none
  message : Option Text := none
  interfaces : List Text := []
  foldedCount : ℕ := 0
  deriving DecidableEq

def TaskRecord.terminal (record : TaskRecord) : Bool := record.status == .finished

structure ApplyJob where
  id : ℕ
  dotPath : Text
  deriving DecidableEq

structure Enqueued where
  record : TaskRecord
  created : Bool

structure ApplyQueue where
  nextId : ℕ := 0
  pending : List ApplyJob := []
  order : List ℕ := []
  records : OrdMap ℕ TaskRecord := .empty

def networkPath : Text := "network".toList

def kindOf (dotPath : Text) : TaskKind :=
  if pathsOverlap dotPath networkPath then .networkApply else .settingsApply

/-- The first job that subsumes the path or is subsumed, broadened then, in its place. -/
def foldInto (dotPath : Text) : List ApplyJob → Option (ApplyJob × List ApplyJob)
  | [] => none
  | job :: rest =>
    if pathSubsumes job.dotPath dotPath || pathSubsumes dotPath job.dotPath then
      let job := if pathSubsumes dotPath job.dotPath then { job with dotPath } else job
      some (job, job :: rest)
    else (foldInto dotPath rest).map fun folded ↦ (folded.1, job :: folded.2)

namespace ApplyQueue

/-- A folded job's record follows the job; every pending job is expected to have one. -/
def noteFold (q : ApplyQueue) (job : ApplyJob) : Option (ApplyQueue × Enqueued) :=
  (q.records.get job.id).map fun record ↦
    let record := { record with
      kind := kindOf job.dotPath
      dotPath := job.dotPath
      foldedCount := record.foldedCount + 1 }
    ({ q with records := q.records.insert job.id record }, ⟨record, false⟩)

def dropTerminal (q : ApplyQueue) : Option ApplyQueue :=
  (q.order.find? fun id ↦ (q.records.get id).any TaskRecord.terminal).map fun id ↦
    { q with order := q.order.erase id, records := q.records.erase id }

def record (q : ApplyQueue) (operation : Text) (kind : TaskKind) (dotPath source : Text) :
    ApplyQueue × TaskRecord :=
  let record : TaskRecord := { id := q.nextId + 1, operation, kind, dotPath, source }
  ({ q with
      nextId := q.nextId + 1
      order := q.order ++ [q.nextId + 1]
      records := q.records.insert (q.nextId + 1) record }, record)

def push (q : ApplyQueue) (operation dotPath source : Text) : ApplyQueue × Enqueued :=
  let recorded := q.record operation (kindOf dotPath) dotPath source
  ({ recorded.1 with pending := q.pending ++ [⟨q.nextId + 1, dotPath⟩] }, ⟨recorded.2, true⟩)

/-- A request is folded or added; a full table broadens the oldest job. `none` is the panic. -/
def enqueue (q : ApplyQueue) (operation dotPath source : Text) : Option (ApplyQueue × Enqueued) :=
  match foldInto dotPath q.pending with
  | some (job, pending) => { q with pending }.noteFold job
  | none =>
    if q.records.size < maxTasks then some (q.push operation dotPath source)
    else match q.dropTerminal, q.pending with
      | some q, _ => some (q.push operation dotPath source)
      | none, job :: rest =>
        { q with pending := { job with dotPath := [] } :: rest }.noteFold { job with dotPath := [] }
      | none, [] => some (q.push operation dotPath source)

def openTask (q : ApplyQueue) (operation : Text) (kind : TaskKind) (dotPath source : Text) :
    ApplyQueue × TaskRecord :=
  let q := if q.records.size < maxTasks then q else q.dropTerminal.getD q
  q.record operation kind dotPath source

def next (q : ApplyQueue) : Option (ApplyJob × ApplyQueue) :=
  match q.pending with
  | [] => none
  | job :: rest => some (job, { q with pending := rest })

def update (q : ApplyQueue) (id : ℕ) (f : TaskRecord → TaskRecord) : ApplyQueue :=
  match q.records.get id with
  | none => q
  | some record => { q with records := q.records.insert id (f record) }

def start (q : ApplyQueue) (id : ℕ) : ApplyQueue := q.update id ({ · with status := .running })

def finish (q : ApplyQueue) (id : ℕ) (outcome : Text) (message : Option Text)
    (interfaces : List Text) : ApplyQueue :=
  q.update id ({ · with status := .finished, outcome := some outcome, message, interfaces })

end ApplyQueue

inductive QueueStep where
  | enqueue (operation dotPath source : Text)
  | openTask (operation : Text) (kind : TaskKind) (dotPath source : Text)
  | next
  | start (id : ℕ)
  | finish (id : ℕ) (outcome : Text) (message : Option Text) (interfaces : List Text)

def QueueStep.finishes : QueueStep → Option ℕ
  | .finish id _ _ _ => some id
  | _ => none

def ApplyQueue.step (q : ApplyQueue) : QueueStep → Option ApplyQueue
  | .enqueue operation dotPath source => (q.enqueue operation dotPath source).map (·.1)
  | .openTask operation kind dotPath source => some (q.openTask operation kind dotPath source).1
  | .next => q.next.map (·.2)
  | .start id => some (q.start id)
  | .finish id outcome message interfaces => some (q.finish id outcome message interfaces)

abbrev ApplyQueue.Runs := Trace ApplyQueue.step fun _ _ ↦ True

section

variable {p : Text}

theorem pathSubsumes_iff {q : Text} :
    pathSubsumes p q = true ↔ ∃ ps qs, segments p = some ps ∧ segments q = some qs ∧ ps <+: qs := by
  unfold pathSubsumes
  cases segments p <;> cases segments q <;> simp

theorem pathSubsumes_trans {q r : Text} (h : pathSubsumes p q = true)
    (h' : pathSubsumes q r = true) : pathSubsumes p r = true := by
  obtain ⟨ps, qs, hp, hq, hpq⟩ := pathSubsumes_iff.1 h
  obtain ⟨qs', rs, hq', hr, hqr⟩ := pathSubsumes_iff.1 h'
  obtain rfl : qs = qs' := by simpa [hq] using hq'
  exact pathSubsumes_iff.2 ⟨ps, rs, hp, hr, hpq.trans hqr⟩

theorem pathSubsumes_self {ps : List Text} (h : segments p = some ps) : pathSubsumes p p = true :=
  pathSubsumes_iff.2 ⟨ps, ps, h, h, List.prefix_rfl⟩

theorem pathSubsumes_root {ps : List Text} (h : segments p = some ps) : pathSubsumes [] p = true :=
  pathSubsumes_iff.2 ⟨[], ps, rfl, h, List.nil_prefix⟩

/-- A job gave way to one of its identity that subsumes what it did and `path`. -/
structure Broadened (path : Text) (jobs jobs' : List ApplyJob) (job : ApplyJob) : Prop where
  place : ∃ before old after, jobs = before ++ old :: after ∧ jobs' = before ++ job :: after ∧
    job.id = old.id ∧ ∀ r, pathSubsumes old.dotPath r = true → pathSubsumes job.dotPath r = true
  subsumes : (segments path).isSome → pathSubsumes job.dotPath path = true
  named : job.dotPath = path ∨ job.dotPath = [] ∨ ∃ old ∈ jobs, old.dotPath = job.dotPath

theorem broadened_of_foldInto {path : Text} {jobs jobs' : List ApplyJob} {job : ApplyJob}
    (h : foldInto path jobs = some (job, jobs')) : Broadened path jobs jobs' job := by
  induction jobs generalizing jobs' with
  | nil => cases h
  | cons old rest ih =>
    rw [foldInto] at h
    split at h
    · next hmatch =>
      rw [Bool.or_eq_true] at hmatch
      cases h
      by_cases hp : pathSubsumes path old.dotPath = true
      · rw [if_pos hp]
        refine ⟨⟨[], old, rest, rfl, rfl, rfl, fun r hr ↦ pathSubsumes_trans hp hr⟩, fun hs ↦ ?_,
          .inl rfl⟩
        obtain ⟨ps, hps⟩ := Option.isSome_iff_exists.1 hs
        exact pathSubsumes_self hps
      · rw [if_neg hp]
        exact ⟨⟨[], old, rest, rfl, rfl, rfl, fun r hr ↦ hr⟩, fun _ ↦ hmatch.resolve_right hp,
          .inr (.inr ⟨old, by simp, rfl⟩)⟩
    · obtain ⟨folded, hfold, heq⟩ := Option.map_eq_some_iff.1 h
      cases heq
      obtain ⟨⟨before, old', after, hjobs, hjobs', hrest⟩, hsub, hnamed⟩ := ih hfold
      exact ⟨⟨old :: before, old', after, by simp [hjobs], by simp [hjobs'], hrest⟩, hsub,
        hnamed.imp_right (.imp_right (.imp fun _ h ↦ ⟨by simp [h.1], h.2⟩))⟩

theorem Broadened.members {path : Text} {jobs jobs' : List ApplyJob} {job : ApplyJob}
    (h : Broadened path jobs jobs' job) : job ∈ jobs' ∧ ∃ old ∈ jobs, job.id = old.id ∧
      (∀ r, pathSubsumes old.dotPath r = true → pathSubsumes job.dotPath r = true) ∧
      (∀ j ∈ jobs', j ∈ jobs ∨ j = job) ∧ ∀ j ∈ jobs, j ∈ jobs' ∨ j = old := by
  obtain ⟨⟨before, old, after, rfl, rfl, hid, hbroad⟩, -⟩ := h
  refine ⟨by simp, old, by simp, hid, hbroad, ?_, ?_⟩
  · grind
  · grind

end

namespace ApplyQueue

variable {q q' : ApplyQueue} {e : Enqueued} {job : ApplyJob} {operation dotPath source : Text}

theorem noteFold_eq_some (h : q.noteFold job = some (q', e)) :
    q'.pending = q.pending ∧ q'.nextId = q.nextId ∧ e.created = false ∧
      ∃ record, q.records.get job.id = some record ∧ e.record.id = record.id := by
  obtain ⟨record, hget, heq⟩ := Option.map_eq_some_iff.1 h
  cases heq
  exact ⟨rfl, rfl, rfl, record, hget, rfl⟩

theorem dropTerminal_eq_some (h : q.dropTerminal = some q') :
    q'.pending = q.pending ∧ q'.nextId = q.nextId := by
  obtain ⟨id, -, rfl⟩ := Option.map_eq_some_iff.1 h
  exact ⟨rfl, rfl⟩

/-- A job is broadened to take the request, or one is added and the answer says so. -/
inductive Queues (q : ApplyQueue) (path : Text) (q' : ApplyQueue) (id : ℕ) (created : Bool) : Prop
  | fold {job : ApplyJob} : Broadened path q.pending q'.pending job → job.id = id →
      q'.nextId = q.nextId → created = false → Queues q path q' id created
  | add : q'.pending = q.pending ++ [⟨id, path⟩] → id = q.nextId + 1 → q'.nextId = id →
      created = true → Queues q path q' id created

def Keyed (q : ApplyQueue) : Prop := ∀ id record, q.records.get id = some record → record.id = id

theorem queues_of_enqueue (hkeyed : q.Keyed) (h : q.enqueue operation dotPath source = some (q', e)) :
    q.Queues dotPath q' e.record.id e.created := by
  have hnote {jobs : List ApplyJob} {job : ApplyJob} (hb : Broadened dotPath q.pending jobs job)
      (h : { q with pending := jobs }.noteFold job = some (q', e)) :
      q.Queues dotPath q' e.record.id e.created := by
    obtain ⟨hpending, hnext, hcreated, record, hget, hid⟩ := noteFold_eq_some h
    exact .fold (hpending ▸ hb) (hid.trans (hkeyed _ _ hget)).symm hnext hcreated
  unfold enqueue at h
  split at h
  · next hfold => exact hnote (broadened_of_foldInto hfold) h
  · split at h
    · cases h
      exact .add rfl rfl rfl rfl
    · split at h
      · next q₁ _ hdrop =>
        cases h
        obtain ⟨hpending, hnext⟩ := dropTerminal_eq_some hdrop
        refine .add ?_ ?_ rfl rfl
        · rw [← hpending]
          rfl
        · rw [← hnext]
          rfl
      · next old rest _ hpending =>
        have hroot : Broadened dotPath q.pending ({ old with dotPath := [] } :: rest)
            { old with dotPath := [] } := by
          refine ⟨⟨[], old, rest, hpending, rfl, rfl, fun r hr ↦ ?_⟩, fun hs ↦ ?_, .inr (.inl rfl)⟩
          · obtain ⟨_, rs, _, hrs, _⟩ := pathSubsumes_iff.1 hr
            exact pathSubsumes_root hrs
          · obtain ⟨ps, hps⟩ := Option.isSome_iff_exists.1 hs
            exact pathSubsumes_root hps
        exact hnote hroot h
      · cases h
        exact .add rfl rfl rfl rfl

/-- The task a full table gives up: the first that is finished. -/
def oldestFinished (q : ApplyQueue) : Option ℕ :=
  q.order.find? fun id ↦ (q.records.get id).any TaskRecord.terminal

def cleared (q : ApplyQueue) : ApplyQueue :=
  if q.records.size < maxTasks then q else q.dropTerminal.getD q

/-- There is room, or a task to give up that no pending job stands for. -/
def Room (q : ApplyQueue) : Prop :=
  q.records.size < maxTasks ∨ ∃ id, q.oldestFinished = some id ∧ ∀ job ∈ q.pending, job.id ≠ id

/-- A step that adds a task finds room for it. -/
def Fits (q : ApplyQueue) : QueueStep → Prop
  | .enqueue _ dotPath _ =>
    foldInto dotPath q.pending ≠ none ∨ (q.pending ≠ [] ∧ q.oldestFinished = none) ∨ q.Room
  | .openTask _ _ _ _ => q.Room
  | _ => True

/-- A step revises records, or adds one to what it cleared. -/
inductive Changes (q : ApplyQueue) (l : QueueStep) (q' : ApplyQueue) : Prop
  | revise (f : ℕ → TaskRecord → TaskRecord) : q'.order = q.order → q'.nextId = q.nextId →
      (∀ id, q'.records.get id = (q.records.get id).map (f id)) → (∀ id r, (f id r).id = r.id) →
      (∀ id r, l.finishes ≠ some id → r.status = .running → (f id r).status = .running) →
      q.Fits l → Changes q l q'
  | add (record : TaskRecord) : record.id = q.nextId + 1 → q'.nextId = q.nextId + 1 →
      q'.order = q.cleared.order ++ [q.nextId + 1] →
      q'.records = q.cleared.records.insert (q.nextId + 1) record → (q.Fits l ↔ q.Room) →
      Changes q l q'

variable {id : ℕ} {l : QueueStep} {g : TaskRecord → TaskRecord}

theorem cleared_cases (q : ApplyQueue) :
    (q.cleared = q ∧ (maxTasks ≤ q.records.size → q.oldestFinished = none)) ∨
    ∃ id, q.oldestFinished = some id ∧
      q.cleared = { q with order := q.order.erase id, records := q.records.erase id } := by
  unfold cleared
  split
  · next hlt => exact .inl ⟨rfl, fun hle ↦ absurd hlt hle.not_gt⟩
  · cases hold : q.oldestFinished with
    | none =>
      have hdrop : q.dropTerminal = none := Option.map_eq_none_iff.2 hold
      exact .inl ⟨by rw [hdrop, Option.getD_none], fun _ ↦ rfl⟩
    | some id =>
      have hdrop : q.dropTerminal = some _ := Option.map_eq_some_iff.2 ⟨id, hold, rfl⟩
      exact .inr ⟨id, rfl, by rw [hdrop, Option.getD_some]⟩

theorem pending_cleared (q : ApplyQueue) :
    q.cleared.pending = q.pending ∧ q.cleared.nextId = q.nextId := by
  obtain ⟨h, -⟩ | ⟨id, -, h⟩ := q.cleared_cases <;> rw [h] <;> exact ⟨rfl, rfl⟩

theorem changes_insert {record : TaskRecord} (hget : q.records.get id = some record)
    (hrec : q'.records = q.records.insert id (g record)) (horder : q'.order = q.order)
    (hnext : q'.nextId = q.nextId) (hid : ∀ r, (g r).id = r.id)
    (hrun : l.finishes ≠ some id → ∀ r, r.status = .running → (g r).status = .running)
    (hfits : q.Fits l) : q.Changes l q' := by
  refine .revise (fun id' r ↦ if id' = id then g r else r) horder hnext (fun id' ↦ ?_)
    (fun id' r ↦ ?_)
    (fun id' r hne hr ↦ ?_) hfits
  · rw [hrec, OrdMap.get_insert]
    split
    · next heq => simp [heq, hget]
    · simp
  · split
    · exact hid r
    · rfl
  · split
    · next heq => exact hrun (heq ▸ hne) r hr
    · exact hr

theorem changes_noteFold {jobs : List ApplyJob}
    (h : { q with pending := jobs }.noteFold job = some (q', e))
    (hfits : q.Fits l) : q.Changes l q' := by
  obtain ⟨record, hget, heq⟩ := Option.map_eq_some_iff.1 h
  cases heq
  exact changes_insert (g := fun r ↦ { r with
    kind := kindOf job.dotPath, dotPath := job.dotPath, foldedCount := r.foldedCount + 1 })
    hget rfl rfl rfl (fun _ ↦ rfl) (fun _ _ hr ↦ hr) hfits

theorem changes_update (hid : ∀ r, (g r).id = r.id)
    (hrun : l.finishes ≠ some id → ∀ r, r.status = .running → (g r).status = .running)
    (hfits : q.Fits l) : q.Changes l (q.update id g) := by
  unfold update
  split
  · exact .revise (fun _ r ↦ r) rfl rfl (fun _ ↦ by simp) (fun _ _ ↦ rfl) (fun _ _ _ hr ↦ hr) hfits
  · next record hget => exact changes_insert hget rfl rfl rfl hid hrun hfits

theorem changes_record {q₁ : ApplyQueue} (hq : q.cleared = q₁) (hfits : q.Fits l ↔ q.Room)
    (operation : Text) (kind : TaskKind) (dotPath source : Text) (jobs : List ApplyJob) :
    q.Changes l { (q₁.record operation kind dotPath source).1 with pending := jobs } := by
  have hnext : q₁.nextId = q.nextId := hq ▸ q.pending_cleared.2
  refine .add (q₁.record operation kind dotPath source).2 ?_ ?_ ?_ ?_ hfits
  all_goals simp only [ApplyQueue.record, hnext, hq]

theorem changes_of_enqueue (h : q.enqueue operation dotPath source = some (q', e)) :
    q.Changes (.enqueue operation dotPath source) q' := by
  unfold enqueue at h
  split at h
  · next hfold => exact changes_noteFold h (.inl (by simp [hfold]))
  · next hfold =>
    split at h
    · next hlt =>
      cases h
      exact changes_record (if_pos hlt) (by simp [Fits, Room, hlt]) _ _ _ _ _
    · next hfull =>
      split at h
      · next q₁ _ hdrop =>
        cases h
        obtain ⟨id, hold, -⟩ := Option.map_eq_some_iff.1 hdrop
        have hold : q.oldestFinished = some id := hold
        exact changes_record (by simp [cleared, hfull, hdrop]) (by simp [Fits, hfold, hold]) _ _ _ _ _
      · next hdrop hpending =>
        exact changes_noteFold h (.inr (.inl ⟨by simp [hpending], Option.map_eq_none_iff.1 hdrop⟩))
      · next hdrop hpending =>
        cases h
        exact changes_record (by simp [cleared, hdrop]) (by simp [Fits, foldInto, hpending]) _ _ _ _ _

theorem step_enqueue (h : q.enqueue operation dotPath source = some (q', e)) :
    q.step (.enqueue operation dotPath source) = some q' :=
  congrArg (Option.map Prod.fst) h

theorem changes_of_step (h : q.step l = some q') : q.Changes l q' := by
  cases l with
  | enqueue operation dotPath source =>
    obtain ⟨⟨q₁, e⟩, henq, rfl⟩ := Option.map_eq_some_iff.1 h
    exact changes_of_enqueue henq
  | openTask operation kind dotPath source =>
    cases h
    exact changes_record rfl .rfl operation kind dotPath source _
  | next =>
    obtain ⟨⟨job, q₁⟩, hnext, rfl⟩ := Option.map_eq_some_iff.1 h
    unfold ApplyQueue.next at hnext
    split at hnext <;> cases hnext
    exact .revise (fun _ r ↦ r) rfl rfl (fun _ ↦ by simp) (fun _ _ ↦ rfl) (fun _ _ _ hr ↦ hr) trivial
  | start id =>
    cases h
    exact changes_update (fun _ ↦ rfl) (fun _ _ _ ↦ rfl) trivial
  | finish id outcome message interfaces =>
    cases h
    exact changes_update (fun _ ↦ rfl) (fun hne ↦ absurd rfl hne) trivial

theorem Keyed.step (hq : q.Keyed) (h : q.step l = some q') : q'.Keyed := by
  intro id record hget
  cases changes_of_step h with
  | revise f _ _ hrec hid _ _ =>
    rw [hrec] at hget
    obtain ⟨r, hr, rfl⟩ := Option.map_eq_some_iff.1 hget
    exact (hid id r).trans (hq id r hr)
  | add new hnew _ _ hrec _ =>
    rw [hrec, OrdMap.get_insert] at hget
    split at hget
    · next heq =>
      cases hget
      exact hnew.trans heq.symm
    · obtain ⟨hclear, -⟩ | ⟨id', -, hclear⟩ := q.cleared_cases
      · exact hq id record (hclear ▸ hget)
      · rw [hclear, OrdMap.get_erase] at hget
        split at hget
        · cases hget
        · exact hq id record hget

@[simp] theorem pending_update (q : ApplyQueue) (id : ℕ) (f : TaskRecord → TaskRecord) :
    (q.update id f).pending = q.pending := by
  unfold ApplyQueue.update
  cases q.records.get id <;> rfl

@[simp] theorem nextId_update (q : ApplyQueue) (id : ℕ) (f : TaskRecord → TaskRecord) :
    (q.update id f).nextId = q.nextId := by
  unfold ApplyQueue.update
  cases q.records.get id <;> rfl

theorem openTask_eq (operation : Text) (kind : TaskKind) (dotPath source : Text) :
    (q.openTask operation kind dotPath source).1.pending = q.pending ∧
      (q.openTask operation kind dotPath source).1.nextId = q.nextId + 1 :=
  ⟨q.pending_cleared.1, congrArg (· + 1) q.pending_cleared.2⟩

structure Sound (q : ApplyQueue) : Prop where
  keyed : q.Keyed
  nodup : (q.pending.map ApplyJob.id).Nodup
  below : ∀ job ∈ q.pending, job.id ≤ q.nextId

theorem sound_new : ({} : ApplyQueue).Sound where
  keyed _ _ h := by cases h
  nodup := .nil
  below _ h := by cases h

/-- The job a step makes: a request for which the answer says that one was created. -/
def makes (q : ApplyQueue) : QueueStep → List ℕ
  | .enqueue operation dotPath source =>
    (((q.enqueue operation dotPath source).filter (·.2.created)).map (·.2.record.id)).toList
  | _ => []

def takes (q : ApplyQueue) : QueueStep → List ℕ
  | .next => (q.next.map (·.1.id)).toList
  | _ => []

theorem next_eq (h : q.next = some (job, q')) :
    q.pending = job :: q'.pending ∧ q'.nextId = q.nextId := by
  unfold ApplyQueue.next at h
  split at h
  · cases h
  · next hpending =>
    cases h
    exact ⟨hpending, rfl⟩

/-- The jobs stay, a request is queued, or the first job is taken. -/
inductive Moves (q q' : ApplyQueue) : QueueStep → Prop
  | same {l : QueueStep} : q'.pending = q.pending → q.nextId ≤ q'.nextId → q.makes l = [] →
      q.takes l = [] → Moves q q' l
  | queue {operation path source : Text} {e : Enqueued} :
      q.enqueue operation path source = some (q', e) →
      q.Queues path q' e.record.id e.created → Moves q q' (.enqueue operation path source)
  | take {job : ApplyJob} : q.next = some (job, q') → Moves q q' .next

theorem moves_of_step (hkeyed : q.Keyed) (h : q.step l = some q') : q.Moves q' l := by
  cases l with
  | enqueue operation dotPath source =>
    obtain ⟨⟨q₁, e⟩, henq, rfl⟩ := Option.map_eq_some_iff.1 h
    exact .queue henq (queues_of_enqueue hkeyed henq)
  | openTask operation kind dotPath source =>
    cases h
    obtain ⟨hpending, hnext⟩ := q.openTask_eq operation kind dotPath source
    exact .same hpending (by omega) rfl rfl
  | next =>
    obtain ⟨⟨job, q₁⟩, hnext, rfl⟩ := Option.map_eq_some_iff.1 h
    exact .take hnext
  | start id =>
    cases h
    exact .same (by simp [start]) (by simp [start]) rfl rfl
  | finish id outcome message interfaces =>
    cases h
    exact .same (by simp [finish]) (by simp [finish]) rfl rfl

variable {path : Text}

theorem Queues.sound {created : Bool} (h : q.Queues path q' id created)
    (hq : q.Sound) (hkeyed : q'.Keyed) : q'.Sound := by
  cases h with
  | @fold job hb _ hnext =>
    obtain ⟨⟨before, old, after, hjobs, hjobs', hold, -⟩, -⟩ := hb
    have hids : q'.pending.map ApplyJob.id = q.pending.map ApplyJob.id := by
      simp [hjobs, hjobs', hold]
    refine ⟨hkeyed, hids ▸ hq.nodup, fun j hj ↦ ?_⟩
    have hmem : j.id ∈ q.pending.map ApplyJob.id := hids ▸ List.mem_map_of_mem hj
    obtain ⟨j', hj', hid⟩ := List.mem_map.1 hmem
    rw [hnext, ← hid]
    exact hq.below j' hj'
  | add hpending hid hnext =>
    refine ⟨hkeyed, ?_, fun j hj ↦ ?_⟩
    · rw [hpending, List.map_append, List.map_singleton, List.nodup_append]
      refine ⟨hq.nodup, List.nodup_singleton _, fun a ha b hb ↦ ?_⟩
      obtain ⟨j, hj, rfl⟩ := List.mem_map.1 ha
      have hlt : j.id < id := by
        have := hq.below j hj
        omega
      rw [List.mem_singleton.1 hb]
      exact hlt.ne
    · rw [hpending, List.mem_append, List.mem_singleton] at hj
      rcases hj with hj | rfl
      · have := hq.below j hj
        omega
      · exact hnext.ge

theorem Sound.step (hq : q.Sound) (h : q.step l = some q') : q'.Sound := by
  have hkeyed := hq.keyed.step h
  cases moves_of_step hq.keyed h with
  | same hpending hnext =>
    exact ⟨hkeyed, hpending ▸ hq.nodup, fun job hjob ↦ (hq.below job (hpending ▸ hjob)).trans hnext⟩
  | queue _ hqueue => exact hqueue.sound hq hkeyed
  | take hnext =>
    obtain ⟨hpending, hnext⟩ := next_eq hnext
    have hnodup := hq.nodup
    rw [hpending, List.map_cons, List.nodup_cons] at hnodup
    refine ⟨hkeyed, hnodup.2, fun j hj ↦ ?_⟩
    rw [hnext]
    exact hq.below j (by simp [hpending, hj])

structure Serves (path : Text) (id : ℕ) (q : ApplyQueue) : Prop where
  made : id ≤ q.nextId
  subsumes : ∀ job ∈ q.pending, job.id = id → pathSubsumes job.dotPath path = true

theorem Queues.serves {created : Bool} (h : q.Queues path q' id created) (hq : q.Sound)
    (hq' : q'.Sound) (hpath : (segments path).isSome) : Serves path id q' := by
  cases h with
  | @fold job hb hid hnext =>
    have hmem := hb.members.1
    refine ⟨hid ▸ hq'.below job hmem, fun j hj hjid ↦ ?_⟩
    rw [List.inj_on_of_nodup_map hq'.nodup hj hmem (hjid.trans hid.symm)]
    exact hb.subsumes hpath
  | add hpending hid hnext =>
    refine ⟨hnext.ge, fun j hj hjid ↦ ?_⟩
    rw [hpending, List.mem_append, List.mem_singleton] at hj
    rcases hj with hj | rfl
    · have := hq.below j hj
      omega
    · obtain ⟨ps, hps⟩ := Option.isSome_iff_exists.1 hpath
      exact pathSubsumes_self hps

theorem Serves.step (hs : Serves path id q) (hq : q.Sound)
    (h : q.step l = some q') : Serves path id q' := by
  cases moves_of_step hq.keyed h with
  | same hpending hnext => exact ⟨hs.made.trans hnext, hpending ▸ hs.subsumes⟩
  | queue _ hqueue =>
    cases hqueue with
    | @fold job hb _ hnext =>
      obtain ⟨-, old, hold, hid, hbroad, hfrom, -⟩ := hb.members
      refine ⟨hnext ▸ hs.made, fun j hj hjid ↦ ?_⟩
      rcases hfrom j hj with hj | rfl
      · exact hs.subsumes j hj hjid
      · exact hbroad _ (hs.subsumes old hold (hid ▸ hjid))
    | add hpending hid hnext =>
      have hmade := hs.made
      refine ⟨by omega, fun j hj hjid ↦ ?_⟩
      rw [hpending, List.mem_append, List.mem_singleton] at hj
      rcases hj with hj | rfl
      · exact hs.subsumes j hj hjid
      · have hne : id ≠ q.nextId + 1 := by omega
        exact absurd (hjid.symm.trans hid) hne
  | take hnext =>
    obtain ⟨hpending, hnext⟩ := next_eq hnext
    exact ⟨hnext ▸ hs.made, fun j hj ↦ hs.subsumes j (by simp [hpending, hj])⟩

theorem sound_of_runs {ls : List QueueStep} (h : Runs {} ls q) : q.Sound :=
  h.invariant (fun _ _ _ hq _ hstep ↦ hq.step hstep) sound_new

theorem subsumes_of_runs {ls ls' : List QueueStep} {q₁ q₂ q₃ : ApplyQueue} (hq : Runs {} ls q)
    (henq : q.enqueue operation dotPath source = some (q₁, e)) (hrun : Runs q₁ ls' q₂)
    (hnext : q₂.next = some (job, q₃)) (hid : job.id = e.record.id)
    (hpath : (segments dotPath).isSome) : pathSubsumes job.dotPath dotPath = true := by
  have hsound := sound_of_runs hq
  have hqueues := queues_of_enqueue hsound.keyed henq
  have hsound₁ : q₁.Sound := hsound.step (step_enqueue henq)
  have hserves : q₂.Sound ∧ Serves dotPath e.record.id q₂ :=
    hrun.invariant (I := fun q ↦ q.Sound ∧ Serves dotPath e.record.id q)
      (fun _ _ _ h _ hstep ↦ ⟨h.1.step hstep, h.2.step h.1 hstep⟩)
      ⟨hsound₁, hqueues.serves hsound hsound₁ hpath⟩
  exact hserves.2.subsumes job (by simp [(next_eq hnext).1]) hid

end ApplyQueue

end MicaCore.Bus
