import MicaCore.Bus.Worker
import MicaCore.Network.Rollback

namespace MicaCore.Bus

open Concurrent Crash Data Network

/-- The managed unit files are those of a map, for some listing of the links. -/
def Shows (dev : Device) (network : NetworkMap) (w : World) : Prop :=
  ∃ o, w.managed = renderFiles dev.board dev.keystore network (undeclaredPorts dev o network)

theorem Shows.of_units {dev : Device} {m : NetworkMap} {w t : World} (h : Shows dev m w)
    (hunits : t.units = w.units) : Shows dev m t :=
  h.imp fun _ ho ↦ (managed_of_units hunits).trans ho

def Spelled (path : Text) : Prop := reachesNetwork path = true → SpelledAlike path networkPath

theorem segments_networkPath : segments networkPath = some [networkPath] := by decide

theorem reachesNetwork_iff {path : Text} :
    reachesNetwork path = true ↔ ∃ ss, segments path = some ss ∧ Comparable ss [networkPath] := by
  simp [reachesNetwork, Option.any_eq_true, comparable_iff]

theorem Spelled.overlaps {path : Text} (h : Spelled path) (hreach : reachesNetwork path = true) :
    pathsOverlap path networkPath = true := by
  obtain ⟨ss, hss, hcomp⟩ := reachesNetwork_iff.1 hreach
  exact ((pathsOverlap_iff_comparable hss segments_networkPath).2 fun _ ↦ h hreach).2 hcomp

theorem reachesNetwork_of_subsumes {p q : Text} (h : pathSubsumes p q = true)
    (hq : reachesNetwork q = true) : reachesNetwork p = true := by
  obtain ⟨ps, qs, hps, hqs, hsub⟩ := pathSubsumes_iff.1 h
  obtain ⟨ss, hss, hcomp⟩ := reachesNetwork_iff.1 hq
  obtain rfl : qs = ss := Option.some.inj (hqs.symm.trans hss)
  exact reachesNetwork_iff.2 ⟨ps, hps, hcomp.of_prefix hsub⟩

theorem spelled_root : Spelled [] := by
  intro _
  have hroot : segments [] = some [] := rfl
  exact (pathsOverlap_iff_comparable hroot segments_networkPath).1
    (iff_of_true (by decide) (.inl List.nil_prefix)) (.inl List.nil_prefix)

theorem Request.reaches_jobPath {request : Request} (h : request.paths.any reachesNetwork = true) :
    reachesNetwork request.jobPath = true := by
  obtain ⟨p, hp, hreach⟩ := List.any_eq_true.1 h
  obtain ⟨ss, hss, -⟩ := reachesNetwork_iff.1 hreach
  exact reachesNetwork_of_subsumes (request.pathSubsumes_jobPath hp hss) hreach

namespace ApplyQueue

variable {q q' : ApplyQueue} {e : Enqueued} {operation dotPath source : Text}

theorem Queues.named {id : ℕ} {created : Bool} (h : q.Queues dotPath q' id created)
    {job : ApplyJob} (hjob : job ∈ q'.pending) :
    job.dotPath = dotPath ∨ job.dotPath = [] ∨ ∃ old ∈ q.pending, old.dotPath = job.dotPath := by
  cases h with
  | fold hb _ _ _ =>
    obtain ⟨-, _, -, -, -, hfrom, -⟩ := hb.members
    rcases hfrom job hjob with hjob | rfl
    · exact .inr (.inr ⟨job, hjob, rfl⟩)
    · exact hb.named
  | add hpending _ _ _ =>
    rw [hpending, List.mem_append, List.mem_singleton] at hjob
    rcases hjob with hjob | rfl
    · exact .inr (.inr ⟨job, hjob, rfl⟩)
    · exact .inl rfl

theorem reaches_of_enqueue (hkeyed : q.Keyed) (h : q.enqueue operation dotPath source = some (q', e))
    (hdue : reachesNetwork dotPath = true ∨ ∃ job ∈ q.pending, reachesNetwork job.dotPath = true) :
    ∃ job ∈ q'.pending, reachesNetwork job.dotPath = true := by
  have hsome {path : Text} (hreach : reachesNetwork path = true) : ∃ ss, segments path = some ss :=
    (reachesNetwork_iff.1 hreach).imp fun _ hss ↦ hss.1
  cases queues_of_enqueue hkeyed h with
  | @fold job hb _ _ =>
    obtain ⟨hmem, old, -, -, hbroad, -, hto⟩ := hb.members
    rcases hdue with hreach | ⟨due, hdue, hreach⟩
    · refine ⟨job, hmem, reachesNetwork_of_subsumes (hb.subsumes ?_) hreach⟩
      exact Option.isSome_iff_exists.2 (hsome hreach)
    · rcases hto due hdue with hdue | rfl
      · exact ⟨due, hdue, hreach⟩
      · obtain ⟨ss, hss⟩ := hsome hreach
        exact ⟨job, hmem, reachesNetwork_of_subsumes (hbroad _ (pathSubsumes_self hss)) hreach⟩
  | add hpending _ _ =>
    rcases hdue with hreach | ⟨due, hdue, hreach⟩
    · exact ⟨⟨e.record.id, dotPath⟩, by simp [hpending], hreach⟩
    · exact ⟨due, by simp [hpending, hdue], hreach⟩

end ApplyQueue

namespace Daemon

def due (d : Daemon) : List Text :=
  d.inFlight.map Request.jobPath ++ d.queue.pending.map ApplyJob.dotPath ++
    match d.worker with
    | .taken job => [job.dotPath]
    | _ => []

/-- The files are those of the stored map, if the last apply came through or was rolled back. -/
def Agrees (dev : Device) (d : Daemon) : Prop :=
  d.lastApply = some .succeeded ∨ d.lastApply = some .rolledBack → Shows dev d.stored d.world

def Reads (d : Daemon) (h : Holder) : Prop :=
  ∀ applied attempted, h.read = some (applied, attempted) →
    d.stored = attempted ∧ applied = d.appliedNetwork

/-- How a pass over the network stands to the stored map. -/
def Knows (dev : Device) (d : Daemon) (h : Holder) : Prop :=
  match h.pass with
  | .begun => d.Reads h
  | .snapshot settings => settings = d.stored ∧ d.Reads h
  | .gated settings _ => settings = d.stored ∧ d.Reads h
  | .done => (h.read = none → d.Agrees dev) ∧
      ∀ applied attempted, h.read = some (applied, attempted) →
      d.stored = attempted ∧ (d.rolledBack = true → ∃ m, applied = some m ∧ Shows dev m d.world) ∧
        (d.rolledBack = false → d.Agrees dev)

def Covered (dev : Device) (d : Daemon) : Prop :=
  match d.holder with
  | none => d.Agrees dev
  | some h => if pathsOverlap h.path networkPath = true then d.Knows dev h else d.Agrees dev

structure Invariant (dev : Device) (d : Daemon) : Prop where
  keyed : d.queue.Keyed
  spelled : ∀ p ∈ d.due, Spelled p
  shows : ∀ m, d.appliedNetwork = some m → Shows dev m d.world
  fresh : d.appliedNetwork = none → d.world.applied = false
  refused : d.refuses = true → d.lastApply = none
  gated : ∀ h settings b, d.holder = some h → h.pass = .gated settings b →
    (b = true → d.lastApply = none) ∧ (b = false → d.refuses = false)
  covered : (∃ p ∈ d.due, reachesNetwork p = true) ∨ d.Covered dev

/-- Paths are bare, stored writes are queued, begun applies end or are put back, and the
restored map is saved. -/
def Allowed (d : Daemon) : DaemonStep → Prop
  | .store request _ => Spelled request.jobPath
  | .queued _ dotPath _ => Spelled dotPath
  | .unannounced _ => False
  | .apply o => ¬ Broken o ∧ ∀ h, d.holder = some h → h.read = none → d.world.applied = true →
      ∀ changed, o.settles changed = .ok ()
  | .release saved => saved = true
  | _ => True

variable {dev : Device} {d d' : Daemon}

theorem Invariant.of_due (h : d.Invariant dev) (hkeyed : d'.queue.Keyed)
    (hspelled : ∀ p ∈ d'.due, Spelled p)
    (hdue : (∃ p ∈ d.due, reachesNetwork p = true) → ∃ p ∈ d'.due, reachesNetwork p = true)
    (hsame : d' = { d with queue := d'.queue, inFlight := d'.inFlight, worker := d'.worker }) :
    d'.Invariant dev := by
  rw [hsame] at hspelled hdue ⊢
  exact ⟨hkeyed, hspelled, h.shows, h.fresh, h.refused, h.gated, h.covered.imp_left hdue⟩

theorem mem_due {p : Text} :
    p ∈ d.due ↔ (∃ r ∈ d.inFlight, r.jobPath = p) ∨ (∃ job ∈ d.queue.pending, job.dotPath = p) ∨
      ∃ job, d.worker = .taken job ∧ job.dotPath = p := by
  unfold due
  cases d.worker <;> simp [eq_comm]

theorem Invariant.of_due_iff (h : d.Invariant dev) (hkeyed : d'.queue.Keyed)
    (hdue : ∀ p, p ∈ d'.due ↔ p ∈ d.due)
    (hsame : d' = { d with queue := d'.queue, inFlight := d'.inFlight, worker := d'.worker }) :
    d'.Invariant dev :=
  h.of_due hkeyed (fun p hp ↦ h.spelled p ((hdue p).1 hp))
    (.imp fun p hp ↦ ⟨(hdue p).2 hp.1, hp.2⟩) hsame

variable {path : Text}

theorem Invariant.enqueue (h : d.Invariant dev)
    {operation source : Text} {q : ApplyQueue} {e : Enqueued}
    {flight : List Request} (hpath : Spelled path)
    (he : d.queue.enqueue operation path source = some (q, e)) (hsub : ∀ r ∈ flight, r ∈ d.inFlight)
    (hleft : ∀ r ∈ d.inFlight, r.jobPath = path ∨ r ∈ flight) :
    { d with queue := q, inFlight := flight }.Invariant dev := by
  refine h.of_due (h.keyed.step (ApplyQueue.step_enqueue he)) (fun p hp ↦ ?_)
    (fun ⟨p, hp, hreach⟩ ↦ ?_) rfl
  · rcases mem_due.1 hp with ⟨r, hr, rfl⟩ | ⟨job, hjob, rfl⟩ | htaken
    · exact h.spelled _ (mem_due.2 (.inl ⟨r, hsub r hr, rfl⟩))
    · rcases (ApplyQueue.queues_of_enqueue h.keyed he).named hjob with heq | heq | ⟨old, hold, heq⟩
      · rwa [heq]
      · rw [heq]
        exact spelled_root
      · exact h.spelled _ (mem_due.2 (.inr (.inl ⟨old, hold, heq⟩)))
    · exact h.spelled _ (mem_due.2 (.inr (.inr htaken)))
  · have hqueued (hdue : reachesNetwork path = true ∨
        ∃ job ∈ d.queue.pending, reachesNetwork job.dotPath = true) :
        ∃ p ∈ due { d with queue := q, inFlight := flight }, reachesNetwork p = true := by
      obtain ⟨job, hjob, hreach⟩ := ApplyQueue.reaches_of_enqueue h.keyed he hdue
      exact ⟨_, mem_due.2 (.inr (.inl ⟨job, hjob, rfl⟩)), hreach⟩
    rcases mem_due.1 hp with ⟨r, hr, rfl⟩ | ⟨job, hjob, rfl⟩ | htaken
    · rcases hleft r hr with heq | hr
      · exact hqueued (.inl (heq ▸ hreach))
      · exact ⟨_, mem_due.2 (.inl ⟨r, hr, rfl⟩), hreach⟩
    · exact hqueued (.inr ⟨job, hjob, hreach⟩)
    · exact ⟨p, mem_due.2 (.inr (.inr htaken)), hreach⟩

theorem Invariant.announce (h : d.Invariant dev) {request : Request}
    {operation source : Text} {q : ApplyQueue} {e : Enqueued} (hmem : request ∈ d.inFlight)
    (he : d.queue.enqueue operation request.jobPath source = some (q, e)) :
    { d with queue := q, inFlight := d.inFlight.erase request }.Invariant dev := by
  refine h.enqueue (h.spelled _ (mem_due.2 (.inl ⟨request, hmem, rfl⟩))) he
    (fun r hr ↦ List.mem_of_mem_erase hr) fun r hr ↦ ?_
  by_cases heq : r = request
  · exact .inl (congrArg Request.jobPath heq)
  · exact .inr ((List.mem_erase_of_ne heq).2 hr)

theorem Invariant.store (h : d.Invariant dev) {request : Request} {network : NetworkMap}
    (hspelled : Spelled request.jobPath)
    (hwrite : network = d.stored ∨ request.paths.any reachesNetwork = true) :
    { d with stored := network, inFlight := d.inFlight ++ [request] }.Invariant dev := by
  have hgrow : { d with inFlight := d.inFlight ++ [request] }.Invariant dev := by
    refine h.of_due h.keyed (fun p hp ↦ ?_) (fun ⟨p, hp, hreach⟩ ↦ ⟨p, ?_, hreach⟩) rfl
    · rcases mem_due.1 hp with ⟨r, hr, rfl⟩ | hrest
      · rcases List.mem_append.1 hr with hr | hr
        · exact h.spelled _ (mem_due.2 (.inl ⟨r, hr, rfl⟩))
        · rwa [List.mem_singleton.1 hr]
      · exact h.spelled _ (mem_due.2 (.inr hrest))
    · exact mem_due.2 ((mem_due.1 hp).imp_left (.imp fun _ h ↦ ⟨by simp [h.1], h.2⟩))
  rcases hwrite with rfl | hreach
  · exact hgrow
  · refine { hgrow with covered := .inl ⟨request.jobPath, ?_, Request.reaches_jobPath hreach⟩ }
    exact mem_due.2 (.inl ⟨request, by simp, rfl⟩)

variable {job : ApplyJob}

theorem Invariant.take (h : d.Invariant dev) {q : ApplyQueue} (hidle : d.worker = .idle)
    (hnext : d.queue.next = some (job, q)) :
    { d with queue := q.start job.id, worker := .taken job }.Invariant dev := by
  obtain ⟨rest, hpending, rfl⟩ : ∃ rest, d.queue.pending = job :: rest ∧
      q = { d.queue with pending := rest } := by
    unfold ApplyQueue.next at hnext
    split at hnext <;> cases hnext
    exact ⟨_, ‹_›, rfl⟩
  refine h.of_due_iff ?_ (fun p ↦ ?_) rfl
  · exact ApplyQueue.Keyed.step (q := { d.queue with pending := rest })
      (l := .start job.id) h.keyed rfl
  · rw [mem_due, mem_due, hpending, hidle]
    simp only [ApplyQueue.start, ApplyQueue.pending_update, List.exists_mem_cons_iff, reduceCtorEq,
      WorkerState.taken.injEq, false_and, exists_false, or_false, exists_eq_left']
    exact or_congr_right or_comm

theorem Invariant.finish (h : d.Invariant dev) {outcome : Text} {message : Option Text}
    {interfaces : List Text} (hfinishing : d.worker = .finishing job) :
    { d with queue := d.queue.finish job.id outcome message interfaces, worker := .idle }.Invariant dev := by
  refine h.of_due_iff (h.keyed.step (l := .finish job.id outcome message interfaces) rfl)
    (fun p ↦ ?_) rfl
  simp [mem_due, hfinishing, ApplyQueue.finish]

theorem Invariant.openTask (h : d.Invariant dev) (operation : Text) (kind : TaskKind)
    (dotPath source : Text) :
    { d with queue := (d.queue.openTask operation kind dotPath source).1 }.Invariant dev := by
  refine h.of_due_iff (h.keyed.step (l := .openTask operation kind dotPath source) rfl)
    (fun p ↦ ?_) rfl
  rw [mem_due, mem_due, (d.queue.openTask_eq operation kind dotPath source).1]

theorem Invariant.repair (h : d.Invariant dev) (keep : DocumentRefusal → Bool) :
    { d with refusals := d.refusals.filter keep }.Invariant dev := by
  have hless : refuses { d with refusals := d.refusals.filter keep } = true → d.refuses = true := by
    simp only [refuses, List.any_eq_true, List.mem_filter]
    exact .imp fun _ h ↦ ⟨h.1.1, h.2⟩
  refine { h with
    refused := fun hr ↦ h.refused (hless hr)
    gated := fun holder settings b hholder hpass ↦ ?_ }
  obtain ⟨hskip, hrun⟩ := h.gated holder settings b hholder hpass
  refine ⟨hskip, fun hb ↦ Bool.eq_false_iff.2 fun hr ↦ ?_⟩
  rw [hrun hb] at hless
  exact absurd (hless hr) (by decide)

theorem Invariant.lock (h : d.Invariant dev) (htaken : d.worker = .taken job)
    (hfree : d.holder = none) :
    { d with
      worker := .holding job
      holder := some ⟨job.dotPath, some (d.appliedNetwork, d.stored), .begun⟩ }.Invariant dev := by
  have hless {p : Text} (hp : (∃ r ∈ d.inFlight, r.jobPath = p) ∨ ∃ job ∈ d.queue.pending, job.dotPath = p) :
      p ∈ due { d with
        worker := .holding job
        holder := some ⟨job.dotPath, some (d.appliedNetwork, d.stored), .begun⟩ } :=
    mem_due.2 (hp.imp_right .inl)
  refine ⟨h.keyed, fun p hp ↦ h.spelled p ?_, h.shows, h.fresh, h.refused, ?_, ?_⟩
  · rcases mem_due.1 hp with hp | hp | ⟨_, hworker, _⟩
    · exact mem_due.2 (.inl hp)
    · exact mem_due.2 (.inr (.inl hp))
    · cases hworker
  · intro holder settings b hholder hpass
    cases hholder
    cases hpass
  · by_cases hover : pathsOverlap job.dotPath networkPath = true
    · refine .inr ?_
      simp only [Covered, hover, if_true, Knows, Reads]
      rintro applied attempted ⟨⟩
      exact ⟨rfl, rfl⟩
    · rcases h.covered with ⟨p, hp, hreach⟩ | hcovered
      · rcases mem_due.1 hp with hp | hp | ⟨job', hworker, rfl⟩
        · exact .inl ⟨p, hless (.inl hp), hreach⟩
        · exact .inl ⟨p, hless (.inr hp), hreach⟩
        · obtain rfl : job = job' := by simpa [htaken] using hworker
          exact absurd ((h.spelled _ hp).overlaps hreach) hover
      · refine .inr ?_
        simp only [Covered, hfree] at hcovered
        simp only [Covered, hover]
        exact hcovered

theorem Invariant.rotate (h : d.Invariant dev) (name key : Text) :
    { d with
      world := d.world.putKey name key
      holder := some ⟨networkPath, none, .begun⟩ }.Invariant dev := by
  refine ⟨h.keyed, h.spelled, h.shows, h.fresh, h.refused, ?_, .inr ?_⟩
  · intro holder settings b hholder hpass
    cases hholder
    cases hpass
  · have hover : pathsOverlap networkPath networkPath = true := by decide
    simp [Covered, hover, Knows, Reads]

section Pass

variable {read : Option (Option NetworkMap × NetworkMap)} {settings : NetworkMap} {refused : Bool}
  {pass pass' : Pass}

theorem Invariant.advance (h : d.Invariant dev) (hholder : d.holder = some ⟨path, read, pass⟩)
    (hgated : ∀ settings b, pass' = .gated settings b →
      (b = true → d.lastApply = none) ∧ (b = false → d.refuses = false))
    (hknows : pathsOverlap path networkPath = true → d.Knows dev ⟨path, read, pass⟩ →
      d.Knows dev ⟨path, read, pass'⟩) :
    { d with holder := some ⟨path, read, pass'⟩ }.Invariant dev := by
  refine ⟨h.keyed, h.spelled, h.shows, h.fresh, h.refused, ?_,
    h.covered.imp_right fun hcovered ↦ ?_⟩
  · rintro holder settings b ⟨⟩ hpass
    exact hgated settings b hpass
  · simp only [Covered, hholder] at hcovered
    simp only [Covered]
    split
    · next hover =>
      rw [if_pos hover] at hcovered
      exact hknows hover hcovered
    · next hover =>
      rw [if_neg hover] at hcovered
      exact hcovered

/-- A pass that ends with nothing rolled back knows what the daemon agrees on. -/
theorem knows_done (hreads : d.Reads ⟨path, read, pass⟩) (hstored : d'.stored = d.stored)
    (hrolled : d'.rolledBack = false) (hagrees : d'.Agrees dev) :
    d'.Knows dev ⟨path, read, .done⟩ := by
  refine ⟨fun _ ↦ hagrees, fun applied attempted hread ↦ ⟨?_, fun hback ↦ ?_, fun _ ↦ hagrees⟩⟩
  · exact hstored.trans (hreads applied attempted hread).1
  · rw [hrolled] at hback
    cases hback

/-- What is common to the ends of a pass: nothing is due that was not. -/
theorem Invariant.ended (h : d.Invariant dev)
    (hholder : d.holder = some ⟨path, read, .gated settings refused⟩)
    (hover : pathsOverlap path networkPath = true) {t : World} {applied : Option NetworkMap}
    {rolled : Bool} {last : Option ApplyOutcome} (hshows : ∀ m, applied = some m → Shows dev m t)
    (hfresh : applied = none → t.applied = false) (hrefused : d.refuses = true → last = none)
    (hknows : settings = d.stored → d.Reads ⟨path, read, .gated settings refused⟩ →
    Knows dev { d with
      world := t, appliedNetwork := applied, rolledBack := rolled, lastApply := last }
        ⟨path, read, .done⟩) :
    { d with
      world := t, appliedNetwork := applied, rolledBack := rolled, lastApply := last,
      holder := some ⟨path, read, .done⟩ }.Invariant dev := by
  refine ⟨h.keyed, h.spelled, hshows, hfresh, hrefused, ?_, h.covered.imp_right fun hcovered ↦ ?_⟩
  · rintro holder s b ⟨⟩ ⟨⟩
  · simp only [Covered, hholder, hover, if_true, Knows] at hcovered
    simp only [Covered, hover, if_true]
    exact hknows hcovered.1 hcovered.2

theorem Invariant.skip (h : d.Invariant dev)
    (hholder : d.holder = some ⟨path, read, .gated settings refused⟩)
    (hover : pathsOverlap path networkPath = false) :
    { d with holder := some ⟨path, read, .done⟩ }.Invariant dev := by
  refine h.advance hholder (fun _ _ hpass ↦ by cases hpass) fun hover' ↦ ?_
  rw [hover] at hover'
  cases hover'

theorem Invariant.refuse (h : d.Invariant dev)
    (hholder : d.holder = some ⟨path, read, .gated settings true⟩)
    (hover : pathsOverlap path networkPath = true) :
    { d with rolledBack := false, holder := some ⟨path, read, .done⟩ }.Invariant dev := by
  have hnone := (h.gated _ settings true hholder rfl).1 rfl
  refine h.ended hholder hover h.shows h.fresh h.refused fun _ hreads ↦ knows_done hreads rfl rfl ?_
  rintro (hlast | hlast) <;> simp [hnone] at hlast

variable {o : Outcomes} {t : World}

theorem Invariant.succeeded (h : d.Invariant dev)
    (hholder : d.holder = some ⟨path, read, .gated settings false⟩)
    (hover : pathsOverlap path networkPath = true) (hfiles : Shows dev settings t) :
    { d with
      world := t, appliedNetwork := some settings, rolledBack := false,
      lastApply := some .succeeded, holder := some ⟨path, read, .done⟩ }.Invariant dev := by
  have hrefuses := (h.gated _ settings false hholder rfl).2 rfl
  refine h.ended hholder hover (fun m hm ↦ ?_) (fun hnone ↦ by cases hnone) (by simp [hrefuses]) ?_
  · cases hm
    exact hfiles
  · rintro rfl hreads
    exact knows_done hreads rfl rfl fun _ ↦ hfiles

theorem Invariant.failed (h : d.Invariant dev)
    (hholder : d.holder = some ⟨path, read, .gated settings false⟩)
    (hover : pathsOverlap path networkPath = true) (hunits : t.units = d.world.units)
    (happlied : t.applied = d.world.applied) :
    { d with
      world := t, rolledBack := false, lastApply := some .failed,
      holder := some ⟨path, read, .done⟩ }.Invariant dev := by
  have hrefuses := (h.gated _ settings false hholder rfl).2 rfl
  refine h.ended hholder hover (fun m hm ↦ (h.shows m hm).of_units hunits)
    (fun hnone ↦ happlied.trans (h.fresh hnone)) (by simp [hrefuses]) fun _ hreads ↦
      knows_done hreads rfl rfl ?_
  rintro (hlast | hlast) <;> cases hlast

/-- A rolled-back apply had a map to go back to, and was not the daemon's own. -/
theorem Invariant.rolledBack (h : d.Invariant dev)
    (hholder : d.holder = some ⟨path, read, .gated settings false⟩)
    (hover : pathsOverlap path networkPath = true) (hunits : t.units = d.world.units)
    (hbefore : d.world.applied = true) (hread : read ≠ none) :
    { d with
      world := t, rolledBack := true, lastApply := some .rolledBack,
      holder := some ⟨path, read, .done⟩ }.Invariant dev := by
  have hrefuses := (h.gated _ settings false hholder rfl).2 rfl
  obtain ⟨m, hm⟩ : ∃ m, d.appliedNetwork = some m := by
    refine Option.ne_none_iff_exists'.1 fun hnone ↦ ?_
    rw [h.fresh hnone] at hbefore
    cases hbefore
  have hshows : ∀ m, d.appliedNetwork = some m → Shows dev m t := fun m hm ↦
    (h.shows m hm).of_units hunits
  refine h.ended hholder hover hshows (fun hnone ↦ ?_) (by simp [hrefuses]) fun _ hreads ↦ ?_
  · rw [hm] at hnone
    cases hnone
  · refine ⟨fun hnone ↦ absurd hnone hread, fun applied attempted hread ↦
      ⟨(hreads applied attempted hread).1, fun _ ↦ ⟨m, ?_, hshows m hm⟩, fun hback ↦ by cases hback⟩⟩
    rw [(hreads applied attempted hread).2, hm]

theorem recordApply_of_denied {e : ApplyError} (h : Denied e) :
    recordApply d settings (.error e) = { d with rolledBack := false, lastApply := some .failed } := by
  cases e with
  | rolledBack reason => exact absurd rfl (h reason)
  | _ => rfl

theorem Invariant.apply (h : d.Invariant dev)
    (hholder : d.holder = some ⟨path, read, .gated settings false⟩)
    (hover : pathsOverlap path networkPath = true) (hbroken : ¬ Broken o)
    (hown : read = none → d.world.applied = true → ∀ changed, o.settles changed = .ok ()) :
    { recordApply { d with world := (Network.apply dev o settings).last d.world } settings
        (Network.apply dev o settings d.world).result with
      holder := some ⟨path, read, .done⟩ }.Invariant dev := by
  have hsettled : Settled dev o settings d.world (Network.apply dev o settings d.world).result
      ((Network.apply dev o settings).last d.world) := apply_settled.2
  generalize (Network.apply dev o settings).last d.world = t at hsettled ⊢
  generalize (Network.apply dev o settings d.world).result = r at hsettled ⊢
  cases r with
  | ok state => exact h.succeeded hholder hover ⟨o, (hsettled.ok state rfl).2⟩
  | error e =>
    by_cases hdenied : Denied e
    · obtain ⟨hunits, happlied⟩ := (hsettled.denied e rfl hdenied).resolve_left hbroken
      rw [recordApply_of_denied hdenied]
      exact h.failed hholder hover hunits happlied
    · obtain ⟨reason, rfl⟩ : ∃ reason, e = .rolledBack reason := by simpa [Denied] using hdenied
      obtain ⟨hbefore, -, hunits, -, -, changed, hfailed⟩ := hsettled.rolledBack reason rfl
      refine h.rolledBack hholder hover hunits hbefore fun hread ↦ ?_
      rw [hown hread hbefore changed] at hfailed
      cases hfailed

theorem Invariant.reconcile (h : d.Invariant dev)
    (hholder : d.holder = some ⟨path, read, .gated settings refused⟩) (hbroken : ¬ Broken o)
    (hown : read = none → d.world.applied = true → ∀ changed, o.settles changed = .ok ()) :
    { Daemon.reconcile dev o d path settings refused with
      holder := some ⟨path, read, .done⟩ }.Invariant dev := by
  unfold Daemon.reconcile
  split
  · next hover => exact h.skip hholder (by simpa using hover)
  · next hover =>
    have hover : pathsOverlap path networkPath = true := by simpa using hover
    cases refused with
    | true => exact h.refuse hholder hover
    | false => exact h.apply hholder hover hbroken hown

end Pass

theorem Invariant.release (h : d.Invariant dev) {applied : Option NetworkMap}
    {attempted : NetworkMap} (hholder : d.holder = some ⟨path, some (applied, attempted), .done⟩)
    (hworker : d.worker = .holding job) {stored : NetworkMap}
    (hrestored : (if pathsOverlap path networkPath then d.restoreNetwork true attempted applied else d) =
      { d with stored := stored }) :
    { d with stored := stored, holder := none, worker := .finishing job }.Invariant dev := by
  have hdue {p : Text} :
      p ∈ due { d with stored := stored, holder := none, worker := .finishing job } ↔ p ∈ d.due := by
    simp [mem_due, hworker]
  refine ⟨h.keyed, fun p hp ↦ h.spelled p (hdue.1 hp), h.shows, h.fresh, h.refused,
    fun _ _ _ hnone ↦ (by cases hnone),
    h.covered.imp (.imp fun _ hp ↦ ⟨hdue.2 hp.1, hp.2⟩) fun hcovered ↦ ?_⟩
  simp only [Covered, hholder] at hcovered
  have hstored := (congrArg Daemon.stored hrestored).symm
  change Agrees dev { d with stored := stored }
  rw [← hrestored]
  split
  · next hover =>
    rw [if_pos hover] at hcovered
    obtain ⟨hsame, hback, hkept⟩ := hcovered.2 applied attempted rfl
    cases hrolled : d.rolledBack with
    | false =>
      have heq : d.restoreNetwork true attempted applied = d := by
        cases applied <;> simp [restoreNetwork, hrolled]
      rw [heq]
      exact hkept hrolled
    | true =>
      obtain ⟨m, rfl, hshows⟩ := hback hrolled
      simp only [restoreNetwork, hrolled, hsame, beq_self_eq_true, Bool.and_self, if_true]
      exact fun _ ↦ hshows
  · next hover =>
    rw [if_neg hover] at hcovered
    exact hcovered

theorem restoreNetwork_eq (saved : Bool) (attempted : NetworkMap) (applied : Option NetworkMap) :
    ∃ stored, d.restoreNetwork saved attempted applied = { d with stored := stored } := by
  cases applied with
  | none => exact ⟨d.stored, rfl⟩
  | some applied =>
    rw [restoreNetwork]
    split
    · exact ⟨applied, rfl⟩
    · exact ⟨d.stored, rfl⟩

theorem Invariant.leave (h : d.Invariant dev) (hholder : d.holder = some ⟨path, none, .done⟩) :
    { d with holder := none }.Invariant dev := by
  refine ⟨h.keyed, h.spelled, h.shows, h.fresh, h.refused, fun _ _ _ hnone ↦ (by cases hnone),
    h.covered.imp_right fun hcovered ↦ ?_⟩
  simp only [Covered, hholder] at hcovered
  split at hcovered
  · exact hcovered.1 rfl
  · exact hcovered

theorem Invariant.step (h : d.Invariant dev) {l : DaemonStep} (hl : d.Allowed l)
    (hstep : d.step dev l = some d') : d'.Invariant dev := by
  cases l with
  | store request network =>
    simp only [Daemon.step] at hstep
    split at hstep <;> cases hstep
    exact h.store hl ‹_›
  | repair request =>
    simp only [Daemon.step] at hstep
    split at hstep <;> cases hstep
    exact h.repair _
  | enqueue request source =>
    simp only [Daemon.step] at hstep
    split at hstep
    · obtain ⟨⟨q, e⟩, he, rfl⟩ := Option.map_eq_some_iff.1 hstep
      exact h.announce ‹_› he
    · cases hstep
  | unannounced request => exact absurd hl id
  | queued operation dotPath source =>
    obtain ⟨⟨q, e⟩, he, rfl⟩ := Option.map_eq_some_iff.1 hstep
    exact h.enqueue hl he (fun r hr ↦ hr) fun r hr ↦ .inr hr
  | openTask operation kind dotPath source =>
    cases hstep
    exact h.openTask ..
  | take =>
    simp only [Daemon.step] at hstep
    split at hstep <;> cases hstep
    exact h.take ‹_› ‹_›
  | lock =>
    simp only [Daemon.step] at hstep
    split at hstep <;> cases hstep
    exact h.lock ‹_› ‹_›
  | rotate iface key =>
    simp only [Daemon.step] at hstep
    split at hstep <;> cases hstep
    exact h.rotate _ _
  | snapshot =>
    simp only [Daemon.step] at hstep
    split at hstep
    · next path read hholder =>
      cases hstep
      exact h.advance hholder (fun _ _ hpass ↦ (by cases hpass)) fun _ hreads ↦ ⟨rfl, hreads⟩
    · cases hstep
  | gate =>
    simp only [Daemon.step] at hstep
    split at hstep
    · next path read settings hholder =>
      cases hstep
      refine h.advance hholder (fun settings b hpass ↦ ?_) fun _ ↦ id
      cases hpass
      exact ⟨h.refused, id⟩
    · cases hstep
  | apply o =>
    simp only [Daemon.step] at hstep
    split at hstep
    · next path read settings refused hholder =>
      cases hstep
      exact h.reconcile hholder hl.1 fun hread ↦ hl.2 _ hholder hread
    · cases hstep
  | release saved =>
    obtain rfl : saved = true := hl
    simp only [Daemon.step] at hstep
    split at hstep
    · next path applied attempted job hholder hworker =>
      cases hstep
      obtain ⟨stored, hstored⟩ : ∃ stored, (if pathsOverlap path networkPath then
          d.restoreNetwork true attempted applied else d) = { d with stored := stored } := by
        split
        · exact restoreNetwork_eq ..
        · exact ⟨d.stored, rfl⟩
      rw [hstored]
      exact h.release hholder hworker hstored
    · next path hholder =>
      cases hstep
      exact h.leave hholder
    · cases hstep
  | finish outcome message interfaces =>
    simp only [Daemon.step] at hstep
    split at hstep <;> cases hstep
    exact h.finish ‹_›

theorem invariant_boot (dev : Device) (network : NetworkMap) (refusals : List DocumentRefusal)
    (w : World) :
    (boot network refusals w).Invariant dev where
  keyed := ApplyQueue.sound_new.keyed
  spelled p hp := by simp [due, boot] at hp
  shows m hm := by cases hm
  fresh _ := rfl
  refused _ := rfl
  gated _ _ _ hh hpass := by
    cases hh
    cases hpass
  covered := .inr (by
    have hover : pathsOverlap [] networkPath = true := by decide
    simp [Covered, boot, hover, Knows, Reads])

/-- Nothing is left to do, and the last apply came through or was rolled back. -/
@[mk_iff]
structure Resting (d : Daemon) : Prop where
  pending : d.queue.pending = []
  inFlight : d.inFlight = []
  worker : d.worker = .idle
  holder : d.holder = none
  outcome : d.lastApply = some .succeeded ∨ d.lastApply = some .rolledBack

end Daemon

/-- In runs of such steps, a worker at rest leaves the files of the stored map. -/
theorem shows_stored_of_resting (dev : Device) (network : NetworkMap) (refusals : List DocumentRefusal)
    (w : World) (ls : List DaemonStep) (d : Daemon)
    (hrun : Trace (Daemon.step dev) Daemon.Allowed (Daemon.boot network refusals w) ls d)
    (hrest : d.Resting) : Shows dev d.stored d.world := by
  have hinv : d.Invariant dev := hrun.invariant (fun _ _ _ h hl hstep ↦ h.step hl hstep)
    (Daemon.invariant_boot dev network refusals w)
  rcases hinv.covered with ⟨p, hp, -⟩ | hcovered
  · simp [Daemon.due, hrest.pending, hrest.inFlight, hrest.worker] at hp
  · rw [Daemon.Covered, hrest.holder] at hcovered
    exact hcovered hrest.outcome

namespace Sample

def up : Outcomes := { drawn := fun _ ↦ [] }

def unreloaded : Outcomes := { drawn := fun _ ↦ [], fails := fun stage _ ↦ stage == .reload }

def down : Outcomes := { drawn := fun _ ↦ [], settles := fun _ ↦ .error "nothing came up" }

def bridges (names : List String) : NetworkMap :=
  names.foldl (fun m name ↦ m.insert name.toList { kind := .bridge, bridge := some {} }) .empty

def world : World := ⟨.empty, .empty, .empty, false, 0⟩

def pass (o : Outcomes) : List DaemonStep := [.snapshot, .gate, .apply o, .release true]

def written (names : List String) (o : Outcomes) : List DaemonStep :=
  [.store (.set networkPath) (bridges names), .enqueue (.set networkPath) ":1.7".toList,
    .take, .lock] ++
    pass o ++ [.finish "done".toList none []]

instance decidableResting (d : Daemon) : Decidable d.Resting :=
  decidable_of_iff _ (Daemon.resting_iff d).symm

theorem spelled_network : Spelled networkPath := by
  intro _
  exact (pathsOverlap_iff_comparable segments_networkPath segments_networkPath).1
    (iff_of_true (by decide) (.inl List.prefix_rfl)) (.inl List.prefix_rfl)

theorem not_broken_up : ¬ Broken up := by
  rintro ⟨stage, -, n, h⟩
  cases h

end Sample

theorem shows_stored_of_resting_bridge :
    ∃ d, Trace (Daemon.step Network.Sample.device) Daemon.Allowed
      (Daemon.boot (Sample.bridges []) [] Sample.world)
        (Sample.pass Sample.up ++ Sample.written ["br0"] Sample.up) d ∧
      Shows Network.Sample.device d.stored d.world := by
  obtain ⟨d, hrun, hrest⟩ : ∃ d, Trace (Daemon.step Network.Sample.device) (fun _ _ ↦ True)
      (Daemon.boot (Sample.bridges []) [] Sample.world)
      (Sample.pass Sample.up ++ Sample.written ["br0"] Sample.up) d ∧ d.Resting := by decide +kernel
  have hallowed : Trace (Daemon.step Network.Sample.device) Daemon.Allowed
      (Daemon.boot (Sample.bridges []) [] Sample.world)
      (Sample.pass Sample.up ++ Sample.written ["br0"] Sample.up) d := by
    refine hrun.imp_mem fun l hl s _ ↦ ?_
    simp only [Sample.pass, Sample.written, List.cons_append, List.nil_append, List.mem_cons,
      List.not_mem_nil, or_false] at hl
    rcases hl with rfl | rfl | rfl | rfl | rfl | rfl | rfl | rfl | rfl | rfl | rfl | rfl | rfl
    all_goals first
      | exact trivial
      | exact rfl
      | exact Sample.spelled_network
      | exact ⟨Sample.not_broken_up, fun _ _ _ _ _ ↦ rfl⟩
  exact ⟨d, hallowed, shows_stored_of_resting Network.Sample.device _ _ _ _ d hallowed hrest⟩

/-- Files in place when the reload fails are not those of the applied map. -/
theorem not_forall_shows_stored :
    ¬ ∀ (dev : Device) (network : NetworkMap) (refusals : List DocumentRefusal) (w : World)
      (ls : List DaemonStep) (d : Daemon),
      Trace (Daemon.step dev) (fun _ _ ↦ True) (Daemon.boot network refusals w) ls d → d.Resting →
        Shows dev d.stored d.world := by
  intro h
  obtain ⟨d, hrun, hrest, hstored, hfile⟩ : ∃ d,
      Trace (Daemon.step Network.Sample.device) (fun _ _ ↦ True)
        (Daemon.boot (Sample.bridges []) [] Sample.world)
        (Sample.pass Sample.up ++ Sample.written ["br0"] Sample.unreloaded ++
          Sample.written ["br0", "br1"] Sample.down) d ∧ d.Resting ∧
      d.stored = Sample.bridges [] ∧
      (d.world.managed.get (netdevName "br0".toList)).isSome = true := by decide +kernel
  obtain ⟨o, hfiles⟩ := h _ _ _ _ _ d hrun hrest
  rw [hfiles, hstored, get_renderFiles_netdevName] at hfile
  cases hfile

end MicaCore.Bus
