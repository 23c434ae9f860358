import MicaCore.Update.AutoSpec

namespace MicaCore.Update

open Concurrent Data Deploy
open Talk (Ensures Follows)

/-- Who asked for an install; the facts the driver reads do not say. -/
inductive Requester
  | driver
  | operator
  deriving DecidableEq, Repr

structure Entry where
  requestedBy : Requester
  status : String
  deriving DecidableEq, Repr

/-- The flag that lets one install in at a time, and the entry `update.install`. -/
structure Record where
  installing : Bool
  entry : Option Entry
  deriving DecidableEq, Repr

namespace Record

def fresh : Record := ⟨false, none⟩

def admitted (requester : Requester) : Record := ⟨true, some ⟨requester, "running"⟩⟩

def act (r : Record) : Act → Record
  | .request => if r.installing then r else admitted .operator
  | .settle ok => match r.entry with
    | some entry => if entry.status = "running" then
        { r with entry := some { entry with status := if ok then "done" else "failed" } } else r
    | none => r
  | .release => match r.entry with
    | some entry => if entry.status = "running" then r else { r with installing := false }
    | none => r

def status (r : Record) : Option String := r.entry.map Entry.status

def after (r : Record) : Event → Record
  | .act a => r.act a
  | .install _ (.ok _) => admitted .driver
  | _ => r

end Record

def record (past : List Event) : Record := past.foldl Record.after .fresh

/-- An install is let in when the flag is free; the rest of the daemon is left open. -/
def serve {ω : Type} (base : Routes ω) : Routes (Record × ω) where
  meanwhile s := ((base.meanwhile s.2).1,
    (base.meanwhile s.2).1.foldl Record.act s.1, (base.meanwhile s.2).2)
  policy s := ((base.policy s.2).1, s.1, (base.policy s.2).2)
  check s := ((base.check s.2).1, s.1, (base.check s.2).2)
  fetch s := ((base.fetch s.2).1, s.1, (base.fetch s.2).2)
  available s := ((base.available s.2).1, s.1, (base.available s.2).2)
  staged s := ((base.staged s.2).1, s.1, (base.staged s.2).2)
  discardStaged why s := ((), s.1, (base.discardStaged why s.2).2)
  facts s := ((base.facts s.2).1.map fun facts ↦ { facts with installStatus := s.1.status },
    s.1, (base.facts s.2).2)
  install descriptor s := match base.install descriptor s.2 with
    | (.error refusal, w) => (.error refusal, s.1, w)
    | (.ok (), w) =>
      if s.1.installing then (.error "an update install is already running", s.1, w)
      else (.ok (), .admitted .driver, w)
  reboot s := ((base.reboot s.2).1, s.1, (base.reboot s.2).2)
  clock s := ((base.clock s.2).1, s.1, (base.clock s.2).2)
  audit event s := ((), s.1, (base.audit event s.2).2)
  defer reason detail s := ((), s.1, (base.defer reason detail s.2).2)
  resume only s := ((), s.1, (base.resume only s.2).2)
  now s := ((base.now s.2).1, s.1, (base.now s.2).2)
  wall s := ((base.wall s.2).1, s.1, (base.wall s.2).2)
  utcNow s := ((base.utcNow s.2).1, s.1, (base.utcNow s.2).2)

def Consistent (past : List Event) : Prop :=
  Each (fun before e ↦ ∀ facts, e = .facts (some facts) →
    facts.installStatus = (record before).status) past

def Recorded {ω : Type} (past : List Event) (s : Record × ω) : Prop :=
  record past = s.1 ∧ Consistent past

section Transcripts

variable {past more : List Event} {e : Event}

theorem record_append : record (past ++ more) = more.foldl Record.after (record past) :=
  List.foldl_append

theorem record_snoc : record (past ++ [e]) = (record past).after e := record_append

theorem record_append_acts (acts : List Act) :
    record (past ++ acts.map .act) = acts.foldl Record.act (record past) := by
  rw [record_append, List.foldl_map]
  rfl

theorem Consistent.append_acts (h : Consistent past) (acts : List Act) :
    Consistent (past ++ acts.map .act) := by
  refine Each.append h fun before _ e he facts heq ↦ ?_
  obtain ⟨a, -, rfl⟩ := List.mem_map.mp he
  cases heq

end Transcripts

namespace AutoDriver

inductive Served {σ : Type} (routes : Routes σ) : (α : Type) → (σ → α × σ) → (α → Event) → Prop
  | policy : Served routes _ routes.policy .policy
  | check : Served routes _ routes.check .check
  | fetch : Served routes _ routes.fetch .fetch
  | available : Served routes _ routes.available .available
  | staged : Served routes _ routes.staged .staged
  | discardStaged (why : String) : Served routes _ (routes.discardStaged why) fun _ ↦
    .discardStaged why
  | facts : Served routes _ routes.facts .facts
  | install (descriptor : Text) : Served routes _ (routes.install descriptor) (.install descriptor)
  | reboot : Served routes _ routes.reboot .reboot
  | clock : Served routes _ routes.clock .clock
  | audit (event : String) : Served routes _ (routes.audit event) fun _ ↦ .audit event
  | defer (reason detail : String) :
      Served routes _ (routes.defer reason detail) fun _ ↦ .defer reason detail
  | resume (only : Option String) : Served routes _ (routes.resume only) fun _ ↦ .resume only
  | now : Served routes _ routes.now .now
  | wall : Served routes _ routes.wall .wall
  | utcNow : Served routes _ routes.utcNow .utcNow

section Passes

variable {σ : Type} {routes : Routes σ} {R : List Event → σ → Prop} {d : AutoDriver}
  {loaded : LoadedPolicy}

def Keeps (routes : Routes σ) (R : List Event → σ → Prop) : Prop :=
  ∀ α f r, Served routes α f r → Talk.Follows R (ask routes f r)

variable (h : Keeps routes R)

include h

theorem deferring_follows (reason detail : String) : Follows R (deferring routes d reason detail) :=
  (h _ _ _ (.defer reason detail)).bind fun _ ↦ .pure

theorem checkIfDue_follows : Follows R (checkIfDue routes d loaded) := by
  have hcrossing : Follows R (anchoredCrossing routes loaded) := by
    unfold anchoredCrossing
    split
    · exact .pure
    · refine (h _ _ _ .clock).bind fun trust ↦ ?_
      split
      · exact (h _ _ _ .wall).bind fun _ ↦ .pure
      · exact .pure
  have hrecord : ∀ answer, Follows R (recordCheck routes answer) := by
    intro answer
    unfold recordCheck
    split
    · exact h _ _ _ (.defer _ _)
    · exact h _ _ _ (.resume _)
    · exact h _ _ _ (.defer _ _)
  unfold checkIfDue
  split
  · exact .pure
  · refine (h _ _ _ .now).bind fun now ↦ ?_
    refine hcrossing.bind fun crossing ↦ ?_
    split
    · exact .pure
    · refine (h _ _ _ (.audit _)).bind fun _ ↦ ?_
      refine (h _ _ _ .check).bind fun answer ↦ ?_
      exact (hrecord answer).bind fun _ ↦ .pure

theorem fetchNamed_follows : Follows R (fetchNamed routes) := by
  unfold fetchNamed
  refine (h _ _ _ .available).bind fun available ↦ ?_
  split
  · exact .pure
  · refine (h _ _ _ .staged).bind fun staged ↦ ?_
    split
    · exact .pure
    · refine (h _ _ _ (.audit _)).bind fun _ ↦ ?_
      refine (h _ _ _ .fetch).bind fun answer ↦ ?_
      split
      · exact (h _ _ _ (.defer _ _)).bind fun _ ↦ .pure
      · exact .pure

theorem requestInstall_follows (descriptor : Text) :
    Follows R (requestInstall routes d descriptor) := by
  unfold requestInstall
  refine (h _ _ _ (.audit _)).bind fun _ ↦ ?_
  refine (h _ _ _ (.install _)).bind fun answer ↦ ?_
  split
  · exact (h _ _ _ (.resume _)).bind fun _ ↦ .pure
  · exact deferring_follows h _ _

theorem recheck_follows (descriptor : Text) : Follows R (recheck routes d descriptor) := by
  unfold recheck
  refine (h _ _ _ (.audit _)).bind fun _ ↦ ?_
  refine (h _ _ _ .check).bind fun answer ↦ ?_
  split
  · split
    · exact requestInstall_follows h descriptor
    · exact deferring_follows h _ _
  · exact (h _ _ _ (.discardStaged _)).bind fun _ ↦ .pure
  · exact deferring_follows h _ _
  · exact deferring_follows h _ _
  · exact deferring_follows h _ _

theorem installIfAllowed_follows (descriptor : Text) :
    Follows R (installIfAllowed routes d loaded descriptor) := by
  unfold installIfAllowed
  refine (h _ _ _ .clock).bind fun trust ↦ ?_
  split
  · exact deferring_follows h _ _
  · refine (h _ _ _ .utcNow).bind fun now ↦ ?_
    split
    · exact deferring_follows h _ _
    · refine (h _ _ _ .facts).bind fun facts ↦ ?_
      split
      · exact deferring_follows h _ _
      · split
        · exact deferring_follows h _ _
        · exact recheck_follows h descriptor

theorem rebootIfAllowed_follows : Follows R (rebootIfAllowed routes d loaded) := by
  unfold rebootIfAllowed
  split
  · exact .pure
  · refine (h _ _ _ .utcNow).bind fun now ↦ ?_
    split
    · exact deferring_follows h _ _
    · refine (h _ _ _ .reboot).bind fun answer ↦ ?_
      split
      · exact deferring_follows h _ _
      · exact (h _ _ _ (.resume _)).bind fun _ ↦ .pure

theorem drive_follows : Follows R (drive routes d loaded) := by
  unfold drive
  split
  · unfold awaitInstall
    refine (h _ _ _ .facts).bind fun facts ↦ ?_
    split
    · exact .pure
    · split
      · exact .pure
      · split
        · exact rebootIfAllowed_follows h
        · exact .pure
  · exact rebootIfAllowed_follows h
  · refine (checkIfDue_follows h).bind fun d' ↦ ?_
    refine (fetchNamed_follows h).bind fun fetched ↦ ?_
    split
    · refine (h _ _ _ .staged).bind fun staged ↦ ?_
      split
      · exact installIfAllowed_follows h _
      · exact .pure
    · exact .pure

theorem tick_follows : Follows R (tick routes d) := by
  unfold tick
  refine (h _ _ _ .policy).bind fun loaded ↦ ?_
  split
  · exact .pure
  · exact .pure
  · exact checkIfDue_follows h
  · split
    · exact checkIfDue_follows h
    · exact drive_follows h

theorem run_follows (n : ℕ) : Follows R (run routes n) := by
  have hticks : ∀ n d, Follows R (ticks routes n d) := by
    intro n
    induction n with
    | zero => exact fun d ↦ .pure
    | succ n ih => exact fun d ↦ (tick_follows h).bind fun d' ↦ ih d'
  unfold run
  refine (h _ _ _ .now).bind fun lastCheck ↦ ?_
  exact (h _ _ _ .wall).bind fun anchorFloor ↦ hticks n _

end Passes

section

variable {ω α : Type} {base : Routes ω} {d : AutoDriver} {loaded : LoadedPolicy}

theorem ask_follows {f : Record × ω → α × (Record × ω)} {record' : α → Event}
    (h : ∀ past s, Recorded past s → Recorded (past ++ [record' (f s).1]) (f s).2) :
    Follows Recorded (ask (serve base) f record') := by
  unfold ask
  refine (Follows.others fun past s hs ↦ ?_).bind fun _ ↦ Follows.ask h
  obtain ⟨hrecord, hconsistent⟩ := hs
  refine ⟨?_, hconsistent.append_acts _⟩
  rw [record_append_acts, hrecord]
  rfl

theorem ask_follows_other {f : ω → α × ω} {record' : α → Event}
    (hafter : ∀ r a, Record.after r (record' a) = r)
    (hfacts : ∀ a facts, record' a ≠ .facts (some facts)) :
    Follows Recorded
      (ask (serve base) (fun s ↦ ((f s.2).1, s.1, (f s.2).2)) record') := by
  refine ask_follows fun past s hs ↦ ⟨?_, hs.2.snoc fun facts heq ↦ absurd heq (hfacts _ facts)⟩
  rw [record_snoc, hafter, hs.1]

theorem ask_follows_facts : Follows Recorded (ask (serve base) (serve base).facts .facts) := by
  refine ask_follows fun past s hs ↦ ⟨?_, hs.2.snoc fun facts heq ↦ ?_⟩
  · rw [record_snoc]
    exact hs.1
  · obtain ⟨base_facts, -, rfl⟩ := Option.map_eq_some_iff.mp (Event.facts.inj heq)
    rw [hs.1]

theorem ask_follows_install (descriptor : Text) :
    Follows Recorded
      (ask (serve base) ((serve base).install descriptor) (.install descriptor)) := by
  refine ask_follows fun past s hs ↦ ⟨?_, hs.2.snoc nofun⟩
  rw [record_snoc, hs.1]
  simp only [serve]
  split
  · rfl
  · split <;> rfl

theorem serve_keeps (base : Routes ω) : Keeps (serve base) Recorded := by
  intro α f r h
  cases h with
  | facts => exact ask_follows_facts
  | install descriptor => exact ask_follows_install descriptor
  | policy | check | fetch | available | staged | discardStaged | reboot | clock | audit | defer
  | resume | now | wall | utcNow => exact ask_follows_other (fun _ _ ↦ rfl) nofun

theorem run_consistent (base : Routes ω) (n : ℕ) (w : ω) : Consistent
    (run (serve base) n (.fresh, w)).1 := by
  have hrun := run_follows (serve_keeps base) n [] (Record.fresh, w) ⟨rfl, Each.nil⟩
  exact hrun.2

end

end AutoDriver

/-- No operator's install was let in while the driver waited for its own. -/
def Undisturbed (past : List Event) : Prop :=
  Each (fun before e ↦ e = .act .request → (record before).installing = false →
    ¬ Asked before) past

def Event.operatorRequest : Event → Bool
  | .act .request => true
  | _ => false

theorem undisturbed_of_all {past : List Event}
    (h : past.all (fun e ↦ !e.operatorRequest) = true) : Undisturbed past := by
  rintro before _ after rfl rfl
  have he := List.all_eq_true.mp h (.act .request) (by simp)
  simp [Event.operatorRequest] at he

theorem Record.act_requestedBy {r : Record} {a : Act} {entry : Entry} (hentry : r.entry = some entry)
    (h : a = .request → r.installing = true) :
    ∃ status, (r.act a).entry = some ⟨entry.requestedBy, status⟩ := by
  cases a with
  | request => exact ⟨entry.status, by simp [act, h rfl, hentry]⟩
  | settle ok =>
    simp only [act, hentry]
    split
    · exact ⟨_, rfl⟩
    · exact ⟨entry.status, hentry⟩
  | release =>
    simp only [act, hentry]
    split
    · exact ⟨entry.status, hentry⟩
    · exact ⟨entry.status, rfl⟩

theorem requestedBy_of_wait {before wait : List Event} {descriptor : Text}
    (hcalm : Undisturbed (before ++ .install descriptor (.ok ()) :: wait))
    (hwait : ∀ e ∈ wait, e.waits = true) :
    ∃ status, (record (before ++ .install descriptor (.ok ()) :: wait)).entry =
      some ⟨.driver, status⟩ := by
  induction wait using List.reverseRecOn with
  | nil => exact ⟨"running", by rw [record_snoc]; rfl⟩
  | append_singleton wait e ih =>
    have hsplit : before ++ .install descriptor (.ok ()) :: (wait ++ [e]) =
        before ++ .install descriptor (.ok ()) :: wait ++ [e] := by simp
    rw [hsplit] at hcalm ⊢
    have hearlier : ∀ e' ∈ wait, e'.waits = true := fun e' he' ↦ hwait e' (by simp [he'])
    obtain ⟨status, hentry⟩ := ih hcalm.of_append hearlier
    rw [record_snoc]
    have he := hwait e (by simp)
    cases e with
    | act a =>
      refine Record.act_requestedBy hentry fun ha ↦ ?_
      by_contra hfree
      refine hcalm _ _ [] rfl (by rw [ha]) (by simpa using hfree) ?_
      exact ⟨before, descriptor, wait, rfl, hearlier⟩
    | install => simp [Event.waits, Event.requests] at he
    | _ => exact ⟨status, hentry⟩

namespace AutoDriver

/-- A reboot is asked for in the window, after the driver's own install, not turned off since. -/
theorem run_reboots {ω : Type} (base : Routes ω) (n : ℕ) (w : ω) {past rest : List Event}
    {answer : Except String Unit}
    (h : (run (serve base) n (.fresh, w)).1 = past ++ .reboot answer :: rest) :
    RebootAllowed past ∧ ∃ before descriptor wait facts since,
      past = before ++ .install descriptor (.ok ()) :: (wait ++ .facts (some facts) :: since) ∧
      (∀ e ∈ wait ++ since, e.requests = false ∧ e.turnsOff = false) ∧
      facts.installStatus = some "done" ∧
      (Undisturbed past →
        (record (before ++ .install descriptor (.ok ()) :: wait)).entry = some ⟨.driver, "done"⟩) := by
  obtain ⟨hallowed, before, descriptor, wait, facts, since, rfl, hwait, hdone, hsince⟩ :=
    run_sound n (Record.fresh, w) past _ rest h
  have hconsistent := run_consistent base n w
  rw [h] at hconsistent
  refine ⟨hallowed, before, descriptor, wait, facts, since, rfl, fun e he ↦ ?_, hdone, fun hcalm ↦ ?_⟩
  · rcases List.mem_append.mp he with he | he
    · have hwaits := hwait e he
      simp only [Event.waits, Bool.and_eq_true, Bool.not_eq_true'] at hwaits
      exact ⟨hwaits.1.2, hwaits.1.1⟩
    · exact (hsince e he).symm
  · have hstatus := hconsistent (before ++ .install descriptor (.ok ()) :: wait) (.facts (some facts))
      (since ++ .reboot answer :: rest) (by simp) facts rfl
    have hcalm' : Undisturbed (before ++ .install descriptor (.ok ()) :: wait) := by
      have hpast : before ++ .install descriptor (.ok ()) :: (wait ++ .facts (some facts) :: since) =
          before ++ .install descriptor (.ok ()) :: wait ++ .facts (some facts) :: since := by simp
      rw [hpast] at hcalm
      exact hcalm.of_append
    obtain ⟨status, hentry⟩ := requestedBy_of_wait hcalm' hwait
    rw [hdone, Record.status, hentry] at hstatus
    obtain rfl : "done" = status := Option.some.inj hstatus
    exact hentry

def beside (acts : List Act) : Routes ℕ :=
  { sampleRoutes fun _ ↦ samplePolicy .auto with
    meanwhile := fun s ↦ if s = 10 then (acts, 11) else ([], s)
    install := fun _ _ ↦ (.ok (), 10) }

def overtakenRun : List Event :=
  (run (serve (beside [.settle false, .release, .request, .settle true])) 2 (.fresh, 0)).1

/-- The driver reboots for an operator's install after its own has failed. -/
theorem not_forall_reboots_own : ∃ before failed wait facts since answer rest,
    overtakenRun = before ++ .install sampleDescriptor (.ok ()) ::
      (failed ++ (wait ++ .facts (some facts) :: (since ++ .reboot answer :: rest))) ∧
    (before ++ (failed ++ (wait ++ since))).all (fun e ↦ !e.requests) = true ∧
    (record (before ++ .install sampleDescriptor (.ok ()) :: failed)).entry =
      some ⟨.driver, "failed"⟩ ∧
    facts.installStatus = some "done" ∧
    (record (before ++ .install sampleDescriptor (.ok ()) :: (failed ++ wait))).entry =
      some ⟨.operator, "done"⟩ :=
  ⟨overtakenRun.take 11, (overtakenRun.drop 12).take 1, (overtakenRun.drop 13).take 5,
    ⟨false, some "done"⟩, (overtakenRun.drop 19).take 1, .ok (), overtakenRun.drop 21,
    rfl, rfl, rfl,
    rfl, rfl⟩

def ownRun : List Event := (run (serve (beside [.settle true, .release])) 2 (.fresh, 0)).1

theorem run_reboots_sample : ∃ past answer rest,
    ownRun = past ++ .reboot answer :: rest ∧ Undisturbed past ∧ RebootAllowed past ∧
    ∃ before descriptor wait, before ++ .install descriptor (.ok ()) :: wait <+: past ∧
      (record (before ++ .install descriptor (.ok ()) :: wait)).entry = some ⟨.driver, "done"⟩ := by
  have hsplit : ownRun = ownRun.take 18 ++ .reboot (.ok ()) :: ownRun.drop 19 := rfl
  have hcalm : Undisturbed (ownRun.take 18) := undisturbed_of_all rfl
  obtain ⟨hallowed, before, descriptor, wait, facts, since, hpast, -, -, hown⟩ :=
    run_reboots _ _ _ hsplit
  refine ⟨_, _, _, hsplit, hcalm, hallowed, before, descriptor, wait, ?_, hown hcalm⟩
  rw [hpast]
  exact ⟨.facts (some facts) :: since, by simp⟩

end AutoDriver

end MicaCore.Update
