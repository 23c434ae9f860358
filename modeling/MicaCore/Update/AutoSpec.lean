import MicaCore.Data.Each
import MicaCore.Update.AutoDriver

namespace MicaCore.Update

open Concurrent Data Deploy Settings
open Talk (Ensures Follows)

namespace Event

def inert : Event → Bool
  | .policy _ | .facts _ | .install _ _ | .reboot _ => false
  | _ => true

def turnsOff : Event → Bool
  | .policy loaded => loaded.mode = some .off
  | _ => false

def requests : Event → Bool
  | .install _ _ => true
  | _ => false

def ends : Event → Bool
  | .facts (some f) => f.installStatus ≠ some "running"
  | _ => false

end Event

/-- An install was requested and has not ended. -/
def outstanding (past : List Event) : Bool :=
  past.foldl (fun waits e ↦ match e with
    | .install _ (.ok _) => true
    | e => if e.ends then false else waits) false

/-- The driver is turned off only while no install is outstanding. -/
def OffCalm (past : List Event) : Prop :=
  Each (fun before e ↦ e.turnsOff = true → outstanding before = false) past

def ThisTick (loaded : LoadedPolicy) (seen past : List Event) : Prop :=
  ∃ before since, past = before ++ .policy loaded :: since ∧ (∀ l, .policy l ∉ since) ∧
    seen.Sublist since

/-- What an automatic install needs in its own tick, the check last. -/
def InstallAllowed (descriptor : Text) (past : List Event) : Prop :=
  ∃ loaded trust now facts candidate,
    ThisTick loaded [.clock trust, .utcNow now, .facts (some facts), .check (.ok (.done candidate))]
      past ∧
    loaded.mode = some .auto ∧ loaded.autoWindowRefusal = none ∧ trust.untrustedReason = none ∧
    loaded.installRefusal now = none ∧ loaded.InWindow now ∧ facts.rebootPending = false ∧
    descriptorId descriptor = some candidate.deploymentId

/-- What an automatic reboot needs in its own tick. -/
def RebootAllowed (past : List Event) : Prop :=
  ∃ loaded now, ThisTick loaded [.utcNow now] past ∧ loaded.mode = some .auto ∧
    loaded.rebootPolicy = .window ∧ loaded.InWindow now

def Event.waits (e : Event) : Bool := !e.turnsOff && !e.requests && !e.ends

def Asked (past : List Event) : Prop :=
  ∃ before descriptor since, past = before ++ .install descriptor (.ok ()) :: since ∧
    ∀ e ∈ since, e.waits = true

/-- The driver read the status done after the install it asked for last. -/
def Owed (past : List Event) : Prop :=
  ∃ before descriptor wait facts since,
    past = before ++ .install descriptor (.ok ()) :: (wait ++ .facts (some facts) :: since) ∧
    (∀ e ∈ wait, e.waits = true) ∧ facts.installStatus = some "done" ∧
    ∀ e ∈ since, e.turnsOff = false ∧ e.requests = false

/-- What the stage of the driver says about the transcript. -/
structure Linked (stage : Stage) (past : List Event) : Prop where
  installing : stage = .installing → Asked past
  rebootPending : stage = .rebootPending → Owed past
  outstanding : stage ≠ .installing → OffCalm past → outstanding past = false

/-- Every install and reboot the driver asks for is allowed there. -/
def Backed (past : List Event) : Event → Prop
  | .install descriptor _ => InstallAllowed descriptor past ∧ (OffCalm past → outstanding past = false)
  | .reboot _ => RebootAllowed past ∧ Owed past
  | _ => True

def Sound (past : List Event) : Prop := Each Backed past

section Transcripts

variable {past more : List Event} {e : Event} {stage : Stage} {loaded : LoadedPolicy}
  {seen : List Event}

theorem Event.of_inert (h : e.inert = true) :
    e.turnsOff = false ∧ e.requests = false ∧ e.ends = false ∧ ∀ l, e ≠ .policy l := by
  cases e <;> simp_all [inert, turnsOff, requests, ends]

theorem outstanding_append (h : e.requests = false) :
    outstanding (past ++ [e]) = if e.ends then false else outstanding past := by
  unfold outstanding
  rw [List.foldl_append, List.foldl_cons, List.foldl_nil]
  cases e <;> first | rfl | cases h

theorem outstanding_append_refused (descriptor : Text) (refusal : String) :
    outstanding (past ++ [.install descriptor (.error refusal)]) = outstanding past := by
  unfold outstanding
  rw [List.foldl_append]
  rfl

theorem offCalm_of_all (h : past.all (fun e ↦ !e.turnsOff) = true) : OffCalm past := by
  rintro before e after rfl hoff
  have he := List.all_eq_true.mp h e (by simp)
  simp [hoff] at he

theorem Asked.append (h : Asked past) (hmore : ∀ e ∈ more, e.waits = true) :
    Asked (past ++ more) := by
  obtain ⟨before, descriptor, since, rfl, hsince⟩ := h
  refine ⟨before, descriptor, since ++ more, by simp, fun e he ↦ ?_⟩
  rcases List.mem_append.mp he with he | he
  · exact hsince e he
  · exact hmore e he

theorem Owed.append (h : Owed past) (hmore : ∀ e ∈ more, e.turnsOff = false ∧ e.requests = false) :
    Owed (past ++ more) := by
  obtain ⟨before, descriptor, wait, facts, since, rfl, hwait, hdone, hsince⟩ := h
  refine ⟨before, descriptor, wait, facts, since ++ more, by simp, hwait, hdone, fun e he ↦ ?_⟩
  rcases List.mem_append.mp he with he | he
  · exact hsince e he
  · exact hmore e he

theorem ThisTick.append (h : ThisTick loaded seen past) (hmore : ∀ l, .policy l ∉ more) :
    ThisTick loaded seen (past ++ more) := by
  obtain ⟨before, since, rfl, hpolicy, hseen⟩ := h
  refine ⟨before, since ++ more, by simp, fun l hl ↦ ?_, hseen.trans (List.sublist_append_left _ _)⟩
  rcases List.mem_append.mp hl with hl | hl
  · exact hpolicy l hl
  · exact hmore l hl

theorem ThisTick.snoc (h : ThisTick loaded seen past) (he : ∀ l, e ≠ .policy l) :
    ThisTick loaded (seen ++ [e]) (past ++ [e]) := by
  obtain ⟨before, since, rfl, hpolicy, hseen⟩ := h
  refine ⟨before, since ++ [e], by simp, fun l hl ↦ ?_, hseen.append (List.Sublist.refl _)⟩
  rcases List.mem_append.mp hl with hl | hl
  · exact hpolicy l hl
  · exact he l (List.mem_singleton.mp hl).symm

theorem Linked.snoc (h : Linked stage past)
    (hoff : e.turnsOff = false) (hrequests : e.requests = false)
    (hends : stage = .installing → e.ends = false) : Linked stage (past ++ [e]) where
  installing hstage := (h.installing hstage).append fun e' he' ↦ by
    obtain rfl := List.mem_singleton.mp he'
    simp [Event.waits, hoff, hrequests, hends hstage]
  rebootPending hstage := (h.rebootPending hstage).append fun e' he' ↦ by
    obtain rfl := List.mem_singleton.mp he'
    exact ⟨hoff, hrequests⟩
  outstanding hstage hcalm := by
    rw [outstanding_append hrequests, h.outstanding hstage hcalm.of_append, ite_self]

theorem Linked.append_inert (h : Linked stage past) (hmore : ∀ e ∈ more, e.inert = true) :
    Linked stage (past ++ more) := by
  induction more generalizing past with
  | nil => simpa using h
  | cons e more ih =>
    obtain ⟨hoff, hrequests, hends, -⟩ := Event.of_inert (hmore e List.mem_cons_self)
    have hnext := ih (h.snoc hoff hrequests fun _ ↦ hends) fun e' he' ↦
      hmore e' (List.mem_cons_of_mem _ he')
    simpa using hnext

theorem ThisTick.append_inert (h : ThisTick loaded seen past) (hmore : ∀ e ∈ more, e.inert = true) :
    ThisTick loaded seen (past ++ more) :=
  h.append fun l hl ↦ (Event.of_inert (hmore _ hl)).2.2.2 l rfl

theorem Sound.append_inert (h : Sound past) (hmore : ∀ e ∈ more, e.inert = true) :
    Sound (past ++ more) := by
  refine Each.append h fun before _ e he ↦ ?_
  have hinert := hmore e he
  cases e <;> trivial

theorem Linked.idle (h : Linked stage past) (hstage : stage ≠ .installing) : Linked .idle past where
  installing := nofun
  rebootPending := nofun
  outstanding _ := h.outstanding hstage

theorem Linked.of_off (hoff : loaded.mode = some .off) :
    Linked .idle (past ++ [.policy loaded]) where
  installing := nofun
  rebootPending := nofun
  outstanding _ hcalm := by
    have hbefore : Update.outstanding past = false := hcalm past _ [] rfl (by simp [Event.turnsOff, hoff])
    rw [outstanding_append rfl, hbefore, ite_self]

theorem Linked.of_ended {f : UpdateFacts} (hends : f.installStatus ≠ some "running") :
    Linked .idle (past ++ [.facts (some f)]) where
  installing := nofun
  rebootPending := nofun
  outstanding _ _ := by
    rw [outstanding_append rfl, Event.ends, if_pos (decide_eq_true hends)]

theorem Linked.of_done {f : UpdateFacts} (h : Linked .installing past)
    (hdone : f.installStatus = some "done") :
    Linked .rebootPending (past ++ [.facts (some f)]) where
  installing := nofun
  rebootPending _ := by
    obtain ⟨before, descriptor, since, rfl, hsince⟩ := h.installing rfl
    exact ⟨before, descriptor, since, f, [], by simp, hsince, hdone, nofun⟩
  outstanding _ hcalm := by
    have hends : f.installStatus ≠ some "running" := by simp [hdone]
    exact (Linked.of_ended hends).outstanding nofun hcalm

theorem Linked.of_accepted (descriptor : Text) :
    Linked .installing (past ++ [.install descriptor (.ok ())]) where
  installing _ := ⟨past, descriptor, [], by simp, nofun⟩
  rebootPending := nofun
  outstanding hstage := absurd rfl hstage

theorem Linked.of_refused (h : Linked .idle past) (descriptor : Text) (refusal : String) :
    Linked .idle (past ++ [.install descriptor (.error refusal)]) where
  installing := nofun
  rebootPending := nofun
  outstanding hstage hcalm := by
    rw [outstanding_append_refused]
    exact h.outstanding hstage hcalm.of_append

end Transcripts

def Stable (P : List Event → Prop) : Prop :=
  ∀ past more, (∀ e ∈ more, e.inert = true) → P past → P (past ++ more)

def InTick (stage : Stage) (loaded : LoadedPolicy) (seen past : List Event) : Prop :=
  Linked stage past ∧ ThisTick loaded seen past

namespace AutoDriver

section

variable {σ α : Type} {routes : Routes σ} {P : List Event → Prop} {d : AutoDriver}
  {loaded : LoadedPolicy} {stage : Stage} {seen : List Event}

theorem stable_linked : Stable (Linked stage) := fun _ _ hmore h ↦ h.append_inert hmore

theorem stable_inTick : Stable (InTick stage loaded seen) := fun _ _ hmore h ↦
  ⟨h.1.append_inert hmore, h.2.append_inert hmore⟩

variable {f : σ → α × σ} {record : α → Event}

theorem ask_ensures (hP : Stable P) {Q : α → List Event → Prop}
    (hI : ∀ past a, Sound past → P past → Sound (past ++ [record a]))
    (h : ∀ past a, P past → Q a (past ++ [record a])) :
    Ensures Sound P (ask routes f record) Q := by
  have hacts : ∀ s, ∀ e ∈ (routes.meanwhile s).1.map Event.act, e.inert = true := by
    intro s e he
    obtain ⟨a, -, rfl⟩ := List.mem_map.mp he
    rfl
  unfold ask
  refine Ensures.bind (Q := fun _ past ↦ P past) ?_ fun _ ↦ Ensures.ask hI h
  exact Ensures.others (fun past s hsound _ ↦ hsound.append_inert (hacts s))
    fun past s hpre ↦ hP past _ (hacts s) hpre

theorem ask_inert (hP : Stable P) (hrecord : ∀ a, (record a).inert = true) :
    Ensures Sound P (ask routes f record) fun _ past ↦ P past := by
  have hone : ∀ a, ∀ e ∈ [record a], e.inert = true := by
    intro a e he
    obtain rfl := List.mem_singleton.mp he
    exact hrecord a
  exact ask_ensures hP (fun past a hsound _ ↦ hsound.append_inert (hone a))
    fun past a hpre ↦ hP past _ (hone a) hpre

theorem ask_seen (hrecord : ∀ a, (record a).inert = true) :
    Ensures Sound (InTick stage loaded seen) (ask routes f record)
      fun a past ↦ InTick stage loaded (seen ++ [record a]) past := by
  have hone : ∀ a, ∀ e ∈ [record a], e.inert = true := by
    intro a e he
    obtain rfl := List.mem_singleton.mp he
    exact hrecord a
  refine ask_ensures stable_inTick (fun past a hsound _ ↦ hsound.append_inert (hone a)) ?_
  intro past a hpre
  exact ⟨hpre.1.append_inert (hone a), hpre.2.snoc (Event.of_inert (hrecord a)).2.2.2⟩

theorem audit_ensures (hP : Stable P) (event : String) :
    Ensures Sound P (audit routes event) fun _ past ↦ P past := ask_inert hP fun _ ↦ rfl

theorem defer_ensures (hP : Stable P) (reason detail : String) :
    Ensures Sound P (defer routes reason detail) fun _ past ↦ P past := ask_inert hP fun _ ↦ rfl

theorem resume_ensures (hP : Stable P) (only : Option String) :
    Ensures Sound P (resume routes only) fun _ past ↦ P past := ask_inert hP fun _ ↦ rfl

theorem deferring_ensures (hP : Stable P) (reason detail : String) :
    Ensures Sound P (deferring routes d reason detail) fun d' past ↦ d' = d ∧ P past := by
  unfold deferring
  refine (defer_ensures hP reason detail).bind fun _ ↦ ?_
  exact Ensures.pure fun past hpre ↦ ⟨rfl, hpre⟩

theorem anchoredCrossing_ensures (hP : Stable P) :
    Ensures Sound P (anchoredCrossing routes loaded) fun _ past ↦ P past := by
  unfold anchoredCrossing
  split
  · exact Ensures.pure fun past hpre ↦ hpre
  · refine (ask_inert hP fun _ ↦ rfl).bind fun trust ↦ ?_
    split
    · refine (ask_inert hP fun _ ↦ rfl).bind fun wall ↦ ?_
      exact Ensures.pure fun past hpre ↦ hpre
    · exact Ensures.pure fun past hpre ↦ hpre

theorem recordCheck_ensures (hP : Stable P) (answer : Except Refusal (Settled Available)) :
    Ensures Sound P (recordCheck routes answer) fun _ past ↦ P past := by
  unfold recordCheck
  split
  · exact defer_ensures hP _ _
  · exact resume_ensures hP _
  · exact defer_ensures hP _ _

theorem due_stage {interval now : ℕ} {crossing : Option DateTime} {d' : AutoDriver}
    (h : d.due interval now crossing = some d') : d'.stage = d.stage := by
  unfold due at h
  split at h <;> split at h <;> cases h <;> rfl

theorem checkIfDue_ensures (hP : Stable P) :
    Ensures Sound P (checkIfDue routes d loaded) fun d' past ↦ d'.stage = d.stage ∧ P past := by
  unfold checkIfDue
  split
  · exact Ensures.pure fun past hpre ↦ ⟨rfl, hpre⟩
  · refine (ask_inert hP fun _ ↦ rfl).bind fun now ↦ ?_
    refine (anchoredCrossing_ensures hP).bind fun crossing ↦ ?_
    split
    · exact Ensures.pure fun past hpre ↦ ⟨rfl, hpre⟩
    · next d' hdue =>
      have hstage : d'.stage = d.stage := due_stage hdue
      refine (audit_ensures hP _).bind fun _ ↦ ?_
      refine (ask_inert hP fun _ ↦ rfl).bind fun answer ↦ ?_
      refine (recordCheck_ensures hP answer).bind fun _ ↦ ?_
      exact Ensures.pure fun past hpre ↦ ⟨hstage, hpre⟩

theorem fetchNamed_ensures (hP : Stable P) :
    Ensures Sound P (fetchNamed routes) fun _ past ↦ P past := by
  unfold fetchNamed
  refine (ask_inert hP fun _ ↦ rfl).bind fun available ↦ ?_
  split
  · exact Ensures.pure fun past hpre ↦ hpre
  · refine (ask_inert hP fun _ ↦ rfl).bind fun staged ↦ ?_
    split
    · exact Ensures.pure fun past hpre ↦ hpre
    · refine (audit_ensures hP _).bind fun _ ↦ ?_
      refine (ask_inert hP fun _ ↦ rfl).bind fun answer ↦ ?_
      split
      · refine (defer_ensures hP _ _).bind fun _ ↦ ?_
        exact Ensures.pure fun past hpre ↦ hpre
      · exact Ensures.pure fun past hpre ↦ hpre

variable {descriptor : Text}

theorem stable_installAllowed : Stable (InstallAllowed descriptor) := by
  rintro past more hmore ⟨loaded, trust, now, facts, candidate, htick, hrest⟩
  exact ⟨loaded, trust, now, facts, candidate, htick.append_inert hmore, hrest⟩

def stageAfter : Except String Unit → Stage
  | .ok () => .installing
  | .error _ => .idle

theorem requestInstall_ensures (hstage : d.stage = .idle) :
    Ensures Sound (fun past ↦ Linked .idle past ∧ InstallAllowed descriptor past)
      (requestInstall routes d descriptor) fun d' past ↦ Linked d'.stage past := by
  have hP : Stable fun past ↦ Linked .idle past ∧ InstallAllowed descriptor past :=
    fun past more hmore h ↦ ⟨stable_linked past more hmore h.1, stable_installAllowed past more hmore h.2⟩
  unfold requestInstall
  refine (audit_ensures hP _).bind fun _ ↦ ?_
  refine Ensures.bind (Q := fun answer past ↦ Linked (stageAfter answer) past) ?_ fun answer ↦ ?_
  · refine ask_ensures hP ?_ ?_
    · exact fun past answer hsound hpre ↦ hsound.snoc ⟨hpre.2, hpre.1.outstanding nofun⟩
    · intro past answer hpre
      cases answer with
      | ok _ => exact Linked.of_accepted descriptor
      | error refusal => exact hpre.1.of_refused descriptor refusal
  · cases answer with
    | ok _ =>
      refine (resume_ensures stable_linked _).bind fun _ ↦ ?_
      exact Ensures.pure fun past hpre ↦ hpre
    | error refusal =>
      refine (deferring_ensures stable_linked _ _).mono (fun _ h ↦ h) ?_
      rintro _ past ⟨rfl, hpre⟩
      rw [hstage]
      exact hpre

theorem deferring_linked (reason detail : String) :
    Ensures Sound (InTick d.stage loaded seen) (deferring routes d reason detail)
      fun d' past ↦ Linked d'.stage past := by
  refine (deferring_ensures stable_inTick _ _).mono (fun _ h ↦ h) ?_
  rintro _ past ⟨rfl, hpre⟩
  exact hpre.1

theorem ask_facts (hstage : stage ≠ .installing) :
    Ensures Sound (InTick stage loaded seen) (ask routes routes.facts .facts)
      fun facts past ↦ InTick stage loaded (seen ++ [.facts facts]) past := by
  refine ask_ensures stable_inTick (fun past facts hsound _ ↦ hsound.snoc trivial) ?_
  intro past facts hpre
  exact ⟨hpre.1.snoc rfl rfl fun h ↦ absurd h hstage, hpre.2.snoc nofun⟩

section

variable (hmode : loaded.mode = some .auto) (hauto : loaded.autoWindowRefusal = none)

include hmode hauto

theorem recheck_ensures (hstage : d.stage = .idle) {trust : ClockTrust}
    (htrust : trust.untrustedReason = none)
    {now : DateTime} (hnow : loaded.installRefusal now = none) {facts : UpdateFacts}
    (hfacts : facts.rebootPending = false) :
    Ensures Sound (InTick d.stage loaded [.clock trust, .utcNow now, .facts (some facts)])
      (recheck routes d descriptor) fun d' past ↦ Linked d'.stage past := by
  unfold recheck
  refine (audit_ensures stable_inTick _).bind fun _ ↦ ?_
  refine (ask_seen fun _ ↦ rfl).bind fun answer ↦ ?_
  split
  · next candidate =>
    split
    · next hnamed =>
      refine (requestInstall_ensures hstage).mono ?_ fun _ _ h ↦ h
      rintro past ⟨hlinked, htick⟩
      rw [hstage] at hlinked
      exact ⟨hlinked, loaded, trust, now, facts, candidate, htick, hmode, hauto, htrust, hnow,
        LoadedPolicy.inWindow_of_refusals hmode hauto hnow, hfacts, hnamed.symm⟩
    · exact deferring_linked _ _
  · refine (ask_inert stable_inTick fun _ ↦ rfl).bind fun _ ↦ ?_
    exact Ensures.pure fun past hpre ↦ hpre.1
  · exact deferring_linked _ _
  · exact deferring_linked _ _
  · exact deferring_linked _ _

theorem installIfAllowed_ensures (hstage : d.stage = .idle) :
    Ensures Sound (InTick d.stage loaded []) (installIfAllowed routes d loaded descriptor)
      fun d' past ↦ Linked d'.stage past := by
  unfold installIfAllowed
  refine (ask_seen fun _ ↦ rfl).bind fun trust ↦ ?_
  split
  · exact deferring_linked _ _
  · next htrust =>
    refine (ask_seen fun _ ↦ rfl).bind fun now ↦ ?_
    split
    · exact deferring_linked _ _
    · next hnow =>
      refine (ask_facts (by simp [hstage])).bind fun facts ↦ ?_
      split
      · exact deferring_linked _ _
      · split
        · exact deferring_linked _ _
        · next hfacts => exact recheck_ensures hmode hauto hstage htrust hnow (by simpa using hfacts)

theorem rebootIfAllowed_ensures (hstage : d.stage = .rebootPending) :
    Ensures Sound (InTick d.stage loaded []) (rebootIfAllowed routes d loaded)
      fun d' past ↦ Linked d'.stage past := by
  have hnot : d.stage ≠ .installing := by simp [hstage]
  unfold rebootIfAllowed
  split
  · exact Ensures.pure fun past hpre ↦ hpre.1.idle hnot
  · next hpolicy =>
    refine (ask_seen fun _ ↦ rfl).bind fun now ↦ ?_
    split
    · exact deferring_linked _ _
    · next hnow =>
      have hwindow := LoadedPolicy.inWindow_of_refusals hmode hauto hnow
      refine Ensures.bind (Q := fun _ past ↦ InTick d.stage loaded [.utcNow now] past) ?_
        fun answer ↦ ?_
      · refine ask_ensures stable_inTick ?_ ?_
        · intro past answer hsound hpre
          exact hsound.snoc ⟨⟨loaded, now, hpre.2, hmode, not_not.mp hpolicy, hwindow⟩,
            hpre.1.rebootPending hstage⟩
        · intro past answer hpre
          exact ⟨hpre.1.snoc rfl rfl fun _ ↦ rfl, hpre.2.append (by simp)⟩
      · split
        · exact deferring_linked _ _
        · refine (resume_ensures stable_inTick _).bind fun _ ↦ ?_
          exact Ensures.pure fun past hpre ↦ hpre.1.idle hnot

theorem awaitInstall_ensures (hstage : d.stage = .installing) :
    Ensures Sound (InTick d.stage loaded []) (awaitInstall routes d loaded)
      fun d' past ↦ Linked d'.stage past := by
  unfold awaitInstall
  refine Ensures.bind (Q := fun facts past ↦ ∃ before, InTick .installing loaded [] before ∧
    past = before ++ [.facts facts]) ?_ fun facts ↦ ?_
  · refine ask_ensures stable_inTick (fun past facts hsound _ ↦ hsound.snoc trivial) ?_
    intro past facts hpre
    rw [hstage] at hpre
    exact ⟨past, hpre, rfl⟩
  · cases facts with
    | none =>
      refine Ensures.pure ?_
      rintro _ ⟨before, hbefore, rfl⟩
      rw [hstage]
      exact hbefore.1.snoc rfl rfl fun _ ↦ rfl
    | some f =>
      simp only
      split
      · next hrunning =>
        refine Ensures.pure ?_
        rintro _ ⟨before, hbefore, rfl⟩
        rw [hstage]
        exact hbefore.1.snoc rfl rfl fun _ ↦ by simp [Event.ends, hrunning]
      · next hended =>
        split
        · next hdone =>
          refine (rebootIfAllowed_ensures hmode hauto rfl).mono ?_ fun _ _ h ↦ h
          rintro _ ⟨before, hbefore, rfl⟩
          exact ⟨hbefore.1.of_done hdone, hbefore.2.append (by simp)⟩
        · refine Ensures.pure ?_
          rintro _ ⟨before, hbefore, rfl⟩
          exact Linked.of_ended hended

theorem drive_ensures :
    Ensures Sound (InTick d.stage loaded []) (drive routes d loaded)
      fun d' past ↦ Linked d'.stage past := by
  unfold drive
  split
  · next hstage => exact awaitInstall_ensures hmode hauto hstage
  · next hstage => exact rebootIfAllowed_ensures hmode hauto hstage
  · next hstage =>
    refine (checkIfDue_ensures stable_inTick).bind fun d' ↦ ?_
    -- The check leaves the driver idle, so the rest of the pass starts from the same stage.
    refine Ensures.bind (Q := fun _ past ↦ d'.stage = .idle ∧ InTick d'.stage loaded [] past) ?_
      fun fetched ↦ ?_
    · have hP : Stable fun past ↦ d'.stage = .idle ∧ InTick d'.stage loaded [] past :=
        fun past more hmore h ↦ ⟨h.1, stable_inTick past more hmore h.2⟩
      refine (fetchNamed_ensures hP).mono ?_ fun _ _ h ↦ h
      rintro past ⟨hsame, hpre⟩
      rw [hsame]
      exact ⟨hstage, hpre⟩
    · by_cases hidle : d'.stage = .idle
      · split
        · refine Ensures.bind (Q := fun _ ↦ InTick d'.stage loaded []) ?_ fun staged ↦ ?_
          · exact (ask_inert stable_inTick fun _ ↦ rfl).mono (fun _ h ↦ h.2) fun _ _ h ↦ h
          · split
            · exact installIfAllowed_ensures hmode hauto hidle
            · exact Ensures.pure fun past hpre ↦ hpre.1
        · exact Ensures.pure fun past hpre ↦ hpre.2.1
      · exact fun past s _ hpre ↦ absurd hpre.1 hidle

end

theorem tick_ensures :
    Ensures Sound (Linked d.stage) (tick routes d) fun d' past ↦ Linked d'.stage past := by
  unfold tick
  refine Ensures.bind (Q := fun loaded past ↦ ThisTick loaded [] past ∧
    (loaded.mode = some .off → Linked .idle past) ∧
    (loaded.mode ≠ some .off → Linked d.stage past)) ?_ fun loaded ↦ ?_
  · refine ask_ensures stable_linked (fun past loaded hsound _ ↦ hsound.snoc trivial) ?_
    intro past loaded hpre
    refine ⟨⟨past, [], rfl, nofun, List.Sublist.refl _⟩, Linked.of_off, fun hon ↦ ?_⟩
    exact hpre.snoc (by simpa [Event.turnsOff] using hon) rfl fun _ ↦ rfl
  · split
    · next hmode =>
      exact Ensures.pure fun past hpre ↦ hpre.2.2 (by simp [hmode])
    · next hmode =>
      exact Ensures.pure fun past hpre ↦ hpre.2.1 hmode
    · next hmode =>
      refine (checkIfDue_ensures stable_linked).mono (fun past hpre ↦ hpre.2.2 (by simp [hmode])) ?_
      rintro d' past ⟨hstage, hpre⟩
      rw [hstage]
      exact hpre
    · next hmode =>
      split
      · refine (checkIfDue_ensures stable_linked).mono (fun past hpre ↦ hpre.2.2 (by simp [hmode])) ?_
        rintro d' past ⟨hstage, hpre⟩
        rw [hstage]
        exact hpre
      · next hauto =>
        refine (drive_ensures hmode hauto).mono ?_ fun _ _ h ↦ h
        exact fun past hpre ↦ ⟨hpre.2.2 (by simp [hmode]), hpre.1⟩

theorem ticks_ensures (n : ℕ) :
    Ensures Sound (Linked d.stage) (ticks routes n d) fun d' past ↦ Linked d'.stage past := by
  induction n generalizing d with
  | zero => exact Ensures.pure fun past hpre ↦ hpre
  | succ n ih => exact tick_ensures.bind fun d' ↦ ih

theorem run_sound (n : ℕ) (s : σ) : Sound (run routes n s).1 := by
  have hrun : Ensures Sound (Linked .idle) (run routes n) fun d' past ↦ Linked d'.stage past := by
    unfold run
    refine (ask_inert stable_linked fun _ ↦ rfl).bind fun lastCheck ↦ ?_
    refine (ask_inert stable_linked fun _ ↦ rfl).bind fun anchorFloor ↦ ?_
    exact ticks_ensures (d := ⟨lastCheck, anchorFloor, .idle⟩) n
  have hstart : Linked .idle [] := ⟨nofun, nofun, fun _ _ ↦ rfl⟩
  simpa using (hrun [] s Each.nil hstart).1

/-- An install is asked for only where allowed, and alone unless the mode was off. -/
theorem run_installs (routes : Routes σ) (n : ℕ) (s : σ) {past rest : List Event}
    {descriptor : Text}
    {answer : Except String Unit}
    (h : (run routes n s).1 = past ++ .install descriptor answer :: rest) :
    InstallAllowed descriptor past ∧ (OffCalm past → outstanding past = false) :=
  run_sound n s past _ rest h

end

def sampleDescriptor : Text := List.replicate 64 'a' ++ ".json".toList

def sampleRoutes (policy : ℕ → LoadedPolicy) : Routes ℕ where
  meanwhile s := ([], s)
  policy s := (policy s, s + 1)
  check s := (.ok (.done ⟨List.replicate 64 'a', "2".toList⟩), s)
  fetch s := (.ok .noneCompatible, s)
  available s := (none, s)
  staged s := (some sampleDescriptor, s)
  discardStaged _ s := ((), s)
  facts s := (some ⟨false, some "running"⟩, s)
  install _ s := (if s = 1 then .ok () else .error "an update install is already running", s)
  reboot s := (.ok (), s)
  clock s := (⟨some .synchronized, false⟩, s)
  audit _ s := ((), s)
  defer _ _ s := ((), s)
  resume _ s := ((), s)
  now s := (0, s)
  wall s := (⟨0, 0, 0, by decide, DateTime.nano_zero⟩, s)
  utcNow s := (⟨4, 1800, 0, by decide, DateTime.nano_zero⟩, s)

def samplePolicy (mode : UpdateMode) : LoadedPolicy where
  selection := some ⟨mode, 0⟩
  windows := [⟨[], "00:00".toList, "00:00".toList⟩]
  rebootPolicy := .window
  checkAt := none
  error := none

def offRun : List Event :=
  (run (sampleRoutes fun s ↦ samplePolicy (if s = 1 then .off else .auto)) 3 0).1

/-- Turned off for one tick while its install runs, the driver asks for another. -/
theorem not_forall_installs_alone : ∃ past answer rest,
    offRun = past ++ .install sampleDescriptor answer :: rest ∧ outstanding past = true :=
  ⟨offRun.take 23, .error "an update install is already running", offRun.drop 24, rfl, rfl⟩

theorem run_installs_sample : ∃ past answer rest,
    offRun = past ++ .install sampleDescriptor answer :: rest ∧ OffCalm past ∧
      InstallAllowed sampleDescriptor past ∧ outstanding past = false := by
  have hsplit : offRun = offRun.take 11 ++
      .install sampleDescriptor (.ok ()) :: offRun.drop 12 := rfl
  have hcalm : OffCalm (offRun.take 11) := offCalm_of_all rfl
  obtain ⟨hallowed, halone⟩ := run_installs _ _ _ hsplit
  exact ⟨_, _, _, hsplit, hcalm, hallowed, halone hcalm⟩

end AutoDriver

end MicaCore.Update
