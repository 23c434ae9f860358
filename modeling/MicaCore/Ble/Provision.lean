import MicaCore.Ble.Tasks
import MicaCore.Data.OrdMap
import MicaCore.Concurrent.Threads
import Mathlib.Data.Char
import Mathlib.Data.List.Lex

namespace MicaCore.Ble

open Concurrent
open Data

variable {ρ : Type}

structure WifiNetwork where
  ssid : Text
  psk : Option Text
  hidden : Bool
  priority : ℤ
  autoConnect : Option Bool
  deriving DecidableEq

structure Tree where
  claimed : Bool
  networks : List WifiNetwork
  role : WifiRole
  network : OrdMap Text Text

def joinNetworks (networks : List WifiNetwork) (ssid psk : Text) (hidden : Bool) :
    List WifiNetwork × Bool :=
  let priority := match (networks.map (·.priority)).max? with
    | none => 0
    | some top => min (top + 1) (2 ^ 31 - 1)
  let joined := ⟨ssid, if psk.isEmpty then none else some psk, hidden, priority, none⟩
  match networks.findIdx? (·.ssid = ssid) with
  | some i => (networks.set i joined, false)
  | none => (networks ++ [joined], true)

def putBack (previous : List (Text × Option Text)) (network : OrdMap Text Text) :
    OrdMap Text Text :=
  previous.foldl (fun m p ↦ match p.2 with
    | some entry => m.insert p.1 entry
    | none => m.erase p.1) network

/-- A task: not begun, between its read and its write, or with a report to make. A restore
has what its session did. -/
inductive Job where
  | task (session : List Change) (task : Task)
  | join (serial : ℕ) (auth : Auth) (ssid : Text) (networks : List WifiNetwork) (added : Bool)
  | address (serial : ℕ) (auth : Auth) (interface : Text) (network : OrdMap Text Text)
      (previous : Option Text)
  | restoreWifi (session : List Change) (unclaimed : Bool) (snapshot : WifiRole)
      (remove : List Text) (networks : List WifiNetwork)
  | restoreNetwork (session : List Change) (previous : List (Text × Option Text))
      (network : OrdMap Text Text)
  | wifiSaved (serial : ℕ) (ssid : Text) (added : Bool)
  | networkSaved (serial : ℕ) (interface : Text) (previous : Option Text)
  | ended

inductive Author where
  | operation (auth : Auth)
  | restore (unclaimed : Bool)
  | other
  deriving DecidableEq

def Author.unauthenticated : Author → Bool
  | .operation .none => true
  | .restore true => true
  | _ => false

/-- A write of the tree; a restore's with what the session it is made for did. -/
structure TreeWrite where
  author : Author
  before : Tree
  after : Tree
  session : List Change := []

/-- The service, settings and tasks; what the session of the hold in hand did, and the writes
of the tree. -/
structure World (ρ : Type) where
  service : Service ρ
  tree : Tree
  jobs : List Job := []
  session : List Change := []
  writes : List TreeWrite := []

inductive Act (ρ : Type) where
  | engine (l : Label ρ)
  | claim (tree : Tree)
  | other (tree : Tree)
  | run (i : ℕ) (accepted : Bool)
  | report (i : ℕ) (r : Reading)

namespace World

variable (address : OrdMap Text Text → Text → Text → Option Text)

def readable (tree : Tree) (l : Label ρ) : Bool :=
  l.reading.all fun r ↦ r.facts.claimed = tree.claimed ∧ r.role = tree.role

def reports : Label ρ → Bool
  | .input _ _ (.wifiSaved _ _ _) => true
  | .input _ _ (.networkSaved _ _ _) => true
  | _ => false

def jobsOf (session : List Change) (out : List Output) : List Job :=
  out.filterMap fun
    | .task task => some (.task session task)
    | _ => none

def surviving (jobs : List Job) : Label ρ → List Job
  | .restart _ => []
  | _ => jobs

def runEngine (w : World ρ) (l : Label ρ) : Option (World ρ) :=
  if readable w.tree l then
    (w.service.step l).map fun p ↦
      let session := w.service.sessionAfter w.session p.2 l
      { w with
        service := p.1
        jobs := surviving w.jobs l ++ jobsOf session p.2
        session := if p.1.engine.hold.isNone then [] else session }
  else none

def write (w : World ρ) (author : Author) (tree : Tree) (session : List Change) : World ρ :=
  { w with tree, writes := ⟨author, w.tree, tree, session⟩ :: w.writes }

def setJob (w : World ρ) (i : ℕ) (job : Job) : World ρ := { w with jobs := w.jobs.set i job }

/-- A task reads the tree, then writes what it made of it, if accepted. -/
def runJob (w : World ρ) (i : ℕ) (accepted : Bool) : Job → Option (World ρ)
  | .task _ (.op serial auth (.joinWifi ssid psk hidden)) =>
    let joined := joinNetworks w.tree.networks ssid psk hidden
    some (w.setJob i (.join serial auth ssid joined.1 joined.2))
  | .task _ (.op serial auth (.setNetwork interface entry)) =>
    match address w.tree.network interface entry with
    | some next =>
      some (w.setJob i (.address serial auth interface (w.tree.network.insert interface next)
        (w.tree.network.get interface)))
    | none => some (w.setJob i .ended)
  | .task _ (.op _ _ _) => some (w.setJob i .ended)
  | .task session (.restoreWifi unclaimed snapshot remove) =>
    some (w.setJob i (.restoreWifi session unclaimed snapshot remove w.tree.networks))
  | .task session (.restoreNetwork previous) =>
    some (w.setJob i (.restoreNetwork session previous w.tree.network))
  | .join serial auth ssid networks added =>
    if accepted then
      some ((w.write (.operation auth) { w.tree with networks, role := ⟨true, .off⟩ } []).setJob i
        (.wifiSaved serial ssid added))
    else some (w.setJob i .ended)
  | .address serial auth interface network previous =>
    if accepted then
      some ((w.write (.operation auth) { w.tree with network } []).setJob i
        (.networkSaved serial interface previous))
    else some (w.setJob i .ended)
  | .restoreWifi session unclaimed snapshot remove networks =>
    if accepted then
      some ((w.write (.restore unclaimed) { w.tree with
        networks := networks.filter (·.ssid ∉ remove), role := snapshot } session).setJob i .ended)
    else some (w.setJob i .ended)
  | .restoreNetwork session previous network =>
    if accepted then
      some ((w.write (.restore true) { w.tree with network := putBack previous network }
        session).setJob i .ended)
    else some (w.setJob i .ended)
  | _ => none

def step (w : World ρ) : Act ρ → Option (World ρ)
  | .engine l => if reports l then none else w.runEngine l
  | .claim tree => if !w.tree.claimed && tree.claimed then some (w.write .other tree []) else none
  | .other tree => if tree.claimed = w.tree.claimed then some (w.write .other tree []) else none
  | .run i accepted => w.jobs[i]?.bind (w.runJob address i accepted)
  | .report i r =>
    match w.jobs[i]? with
    | some (.wifiSaved serial ssid added) =>
      (w.setJob i .ended).runEngine (.input r .done (.wifiSaved serial ssid added))
    | some (.networkSaved serial interface previous) =>
      (w.setJob i .ended).runEngine (.input r .done (.networkSaved serial interface previous))
    | _ => none

def unwritten : Job → Bool
  | .task _ (.op _ .none work) => work.writes
  | .join _ .none _ _ _ => true
  | .address _ .none _ _ _ => true
  | _ => false

/-- No claim comes between such an operation's check and its write, nor a change before a restore's. -/
def orderly (w : World ρ) : Act ρ → Bool
  | .claim _ => w.jobs.all (!unwritten ·)
  | .run i _ =>
    match w.jobs[i]? with
    | some (.restoreWifi _ unclaimed _ _ networks) => !unclaimed || networks = w.tree.networks
    | some (.restoreNetwork _ _ network) => network = w.tree.network
    | _ => true
  | _ => true

end World

/-- A write that only puts back what its session did and what did not come up: networks it
added, the role it first found, and for each interface the entry it first found. -/
inductive PutsBack (session : List Change) (before after : Tree) : Prop
  | wifi (remove : List Text) (role : WifiRole) (added : ∀ ssid ∈ remove, ssid ∈ addedBy session)
      (found : firstFound session = some role)
      (eq : after = { before with networks := before.networks.filter (·.ssid ∉ remove), role })
  | wired (previous : List (Text × Option Text))
      (replaced : ∀ p ∈ previous, firstReplaced p.1 session = some p.2)
      (eq : after = { before with network := putBack previous before.network })

def Job.Backed : Job → Prop
  | .task session (.restoreWifi _ role remove) =>
    firstFound session = some role ∧ ∀ ssid ∈ remove, ssid ∈ addedBy session
  | .task session (.restoreNetwork previous) => ∀ p ∈ previous, firstReplaced p.1 session = some p.2
  | .restoreWifi session _ role remove _ =>
    firstFound session = some role ∧ ∀ ssid ∈ remove, ssid ∈ addedBy session
  | .restoreNetwork session previous _ => ∀ p ∈ previous, firstReplaced p.1 session = some p.2
  | _ => True

namespace World

variable {address : OrdMap Text Text → Text → Text → Option Text} {w w' : World ρ}

/-- While an operation without authentication has yet to write, the device is unclaimed. -/
structure Sound (w : World ρ) : Prop where
  unclaimed : ∀ job ∈ w.jobs, unwritten job = true → w.tree.claimed = false
  engine : w.service.engine.Reflects w.session
  fresh : w.service.engine.hold = none → w.session = []
  jobs : ∀ job ∈ w.jobs, job.Backed
  writes : ∀ t ∈ w.writes, t.author.unauthenticated = true → t.before.claimed = true →
    PutsBack t.session t.before t.after

theorem Sound.setJob (h : Sound w) (i : ℕ) (job : Job)
    (hunwritten : unwritten job = true → w.tree.claimed = false) (hbacked : job.Backed) :
    Sound (w.setJob i job) := by
  refine ⟨?_, h.engine, h.fresh, ?_, h.writes⟩
  · intro job' hj hu
    rcases List.mem_or_eq_of_mem_set hj with hj | rfl
    · exact h.unclaimed job' hj hu
    · exact hunwritten hu
  · intro job' hj
    rcases List.mem_or_eq_of_mem_set hj with hj | rfl
    · exact h.jobs job' hj
    · exact hbacked

theorem Sound.write (h : Sound w) (author : Author) (tree : Tree) (session : List Change)
    (hclaimed : tree.claimed = w.tree.claimed)
    (hput : author.unauthenticated = true → w.tree.claimed = true → PutsBack session w.tree tree) :
    Sound (w.write author tree session) := by
  refine ⟨fun job hj hu ↦ hclaimed.trans (h.unclaimed job hj hu), h.engine, h.fresh, h.jobs, ?_⟩
  intro t ht
  rcases List.mem_cons.1 ht with rfl | ht
  · exact hput
  · exact h.writes t ht

theorem Sound.runEngine (h : Sound w) {l : Label ρ} (hstep : w.runEngine l = some w') :
    Sound w' := by
  unfold World.runEngine at hstep
  split at hstep
  · next hreadable =>
    obtain ⟨⟨t, out⟩, hservice, rfl⟩ := Option.map_eq_some_iff.1 hstep
    obtain ⟨hengine, htasks⟩ := fairly_step h.engine h.fresh hservice
    have hkept : ∀ job ∈ surviving w.jobs l, job ∈ w.jobs := by
      intro job hj
      cases l with
      | restart r => cases hj
      | _ => exact hj
    have hnew : ∀ job ∈ jobsOf (w.service.sessionAfter w.session out l) out, ∃ task r,
        job = .task (w.service.sessionAfter w.session out l) task ∧ l.reading = some r ∧
          task.Fair (w.service.sessionAfter w.session out l) r := by
      intro job hj
      obtain ⟨o, ho, hjob⟩ := List.mem_filterMap.1 hj
      cases o with
      | task task =>
        cases hjob
        obtain ⟨r, hr, htask⟩ := htasks task ho
        exact ⟨task, r, rfl, hr, htask⟩
      | _ => cases hjob
    refine ⟨?_, ?_, ?_, ?_, h.writes⟩
    · intro job hj hu
      rcases List.mem_append.1 hj with hj | hj
      · exact h.unclaimed job (hkept job hj) hu
      · obtain ⟨task, r, rfl, hr, htask⟩ := hnew job hj
        rw [readable, hr, Option.all_some, decide_eq_true_eq] at hreadable
        cases task with
        | op serial auth work =>
          cases auth with
          | none => exact hreadable.1 ▸ htask rfl hu
          | password | tempCode => cases hu
        | restoreWifi | restoreNetwork => cases hu
    · intro hold hh
      dsimp only at hh ⊢
      rw [hh]
      exact hengine hold hh
    · intro hh
      exact if_pos (Option.isNone_iff_eq_none.2 hh)
    · intro job hj
      rcases List.mem_append.1 hj with hj | hj
      · exact h.jobs job (hkept job hj)
      · obtain ⟨task, r, rfl, hr, htask⟩ := hnew job hj
        cases task with
        | op serial auth work => trivial
        | restoreWifi | restoreNetwork => exact htask
  · cases hstep

section Job

variable {i : ℕ} {accepted : Bool}

theorem Sound.ended (h : Sound w) : Sound (w.setJob i .ended) := h.setJob i _ nofun trivial

theorem Sound.runTask (h : Sound w) {session : List Change} {task : Task}
    (hjob : .task session task ∈ w.jobs)
    (hstep : w.runJob address i accepted (.task session task) = some w') : Sound w' := by
  have hbacked := h.jobs _ hjob
  have hunclaimed := h.unclaimed _ hjob
  cases task with
  | op serial auth work =>
    have hread (job : Job) (hwork : work.writes = true)
        (hu : unwritten job = true → auth = .none) (hb : job.Backed) : Sound (w.setJob i job) := by
      refine h.setJob i job (fun hjob ↦ hunclaimed ?_) hb
      cases hu hjob
      exact hwork
    cases work with
    | joinWifi ssid psk hidden =>
      cases hstep
      refine hread _ rfl (fun hu ↦ ?_) trivial
      cases auth <;> first | rfl | cases hu
    | setNetwork interface entry =>
      simp only [World.runJob] at hstep
      split at hstep <;> cases hstep
      · refine hread _ rfl (fun hu ↦ ?_) trivial
        cases auth <;> first | rfl | cases hu
      · exact h.ended
    | _ =>
      cases hstep
      exact h.ended
  | restoreWifi | restoreNetwork =>
    cases hstep
    exact h.setJob i _ nofun hbacked

/-- An operation writes on a device that is unclaimed, or for an authenticated session. -/
theorem Sound.writeOperation (h : Sound w) {auth : Auth} {tree : Tree} {job : Job}
    (hnone : auth = .none → w.tree.claimed = false) (hclaimed : tree.claimed = w.tree.claimed)
    (hunwritten : unwritten job = false) (hbacked : job.Backed) :
    Sound ((w.write (.operation auth) tree []).setJob i job) := by
  refine Sound.setJob (h.write _ _ _ hclaimed ?_) i job (fun hu ↦ ?_) hbacked
  · intro hu hc
    cases auth with
    | none => cases (hnone rfl).symm.trans hc
    | password | tempCode => cases hu
  · cases hunwritten.symm.trans hu

theorem Sound.runJob (h : Sound w) {job : Job} (hjob : w.jobs[i]? = some job)
    (ha : w.orderly (.run i accepted) = true)
    (hstep : w.runJob address i accepted job = some w') : Sound w' := by
  have hmem : job ∈ w.jobs := List.mem_of_getElem? hjob
  have hbacked := h.jobs job hmem
  have hunclaimed := h.unclaimed job hmem
  simp only [orderly, hjob] at ha
  cases job with
  | task session task => exact h.runTask hmem hstep
  | join | address =>
    simp only [World.runJob] at hstep
    split at hstep <;> cases hstep
    · refine h.writeOperation ?_ rfl rfl trivial
      rintro rfl
      exact hunclaimed rfl
    · exact h.ended
  | restoreWifi session unclaimed snapshot remove networks =>
    simp only [World.runJob] at hstep
    split at hstep <;> cases hstep
    · refine Sound.ended (h.write _ _ _ rfl ?_)
      intro hu _
      cases unclaimed with
      | false => cases hu
      | true =>
        have hread : networks = w.tree.networks := by simpa using ha
        exact .wifi remove snapshot hbacked.2 hbacked.1 (by rw [hread])
    · exact h.ended
  | restoreNetwork session previous network =>
    simp only [World.runJob] at hstep
    split at hstep <;> cases hstep
    · refine Sound.ended (h.write _ _ _ rfl ?_)
      intro _ _
      have hread : network = w.tree.network := by simpa using ha
      exact .wired previous hbacked (by rw [hread])
    · exact h.ended
  | wifiSaved | networkSaved | ended => cases hstep

end Job

theorem Sound.step (h : Sound w) {a : Act ρ} (ha : w.orderly a = true)
    (hstep : w.step address a = some w') : Sound w' := by
  cases a with
  | engine l =>
    simp only [World.step] at hstep
    split at hstep
    · cases hstep
    · exact h.runEngine hstep
  | claim tree =>
    simp only [World.step] at hstep
    split at hstep
    · cases hstep
      have hall : ∀ job ∈ w.jobs, unwritten job = false := by simpa [orderly] using ha
      refine ⟨?_, h.engine, h.fresh, h.jobs, ?_⟩
      · intro job hj hu
        rw [hall job hj] at hu
        cases hu
      · intro t ht
        rcases List.mem_cons.1 ht with rfl | ht
        · exact nofun
        · exact h.writes t ht
    · cases hstep
  | other tree =>
    simp only [World.step] at hstep
    split at hstep
    · next hclaimed =>
      cases hstep
      exact h.write .other tree [] hclaimed nofun
    · cases hstep
  | run i accepted =>
    obtain ⟨job, hjob, hrun⟩ := Option.bind_eq_some_iff.1 hstep
    exact h.runJob hjob ha hrun
  | report i r =>
    simp only [World.step] at hstep
    split at hstep
    · exact Sound.runEngine h.ended hstep
    · exact Sound.runEngine h.ended hstep
    · cases hstep

end World

end MicaCore.Ble
