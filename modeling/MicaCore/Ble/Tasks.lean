import MicaCore.Ble.Engine

namespace MicaCore.Ble

open Data

variable {ρ : Type}

def Work.writes : Work → Bool
  | .joinWifi _ _ _ => true
  | .setNetwork _ _ => true
  | _ => false

def Label.reading : Label ρ → Option Reading
  | .input r _ _ => some r
  | .answer r => some r
  | .restart r => some r
  | .verifier _ => none

/-- What a session did: the role it found the radio in, what it added and replaced, and what
came up and so stays. A list of them is newest first. -/
inductive Change where
  | found (role : WifiRole)
  | added (ssid : Text)
  | replaced (interface : Text) (previous : Option Text)
  | joined
  | up (interface : Text)
  deriving DecidableEq

/-- The role found before the first change of the radio that did not come up. -/
def firstFound : List Change → Option WifiRole
  | [] => none
  | .joined :: _ => none
  | .found role :: log => (firstFound log).or (some role)
  | _ :: log => firstFound log

def addedBy : List Change → List Text
  | [] => []
  | .joined :: _ => []
  | .added ssid :: log => ssid :: addedBy log
  | _ :: log => addedBy log

/-- The entry found by the first change of an interface that did not come up. -/
def firstReplaced (interface : Text) : List Change → Option (Option Text)
  | [] => none
  | .up name :: log => if name = interface then none else firstReplaced interface log
  | .replaced name previous :: log =>
    (firstReplaced interface log).or (if name = interface then some previous else none)
  | _ :: log => firstReplaced interface log

def committed : Op → Outcome → List Change
  | .setWifi, .connected => [.joined]
  | .setNetwork, .up name => [.up name]
  | _, _ => []

/-- What the engine learns of its session from an input. -/
def Engine.takesIn (e : Engine ρ) : Input ρ → List Change
  | .wifiSaved serial ssid added =>
    if added && e.connection.any (·.serial = serial) then [.added ssid] else []
  | .networkSaved serial interface previous =>
    if e.connection.any (·.serial = serial) then [.replaced interface previous] else []
  | .done _ op outcome => committed op outcome
  | _ => []

def foundBy (r : Reading) (out : List Output) : List Change :=
  out.filterMap fun
    | .task (.op _ _ (.joinWifi _ _ _)) => some (.found r.role)
    | _ => none

variable {log : List Change} {r : Reading} {e e' : Engine ρ} {out more : List Output}

/-- The hold is what its session did that did not come up. -/
structure Hold.Reflects (h : Hold) (log : List Change) : Prop where
  snapshot : h.snapshot = firstFound log
  added : ∀ ssid ∈ h.added, ssid ∈ addedBy log
  replaced : ∀ p ∈ h.replaced, firstReplaced p.1 log = some p.2
  others : ∀ name, h.replaced.any (·.1 = name) = false → firstReplaced name log = none

def Engine.Reflects (e : Engine ρ) (log : List Change) : Prop :=
  ∀ h, e.hold = some h → h.Reflects log

/-- Operations without authentication are for unclaimed devices; restores put back. -/
def Task.Fair (log : List Change) (r : Reading) : Task → Prop
  | .op _ auth work => auth = .none → work.writes = true → r.facts.claimed = false
  | .restoreWifi _ snapshot remove =>
    firstFound log = some snapshot ∧ ∀ ssid ∈ remove, ssid ∈ addedBy log
  | .restoreNetwork previous => ∀ p ∈ previous, firstReplaced p.1 log = some p.2

structure FairOutput (log : List Change) (r : Reading) (out : List Output) : Prop where
  tasks : ∀ task, .task task ∈ out → task.Fair log r
  quiet : foundBy r out = []

/-- No join was spawned, and the hold and what was spawned are as they should be. -/
structure Fair (log : List Change) (r : Reading) (p : Engine ρ × List Output) : Prop where
  engine : p.1.Reflects log
  output : FairOutput log r p.2

namespace FairOutput

theorem nil : FairOutput log r [] := ⟨nofun, rfl⟩

theorem append (h : FairOutput log r out) (h' : FairOutput log r more) :
    FairOutput log r (out ++ more) := by
  refine ⟨?_, ?_⟩
  · intro task ht
    rcases List.mem_append.1 ht with ht | ht
    · exact h.tasks task ht
    · exact h'.tasks task ht
  · rw [foundBy, List.filterMap_append]
    exact List.append_eq_nil_iff.2 ⟨h.quiet, h'.quiet⟩

theorem reply (reply : Reply) : FairOutput log r [.session reply] := by
  refine ⟨?_, rfl⟩
  intro task ht
  cases ht with
  | tail _ ht => cases ht

theorem one {task : Task} (h : task.Fair log r) (hq : foundBy r [.task task] = []) :
    FairOutput log r [.task task] := by
  refine ⟨?_, hq⟩
  intro task ht
  cases ht with
  | head => exact h
  | tail _ ht => cases ht

theorem sendEvent (notice : Notice) : FairOutput log r (e.sendEvent notice) := by
  unfold Engine.sendEvent
  split
  · refine ⟨?_, rfl⟩
    intro task ht
    cases ht with
    | tail _ ht => cases ht
  · exact .nil

end FairOutput

theorem Engine.Reflects.of_hold (h : e.Reflects log) (heq : e'.hold = e.hold) :
    e'.Reflects log := by
  intro hold hh
  exact h hold (heq ▸ hh)

theorem Engine.Reflects.map {log' : List Change} (h : e.Reflects log) {f : Hold → Hold}
    (heq : e'.hold = e.hold.map f) (hf : ∀ hold, hold.Reflects log → (f hold).Reflects log') :
    e'.Reflects log' := by
  intro hold hh
  rw [heq] at hh
  obtain ⟨hold', hh', rfl⟩ := Option.map_eq_some_iff.1 hh
  exact hf hold' (h hold' hh')

theorem Engine.Reflects.endConnection (h : e.Reflects log) (now : ℕ) :
    (e.endConnection now).Reflects log := by
  unfold Engine.endConnection
  split
  · exact h
  · exact h.map rfl fun _ hold ↦ ⟨hold.snapshot, hold.added, hold.replaced, hold.others⟩

theorem fair_endHold (h : e.Reflects log) (finished : Bool) : Fair log r (e.endHold finished) := by
  unfold Engine.endHold
  split
  · exact ⟨h, .nil⟩
  · next hold hh =>
    have hold := h hold hh
    refine ⟨nofun, .append ⟨?_, ?_⟩ ?_⟩
    · intro task ht
      obtain ⟨snapshot, hs, heq⟩ := List.mem_map.1 ht
      cases heq
      refine ⟨hold.snapshot.symm.trans (Option.mem_toList.1 hs), ?_⟩
      intro ssid hssid
      split at hssid
      · exact hold.added ssid hssid
      · cases hssid
    · simp [foundBy]
    · split
      · exact .one hold.replaced rfl
      · exact .nil

theorem fair_start (h : e.Reflects log) (lockout : Lockout) (verifier : Option ρ)
    (requested : Option Text) (pub : Bool) :
    Fair log r (e.start r lockout verifier requested pub) := by
  have hparams (w : Open) (record : ρ) :
      Fair log r (e.abandonExchange.sendParams r lockout w record) := by
    unfold Engine.sendParams
    split <;> exact ⟨h, .reply _⟩
  unfold Engine.start
  dsimp only
  split
  · exact ⟨h, .reply _⟩
  split
  · exact ⟨h, .reply _⟩
  split
  · unfold Engine.startNone
    split <;> exact ⟨h, .reply _⟩
  · split
    · exact ⟨h, .reply _⟩
    · exact hparams _ _
  · split
    · exact ⟨h, .reply _⟩
    · exact hparams _ _

theorem fair_task {serial : ℕ} {auth : Auth} {work : Work} (hauth : e.sessionAuth = some auth)
    (hw : work.writes = true → e.stillUnclaimed r = true) :
    (Task.op serial auth work).Fair log r := by
  intro hnone hwrites
  have hstill := hw hwrites
  rw [Engine.stillUnclaimed, hauth, hnone] at hstill
  simpa using hstill

theorem fair_spawnOp (h : e.Reflects log) (op : Op) (work : Work)
    (hw : work.writes = true → e.stillUnclaimed r = true)
    (hquiet : ∀ serial auth, foundBy r [.task (.op serial auth work)] = []) :
    Fair log r (e.spawnOp op work) := by
  unfold Engine.spawnOp
  split
  · next c auth hc hauth => exact ⟨h, .one (fair_task hauth hw) (hquiet _ _)⟩
  · exact ⟨h, .nil⟩

/-- A session's hold is begun with nothing done. -/
theorem Engine.Reflects.getHold (h : e.Reflects log) (hnone : e.hold = none → log = []) :
    e.getHold.Reflects log := by
  unfold Engine.getHold
  cases hh : e.hold with
  | none =>
    rw [hnone hh]
    exact ⟨rfl, nofun, nofun, fun _ _ ↦ rfl⟩
  | some hold => exact h hold hh

theorem Engine.Reflects.withHold {hold : Hold} (h : hold.Reflects log) :
    (e.withHold hold).Reflects log := by
  intro hold' hh
  cases hh
  exact h

theorem Hold.Reflects.found {hold : Hold} (h : hold.Reflects log) (role : WifiRole) :
    { hold with snapshot := some (hold.snapshot.getD role) }.Reflects (.found role :: log) := by
  refine ⟨?_, h.added, h.replaced, h.others⟩
  show some (hold.snapshot.getD role) = (firstFound log).or (some role)
  rw [← h.snapshot]
  cases hold.snapshot <;> rfl

section Service

variable {s : Service ρ} {write : Write}

/-- What was done is in the log with the join spawned, if one was. -/
structure Fairly (log : List Change) (r : Reading) (p : Engine ρ × List Output) : Prop where
  engine : p.1.Reflects (foundBy r p.2 ++ log)
  tasks : ∀ task, .task task ∈ p.2 → task.Fair (foundBy r p.2 ++ log) r

theorem Fair.fairly {p : Engine ρ × List Output} (h : Fair log r p) : Fairly log r p := by
  refine ⟨?_, ?_⟩ <;> rw [h.output.quiet]
  · exact h.engine
  · exact h.output.tasks

theorem fairly_setWifi (h : e.Reflects log) (hnone : e.hold = none → log = []) {auth : Auth}
    (hauth : e.sessionAuth = some auth) (ssid psk : Text) (hidden : Bool) :
    Fairly log r (e.setWifi r ssid psk hidden) := by
  unfold Engine.setWifi
  split
  · exact Fair.fairly ⟨h, .sendEvent _⟩
  next hclaimed =>
  have hstill : e.stillUnclaimed r = true := by simpa using hclaimed
  split
  · exact Fair.fairly ⟨h, .sendEvent _⟩
  split
  · exact Fair.fairly ⟨h, .sendEvent _⟩
  split
  · exact Fair.fairly ⟨h, .sendEvent _⟩
  · cases hc : e.connection with
    | none => simp [Engine.sessionAuth, Engine.phase, hc] at hauth
    | some c =>
      have hspawn (hold : Hold) : (e.withHold hold).spawnOp .setWifi (.joinWifi ssid psk hidden) =
          ((e.withHold hold).onConnection ({ · with op := some .setWifi }),
            [.task (.op c.serial auth (.joinWifi ssid psk hidden))]) := by
        have hauth' : (e.withHold hold).sessionAuth = some auth := hauth
        have hc' : (e.withHold hold).connection = some c := hc
        simp only [Engine.spawnOp, hauth', hc']
      dsimp only
      rw [hspawn]
      have hevent (notice : Notice) {e' : Engine ρ} :
          foundBy r ([.task (.op c.serial auth (.joinWifi ssid psk hidden))] ++ e'.sendEvent notice) =
            [.found r.role] := by
        rw [foundBy, List.filterMap_append]
        exact congrArg (_ ++ ·) (FairOutput.sendEvent notice : FairOutput log _ _).quiet
      refine ⟨?_, ?_⟩ <;> rw [hevent]
      · exact Engine.Reflects.withHold (e := e) ((h.getHold hnone).found r.role)
      · intro task ht
        rcases List.mem_append.1 ht with ht | ht
        · cases List.mem_singleton.1 ht
          exact fair_task hauth fun _ ↦ hstill
        · exact (FairOutput.sendEvent _).tasks task ht

theorem fairly_runCommand (h : e.Reflects log) (hnone : e.hold = none → log = []) {auth : Auth}
    (hauth : e.sessionAuth = some auth) (command : Command) :
    Fairly log r (e.runCommand r command) := by
  cases command with
  | getStatus => exact Fair.fairly (fair_spawnOp h .getStatus .status nofun fun _ _ ↦ rfl)
  | scanWifi rescan => exact Fair.fairly (fair_spawnOp h .scanWifi (.scan rescan) nofun fun _ _ ↦ rfl)
  | setWifi ssid psk hidden => exact fairly_setWifi h hnone hauth ssid psk hidden
  | setNetwork interface entry =>
    show Fairly log r (e.setNetwork r interface entry)
    unfold Engine.setNetwork
    split
    · exact Fair.fairly ⟨h, .sendEvent _⟩
    · next hclaimed =>
      have hstill : e.stillUnclaimed r = true := by simpa using hclaimed
      have hspawn := fair_spawnOp (Engine.Reflects.withHold (e := e) (h.getHold hnone)) .setNetwork
        (.setNetwork interface entry) (fun _ ↦ hstill) fun _ _ ↦ rfl
      exact Fair.fairly ⟨hspawn.engine, hspawn.output.append (.sendEvent _)⟩
  | finish =>
    show Fairly log r (e.finish r)
    unfold Engine.finish
    split
    · exact Fair.fairly ⟨h, .sendEvent _⟩
    · exact Fair.fairly (fair_spawnOp h .finish .finish nofun fun _ _ ↦ rfl)
  | _ => exact Fair.fairly ⟨h, .sendEvent _⟩

theorem fairly_onCommand (h : e.Reflects log) (hnone : e.hold = none → log = [])
    (command : Command) : Fairly log r (e.onCommand r command) := by
  have htouch : (e.touch r.uptime).Reflects log := h.of_hold rfl
  have hauth : (e.touch r.uptime).sessionAuth = e.sessionAuth := by
    simp only [Engine.sessionAuth, Engine.phase, Engine.touch, Engine.onConnection]
    cases e.connection <;> rfl
  unfold Engine.onCommand
  split
  · exact Fair.fairly ⟨h, .nil⟩
  · exact Fair.fairly ⟨h.endConnection _, .nil⟩
  · exact Fair.fairly ⟨htouch, .sendEvent _⟩
  · dsimp only
    split
    · exact Fair.fairly ⟨htouch, .sendEvent _⟩
    · exact fairly_runCommand htouch hnone (hauth.trans ‹_›) _

theorem Hold.Reflects.commit {hold : Hold} (h : hold.Reflects log) (op : Op) (outcome : Outcome) :
    (hold.commit op outcome).Reflects (committed op outcome ++ log) := by
  cases op <;> cases outcome <;> try exact h
  case setWifi.connected => exact ⟨rfl, nofun, h.replaced, h.others⟩
  case setNetwork.up name =>
    refine ⟨h.snapshot, h.added, ?_, ?_⟩
    · intro p hp
      obtain ⟨hp, hne⟩ := List.mem_filter.1 hp
      exact (if_neg (Ne.symm (of_decide_eq_true hne))).trans (h.replaced p hp)
    · intro other hany
      show (if name = other then none else firstReplaced other log) = none
      split
      · rfl
      · next hne =>
        refine h.others other ?_
        simp only [Hold.commit, List.any_filter, List.any_eq_false] at hany ⊢
        intro p hp heq
        refine hany p hp ?_
        simpa [of_decide_eq_true heq] using Ne.symm hne

theorem fair_closeSession (h : e.Reflects log) : Fair log r (e.closeSession r) := by
  have hend := fair_endHold (r := r) (e := { e with
    windows := e.windows.finish r.uptime, tempCode := none, facts := r.facts }) (h.of_hold rfl) true
  exact ⟨hend.engine.endConnection _, hend.output⟩

theorem fair_doneOp (h : e.Reflects log) (serial : ℕ) (op : Op) (outcome : Outcome) :
    Fair (committed op outcome ++ log) r (e.doneOp r serial op outcome) := by
  have hcommit : (e.commit op outcome).Reflects (committed op outcome ++ log) :=
    h.map rfl fun _ hold ↦ hold.commit op outcome
  unfold Engine.doneOp
  dsimp only
  split
  · split
    · have hclose (f : Connection ρ → Connection ρ) :=
        fair_closeSession (r := r) (e := (e.commit op outcome).onConnection f) (hcommit.of_hold rfl)
      exact ⟨(hclose _).engine, .append (.sendEvent _) (hclose _).output⟩
    · exact ⟨hcommit.of_hold rfl, .sendEvent _⟩
  · exact ⟨hcommit, .nil⟩

theorem fair_claimedElsewhere (h : e.Reflects log) : Fair log r (e.claimedElsewhere r) := by
  have hfacts : (e.refresh r.facts).Reflects log := h.of_hold rfl
  unfold Engine.claimedElsewhere
  dsimp only
  split <;> split
  · have hend := fair_endHold (r := r) (hfacts.endConnection r.uptime) false
    exact ⟨hend.engine, .append (.sendEvent _) hend.output⟩
  · exact ⟨hfacts.endConnection _, .sendEvent _⟩
  · have hend := fair_endHold (r := r) hfacts false
    exact ⟨hend.engine, .append .nil hend.output⟩
  · exact ⟨hfacts, .nil⟩

theorem fair_settle (h : e.Reflects log) (refresh : Bool) : Fair log r (e.settle r refresh) := by
  unfold Engine.settle
  dsimp only
  have hfacts : (if refresh then e.refresh r.facts else e).Reflects log := by
    split
    · exact h.of_hold rfl
    · exact h
  generalize (if refresh then e.refresh r.facts else e) = e₁ at hfacts ⊢
  have hcode : (e₁.dropCode (e₁.window r.uptime)).Reflects log := by
    refine hfacts.of_hold ?_
    unfold Engine.dropCode
    split <;> rfl
  generalize e₁.dropCode (e₁.window r.uptime) = e₂ at hcode ⊢
  split <;> split
  · have hend := fair_endHold (r := r) (hcode.endConnection r.uptime) false
    exact ⟨hend.engine, .append (.sendEvent _) hend.output⟩
  · exact ⟨hcode.endConnection _, .sendEvent _⟩
  · have hend := fair_endHold (r := r) hcode false
    exact ⟨hend.engine, .append .nil hend.output⟩
  · exact ⟨hcode, .nil⟩

theorem Engine.Reflects.saveWifi (h : e.Reflects log) (serial : ℕ) (ssid : Text) (added : Bool) :
    (e.saveWifi serial ssid added).Reflects (e.takesIn (.wifiSaved serial ssid added) ++ log) := by
  simp only [Engine.saveWifi, Engine.takesIn]
  split
  · refine h.map rfl fun hold hh ↦ ⟨hh.snapshot, ?_, hh.replaced, hh.others⟩
    intro name hname
    rcases List.mem_append.1 hname with hname | hname
    · exact List.mem_cons_of_mem _ (hh.added name hname)
    · exact List.mem_singleton.1 hname ▸ List.mem_cons_self
  · exact h

theorem Hold.Reflects.replaces {hold : Hold} (h : hold.Reflects log) (name : Text)
    (previous : Option Text) :
    Hold.Reflects (if hold.replaced.any (·.1 = name) then hold
      else { hold with replaced := hold.replaced ++ [(name, previous)] })
      (.replaced name previous :: log) := by
  have hkept : ∀ p ∈ hold.replaced, firstReplaced p.1 (.replaced name previous :: log) =
      some p.2 := by
    intro p hp
    rw [firstReplaced, h.replaced p hp, Option.some_or]
  have hother {other : Text} (hne : name ≠ other) :
      firstReplaced other (.replaced name previous :: log) = firstReplaced other log := by
    rw [firstReplaced, if_neg hne, Option.or_none]
  split
  · next hany =>
    refine ⟨h.snapshot, h.added, hkept, ?_⟩
    intro other hother'
    rw [hother (by rintro rfl; exact Bool.false_ne_true (hother'.symm.trans hany))]
    exact h.others other hother'
  · next hany =>
    refine ⟨h.snapshot, h.added, ?_, ?_⟩
    · intro p hp
      rcases List.mem_append.1 hp with hp | hp
      · exact hkept p hp
      · rw [List.mem_singleton.1 hp, firstReplaced, h.others name (Bool.eq_false_iff.2 hany), if_pos rfl,
          Option.none_or]
    · intro other hother'
      rw [List.any_append, Bool.or_eq_false_iff] at hother'
      rw [hother (by simpa using hother'.2)]
      exact h.others other hother'.1

theorem Engine.Reflects.saveNetwork (h : e.Reflects log) (serial : ℕ) (interface : Text)
    (previous : Option Text) : (e.saveNetwork serial interface previous).Reflects
      (e.takesIn (.networkSaved serial interface previous) ++ log) := by
  simp only [Engine.saveNetwork, Engine.takesIn]
  split
  · exact h.map rfl fun hold hh ↦ hh.replaces interface previous
  · exact h

theorem Engine.Reflects.admits (h : e.Reflects log) {now : ℕ} {device : Text}
    (hadmits : e.admits now device = .ok e') :
    e'.Reflects log ∧ (e'.hold = none → e.hold = none) := by
  unfold Engine.admits at hadmits
  split at hadmits
  · split at hadmits <;> cases hadmits
    exact ⟨h, id⟩
  · split at hadmits <;> cases hadmits
    exact ⟨h.map rfl fun _ hold ↦ ⟨hold.snapshot, hold.added, hold.replaced, hold.others⟩,
      Option.map_eq_none_iff.1⟩

theorem fair_onSession (h : s.engine.Reflects log) (message : Message) :
    Fair log r ((s.onSession r write message).1.engine, (s.onSession r write message).2) := by
  cases message with
  | malformed => exact ⟨h, .reply _⟩
  | start requested pub => exact fair_start h _ _ _ _
  | share good =>
    show Fair log r ((s.share r write good).1.engine, (s.share r write good).2)
    unfold Service.share
    split
    · split
      · cases write with
        | done => exact ⟨h, .nil⟩
        | lost | unreported => exact ⟨h, .reply _⟩
      · exact ⟨h, .reply _⟩
    · exact ⟨h, .reply _⟩
  | confirm valid keyed =>
    show Fair log r ((s.confirm r write valid keyed).1.engine, (s.confirm r write valid keyed).2)
    unfold Service.confirm
    split
    · split
      · unfold Service.accept
        dsimp only
        split <;> exact ⟨h, .reply _⟩
      · unfold Service.refuse
        dsimp only
        split <;> exact ⟨h, .reply _⟩
    · exact ⟨h, .reply _⟩

theorem fairly_handle (h : s.engine.Reflects log) (hnone : s.engine.hold = none → log = [])
    (write : Write) (input : Input ρ) : Fairly (s.engine.takesIn input ++ log) r
      ((s.handle r write input).1.engine, (s.handle r write input).2) := by
  cases input with
  | read device =>
    unfold Service.handle
    dsimp only
    split
    · next e he => exact Fair.fairly ⟨(h.admits he).1, .nil⟩
    · exact Fair.fairly ⟨h, .nil⟩
  | write device value =>
    unfold Service.handle
    dsimp only
    split
    · next e he =>
      obtain ⟨hkept, hhold⟩ := h.admits he
      cases value with
      | sessionPart | commandPart => exact Fair.fairly ⟨hkept, .nil⟩
      | session message =>
        exact (fair_onSession (s := { s with engine := e.touch r.uptime }) hkept message).fairly
      | command command => exact fairly_onCommand hkept (fun hh ↦ hnone (hhold hh)) command
    · exact Fair.fairly ⟨h, .nil⟩
  | disconnected device =>
    unfold Service.handle
    dsimp only
    split
    · exact Fair.fairly ⟨h.endConnection _, .nil⟩
    · exact Fair.fairly ⟨h, .nil⟩
  | claimedElsewhere => exact (fair_claimedElsewhere h).fairly
  | openManual seconds code record =>
    refine Fair.fairly ⟨?_, .nil⟩
    show (s.engine.openManual r s.lockout seconds code record).Reflects log
    refine h.of_hold ?_
    unfold Engine.openManual
    split <;> rfl
  | wifiSaved serial ssid added => exact Fair.fairly ⟨h.saveWifi serial ssid added, .nil⟩
  | networkSaved serial interface previous =>
    exact Fair.fairly ⟨h.saveNetwork serial interface previous, .nil⟩
  | unsealed =>
    unfold Service.handle
    dsimp only
    split
    · exact Fair.fairly ⟨h.endConnection _, .nil⟩
    · exact Fair.fairly ⟨h, .nil⟩
  | done serial op outcome => exact (fair_doneOp h serial op outcome).fairly
  | _ => exact Fair.fairly ⟨h, .nil⟩

/-- The session's log after a step, before it is known whether its hold goes on. -/
def Service.sessionAfter (s : Service ρ) (log : List Change) (out : List Output) :
    Label ρ → List Change
  | .input r _ input => foundBy r out ++ (s.engine.takesIn input ++ log)
  | _ => log

/-- A step keeps what the hold reflects, and spawns only fair tasks. -/
theorem fairly_step {t : Service ρ} {l : Label ρ} (h : s.engine.Reflects log)
    (hnone : s.engine.hold = none → log = []) (hstep : s.step l = some (t, out)) :
    t.engine.Reflects (s.sessionAfter log out l) ∧ ∀ task, .task task ∈ out →
      ∃ r, l.reading = some r ∧ task.Fair (s.sessionAfter log out l) r := by
  cases l with
  | input r write input =>
    simp only [Service.step] at hstep
    split at hstep
    · cases hstep
    split at hstep
    · have hhandled := fairly_handle (r := r) (s := { s with unix := r.unix }) h hnone write input
      generalize Service.handle { s with unix := r.unix } r write input = p at hstep hhandled
      split at hstep
      · cases hstep
        exact ⟨hhandled.engine, fun task ht ↦ ⟨r, rfl, hhandled.tasks task ht⟩⟩
      · cases hstep
        have hsettled := fair_settle (r := r) hhandled.engine (Service.refreshes input)
        have hfound : foundBy r (p.2 ++ (p.1.settle r (Service.refreshes input)).2) = foundBy r p.2 := by
          rw [foundBy, List.filterMap_append]
          exact (congrArg (_ ++ ·) hsettled.output.quiet).trans (List.append_nil _)
        simp only [Service.sessionAfter, hfound]
        refine ⟨hsettled.engine, fun task ht ↦ ⟨r, rfl, ?_⟩⟩
        rcases List.mem_append.1 ht with ht | ht
        · exact hhandled.tasks task ht
        · exact hsettled.output.tasks task ht
    · cases hstep
  | answer r =>
    simp only [Service.step] at hstep
    split at hstep
    · next auth before chargedAt hp =>
      split at hstep
      · cases hstep
        have hsettled := fair_settle (r := r) (e := s.engine.setPhase (.confirm auth before)) h false
        refine ⟨hsettled.engine, fun task ht ↦ ⟨r, rfl, ?_⟩⟩
        exact ((FairOutput.reply _).append hsettled.output).tasks task ht
      · cases hstep
    · cases hstep
  | restart r =>
    simp only [Service.step] at hstep
    split at hstep
    · cases hstep
      exact ⟨nofun, nofun⟩
    · cases hstep
  | verifier record =>
    cases hstep
    exact ⟨h, nofun⟩

end Service

end MicaCore.Ble
