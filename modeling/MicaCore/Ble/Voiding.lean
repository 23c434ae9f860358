import MicaCore.Ble.Counting

namespace MicaCore.Ble

open Data Concurrent
open Service (claimedDevice fiveGuesses quietReading)

variable {ρ : Type}

namespace Engine

variable {e : Engine ρ} {r : Reading} {now : ℕ}

def inHand (e : Engine ρ) : Option Lockout :=
  match e.phase with
  | .answering _ before _ => some before
  | .confirm _ before => some before
  | _ => none

def fromPhone (e : Engine ρ) (device : Text) : Bool := e.connection.any (·.device = device)

theorem connection_of_confirm {auth : Auth} {before : Lockout} (h : e.phase = .confirm auth before) :
    ∃ c, e.connection = some c ∧ c.phase = .confirm auth before := by
  unfold phase at h
  cases hc : e.connection with
  | none =>
    rw [hc] at h
    cases h
  | some c =>
    rw [hc] at h
    exact ⟨c, rfl, h⟩

theorem admits_of_connection {c : Connection ρ} (hc : e.connection = some c) (now : ℕ)
    (device : Text) : e.admits now device = if e.fromPhone device then .ok e else .error .busy := by
  unfold admits fromPhone
  rw [hc]
  simp

theorem idle_onConnection {f : Connection ρ → Connection ρ} (hf : ∀ c, (f c).lastActive = now) :
    (e.onConnection f).idle now = false := by
  unfold idle onConnection
  cases e.connection with
  | none => rfl
  | some c => simp [hf, idleSeconds]

theorem idle_touch : (e.touch now).idle now = false := idle_onConnection fun _ ↦ rfl

theorem shut_closeSession : (e.closeSession r).1.Shut :=
  ((keeps_endHold true).trans keeps_endConnection).shut ⟨rfl, rfl⟩

theorem connection_endHold (finished : Bool) :
    (e.endHold finished).1.connection = e.connection := by
  unfold endHold
  split <;> rfl

theorem connection_settle (h : e.idle r.uptime = false) (refresh : Bool) :
    (e.settle r refresh).1.connection = e.connection := by
  unfold settle
  dsimp only
  have hc : (if refresh then e.refresh r.facts else e).connection = e.connection := by
    split <;> rfl
  generalize (if refresh then e.refresh r.facts else e) = e₁ at hc ⊢
  have hc' : (e₁.dropCode (e₁.window r.uptime)).connection = e.connection := by
    rw [← hc]
    unfold dropCode
    split <;> rfl
  generalize e₁.dropCode (e₁.window r.uptime) = e₂ at hc' ⊢
  have hidle : e₂.idle r.uptime = false := by
    unfold idle at h ⊢
    rwa [hc']
  simp only [hidle, Bool.false_eq_true, if_false]
  split
  · rw [connection_endHold, hc']
  · exact hc'

theorem phase_settle (h : e.idle r.uptime = false) (refresh : Bool) :
    (e.settle r refresh).1.phase = e.phase := by
  rw [phase, phase, connection_settle h]

end Engine

namespace Service

variable {s t : Service ρ} {r : Reading} {auth : Auth} {before : Lockout}

/-- The exchange goes on, or ends by a confirm, a wrong one while the lockout holds. -/
def allowed (s : Service ρ) (r : Reading) : Input ρ → Bool
  | .write device (.session message) =>
    if s.engine.fromPhone device then
      match message with
      | .malformed => true
      | .confirm valid _ => valid || (s.lockout.remaining r.unix).isSome
      | _ => false
    else !s.engine.idle r.uptime
  | .write device .sessionPart => s.engine.fromPhone device || !s.engine.idle r.uptime
  | .disconnected device => !s.engine.fromPhone device && !s.engine.idle r.uptime
  | _ => !s.engine.idle r.uptime

def confirmed (s t : Service ρ) : Bool :=
  t.log = .confirmed true :: s.log ∨ t.log = .confirmed false :: s.log

inductive Held (s : Service ρ) (r : Reading) (p : Service ρ × List Output) : Prop
  | going (phase : p.1.engine.phase = s.engine.phase) (idle : p.1.engine.idle r.uptime = false)
  | closed (shut : p.1.engine.Shut)
  | confirmed (stored : Bool) (log : p.1.log = .confirmed stored :: s.log)

variable {p : Service ρ × List Output}

theorem Held.of_connection
    (hc : p.1.engine.connection = s.engine.connection) (hidle : s.engine.idle r.uptime = false) :
    Held s r p := by
  refine .going ?_ ?_
  · rw [Engine.phase, Engine.phase, hc]
  · unfold Engine.idle at hidle ⊢
    rwa [hc]

def Ends (s t : Service ρ) : Prop :=
  t.engine.inHand = s.engine.inHand ∨ s.confirmed t = true ∨ t.engine.Shut

theorem confirmed_of_log {stored : Bool} (h : t.log = .confirmed stored :: s.log) :
    s.confirmed t = true := by
  unfold confirmed
  cases stored with
  | true => exact decide_eq_true (.inl h)
  | false => exact decide_eq_true (.inr h)

theorem Ends.of_phase (h : t.engine.phase = s.engine.phase) : Ends s t := by
  left
  rw [Engine.inHand, h, Engine.inHand]

theorem Held.ends (h : Held s r p) : Ends s p.1 := by
  cases h with
  | going phase _ => exact .of_phase phase
  | closed shut => exact .inr (.inr shut)
  | confirmed stored log => exact .inr (.inl (confirmed_of_log log))

theorem Held.ends_settle (h : Held s r p) (refresh : Bool) : Ends s (p.1.settle r refresh).1 := by
  cases h with
  | going phase idle => exact .of_phase ((Engine.phase_settle idle refresh).trans phase)
  | closed shut => exact .inr (.inr ((Engine.keeps_settle refresh).shut shut))
  | confirmed stored log => exact .inr (.inl (confirmed_of_log log))

theorem held_onSession {message : Message} (hp : s.engine.phase = .confirm auth before)
    (hidle : s.engine.idle r.uptime = false) (write : Write)
    (ha : message = .malformed ∨ ∃ valid keyed, message = .confirm valid keyed ∧
      (valid = true ∨ (s.lockout.remaining r.unix).isSome = true)) :
    Held s r (s.onSession r write message) := by
  rcases ha with rfl | ⟨valid, keyed, rfl, hvalid⟩
  · exact .going rfl hidle
  · show Held s r (s.confirm r write valid keyed)
    unfold confirm
    simp only [hp]
    split
    · unfold accept
      dsimp only
      split <;> exact .confirmed _ rfl
    · next hv =>
      have hlocked := hvalid.resolve_left hv
      unfold refuse
      dsimp only
      split
      · exact .closed (Engine.shut_closeManual _)
      · next hnone =>
        rw [hnone] at hlocked
        cases hlocked

theorem held_onWrite (hp : s.engine.phase = .confirm auth before) (write : Write)
    {device : Text} {value : Written} (hphone : s.engine.fromPhone device = true)
    (ha : s.allowed r (.write device value) = true) : Held s r (s.onWrite r write value) := by
  cases value with
  | sessionPart => exact .going (s.engine.phase_touch _) Engine.idle_touch
  | session message =>
    have hp' : (s.engine.touch r.uptime).phase = .confirm auth before :=
      (s.engine.phase_touch _).trans hp
    have hmessage : message = .malformed ∨ ∃ valid keyed, message = .confirm valid keyed ∧
        (valid = true ∨ (s.lockout.remaining r.unix).isSome = true) := by
      cases message with
      | malformed => exact .inl rfl
      | confirm valid keyed =>
        refine .inr ⟨valid, keyed, rfl, ?_⟩
        simpa [allowed, hphone] using ha
      | start | share => simp [allowed, hphone] at ha
    cases held_onSession (s := { s with engine := s.engine.touch r.uptime }) hp' Engine.idle_touch
      write hmessage with
    | going phase idle => exact .going (phase.trans (s.engine.phase_touch _)) idle
    | closed shut => exact .closed shut
    | confirmed stored log => exact .confirmed stored log
  | commandPart => exact .of_connection rfl (by simpa [allowed] using ha)
  | command command =>
    have hnone : s.engine.sessionAuth = none := by
      unfold Engine.sessionAuth
      rw [hp]
    refine .of_connection ?_ (by simpa [allowed] using ha)
    show (s.engine.onCommand r command).1.connection = _
    unfold Engine.onCommand
    rw [hnone]

theorem held_doneOp (hidle : s.engine.idle r.uptime = false) (serial : ℕ) (op : Op)
    (outcome : Outcome) : Held s r (s.withEngine (s.engine.doneOp r serial op outcome)) := by
  unfold withEngine Engine.doneOp
  dsimp only
  split
  · split
    · exact .closed Engine.shut_closeSession
    · exact .going (Engine.phase_onConnection_eq fun _ ↦ rfl) (Engine.idle_onConnection fun _ ↦ rfl)
  · exact .of_connection rfl hidle

theorem held_handle (hp : s.engine.phase = .confirm auth before) (hproving : s.engine.Proving)
    (write : Write) {input : Input ρ} (ha : s.allowed r input = true) :
    Held s r (s.handle r write input) := by
  obtain ⟨c, hc, hcp⟩ := Engine.connection_of_confirm hp
  have hadmits := Engine.admits_of_connection hc r.uptime
  cases input with
  | read device =>
    have hidle : s.engine.idle r.uptime = false := by simpa [allowed] using ha
    unfold handle
    dsimp only
    rw [hadmits]
    split
    · next e he =>
      split at he <;> cases he
      exact .of_connection rfl hidle
    · exact .of_connection rfl hidle
  | write device value =>
    unfold handle
    dsimp only
    rw [hadmits]
    cases hphone : s.engine.fromPhone device with
    | true => exact held_onWrite hp write hphone ha
    | false =>
      refine .of_connection rfl ?_
      cases value <;> simpa [allowed, hphone] using ha
  | disconnected device =>
    have hother : s.engine.fromPhone device = false ∧ s.engine.idle r.uptime = false := by
      simpa [allowed] using ha
    unfold handle
    dsimp only
    split
    · next h => exact absurd (hother.1 ▸ h) Bool.false_ne_true
    · exact .of_connection rfl hother.2
  | claimedElsewhere =>
    have hauth : s.engine.connection.any (·.auth = .none) = false := by
      rw [hc, Option.any_some, decide_eq_false_iff_not]
      intro hnone
      have hcalm := hproving c hc hnone
      rw [hcp] at hcalm
      exact hcalm
    refine .of_connection ?_ (by simpa [allowed] using ha)
    show (s.engine.claimedElsewhere r).1.connection = _
    unfold Engine.claimedElsewhere
    dsimp only [Engine.refresh]
    simp only [hauth, Bool.false_eq_true, if_false]
    split
    · exact Engine.connection_endHold false
    · rfl
  | openManual seconds code record =>
    exact .of_connection (Engine.connection_openManual _ _ _ _) (by simpa [allowed] using ha)
  | wifiSaved serial ssid added =>
    refine .of_connection ?_ (by simpa [allowed] using ha)
    show (s.engine.saveWifi serial ssid added).connection = _
    unfold Engine.saveWifi
    split <;> rfl
  | networkSaved serial interface previous =>
    refine .of_connection ?_ (by simpa [allowed] using ha)
    show (s.engine.saveNetwork serial interface previous).connection = _
    unfold Engine.saveNetwork
    split <;> rfl
  | unsealed =>
    have hnone : s.engine.sessionAuth = none := by
      unfold Engine.sessionAuth
      rw [hp]
    refine .of_connection ?_ (by simpa [allowed] using ha)
    unfold handle
    rw [hnone]
    rfl
  | done serial op outcome => exact held_doneOp (by simpa [allowed] using ha) serial op outcome
  | route | closeManual | tick => exact .of_connection rfl (by simpa [allowed] using ha)

theorem confirm_of_inHand (h : s.engine.inHand ≠ none)
    (hnot : ∀ auth before now, s.engine.phase = .answering auth before now → False) :
    ∃ auth before, s.engine.phase = .confirm auth before := by
  unfold Engine.inHand at h
  cases hp : s.engine.phase with
  | confirm auth before => exact ⟨auth, before, rfl⟩
  | answering auth before now => exact (hnot auth before now hp).elim
  | _ =>
    rw [hp] at h
    exact absurd rfl h

theorem Ends.answer {chargedAt : ℕ} (hp : s.engine.phase = .answering auth before chargedAt)
    (hidle : s.engine.idle r.uptime = false) {u : Service ρ}
    (hu : u.engine = s.engine.setPhase (.confirm auth before)) : Ends s (u.settle r false).1 := by
  left
  have hidle' : u.engine.idle r.uptime = false := by
    rw [hu]
    unfold Engine.idle Engine.setPhase Engine.onConnection at *
    cases hc : s.engine.connection with
    | none => rfl
    | some c =>
      rw [hc] at hidle
      exact hidle
  have hphase : (u.settle r false).1.engine.phase = .confirm auth before := by
    refine (Engine.phase_settle hidle' false).trans ?_
    rw [hu]
    rcases s.engine.phase_onConnection ({ · with phase := .confirm auth before }) with
      ⟨c, -, -, h⟩ | ⟨-, h, -⟩
    · exact h
    · rw [hp] at h
      cases h
  rw [Engine.inHand, hphase, Engine.inHand, hp]

theorem ends_of_step {l : Label ρ} {out : List Output} (hproving : s.engine.Proving)
    (hin : s.engine.inHand ≠ none) (ha : match l with
      | .input r _ input => s.allowed r input = true
      | .answer r => s.engine.idle r.uptime = false
      | _ => True)
    (h : s.step l = some (t, out)) : Ends s t := by
  cases l with
  | input r write input =>
    simp only [step] at h
    split at h
    · cases h
    next hnot =>
    split at h
    · obtain ⟨auth, before, hp⟩ := confirm_of_inHand hin hnot
      have hheld : Held s r (handle { s with unix := r.unix } r write input) := by
        cases held_handle (s := { s with unix := r.unix }) hp hproving write ha with
        | going phase idle => exact .going phase idle
        | closed shut => exact .closed shut
        | confirmed stored log => exact .confirmed stored log
      generalize handle { s with unix := r.unix } r write input = p at h hheld
      split at h
      · cases h
        exact hheld.ends
      · cases h
        exact hheld.ends_settle _
    · cases h
  | answer r =>
    simp only [step] at h
    split at h
    · next auth before chargedAt hp =>
      split at h
      · cases h
        exact .answer hp ha rfl
      · cases h
    · cases h
  | restart r =>
    simp only [step] at h
    split at h
    · cases h
      exact .inr (.inr ⟨rfl, rfl⟩)
    · cases h
  | verifier record =>
    cases h
    exact .of_phase rfl

end Service

/-- Whether the exchange in hand set a lockout in a manual window, and whether one ended. -/
structure Watched (ρ : Type) where
  service : Service ρ
  pending : Bool := false
  voided : Bool := false

namespace Watched

variable {w w' : Watched ρ}

def manualOpen (s : Service ρ) : Label ρ → Bool
  | .input r _ _ => (s.engine.window r.uptime).any (·.trigger = .manual)
  | _ => false

def next (w : Watched ρ) (l : Label ρ) : Option (Watched ρ) :=
  (w.service.next l).map fun t ↦
    let locked := t.engine.inHand.any (·.locks)
    { service := t
      pending := locked && (w.pending || w.service.engine.inHand.isNone && manualOpen w.service l)
      voided := w.voided && !w.service.opened l ||
        w.pending && !locked && !w.service.confirmed t }

/-- Exchanges that set a lockout in a manual window end by a confirm only. -/
def orderly (w : Watched ρ) : Label ρ → Bool
  | .input r _ input => !w.pending || w.service.allowed r input
  | .answer r => !w.pending || !w.service.engine.idle r.uptime
  | _ => true

/-- Invariant: what is pending is in hand, and what is void is shut. -/
structure Voids (w : Watched ρ) : Prop where
  proving : w.service.engine.Proving
  pending : w.pending = true → w.service.engine.inHand.any (·.locks) = true
  shut : w.voided = true → w.service.engine.Shut

theorem Voids.ended (h : Voids w) {l : Label ρ} {t : Service ρ} {out : List Output}
    (ha : w.orderly l = true) (hstep : w.service.step l = some (t, out)) (hp : w.pending = true) :
    w.service.Ends t := by
  refine Service.ends_of_step h.proving ?_ ?_ hstep
  · intro hnone
    have hlocks := h.pending hp
    rw [hnone] at hlocks
    cases hlocks
  · cases l with
    | input | answer => simpa [orderly, hp] using ha
    | _ => trivial

theorem Voids.next (h : Voids w) {l : Label ρ} (ha : w.orderly l = true)
    (hnext : w.next l = some w') : Voids w' := by
  obtain ⟨t, ht, rfl⟩ := Option.map_eq_some_iff.1 hnext
  obtain ⟨⟨t, out⟩, hstep, rfl⟩ := Option.map_eq_some_iff.1 ht
  have hst := Service.stepped_of_step hstep
  refine ⟨hst.proving h.proving, fun hp ↦ (Bool.and_eq_true_iff.1 hp).1, fun hv ↦ ?_⟩
  rcases Bool.or_eq_true_iff.1 hv with hv | hv
  · obtain ⟨hvoided, hopened⟩ := Bool.and_eq_true_iff.1 hv
    exact hst.shut (by simpa using hopened) (h.shut hvoided)
  · simp only [Bool.and_eq_true, Bool.not_eq_true'] at hv
    obtain ⟨⟨hp, hlocked⟩, hconfirmed⟩ := hv
    rcases h.ended ha hstep hp with hl | hc | hs
    · rw [hl, h.pending hp] at hlocked
      cases hlocked
    · rw [hc] at hconfirmed
      cases hconfirmed
    · exact hs

/-- Once such an exchange ends unconfirmed, its window and code are gone until the next. -/
theorem shut_of_voided {s : Service ρ} {facts : Facts} (hboot : s.engine = .boot facts)
    {ls : List (Label ρ)} (h : Trace next (fun w l ↦ w.orderly l = true) { service := s } ls w)
    (hv : w.voided = true) :
    w.service.engine.windows.manualUntil = none ∧ w.service.engine.tempCode = none := by
  have hvoids : Voids w := by
    refine h.invariant (I := Voids) (fun _ _ _ hw ha hnext ↦ hw.next ha hnext) ?_
    refine ⟨?_, nofun, nofun⟩
    rw [hboot]
    exact Engine.proving_of_calm trivial
  exact hvoids.shut hv

def openedManual : Label Unit :=
  .input (quietReading 0) .done (.openManual 300 "12345678".toList ())

def wrongConfirm : List (Label Unit) :=
  openedManual :: fiveGuesses .tempCode ++
    [.input (quietReading 6) .done (.write "phone".toList (.session (.confirm false true)))]

theorem shut_of_voided_wrongConfirm :
    ∃ w, Trace next (fun w l ↦ w.orderly l = true) { service := claimedDevice } wrongConfirm w ∧
      w.voided = true ∧ w.service.engine.windows.manualUntil = none ∧
      w.service.engine.tempCode = none := by
  obtain ⟨w, hrun, hv⟩ : ∃ w, Trace next (fun w l ↦ w.orderly l = true)
      { service := claimedDevice } wrongConfirm w ∧ w.voided = true := by decide
  exact ⟨w, hrun, hv, shut_of_voided rfl hrun hv⟩

def newStart : List (Label Unit) :=
  openedManual :: fiveGuesses .tempCode ++
    [.input (quietReading 6) .done
      (.write "phone".toList (.session (.start (some Auth.tempCode.name) true)))]

/-- A start frame after the fifth guess asks no voiding, so the window stays open. -/
theorem open_of_newStart :
    ∃ w, Trace next (fun _ _ ↦ True) { service := claimedDevice } newStart w ∧ w.voided = true ∧
      (w.service.engine.window 6).map (·.trigger) = some .manual ∧
      w.service.engine.tempCode = some ("12345678".toList, ()) := by
  decide

end Watched

end MicaCore.Ble
