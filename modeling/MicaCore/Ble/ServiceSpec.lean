import MicaCore.Ble.EngineSpec

namespace MicaCore.Ble

open Data

variable {ρ : Type}

namespace Service

variable {s t u : Service ρ} {r : Reading} {write : Write} {out : List Output}

inductive Moved (s t : Service ρ) : Prop
  | quiet (phase : t.engine.phase = s.engine.phase ∨ t.engine.phase.Calm)
      (lockout : t.lockout = s.lockout) (log : t.log = s.log)
  | began (auth : Auth) (record : ρ) (phase : t.engine.phase = .params auth record)
      (free : s.lockout.remaining t.unix = none)
      (lockout : t.lockout = s.lockout) (log : t.log = s.log)
  | charged (auth : Auth) (record : ρ) (before : s.engine.phase = .params auth record)
      (phase : t.engine.phase = .answering auth s.lockout t.unix ∨ t.engine.phase.Calm)
      (lockout : t.lockout = s.lockout.charge t.unix)
      (log : t.log = .charged t.unix s.lockout :: s.log)
  | answered (auth : Auth) (before : Lockout) (chargedAt : ℕ)
      (waiting : s.engine.phase = .answering auth before chargedAt)
      (phase : t.engine.phase = .confirm auth before ∨ t.engine.phase.Calm)
      (lockout : t.lockout = s.lockout) (log : t.log = .answered t.unix :: s.log)
  | confirmed (auth : Auth) (before : Lockout) (stored : Bool)
      (waiting : s.engine.phase = .confirm auth before) (phase : t.engine.phase.Calm)
      (lockout : t.lockout = if stored then s.lockout.succeed before else s.lockout)
      (log : t.log = .confirmed stored :: s.log)

theorem Moved.settle (h : Moved s t) (hk : t.engine.Keeps u.engine) (hunix : u.unix = t.unix)
    (hlockout : u.lockout = t.lockout) (hlog : u.log = t.log) : Moved s u := by
  have hcalm (hc : t.engine.phase.Calm) : u.engine.phase.Calm := by
    rcases hk.phase with hp | hp
    · rwa [hp]
    · exact hp
  cases h with
  | quiet phase lockout log =>
    refine .quiet ?_ (hlockout.trans lockout) (hlog.trans log)
    rcases hk.phase with hp | hp
    · rwa [hp]
    · exact .inr hp
  | began auth record phase free lockout log =>
    rcases hk.phase with hp | hp
    · exact .began auth record (hp.trans phase) (hunix ▸ free) (hlockout.trans lockout)
        (hlog.trans log)
    · exact .quiet (.inr hp) (hlockout.trans lockout) (hlog.trans log)
  | charged auth record before phase lockout log =>
    refine .charged auth record before ?_ (hunix ▸ hlockout.trans lockout) (hunix ▸ hlog.trans log)
    rcases hk.phase with hp | hp
    · rwa [hp, hunix]
    · exact .inr hp
  | answered auth before chargedAt waiting phase lockout log =>
    refine .answered auth before chargedAt waiting ?_ (hlockout.trans lockout)
      (hunix ▸ hlog.trans log)
    rcases hk.phase with hp | hp
    · rwa [hp]
    · exact .inr hp
  | confirmed auth before stored waiting phase lockout log =>
    exact .confirmed auth before stored waiting (hcalm phase) (hlockout.trans lockout)
      (hlog.trans log)

theorem Moved.of_phase (h : Moved t u) (hphase : t.engine.phase = s.engine.phase)
    (hlockout : t.lockout = s.lockout) (hlog : t.log = s.log) : Moved s u := by
  cases h with
  | quiet phase lockout log =>
    exact .quiet (hphase ▸ phase) (lockout.trans hlockout) (log.trans hlog)
  | began auth record phase free lockout log =>
    exact .began auth record phase (hlockout ▸ free) (lockout.trans hlockout) (log.trans hlog)
  | charged auth record before phase lockout log =>
    exact .charged auth record (hphase ▸ before) (hlockout ▸ phase) (hlockout ▸ lockout)
      (hlockout ▸ hlog ▸ log)
  | answered auth before chargedAt waiting phase lockout log =>
    exact .answered auth before chargedAt (hphase ▸ waiting) phase (lockout.trans hlockout)
      (hlog ▸ log)
  | confirmed auth before stored waiting phase lockout log =>
    exact .confirmed auth before stored (hphase ▸ waiting) phase (hlockout ▸ lockout) (hlog ▸ log)

/-- The clock stays, no share is sent, and a shut manual window is opened by the input only. -/
structure Handled (opens : Bool) (s : Service ρ) (p : Service ρ × List Output) : Prop where
  moved : Moved s p.1
  unix : p.1.unix = s.unix
  silent : Silent p.2
  shut : opens = false → s.engine.Shut → p.1.engine.Shut
  proving : s.engine.Proving → p.1.engine.Proving

variable {b : Bool}

theorem Handled.of_keeps {e : Engine ρ} (h : s.engine.Keeps e) (hout : Silent out) :
    Handled b s ({ s with engine := e }, out) :=
  ⟨.quiet h.phase rfl rfl, rfl, hout, fun _ ↦ h.shut, h.proving⟩

theorem Handled.refl (s : Service ρ) : Handled b s (s, []) := .of_keeps (.refl _) .nil

theorem Handled.of_admits {e : Engine ρ} {p : Service ρ × List Output}
    (h : Handled b { s with engine := e } p) (hk : s.engine.Keeps e)
    (hphase : e.phase = s.engine.phase) : Handled b s p :=
  ⟨h.moved.of_phase hphase rfl rfl, h.unix, h.silent, fun hb hs ↦ h.shut hb (hk.shut hs),
    fun hs ↦ h.proving (hk.proving hs)⟩

theorem Handled.reply_idle (s : Service ρ) {reply : Reply} (h : ∀ n, reply ≠ .share n) :
    Handled b s (s.setPhase .idle, [.session reply]) :=
  .of_keeps Engine.keeps_setPhase_idle (.reply h)

theorem handled_share (hr : s.unix = r.unix) (good : Bool) :
    Handled b s (s.share r write good) := by
  unfold share
  split
  · next auth record hp =>
    split
    · cases write with
      | done =>
        refine ⟨.charged auth record hp ?_ (hr ▸ rfl) (hr ▸ rfl), rfl, .nil, fun _ ↦ id, fun h ↦ ?_⟩
        · rw [setPhase, ← hr]
          exact Engine.phase_setPhase _ _
        · exact Engine.proving_setPhase h (by rw [hp]; exact id) _
      | lost => exact .reply_idle s nofun
      | unreported =>
        have hcalm : (s.engine.setPhase .idle).phase.Calm := Engine.calm_onConnection fun _ ↦ trivial
        exact ⟨.charged auth record hp (.inr hcalm) (hr ▸ rfl) (hr ▸ rfl), rfl, .reply nofun,
          fun _ ↦ id, fun _ ↦ Engine.proving_of_calm hcalm⟩
    · exact .reply_idle s nofun
  · exact .reply_idle s nofun

theorem handled_accept {auth : Auth} {before : Lockout} (hp : s.engine.phase = .confirm auth before)
    (keyed : Bool) : Handled b s (s.accept r write auth before keyed) := by
  have hstored : (if write ≠ .lost then s.lockout.succeed before else s.lockout) =
      if decide (write ≠ .lost) then s.lockout.succeed before else s.lockout := by
    simp
  unfold accept
  dsimp only
  split
  · have hcalm : (s.engine.onConnection
        ({ · with phase := .ready auth, lastActive := r.uptime })).phase.Calm :=
      Engine.calm_onConnection fun _ ↦ trivial
    exact ⟨.confirmed auth before _ hp hcalm hstored rfl, rfl, .reply nofun, fun _ ↦ id,
      fun _ ↦ Engine.proving_of_calm hcalm⟩
  · have hcalm : (s.engine.setPhase .idle).phase.Calm := Engine.calm_onConnection fun _ ↦ trivial
    exact ⟨.confirmed auth before _ hp hcalm hstored rfl, rfl, .reply nofun, fun _ ↦ id,
      fun _ ↦ Engine.proving_of_calm hcalm⟩

theorem handled_refuse : Handled b s (s.refuse r) := by
  have hk : s.engine.Keeps (s.engine.onConnection ({ · with phase := .idle, failed := true })) :=
    Engine.keeps_onConnection (fun _ ↦ .inr trivial) fun _ ↦ rfl
  unfold refuse
  dsimp only
  split
  · exact .of_keeps (hk.trans Engine.keeps_closeManual) (.reply nofun)
  · exact .of_keeps hk (.reply nofun)

theorem handled_start (hr : s.unix = r.unix) (requested : Option Text) (pub : Bool) :
    Handled b s (s.withEngine (s.engine.start r s.lockout s.verifier requested pub)) := by
  rcases s.engine.start_cases r s.lockout s.verifier requested pub with
    hk | ⟨hfree, w, record, hw, he⟩
  · exact .of_keeps hk (Engine.silent_start _ _ _ _)
  · have hk := Engine.keeps_abandonExchange (e := s.engine)
    have hphase := Engine.phase_beginExchange s.engine.abandonExchange w record
    rw [← he] at hphase
    refine ⟨?_, rfl, Engine.silent_start _ _ _ _, fun _ hs ↦ ?_, fun _ ↦ ?_⟩
    · rcases hphase with hp | hp
      · refine .began w.auth record hp ?_ rfl rfl
        show s.lockout.remaining s.unix = none
        rw [hr, hfree]
      · exact .quiet (.inr hp) rfl rfl
    · show Engine.Shut (s.engine.start r s.lockout s.verifier requested pub).1
      rw [he]
      exact hk.shut hs
    · show Engine.Proving (s.engine.start r s.lockout s.verifier requested pub).1
      rw [he]
      exact Engine.proving_beginExchange hw

theorem handled_onSession (hr : s.unix = r.unix) (message : Message) :
    Handled b s (s.onSession r write message) := by
  cases message with
  | malformed => exact .of_keeps (.refl _) (.reply nofun)
  | start requested pub => exact handled_start hr requested pub
  | share good => exact handled_share hr good
  | confirm valid keyed =>
    show Handled b s (s.confirm r write valid keyed)
    unfold confirm
    split
    · next auth before hp =>
      split
      · exact handled_accept hp keyed
      · exact handled_refuse
    · exact .reply_idle s nofun

theorem handled_onWrite (hr : s.unix = r.unix) (value : Written) :
    Handled b s (s.onWrite r write value) := by
  cases value with
  | sessionPart => exact .of_keeps Engine.keeps_touch .nil
  | commandPart => exact .refl s
  | command command => exact .of_keeps (Engine.keeps_onCommand _) (Engine.wordless_onCommand _).silent
  | session message =>
    exact (handled_onSession (s := { s with engine := s.engine.touch r.uptime }) hr message).of_admits
      Engine.keeps_touch (s.engine.phase_touch _)

def opens (s : Service ρ) (r : Reading) : Input ρ → Bool
  | .openManual _ _ _ => s.engine.facts.claimed && (s.lockout.remaining r.unix).isNone
  | _ => false

theorem handled_openManual (seconds : ℕ) (code : Text) (record : ρ) :
    Handled (s.opens r (.openManual seconds code record)) s
      ({ s with engine := s.engine.openManual r s.lockout seconds code record }, []) := by
  unfold Engine.openManual
  split
  · exact .refl s
  · next h =>
    refine ⟨.quiet (.inl rfl) rfl rfl, rfl, .nil, fun hb ↦ ?_, id⟩
    simp only [Bool.or_eq_true, Bool.not_eq_true', not_or, Bool.not_eq_false,
      Bool.not_eq_true, Option.isSome_eq_false_iff] at h
    simp [opens, h.1, h.2] at hb

theorem handled_handle (hr : s.unix = r.unix) (write : Write) (input : Input ρ) :
    Handled (s.opens r input) s (s.handle r write input) := by
  cases input with
  | read device =>
    unfold handle
    dsimp only
    split
    · next e he => exact .of_keeps (Engine.keeps_admits he) .nil
    · exact .refl s
  | write device value =>
    unfold handle
    dsimp only
    split
    · next e he =>
      exact (handled_onWrite (s := { s with engine := e }) hr value).of_admits
        (Engine.keeps_admits he) (Engine.phase_admits he)
    · exact .refl s
  | disconnected device =>
    unfold handle
    dsimp only
    split
    · exact .of_keeps Engine.keeps_endConnection .nil
    · exact .refl s
  | route present => exact .of_keeps (Engine.keeps_route present) .nil
  | claimedElsewhere =>
    exact .of_keeps Engine.keeps_claimedElsewhere Engine.wordless_claimedElsewhere.silent
  | openManual seconds code record => exact handled_openManual seconds code record
  | closeManual => exact .of_keeps Engine.keeps_closeManual .nil
  | tick => exact .refl s
  | wifiSaved serial ssid added => exact .of_keeps (Engine.keeps_saveWifi _ _ _) .nil
  | networkSaved serial interface previous => exact .of_keeps (Engine.keeps_saveNetwork _ _ _) .nil
  | unsealed =>
    unfold handle
    dsimp only
    split
    · exact .of_keeps Engine.keeps_endConnection .nil
    · exact .refl s
  | done serial op outcome =>
    exact .of_keeps (Engine.keeps_doneOp _ _ _) (Engine.wordless_doneOp _ _ _).silent

def opened (s : Service ρ) : Label ρ → Bool
  | .input r _ input => s.opens r input
  | _ => false

/-- What a step of a run does. A share is sent from `answering` only. -/
structure Stepped (opened : Bool) (s t : Service ρ) (out : List Output) : Prop where
  unix : s.unix ≤ t.unix
  moved : Moved s t
  shut : opened = false → s.engine.Shut → t.engine.Shut
  proving : s.engine.Proving → t.engine.Proving
  sent : ∀ n, .session (.share n) ∈ out → ∃ auth before chargedAt,
    s.engine.phase = .answering auth before chargedAt ∧ n = (before.charge chargedAt).attemptsLeft ∧
      t.log = .answered t.unix :: s.log

theorem stepped_of_step {l : Label ρ} (h : s.step l = some (t, out)) :
    Stepped (s.opened l) s t out := by
  cases l with
  | input r write input =>
    simp only [step] at h
    split at h
    · cases h
    split at h
    · next hle =>
      have hh := handled_handle (s := { s with unix := r.unix }) rfl write input
      generalize handle { s with unix := r.unix } r write input = p at h hh
      have hmoved : Moved s p.1 := hh.moved.of_phase rfl rfl rfl
      have hunix : s.unix ≤ p.1.unix := hh.unix ▸ hle
      split at h
      · cases h
        exact ⟨hunix, hmoved, hh.shut, hh.proving, fun n hn ↦ absurd hn (hh.silent n)⟩
      · cases h
        have hk := Engine.keeps_settle (e := p.1.engine) (r := r) (refreshes input)
        refine ⟨hunix, hmoved.settle hk rfl rfl rfl, fun hb hs ↦ hk.shut (hh.shut hb hs),
          fun hs ↦ hk.proving (hh.proving hs), fun n hn ↦ ?_⟩
        exact absurd hn (hh.silent.append (Engine.wordless_settle _).silent n)
    · cases h
  | answer r =>
    simp only [step] at h
    split at h
    · next auth before chargedAt hp =>
      split at h
      · next hle =>
        cases h
        have hmoved : Moved s (setPhase { s with unix := r.unix, log := .answered r.unix :: s.log }
            (.confirm auth before)) :=
          .answered auth before chargedAt hp (Engine.phase_setPhase _ _) rfl rfl
        have hk := Engine.keeps_settle (e := s.engine.setPhase (.confirm auth before)) (r := r) false
        refine ⟨hle, hmoved.settle hk rfl rfl rfl, fun _ hs ↦ hk.shut hs, fun hs ↦ ?_, fun n hn ↦ ?_⟩
        · exact hk.proving (Engine.proving_setPhase hs (by rw [hp]; exact id) _)
        · refine ⟨auth, before, chargedAt, hp, ?_, rfl⟩
          rcases List.mem_cons.1 hn with hn | hn
          · cases hn
            rfl
          · exact absurd hn (Engine.wordless_settle _ _)
      · cases h
    · cases h
  | restart r =>
    simp only [step] at h
    split at h
    · next hle =>
      cases h
      exact ⟨hle, .quiet (.inr trivial) rfl rfl, fun _ _ ↦ ⟨rfl, rfl⟩,
        fun _ ↦ Engine.proving_of_calm trivial, fun n hn ↦ nomatch hn⟩
    · cases h
  | verifier record =>
    cases h
    exact ⟨le_rfl, .quiet (.inl rfl) rfl rfl, fun _ ↦ id, id, fun n hn ↦ nomatch hn⟩

end Service

end MicaCore.Ble
