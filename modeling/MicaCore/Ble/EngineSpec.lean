import MicaCore.Ble.Engine

namespace MicaCore.Ble

open Data

variable {ρ : Type}

def Phase.Calm : Phase ρ → Prop
  | .idle => True
  | .ready _ => True
  | _ => False

theorem Phase.abandoned_eq_or_calm (p : Phase ρ) : p.abandoned = p ∨ p.abandoned.Calm := by
  cases p with
  | confirm _ _ => exact .inr trivial
  | _ => exact .inl rfl

namespace Engine

variable {e e' e'' : Engine ρ} {r : Reading} {now : ℕ} {f : Connection ρ → Connection ρ}

def Shut (e : Engine ρ) : Prop := e.windows.manualUntil = none ∧ e.tempCode = none

def Proving (e : Engine ρ) : Prop := ∀ c, e.connection = some c → c.auth = .none → c.phase.Calm

/-- An exchange goes on or is over, and a manual window that is shut stays shut. -/
structure Keeps (e e' : Engine ρ) : Prop where
  phase : e'.phase = e.phase ∨ e'.phase.Calm
  shut : Shut e → Shut e'
  proving : Proving e → Proving e'

namespace Keeps

theorem refl (e : Engine ρ) : Keeps e e := ⟨.inl rfl, id, id⟩

theorem trans (h : Keeps e e') (h' : Keeps e' e'') : Keeps e e'' := by
  refine ⟨?_, h'.shut ∘ h.shut, h'.proving ∘ h.proving⟩
  rcases h'.phase with hp | hp
  · rw [hp]
    exact h.phase
  · exact .inr hp

theorem of_eq (hc : e'.connection = e.connection) (hw : e'.windows = e.windows)
    (ht : e'.tempCode = e.tempCode) : Keeps e e' :=
  ⟨.inl (by rw [Engine.phase, Engine.phase, hc]), fun h ↦ ⟨hw ▸ h.1, ht ▸ h.2⟩, fun h c ↦ hc ▸ h c⟩

theorem of_idle (hc : ∀ c, e'.connection = some c → c.phase = .idle) (hw : e'.windows = e.windows)
    (ht : e'.tempCode = e.tempCode) : Keeps e e' := by
  refine ⟨.inr ?_, fun h ↦ ⟨hw ▸ h.1, ht ▸ h.2⟩, ?_⟩
  · unfold Engine.phase
    cases h : e'.connection with
    | none => trivial
    | some c =>
      show c.phase.Calm
      rw [hc c h]
      trivial
  · intro _ c h _
    rw [hc c h]
    trivial

end Keeps

theorem phase_onConnection (e : Engine ρ) (f : Connection ρ → Connection ρ) :
    (∃ c, e.connection = some c ∧ e.phase = c.phase ∧ (e.onConnection f).phase = (f c).phase) ∨
      (e.connection = none ∧ e.phase = .idle ∧ (e.onConnection f).phase = .idle) := by
  unfold phase onConnection
  cases e.connection with
  | none => exact .inr ⟨rfl, rfl, rfl⟩
  | some c => exact .inl ⟨c, rfl, rfl, rfl⟩

theorem phase_onConnection_eq (hf : ∀ c, (f c).phase = c.phase) :
    (e.onConnection f).phase = e.phase := by
  rcases e.phase_onConnection f with ⟨c, -, hp, hp'⟩ | ⟨-, hp, hp'⟩
  · rw [hp', hp, hf]
  · rw [hp', hp]

theorem phase_setPhase (e : Engine ρ) (p : Phase ρ) :
    (e.setPhase p).phase = p ∨ (e.setPhase p).phase.Calm := by
  rcases e.phase_onConnection ({ · with phase := p }) with ⟨c, -, -, hp⟩ | ⟨-, -, hp⟩
  · exact .inl hp
  · exact .inr (by rw [setPhase, hp]; trivial)

theorem keeps_onConnection (hf : ∀ c, (f c).phase = c.phase ∨ (f c).phase.Calm)
    (ha : ∀ c, (f c).auth = c.auth) : Keeps e (e.onConnection f) := by
  refine ⟨?_, id, ?_⟩
  · rcases e.phase_onConnection f with ⟨c, -, hp, hp'⟩ | ⟨-, hp, hp'⟩
    · rw [hp', hp]
      exact hf c
    · exact .inl (by rw [hp', hp])
  · intro h c' hc' hauth
    obtain ⟨c, hc, rfl⟩ := Option.map_eq_some_iff.1 hc'
    rcases hf c with hp | hp
    · rw [hp]
      exact h c hc (ha c ▸ hauth)
    · exact hp

theorem calm_onConnection (hf : ∀ c, (f c).phase.Calm) : (e.onConnection f).phase.Calm := by
  rcases e.phase_onConnection f with ⟨c, -, -, hp⟩ | ⟨-, -, hp⟩
  · rw [hp]
    exact hf c
  · rw [hp]
    trivial

@[simp]
theorem phase_touch (e : Engine ρ) (now : ℕ) : (e.touch now).phase = e.phase :=
  phase_onConnection_eq fun _ ↦ rfl

theorem keeps_touch : Keeps e (e.touch now) := keeps_onConnection (fun _ ↦ .inl rfl) fun _ ↦ rfl

theorem keeps_setPhase_idle : Keeps e (e.setPhase .idle) :=
  keeps_onConnection (fun _ ↦ .inr trivial) fun _ ↦ rfl

theorem keeps_abandonExchange : Keeps e e.abandonExchange :=
  keeps_onConnection (fun c ↦ c.phase.abandoned_eq_or_calm) fun _ ↦ rfl

theorem keeps_endConnection : Keeps e (e.endConnection now) := by
  unfold endConnection
  split
  · exact .refl e
  · exact .of_idle (fun c hc ↦ absurd hc (Option.some_ne_none c).symm) rfl rfl

theorem keeps_endHold (finished : Bool) : Keeps e (e.endHold finished).1 := by
  unfold endHold
  split
  · exact .refl e
  · exact .of_eq rfl rfl rfl

theorem keeps_admits {device : Text} (h : e.admits now device = .ok e') : Keeps e e' := by
  unfold admits at h
  split at h
  · split at h <;> cases h
    exact .refl e
  · split at h <;> cases h
    refine .of_idle ?_ rfl rfl
    intro c hc
    cases hc
    rfl

theorem phase_admits {device : Text} (h : e.admits now device = .ok e') : e'.phase = e.phase := by
  unfold admits at h
  split at h
  · split at h <;> cases h
    rfl
  · next hc =>
    split at h <;> cases h
    rw [phase, phase, hc]
    rfl

theorem keeps_spawnOp (op : Op) (work : Work) : Keeps e (e.spawnOp op work).1 := by
  unfold spawnOp
  split
  · exact keeps_onConnection (fun _ ↦ .inl rfl) fun _ ↦ rfl
  · exact .refl e

theorem keeps_withHold (hold : Hold) : Keeps e (e.withHold hold) := .of_eq rfl rfl rfl

theorem keeps_refresh (facts : Facts) : Keeps e (e.refresh facts) := .of_eq rfl rfl rfl

theorem keeps_setWifi (ssid psk : Text) (hidden : Bool) :
    Keeps e (e.setWifi r ssid psk hidden).1 := by
  unfold setWifi
  split
  · exact .refl e
  split
  · exact .refl e
  split
  · exact .refl e
  split
  · exact .refl e
  · exact (keeps_withHold _).trans (keeps_spawnOp _ _)

theorem keeps_setNetwork (interface : Text) (entry : Text) :
    Keeps e (e.setNetwork r interface entry).1 := by
  unfold setNetwork
  split
  · exact .refl e
  · exact (keeps_withHold _).trans (keeps_spawnOp _ _)

theorem keeps_runCommand (command : Command) : Keeps e (e.runCommand r command).1 := by
  cases command with
  | getStatus | scanWifi => exact keeps_spawnOp _ _
  | setWifi ssid psk hidden => exact keeps_setWifi ssid psk hidden
  | setNetwork interface entry => exact keeps_setNetwork interface entry
  | finish =>
    show Keeps e (e.finish r).1
    unfold finish
    split
    · exact .refl e
    · exact keeps_spawnOp _ _
  | _ => exact .refl e

theorem keeps_onCommand (command : Command) : Keeps e (e.onCommand r command).1 := by
  unfold onCommand
  split
  · exact .refl e
  · exact keeps_endConnection
  · exact keeps_touch
  · dsimp only
    split
    · exact keeps_touch
    · exact keeps_touch.trans (keeps_runCommand _)

theorem keeps_closeSession : Keeps e (e.closeSession r).1 :=
  (show Keeps e { e with windows := e.windows.finish r.uptime, tempCode := none, facts := r.facts }
    from ⟨.inl rfl, fun _ ↦ ⟨rfl, rfl⟩, id⟩).trans ((keeps_endHold true).trans keeps_endConnection)

variable (serial : ℕ)

theorem keeps_doneOp (op : Op) (outcome : Outcome) : Keeps e (e.doneOp r serial op outcome).1 := by
  have hcommit : Keeps e (e.commit op outcome) := .of_eq rfl rfl rfl
  unfold doneOp
  dsimp only
  split
  · split
    · refine hcommit.trans (Keeps.trans (keeps_onConnection ?_ ?_) keeps_closeSession)
      · exact fun c ↦ .inl rfl
      · exact fun c ↦ rfl
    · exact hcommit.trans (keeps_onConnection (fun _ ↦ .inl rfl) fun _ ↦ rfl)
  · exact hcommit

theorem keeps_claimedElsewhere : Keeps e (e.claimedElsewhere r).1 := by
  unfold claimedElsewhere
  dsimp only
  have hfacts : Keeps e (e.refresh r.facts) := keeps_refresh _
  split <;> split
  · exact hfacts.trans (keeps_endConnection.trans (keeps_endHold false))
  · exact hfacts.trans keeps_endConnection
  · exact hfacts.trans (keeps_endHold false)
  · exact hfacts

theorem keeps_dropCode (window : Option Open) : Keeps e (e.dropCode window) := by
  unfold dropCode
  split
  · exact .refl e
  · exact ⟨.inl rfl, fun h ↦ ⟨h.1, rfl⟩, id⟩

theorem keeps_settle (refresh : Bool) : Keeps e (e.settle r refresh).1 := by
  unfold settle
  dsimp only
  have hfacts : Keeps e (if refresh then e.refresh r.facts else e) := by
    split
    · exact keeps_refresh _
    · exact .refl e
  generalize (if refresh then e.refresh r.facts else e) = e₁ at hfacts ⊢
  have hcode := hfacts.trans (keeps_dropCode (e₁.window r.uptime))
  generalize e₁.dropCode (e₁.window r.uptime) = e₂ at hcode ⊢
  have hidle : Keeps e (if e₂.idle r.uptime then e₂.endConnection r.uptime else e₂) := by
    split
    · exact hcode.trans keeps_endConnection
    · exact hcode
  generalize (if e₂.idle r.uptime then e₂.endConnection r.uptime else e₂) = e₃ at hidle ⊢
  split
  · exact hidle.trans (keeps_endHold false)
  · exact hidle

theorem shut_closeManual (e : Engine ρ) : Shut e.closeManual := ⟨rfl, rfl⟩

theorem keeps_closeManual : Keeps e e.closeManual := ⟨.inl rfl, fun _ ↦ e.shut_closeManual, id⟩

theorem keeps_saveWifi (ssid : Text) (added : Bool) : Keeps e (e.saveWifi serial ssid added) := by
  unfold saveWifi
  split
  · exact .of_eq rfl rfl rfl
  · exact .refl e

theorem keeps_saveNetwork (interface : Text) (previous : Option Text) :
    Keeps e (e.saveNetwork serial interface previous) := by
  unfold saveNetwork
  split
  · exact .of_eq rfl rfl rfl
  · exact .refl e

theorem keeps_route (present : Bool) :
    Keeps e { e with windows := e.windows.route now present } := by
  refine ⟨.inl rfl, fun h ↦ ⟨?_, h.2⟩, id⟩
  show (e.windows.route now present).manualUntil = none
  rw [← h.1]
  unfold Windows.route
  split
  · rfl
  · split <;> rfl

theorem connection_openManual (lockout : Lockout) (seconds : ℕ) (code : Text) (record : ρ) :
    (e.openManual r lockout seconds code record).connection = e.connection := by
  unfold openManual
  split <;> rfl

theorem start_cases (e : Engine ρ) (r : Reading) (lockout : Lockout) (verifier : Option ρ)
    (requested : Option Text) (pub : Bool) :
    Keeps e (e.start r lockout verifier requested pub).1 ∨
      lockout.remaining r.unix = none ∧ ∃ w record, w.auth ≠ .none ∧
        (e.start r lockout verifier requested pub).1 = e.abandonExchange.beginExchange w record := by
  have hparams (w : Open) (record : ρ) (hw : w.auth ≠ .none) :
      Keeps e (e.abandonExchange.sendParams r lockout w record).1 ∨
        lockout.remaining r.unix = none ∧ ∃ w' record', w'.auth ≠ .none ∧
          (e.abandonExchange.sendParams r lockout w record).1 =
            e.abandonExchange.beginExchange w' record' := by
    unfold sendParams
    split
    · exact .inl keeps_abandonExchange
    · next hfree => exact .inr ⟨hfree, w, record, hw, rfl⟩
  unfold start
  dsimp only
  split
  · exact .inl keeps_abandonExchange
  split
  · exact .inl keeps_abandonExchange
  split
  · refine .inl (keeps_abandonExchange.trans ?_)
    unfold startNone
    split
    · exact keeps_onConnection (fun _ ↦ .inr trivial) fun _ ↦ rfl
    · exact .refl _
  · next hauth =>
    split
    · exact .inl keeps_abandonExchange
    · exact hparams _ _ (by simp [hauth])
  · next hauth =>
    split
    · exact .inl keeps_abandonExchange
    · exact hparams _ _ (by simp [hauth])

theorem proving_of_calm (h : e.phase.Calm) : Proving e := by
  intro c hc _
  rwa [phase, hc] at h

theorem proving_setPhase (h : Proving e) (hp : ¬ e.phase.Calm) (p : Phase ρ) :
    Proving (e.setPhase p) := by
  intro c' hc' hauth
  obtain ⟨c, hc, rfl⟩ := Option.map_eq_some_iff.1 hc'
  rw [phase, hc] at hp
  exact absurd (h c hc hauth) hp

theorem proving_beginExchange {w : Open} {record : ρ} (hw : w.auth ≠ .none) :
    Proving (e.beginExchange w record) := by
  intro c' hc' hauth
  obtain ⟨c, -, rfl⟩ := Option.map_eq_some_iff.1 hc'
  exact absurd hauth hw

theorem phase_beginExchange (e : Engine ρ) (w : Open) (record : ρ) :
    (e.beginExchange w record).phase = .params w.auth record ∨
    (e.beginExchange w record).phase.Calm := by
  unfold beginExchange
  rcases e.phase_onConnection ({ · with
    auth := w.auth, trigger := w.trigger, phase := .params w.auth record }) with
    ⟨c, -, -, hp⟩ | ⟨-, -, hp⟩
  · exact .inl hp
  · exact .inr (by rw [hp]; trivial)

end Engine

def Silent (out : List Output) : Prop := ∀ n, Output.session (.share n) ∉ out

namespace Silent

theorem nil : Silent [] := fun _ h ↦ nomatch h

theorem append {out more : List Output} (h : Silent out) (h' : Silent more) :
    Silent (out ++ more) := by
  intro n hn
  rcases List.mem_append.1 hn with hn | hn
  · exact h n hn
  · exact h' n hn

theorem reply {reply : Reply} (h : ∀ n, reply ≠ .share n) : Silent [.session reply] := by
  intro n hn
  cases hn with
  | head => exact h n rfl
  | tail _ hn => cases hn

end Silent

def Wordless (out : List Output) : Prop := ∀ reply, Output.session reply ∉ out

namespace Wordless

theorem nil : Wordless [] := fun _ h ↦ nomatch h

theorem append {out more : List Output} (h : Wordless out) (h' : Wordless more) :
    Wordless (out ++ more) := by
  intro reply hr
  rcases List.mem_append.1 hr with hr | hr
  · exact h reply hr
  · exact h' reply hr

theorem silent {out : List Output} (h : Wordless out) : Silent out := fun n ↦ h (.share n)

end Wordless

def Reply.told : Reply → Option ℕ
  | .share n => some n
  | .authFailed n => some n
  | _ => none

def Output.told : Output → Option ℕ
  | .session reply => reply.told
  | _ => none

namespace Engine

variable {e : Engine ρ} {r : Reading}

theorem wordless_sendEvent (notice : Notice) : Wordless (e.sendEvent notice) := by
  unfold sendEvent
  split
  · intro reply hn
    cases hn with
    | tail _ hn => cases hn
  · exact .nil

theorem wordless_endHold (finished : Bool) : Wordless (e.endHold finished).2 := by
  unfold endHold
  split
  · exact .nil
  · refine .append ?_ ?_
    · intro reply hn
      obtain ⟨_, -, h⟩ := List.mem_map.1 hn
      cases h
    · split
      · intro reply hn
        cases hn with
        | tail _ hn => cases hn
      · exact .nil

theorem wordless_spawnOp (op : Op) (work : Work) : Wordless (e.spawnOp op work).2 := by
  unfold spawnOp
  split
  · intro reply hn
    cases hn with
    | tail _ hn => cases hn
  · exact .nil

theorem told_start (lockout : Lockout) (verifier : Option ρ) (requested : Option Text)
    (pub : Bool) :
    ∀ reply, .session reply ∈ (e.start r lockout verifier requested pub).2 → reply.told = none := by
  have hone {reply : Reply} (h : reply.told = none) :
      ∀ reply', Output.session reply' ∈ [Output.session reply] → reply'.told = none := by
    simpa using h
  have hparams (e : Engine ρ) (w : Open) (record : ρ) :
      ∀ reply, .session reply ∈ (e.sendParams r lockout w record).2 → reply.told = none := by
    unfold sendParams
    split <;> exact hone rfl
  unfold start
  dsimp only
  split
  · exact hone rfl
  split
  · exact hone rfl
  split
  · unfold startNone
    split <;> exact hone rfl
  · split
    · exact hone rfl
    · exact hparams _ _ _
  · split
    · exact hone rfl
    · exact hparams _ _ _

theorem silent_start (lockout : Lockout) (verifier : Option ρ) (requested : Option Text)
    (pub : Bool) :
    Silent (e.start r lockout verifier requested pub).2 :=
  fun n hn ↦ by cases told_start lockout verifier requested pub _ hn

theorem wordless_runCommand (command : Command) : Wordless (e.runCommand r command).2 := by
  cases command with
  | getStatus | scanWifi => exact wordless_spawnOp _ _
  | setWifi ssid psk hidden =>
    show Wordless (e.setWifi r ssid psk hidden).2
    unfold setWifi
    split
    · exact wordless_sendEvent _
    split
    · exact wordless_sendEvent _
    split
    · exact wordless_sendEvent _
    split
    · exact wordless_sendEvent _
    · exact (wordless_spawnOp _ _).append (wordless_sendEvent _)
  | setNetwork interface entry =>
    show Wordless (e.setNetwork r interface entry).2
    unfold setNetwork
    split
    · exact wordless_sendEvent _
    · exact (wordless_spawnOp _ _).append (wordless_sendEvent _)
  | finish =>
    show Wordless (e.finish r).2
    unfold finish
    split
    · exact wordless_sendEvent _
    · exact wordless_spawnOp _ _
  | _ => exact wordless_sendEvent _

theorem wordless_onCommand (command : Command) : Wordless (e.onCommand r command).2 := by
  unfold onCommand
  split
  · exact .nil
  · exact .nil
  · exact wordless_sendEvent _
  · dsimp only
    split
    · exact wordless_sendEvent _
    · exact wordless_runCommand _

theorem wordless_doneOp (serial : ℕ) (op : Op) (outcome : Outcome) :
    Wordless (e.doneOp r serial op outcome).2 := by
  unfold doneOp
  dsimp only
  split
  · split
    · exact (wordless_sendEvent _).append (wordless_endHold _)
    · exact wordless_sendEvent _
  · exact .nil

theorem wordless_claimedElsewhere : Wordless (e.claimedElsewhere r).2 := by
  unfold claimedElsewhere
  dsimp only
  split <;> split
  · exact (wordless_sendEvent _).append (wordless_endHold _)
  · exact wordless_sendEvent _
  · exact Wordless.nil.append (wordless_endHold _)
  · exact .nil

theorem wordless_settle (refresh : Bool) : Wordless (e.settle r refresh).2 := by
  unfold settle
  dsimp only
  generalize (if refresh then e.refresh r.facts else e) = e₁
  generalize e₁.dropCode (e₁.window r.uptime) = e₂
  split <;> split
  · exact (wordless_sendEvent _).append (wordless_endHold _)
  · exact wordless_sendEvent _
  · exact Wordless.nil.append (wordless_endHold _)
  · exact .nil

end Engine

end MicaCore.Ble
