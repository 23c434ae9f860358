import MicaCore.Ble.Counting
import Mathlib.Order.Bounds.Basic

namespace MicaCore.Ble

open Concurrent

variable {ρ : Type}

def Event.isAnswered : Event → Bool
  | .answered _ => true
  | _ => false

def Event.isConfirmed : Event → Bool
  | .confirmed _ => true
  | _ => false

def Lockout.left (l : Lockout) (now : ℕ) : ℕ := if l.remaining now = none then l.attemptsLeft else 0

def Phase.pending : Phase ρ → ℕ
  | .answering _ _ _ => 1
  | _ => 0

theorem Phase.pending_le_one (p : Phase ρ) : p.pending ≤ 1 := by
  cases p <;> simp [pending]

theorem Phase.pending_of_calm {p : Phase ρ} (h : p.Calm) : p.pending = 0 := by
  cases p <;> first | rfl | exact h.elim

namespace Service

variable {s t : Service ρ} {out : List Output} {n : ℕ}

def answers (s : Service ρ) : ℕ := s.log.countP Event.isAnswered

def confirms (s : Service ρ) : ℕ := s.log.countP Event.isConfirmed

/-- Some run answers `k` shares, none of them confirmed, at the time of `s`. -/
def AnswersUnconfirmed (s : Service ρ) (k : ℕ) : Prop :=
  ∃ ls t, Trace next (fun _ _ ↦ True) s ls t ∧ t.unix = s.unix ∧ t.confirms = s.confirms ∧
    t.answers = s.answers + k

section Bound

def credit (s : Service ρ) : ℕ := s.answers + s.lockout.left s.unix + s.engine.phase.pending

theorem lockoutSeconds_pos (level : ℕ) : 0 < lockoutSeconds level := by
  rcases level with _ | _ | level <;> simp [lockoutSeconds, lockouts]

theorem left_charge {l : Lockout} {now : ℕ} (h : l.remaining now = none) (hf : l.failures < maxFailures) :
    (l.charge now).left now + 1 = l.left now := by
  rw [Lockout.left, Lockout.left, if_pos h]
  simp only [Lockout.attemptsLeft, maxFailures] at hf ⊢
  cases hl : l.locks with
  | true =>
    -- The fifth failure: the lockout is in force from this very time on.
    have hlocked : (l.charge now).remaining now ≠ none := by
      rw [Lockout.charge_of_locks hl, Ne, Lockout.remaining_eq_none]
      exact fun hend ↦ absurd (hend _ rfl) (by have := lockoutSeconds_pos l.level; omega)
    have hfifth : 5 ≤ l.failures + 1 := of_decide_eq_true hl
    rw [if_neg hlocked]
    omega
  | false =>
    have hfree : (l.charge now).remaining now = none := by rwa [Lockout.charge_of_not_locks hl]
    have hfew : ¬ 5 ≤ l.failures + 1 := of_decide_eq_false hl
    rw [if_pos hfree, Lockout.charge_of_not_locks hl]
    show 5 - (l.failures + 1) + 1 = 5 - l.failures
    omega

theorem confirms_eq {stored : Bool} (h : t.log = .confirmed stored :: s.log) :
    t.confirms = s.confirms + 1 := by
  rw [confirms, h]
  exact List.countP_cons_of_pos rfl

theorem Moved.confirms_le (h : Moved s t) : s.confirms ≤ t.confirms := by
  refine List.Sublist.countP_le ?_
  cases h with
  | quiet _ _ log | began _ _ _ _ _ log => rw [log]
  | charged _ _ _ _ _ log | answered _ _ _ _ _ _ log | confirmed _ _ _ _ _ _ log =>
    exact log ▸ List.sublist_cons_self _ _

theorem Moved.credit_le (h : Moved s t) (hs : Counted s) (hunix : t.unix = s.unix)
    (hconfirms : t.confirms = s.confirms) : t.credit ≤ s.credit := by
  unfold credit
  rw [hunix]
  cases h with
  | quiet phase lockout log =>
    have hphase : t.engine.phase.pending ≤ s.engine.phase.pending := by
      rcases phase with phase | phase
      · rw [phase]
      · rw [Phase.pending_of_calm phase]
        exact Nat.zero_le _
    rw [lockout, answers, log]
    exact Nat.add_le_add_left hphase _
  | began auth record phase free lockout log =>
    rw [lockout, answers, log, phase]
    exact Nat.le_add_right _ _
  | charged auth record before phase lockout log =>
    have hleft := left_charge (hs.owed_of_eq before) hs.failures
    have hanswers : t.answers = s.answers := by
      rw [answers, log]
      exact List.countP_cons_of_neg Bool.false_ne_true
    have hphase := t.engine.phase.pending_le_one
    rw [lockout, hunix]
    omega
  | answered auth before chargedAt waiting phase lockout log =>
    have hanswers : t.answers = s.answers + 1 := by
      rw [answers, log]
      exact List.countP_cons_of_pos rfl
    have hphase : t.engine.phase.pending = 0 := by
      rcases phase with phase | phase
      · rw [phase]
        rfl
      · exact Phase.pending_of_calm phase
    have hwaiting : s.engine.phase.pending = 1 := by
      rw [waiting]
      rfl
    rw [lockout]
    omega
  | confirmed auth before stored waiting phase lockout log =>
    exact absurd (hconfirms.symm.trans (confirms_eq log)) (Nat.succ_ne_self _).symm

theorem le_credit_of_trace {ls : List (Label ρ)} (hs : Counted s)
    (h : Trace next (fun _ _ ↦ True) s ls t)
    (hunix : t.unix = s.unix) (hconfirms : t.confirms = s.confirms) :
    t.credit ≤ s.credit := by
  have hrun : Counted t ∧ s.unix ≤ t.unix ∧ s.confirms ≤ t.confirms ∧
      (t.unix = s.unix → t.confirms = s.confirms → t.credit ≤ s.credit) := by
    refine h.invariant (I := fun t ↦ Counted t ∧ s.unix ≤ t.unix ∧ s.confirms ≤ t.confirms ∧
      (t.unix = s.unix → t.confirms = s.confirms → t.credit ≤ s.credit)) ?_
      ⟨hs, le_rfl, le_rfl, fun _ _ ↦ le_rfl⟩
    rintro t l u ⟨ht, hle, hcle, hcredit⟩ - hnext
    obtain ⟨hunix, hmoved⟩ := stepped_of_next hnext
    refine ⟨ht.step hunix hmoved, hle.trans hunix, hcle.trans hmoved.confirms_le, fun hu hc ↦ ?_⟩
    -- Time and confirmations only grow, so a run that ends with both unchanged never moved them.
    have hut : u.unix = t.unix := le_antisymm (hu ▸ hle) hunix
    have hct : u.confirms = t.confirms := le_antisymm (hc ▸ hcle) hmoved.confirms_le
    exact (hmoved.credit_le ht hut hct).trans (hcredit (hut ▸ hu) (hct ▸ hc))
  exact hrun.2.2.2 hunix hconfirms

end Bound

def freshReading (now : ℕ) : Reading := ⟨0, now, ⟨true, false, false⟩, ⟨false, .off⟩⟩

def said (now : ℕ) (message : Message) : Label ρ :=
  .input (freshReading now) .done (.write "phone".toList (.session message))

def linked (phase : Phase ρ) : Engine ρ where
  windows := { claimedAtBoot := true }
  serial := 1
  facts := ⟨true, false, false⟩
  connection := some
    { serial := 1
      device := "phone".toList
      trigger := .boot
      auth := .password
      phase
      lastActive := 0 }

def guessed (s : Service ρ) (record : ρ) : Service ρ :=
  { engine := linked (.confirm .password s.lockout)
    lockout := s.lockout.charge s.unix
    verifier := some record
    unix := s.unix
    log := .answered s.unix :: .charged s.unix s.lockout :: s.log }

theorem start_linked {now : ℕ} {lockout : Lockout} (record : ρ) (hfree : lockout.remaining now = none) :
    (linked .idle).start (freshReading now) lockout (some record) (some Auth.password.name) true =
      (linked (.params .password record), [.session .params]) := by
  show Engine.sendParams (linked .idle) (freshReading now) lockout
    ⟨.boot, .password, some bootSeconds⟩ record = _
  have hfree' : lockout.remaining (freshReading now).unix = none := hfree
  rw [Engine.sendParams, hfree']
  rfl

theorem trace_guess {ls : List (Label ρ)} (record : ρ) (hfree : s.lockout.remaining s.unix = none)
    (h : Trace next (fun _ _ ↦ True) (guessed s record) ls t) :
    Trace next (fun _ _ ↦ True) s (.restart (freshReading s.unix) :: .verifier (some record) ::
      said s.unix (.start (some Auth.password.name) true) :: said s.unix (.share true) ::
        .answer (freshReading s.unix) :: ls) t := by
  have hnow : s.unix ≤ (freshReading s.unix).unix := le_rfl
  refine .cons trivial (by rw [next, step, if_pos hnow]; rfl) (.cons trivial rfl ?_)
  refine .cons (t := { s with verifier := some record, engine := linked (.params .password record) }) trivial ?_ ?_
  · have hhandle : handle { s with verifier := some record, engine := .boot ⟨true, false, false⟩ }
        (freshReading s.unix) .done (.write "phone".toList (.session (.start (some Auth.password.name) true))) =
          ({ s with verifier := some record, engine := linked (.params .password record) }, [.session .params]) := by
      show withEngine _ ((linked .idle).start (freshReading s.unix) s.lockout (some record) _ true) = _
      rw [start_linked record hfree]
      rfl
    have hidle : (Engine.boot (ρ := ρ) ⟨true, false, false⟩).phase = .idle := rfl
    simp only [next, step, said, freshReading.eq_1, hidle, le_refl, if_true] at hhandle ⊢
    rw [hhandle]
    rfl
  refine .cons (t := { s with
      lockout := s.lockout.charge s.unix
      verifier := some record
      engine := linked (.answering .password s.lockout s.unix)
      log := .charged s.unix s.lockout :: s.log }) trivial ?_ (.cons trivial ?_ h)
  · show Option.map _ (if s.unix ≤ s.unix then _ else _) = _
    rw [if_pos le_rfl]
    rfl
  · show Option.map _ (if s.unix ≤ s.unix then _ else _) = _
    rw [if_pos le_rfl]
    rfl

theorem answersUnconfirmed_left (record : ρ) (s : Service ρ)
    (hf : s.lockout.failures < maxFailures) :
    s.AnswersUnconfirmed (s.lockout.left s.unix) := by
  induction hk : s.lockout.left s.unix generalizing s with
  | zero => exact ⟨[], s, .nil s, rfl, rfl, rfl⟩
  | succ k ih =>
    have hfree : s.lockout.remaining s.unix = none := by
      by_contra hlocked
      rw [Lockout.left, if_neg hlocked] at hk
      cases hk
    have hleft : (guessed s record).lockout.left (guessed s record).unix = k :=
      Nat.succ.inj ((left_charge hfree hf).trans hk)
    obtain ⟨ls, t, hrun, hunix, hconfirms, hanswers⟩ :=
      ih (guessed s record) (Lockout.failures_charge_lt hf) hleft
    refine ⟨_, t, trace_guess record hfree hrun, hunix, hconfirms.trans ?_, hanswers.trans ?_⟩
    · simp [confirms, guessed, Event.isConfirmed]
    · simp only [answers, guessed, List.countP_cons, Event.isAnswered, Bool.false_eq_true, if_false, if_true]
      omega

theorem isGreatest_left [Inhabited ρ] (hs : Counted s) (hphase : s.engine.phase.pending = 0) :
    IsGreatest {k | s.AnswersUnconfirmed k} (s.lockout.left s.unix) := by
  refine ⟨answersUnconfirmed_left default s hs.failures, ?_⟩
  rintro k ⟨ls, t, hrun, hunix, hconfirms, hanswers⟩
  have hcredit := le_credit_of_trace hs hrun hunix hconfirms
  simp only [credit, hphase, hanswers] at hcredit
  omega

section Told

theorem authFailed_of_onSession {r : Reading} {write : Write} {message : Message}
    (h : .session (.authFailed n) ∈ (s.onSession r write message).2) :
    n = (s.onSession r write message).1.lockout.attemptsLeft ∧
      (s.onSession r write message).1.engine.phase.Calm := by
  cases message with
  | malformed => simp [onSession] at h
  | start requested pub => cases Engine.told_start _ _ _ _ _ h
  | share good =>
    exfalso
    revert h
    simp only [onSession, share]
    split
    · cases good <;> cases write <;> simp
    · simp
  | confirm valid keyed =>
    revert h
    simp only [onSession, confirm]
    split
    · cases valid with
      | true => cases keyed <;> simp [accept]
      | false =>
        simp only [Bool.false_eq_true, if_false, refuse]
        split
        · simp
        · intro h
          obtain rfl : n = s.lockout.attemptsLeft := by simpa using h
          exact ⟨rfl, Engine.calm_onConnection fun _ ↦ trivial⟩
    · simp

theorem authFailed_of_handle {r : Reading} {write : Write} {input : Input ρ}
    (h : .session (.authFailed n) ∈ (s.handle r write input).2) :
    n = (s.handle r write input).1.lockout.attemptsLeft ∧
    (s.handle r write input).1.engine.phase.Calm := by
  cases input with
  | write device value =>
    simp only [handle] at h ⊢
    split at h
    · cases value with
      | session message => exact authFailed_of_onSession h
      | command command => exact absurd h (Engine.wordless_onCommand _ _)
      | _ => cases h
    · cases h
  | claimedElsewhere => exact absurd h (Engine.wordless_claimedElsewhere _)
  | done serial op outcome => exact absurd h (Engine.wordless_doneOp _ _ _ _)
  | read _ | disconnected _ | unsealed =>
    simp only [handle] at h
    split at h <;> cases h
  | _ => cases h

theorem authFailed_of_step {l : Label ρ} (h : s.step l = some (t, out))
    (hout : .session (.authFailed n) ∈ out) :
    n = t.lockout.attemptsLeft ∧ t.engine.phase.pending = 0 := by
  cases l with
  | input r write input =>
    have hh := @authFailed_of_handle ρ { s with unix := r.unix } n r write input
    simp only [step] at h
    generalize handle { s with unix := r.unix } r write input = p at h hh
    split at h
    · cases h
    split at h
    · split at h
      · cases h
        obtain ⟨hn, hcalm⟩ := hh hout
        exact ⟨hn, Phase.pending_of_calm hcalm⟩
      · cases h
        rcases List.mem_append.1 hout with hout | hout
        · obtain ⟨hn, hcalm⟩ := hh hout
          refine ⟨hn, Phase.pending_of_calm ?_⟩
          have hk := Engine.keeps_settle (e := p.1.engine) (r := r) (refreshes input)
          rcases hk.phase with hphase | hphase
          · exact hphase.symm ▸ hcalm
          · exact hphase
        · exact absurd hout (Engine.wordless_settle _ _)
    · cases h
  | answer r =>
    simp only [step] at h
    split at h
    · split at h
      · cases h
        rcases List.mem_cons.1 hout with hout | hout
        · cases hout
        · exact absurd hout (Engine.wordless_settle _ _)
      · cases h
    · cases h
  | restart r =>
    simp only [step] at h
    split at h <;> cases h
    cases hout
  | verifier record =>
    cases h
    cases hout

theorem share_of_step {l : Label ρ} (hs : Counted s) (h : s.step l = some (t, out))
    (hout : .session (.share n) ∈ out) : n = t.lockout.attemptsLeft ∧
    t.engine.phase.pending = 0 := by
  have hst := stepped_of_step h
  obtain ⟨auth, before, chargedAt, hp, rfl, hlog⟩ := hst.sent n hout
  obtain ⟨-, _, -, hin⟩ := hs.owed_of_eq hp
  cases hst.moved with
  | answered _ _ _ _ phase lockout log =>
    refine ⟨by rw [lockout, hin.lockout], ?_⟩
    rcases phase with phase | phase
    · rw [phase]
      rfl
    · exact Phase.pending_of_calm phase
  | quiet _ _ log | began _ _ _ _ _ log =>
    exact absurd (hlog.symm.trans log) (List.cons_ne_self _ _)
  | charged _ _ _ _ _ log | confirmed _ _ _ _ _ _ log => cases hlog.symm.trans log

theorem told_of_step {l : Label ρ} {o : Output} (hs : Counted s) (h : s.step l = some (t, out))
    (ho : o ∈ out)
    (htold : o.told = some n) : n = t.lockout.attemptsLeft ∧ t.engine.phase.pending = 0 := by
  cases o with
  | session reply =>
    cases reply with
    | share k =>
      cases htold
      exact share_of_step hs h ho
    | authFailed k =>
      cases htold
      exact authFailed_of_step h ho
    | _ => cases htold
  | _ => cases htold

end Told

/-- A phone is told how many shares can still be answered, if and only if no lockout holds. -/
theorem told_iff_free [Inhabited ρ] (facts : Facts) (verifier : Option ρ)
    (unix : ℕ) (ls : List (Label ρ))
    (s t : Service ρ) (l : Label ρ) (out : List Output) (o : Output) (n : ℕ)
    (hrun : Trace next (fun _ _ ↦ True) { engine := .boot facts, verifier, unix } ls s)
    (hstep : s.step l = some (t, out)) (ho : o ∈ out) (htold : o.told = some n) :
    IsGreatest {k | t.AnswersUnconfirmed k} n ↔ t.lockout.remaining t.unix = none := by
  have hs := (counted_start facts verifier unix).run hrun
  have hst := stepped_of_step hstep
  have ht := hs.step hst.unix hst.moved
  obtain ⟨rfl, hphase⟩ := told_of_step hs hstep ho htold
  have hgreatest := isGreatest_left ht hphase
  constructor
  · intro h
    by_contra hlocked
    have hzero : t.lockout.attemptsLeft = 0 := by
      rw [h.unique hgreatest, Lockout.left, if_neg hlocked]
    exact absurd (Nat.sub_eq_zero_iff_le.1 hzero) (Nat.not_le.2 ht.failures)
  · intro hfree
    rwa [Lockout.left, if_pos hfree] at hgreatest

theorem told_iff_free_guess : ∃ t : Service Unit, t.unix = 1001 ∧
    IsGreatest {k | t.AnswersUnconfirmed k} 4 := by
  obtain ⟨s, hrun, ⟨t, out⟩, hstep, hlockout, hunix, o, ho, htold⟩ :
      ∃ s, Trace next (fun _ _ ↦ True)
      claimedDevice (guess .password 1).dropLast s ∧ ∃ p ∈ s.step (.answer (quietReading 1)),
    p.1.lockout = ⟨1, 0, none⟩ ∧ p.1.unix = 1001 ∧ ∃ o ∈ p.2, o.told = some 4 := by decide
  exact ⟨t, hunix, (told_iff_free _ _ _ _ s t _ out o 4 hrun hstep ho htold).2 (by rw [hlockout]; rfl)⟩

/-- The answer to the fifth guess locks the engine and tells five. -/
theorem not_forall_told :
    ¬ ∀ (ls : List (Label Unit)) (s t : Service Unit) (l : Label Unit) (out : List Output) (o : Output) (n : ℕ),
      Trace next (fun _ _ ↦ True) claimedDevice ls s → s.step l = some (t, out) → o ∈ out →
      o.told = some n →
        IsGreatest {k | t.AnswersUnconfirmed k} n := by
  intro h
  obtain ⟨s, hrun, ⟨t, out⟩, hstep, hlockout, hunix, o, ho, htold⟩ :
      ∃ s, Trace next (fun _ _ ↦ True)
      claimedDevice (fiveGuesses .password).dropLast s ∧ ∃ p ∈ s.step (.answer (quietReading 5)),
    p.1.lockout = ⟨0, 1, some 1605⟩ ∧ p.1.unix = 1005 ∧ ∃ o ∈ p.2, o.told = some 5 := by decide
  have hs := Counted.run (counted_start _ _ _) hrun
  have hst := stepped_of_step hstep
  have hgreatest := isGreatest_left (hs.step hst.unix hst.moved) (told_of_step hs hstep ho htold).2
  have hfive := (h _ s t _ out o 5 hrun hstep ho htold).unique hgreatest
  rw [hlockout, hunix] at hfive
  exact absurd hfive (by decide)

end Service

end MicaCore.Ble
