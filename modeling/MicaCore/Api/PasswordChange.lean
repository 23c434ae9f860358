import MicaCore.Api.Console

namespace MicaCore.Api.Console

open Data Concurrent

variable {crypto : Crypto} {s t : Console} {r q : Request} {a : Act}

/-- A login that is still current read its hash after the sessions were last cleared. -/
def CurrentLogin (s : Console) (generation seen : ℕ) : Prop :=
  generation ≤ s.sessions.generation ∧
    (generation = s.sessions.generation → s.clearedAt ≤ seen)

/-- Every other session comes from a login that read its hash after the write. -/
def Ended (s : Console) (wrote : ℕ) (acting : Option Text) : Prop :=
  wrote < s.clearedAt ∧ ∀ x ∈ s.sessions.sessions, some x.1 ≠ acting → wrote < x.2

def Request.Logins (s : Console) : Request → Prop
  | .loginBegun _ generation => generation ≤ s.sessions.generation
  | .loginRead _ generation _ seen => CurrentLogin s generation seen
  | .loginVerified generation seen => CurrentLogin s generation seen
  | .written _ wrote => wrote < s.history.length
  | .invalidated _ wrote => wrote < s.history.length
  | .answered call wrote => ∀ acting current, call.purpose = .change acting current →
      Ended s wrote acting
  | _ => True

structure KeepsLogins (s t : Console) : Prop where
  history : s.history.length ≤ t.history.length
  cleared : s.clearedAt ≤ t.clearedAt
  generation : s.sessions.generation ≤ t.sessions.generation
  same : t.sessions.generation = s.sessions.generation → t.clearedAt = s.clearedAt
  sessions : ∀ x ∈ t.sessions.sessions, x ∈ s.sessions.sessions ∨ s.clearedAt ≤ x.2

theorem KeepsLogins.of_sessions_eq (hs : t.sessions = s.sessions) (hc : t.clearedAt = s.clearedAt)
    (hh : s.history.length ≤ t.history.length) : KeepsLogins s t :=
  ⟨hh, hc.ge, hs ▸ le_rfl, fun _ ↦ hc, fun _ hx ↦ .inl (hs ▸ hx)⟩

theorem CurrentLogin.mono {generation seen : ℕ} (h : CurrentLogin s generation seen)
    (hk : KeepsLogins s t) : CurrentLogin t generation seen := by
  refine ⟨h.1.trans hk.generation, fun hg ↦ ?_⟩
  have hsame : t.sessions.generation = s.sessions.generation :=
    le_antisymm (hg ▸ h.1) hk.generation
  rw [hk.same hsame]
  exact h.2 (hg.trans hsame)

theorem Ended.mono {wrote : ℕ} {acting : Option Text} (h : Ended s wrote acting)
    (hk : KeepsLogins s t) : Ended t wrote acting := by
  refine ⟨h.1.trans_le hk.cleared, fun x hx hne ↦ ?_⟩
  rcases hk.sessions x hx with hx | hx
  · exact h.2 x hx hne
  · exact h.1.trans_le hx

theorem Request.Logins.mono (h : r.Logins s) (hk : KeepsLogins s t) : r.Logins t := by
  cases r with
  | loginBegun password generation => exact Nat.le_trans h hk.generation
  | loginRead | loginVerified => exact CurrentLogin.mono h hk
  | written | invalidated => exact Nat.lt_of_lt_of_le h hk.history
  | answered call wrote => exact fun acting current hc ↦ (h acting current hc).mono hk
  | _ => trivial

theorem Computed.logins (h : Computed crypto s r q) (hJ : s.clearedAt ≤ s.history.length)
    (hr : r.Logins s) : q.Logins s := by
  cases h with
  | loginBegun => exact Nat.le_refl _
  | loginRead => exact ⟨hr, fun _ ↦ hJ⟩
  | loginVerified => exact hr
  | answered hpurpose => exact fun acting current hc ↦ absurd hc (hpurpose acting current)
  | _ => trivial

theorem turn_logins (hJ : s.clearedAt ≤ s.history.length) (hr : r.Logins s)
    (h : turn crypto s r a = some (t, q)) :
    t.clearedAt ≤ t.history.length ∧ q.Logins t ∧ KeepsLogins s t := by
  cases turned_of_turn h with
  | compute hq =>
    exact ⟨hJ, (computed_of_compute hq).logins hJ hr, .of_sessions_eq rfl rfl le_rfl⟩
  | outdated => exact ⟨hJ, trivial, .of_sessions_eq rfl rfl le_rfl⟩
  | create =>
    refine ⟨hJ, trivial, le_rfl, le_rfl, le_rfl, fun _ ↦ rfl, fun x hx ↦ ?_⟩
    rcases List.mem_cons.1 hx with rfl | hx
    · exact .inr (hr.2 rfl)
    · exact .inl (List.mem_of_mem_filter hx)
  | persist => exact ⟨Nat.le_succ_of_le hJ, Nat.lt_succ_self _, .of_sessions_eq rfl rfl (Nat.le_succ _)⟩
  | persistLate => exact ⟨Nat.le_succ_of_le hJ, trivial, .of_sessions_eq rfl rfl (Nat.le_succ _)⟩
  | invalidate => exact ⟨hJ, hr, .of_sessions_eq rfl rfl le_rfl⟩
  | @clear call wrote acting current hpurpose =>
    refine ⟨le_rfl, fun acting' current' hc ↦ ⟨hr, fun x hx hne ↦ ?_⟩,
      le_rfl, hJ, Nat.le_succ _, fun hg ↦ absurd hg (Nat.succ_ne_self _), fun x hx ↦ ?_⟩
    · obtain ⟨rfl, -⟩ := Purpose.change.inj (hpurpose.symm.trans hc)
      have := (List.mem_filter.1 hx).2
      exact absurd (by simpa using this) hne
    · exact .inl (List.mem_of_mem_filter hx)
  | fill | drop => exact ⟨hJ, trivial, .of_sessions_eq rfl rfl le_rfl⟩
  | remove =>
    exact ⟨hJ, trivial, le_rfl, le_rfl, le_rfl, fun _ ↦ rfl,
      fun x hx ↦ .inl (List.mem_of_mem_filter hx)⟩

/-- The invariant of the logins, along any run from a point where it holds. -/
theorem logins_of_runs {A : Console → Request → Act → Prop} {ls : List (ℕ × Act)}
    {p q : Pool Console Request} (h : Pool.Runs (turn crypto) A p ls q)
    (hp : p.shared.clearedAt ≤ p.shared.history.length ∧ ∀ i, (p.thread i).Logins p.shared) :
    q.shared.clearedAt ≤ q.shared.history.length ∧ ∀ i, (q.thread i).Logins q.shared :=
  Pool.invariant (J := fun s ↦ s.clearedAt ≤ s.history.length) (L := fun _ s r ↦ r.Logins s)
    (fun _ _ _ _ _ _ hJ hr _ ht ↦ turn_logins hJ hr ht)
    (fun _ _ _ _ _ hr hk ↦ hr.mono hk) hp h

/-- No password change's call gives up once its write took effect, nor before it does. -/
def Answering (_ : Console) (r : Request) (a : Act) : Prop :=
  match r, a with
  | .late call, .persist => call.event ≠ .rehashed
  | .written call _, .timeout => call.event ≠ .rehashed
  | _, _ => True

instance (s : Console) (r : Request) (a : Act) : Decidable (Answering s r a) := by
  unfold Answering
  split <;> infer_instance

/-- The request's handler has answered, with success or with an error. -/
def Request.returned : Request → Bool
  | .answered _ _ => true
  | .late _ => true
  | .failed => true
  | _ => false

/-- Where a request stands from its write until it has answered success. -/
def Request.Follows (call : Call) (wrote : ℕ) (r : Request) : Prop :=
  r = .written call wrote ∨ r = .invalidated call wrote ∨ r = .answered call wrote

theorem Request.Follows.turn {call : Call} {wrote : ℕ} (hevent : call.event = .rehashed)
    (h : r.Follows call wrote) (ha : Answering s r a) (ht : turn crypto s r a = some (t, q)) :
    q.Follows call wrote := by
  cases turned_of_turn ht with
  | compute hq =>
    rcases h with rfl | rfl | rfl
    · cases a <;> cases hq
      exact absurd hevent ha
    · cases a <;> try cases hq
      simp only [compute] at hq
      split at hq
      · cases hq
      · cases hq
        exact .inr (.inr rfl)
    · cases a <;> cases hq
  | invalidate =>
    obtain ⟨rfl, rfl⟩ := Request.written.inj (h.resolve_right (by rintro (h | h) <;> cases h))
    exact .inr (.inl rfl)
  | clear =>
    rcases h with h | h | h <;> cases h
    exact .inr (.inr rfl)
  | _ => rcases h with h | h | h <;> cases h

theorem follows_along {call : Call} {wrote i : ℕ} (hevent : call.event = .rehashed)
    {ms : List (ℕ × Act)} {p q : Pool Console Request}
    (h : Pool.Runs (Console.turn crypto) Answering p ms q) (hp : (p.thread i).Follows call wrote) :
    (q.thread i).Follows call wrote := by
  refine h.invariant (I := fun p ↦ (p.thread i).Follows call wrote) ?_ hp
  rintro p ⟨k, a⟩ q hi ha hstep
  obtain ⟨s, r, ht, rfl⟩ := Pool.step_eq_some hstep
  by_cases hk : i = k
  · subst hk
    simpa using hi.turn hevent ha ht
  · simpa [hk] using hi

/-- Once a change whose write took effect has returned, no session but the acting one is of a
login that read its hash before that write. -/
theorem ended_of_returned {access : Access} {ls ms : List (ℕ × Act)} {p q r : Pool Console Request}
    (h : Pool.Runs (turn crypto) Answering (start access) ls p) {i : ℕ} {call : Call}
    {acting : Option Text} {current : Text} (hi : call ∈ (p.thread i).outgoing)
    (hc : call.purpose = .change acting current) (ha : Answering p.shared (p.thread i) .persist)
    (hstep : Pool.step (turn crypto) p (i, .persist) = some q)
    (hrest : Pool.Runs (turn crypto) Answering q ms r) (hr : (r.thread i).returned = true) :
    ∀ x ∈ r.shared.sessions.sessions, some x.1 ≠ acting → ¬ x.2 ≤ p.shared.history.length := by
  have hevent : call.event = .rehashed := by simp [Call.event, hc]
  have hwriting : p.thread i = .writing call := by
    cases hp : p.thread i <;> rw [hp] at hi ha <;> cases hi
    · rfl
    · exact absurd hevent ha
  have hwritten : (q.thread i).Follows call p.shared.history.length := by
    obtain ⟨s, r, ht, rfl⟩ := Pool.step_eq_some hstep
    rw [hwriting] at ht
    cases ht
    exact .inl (by simp)
  have hlogins := logins_of_runs hrest (logins_of_runs (.one ha hstep)
    (logins_of_runs h ⟨Nat.le_refl 0, fun _ ↦ trivial⟩))
  have hended := hlogins.2 i
  rcases follows_along hevent hrest hwritten with hf | hf | hf <;> rw [hf] at hr hended
  · cases hr
  · cases hr
  · exact fun x hx hne ↦ not_le.2 ((hended acting current hc).2 x hx hne)

def sampleAccess : Access := { passwordHash := some "password-0".toList }

def changing (i : ℕ) (current new : String) : List (ℕ × Act) :=
  [(i, .change none current.toList new.toList), (i, .read), (i, .verify), (i, .hash [] none)]

def completing (i : ℕ) : List (ℕ × Act) := [(i, .persist), (i, .invalidate), (i, .clear)]

def verifying (i : ℕ) (password : String) : List (ℕ × Act) :=
  [(i, .login password.toList), (i, .read), (i, .verify)]

def lateLogin : List (ℕ × Act) :=
  [(1, .invalidate), (1, .clear), (0, .create ['a'])] ++ verifying 2 "password-1" ++
    [(2, .create ['b'])]

theorem ended_of_returned_lateLogin : ∃ p q r call,
    Pool.Runs (turn plainCrypto) Answering (start sampleAccess)
      (verifying 0 "password-0" ++ changing 1 "password-0" "password-1") p ∧
    call ∈ (p.thread 1).outgoing ∧ call.purpose = .change none "password-0".toList ∧
    Pool.step (turn plainCrypto) p (1, .persist) = some q ∧
    Pool.Runs (turn plainCrypto) Answering q lateLogin r ∧
    (r.thread 1).returned = true ∧ r.shared.sessions.sessions.map Prod.fst = [['b']] ∧
    ∀ x ∈ r.shared.sessions.sessions, some x.1 ≠ none → ¬ x.2 ≤ p.shared.history.length := by
  obtain ⟨p, hp, ⟨call, hi, hc⟩, ha, q, hq, r, hr, hreturned, hids⟩ : ∃ p,
      Pool.Runs (turn plainCrypto) Answering (start sampleAccess)
        (verifying 0 "password-0" ++ changing 1 "password-0" "password-1") p ∧
      (∃ call ∈ (p.thread 1).outgoing, call.purpose = .change none "password-0".toList) ∧
      Answering p.shared (p.thread 1) .persist ∧
      ∃ q ∈ Pool.step (turn plainCrypto) p (1, .persist), ∃ r,
        Pool.Runs (turn plainCrypto) Answering q lateLogin r ∧
        (r.thread 1).returned = true ∧ r.shared.sessions.sessions.map Prod.fst = [['b']] := by
    decide
  exact ⟨p, q, r, call, hp, hi, hc, hq, hr, hreturned, hids,
    ended_of_returned hp hi hc ha hq hr hreturned⟩

/-- A change whose call times out once the new hash is stored answers an error, and the sessions
of the old password stay. -/
theorem kept_of_timeout : ∃ p q r call,
    Pool.Runs (turn plainCrypto) (fun _ _ _ ↦ True) (start sampleAccess)
      (verifying 0 "password-0" ++ (0, .create ['a']) :: changing 1 "password-0" "password-1") p ∧
    call ∈ (p.thread 1).outgoing ∧ call.purpose = .change none "password-0".toList ∧
    Pool.step (turn plainCrypto) p (1, .persist) = some q ∧
    q.shared.access.passwordHash = some "password-1".toList ∧
    Pool.Runs (turn plainCrypto) (fun _ _ _ ↦ True) q [(1, .timeout)] r ∧
    (r.thread 1).returned = true ∧
    ∃ x ∈ r.shared.sessions.sessions, some x.1 ≠ none ∧ x.2 ≤ p.shared.history.length := by
  obtain ⟨p, hp, ⟨call, hi, hc⟩, q, hq, hstored, r, hr, hreturned, x, hx, hold⟩ : ∃ p,
      Pool.Runs (turn plainCrypto) (fun _ _ _ ↦ True) (start sampleAccess)
        (verifying 0 "password-0" ++ (0, .create ['a']) :: changing 1 "password-0" "password-1") p ∧
      (∃ call ∈ (p.thread 1).outgoing, call.purpose = .change none "password-0".toList) ∧
      ∃ q ∈ Pool.step (turn plainCrypto) p (1, .persist),
        q.shared.access.passwordHash = some "password-1".toList ∧ ∃ r,
          Pool.Runs (turn plainCrypto) (fun _ _ _ ↦ True) q [(1, .timeout)] r ∧
          (r.thread 1).returned = true ∧
          ∃ x ∈ r.shared.sessions.sessions, x.2 ≤ p.shared.history.length := by
    decide
  exact ⟨p, q, r, call, hp, hi, hc, hq, hstored, hr, hreturned, x, hx, nofun, hold⟩

/-- No password was written since the reading, unless the stored hash differs. -/
structure Held (s : Console) (read : Snapshot) : Prop where
  seen : read.seen ≤ s.history.length
  hash : Event.rehashed ∉ since s.history read.seen →
    s.access.passwordHash = read.access.passwordHash

def Proven (crypto : Crypto) (current : Text) (read : Snapshot) : Prop :=
  ∃ hash, read.access.passwordHash = some hash ∧ crypto.verifyPassword hash current = true

def Request.Proven (crypto : Crypto) (s : Console) : Request → Prop
  | .changeRead _ _ _ hash read => read.access.passwordHash = some hash ∧ Held s read
  | .changeVerified _ current _ read => Console.Proven crypto current read ∧ Held s read
  | .writing call => ∀ acting current, call.purpose = .change acting current →
      Console.Proven crypto current call.read ∧ Held s call.read
  | .late call => ∀ acting current, call.purpose = .change acting current →
      Console.Proven crypto current call.read ∧ Held s call.read
  | _ => True

inductive KeepsHash (s t : Console) : Prop
  | same : t.history = s.history → t.access = s.access → KeepsHash s t
  | wrote (e : Event) : t.history = e :: s.history →
      (e ≠ .rehashed → t.access.passwordHash = s.access.passwordHash) → KeepsHash s t

theorem Held.mono {read : Snapshot} (h : Held s read) (hk : KeepsHash s t) : Held t read := by
  cases hk with
  | same hh ha => exact ⟨hh ▸ h.seen, by rw [hh, ha]; exact h.hash⟩
  | wrote e hh ha =>
    refine ⟨by rw [hh]; exact Nat.le_succ_of_le h.seen, fun hnot ↦ ?_⟩
    rw [hh, since_cons e h.seen, List.mem_cons, not_or] at hnot
    rw [ha (Ne.symm hnot.1), h.hash hnot.2]

theorem Request.Proven.mono (h : r.Proven crypto s) (hk : KeepsHash s t) : r.Proven crypto t := by
  cases r with
  | changeRead | changeVerified => exact ⟨h.1, h.2.mono hk⟩
  | writing | late =>
    exact fun acting current hc ↦ ⟨(h acting current hc).1, (h acting current hc).2.mono hk⟩
  | _ => trivial

theorem Request.Proven.of_outgoing {call : Call} (h : r.Proven crypto s) (hr : call ∈ r.outgoing) :
    ∀ acting current, call.purpose = .change acting current →
      Console.Proven crypto current call.read ∧ Held s call.read := by
  cases r <;> cases hr <;> exact h

theorem held_snapshot (s : Console) : Held s s.snapshot := ⟨Nat.le_refl _, fun _ ↦ rfl⟩

theorem Computed.proven (h : Computed crypto s r q) (hr : r.Proven crypto s) :
    q.Proven crypto s := by
  cases h with
  | changeRead hhash => exact ⟨hhash, held_snapshot s⟩
  | changeVerified hverify => exact ⟨⟨_, hr.1, hverify⟩, hr.2⟩
  | change =>
    intro acting current hc
    obtain ⟨-, rfl⟩ := Purpose.change.inj hc
    exact hr
  | mint | revoke => exact fun acting current hc ↦ nomatch hc
  | late => exact hr
  | _ => trivial

theorem keepsHash_store {call : Call} (hf : Call.Formed crypto call) :
    KeepsHash s (s.store call) := by
  refine .wrote call.event rfl fun hne ↦ ?_
  cases hf with
  | change => exact absurd rfl hne
  | mint | revoke => rfl

theorem turn_proven (hf : r.Formed crypto) (hr : r.Proven crypto s)
    (h : turn crypto s r a = some (t, q)) : q.Proven crypto t ∧ KeepsHash s t := by
  cases turned_of_turn h with
  | compute hq => exact ⟨(computed_of_compute hq).proven hr, .same rfl rfl⟩
  | persist | persistLate => exact ⟨trivial, keepsHash_store hf⟩
  | _ => exact ⟨trivial, .same rfl rfl⟩

/-- A new password is written only if none was since the request read the stored one. -/
def Undisturbed (s : Console) (r : Request) (a : Act) : Prop :=
  a.isPersist = true → ∀ call ∈ r.outgoing, call.event = .rehashed →
    .rehashed ∉ since s.history call.read.seen

instance (s : Console) (r : Request) (a : Act) : Decidable (Undisturbed s r a) :=
  inferInstanceAs (Decidable (_ → ∀ call ∈ r.outgoing, _ → _ ∉ since s.history call.read.seen))

/-- A password is replaced only on its proof, if no other change comes in between. -/
theorem proven_of_persist {access : Access} {ls : List (ℕ × Act)} {p : Pool Console Request}
    (h : Pool.Runs (turn crypto) Undisturbed (start access) ls p) {i : ℕ} {call : Call}
    {acting : Option Text} {current : Text}
    (hi : call ∈ (p.thread i).outgoing) (hc : call.purpose = .change acting current)
    (hu : Undisturbed p.shared (p.thread i) .persist) :
    ∃ hash, p.shared.access.passwordHash = some hash ∧
      crypto.verifyPassword hash current = true := by
  have hinv := (Pool.invariant (J := fun _ ↦ True) (G := KeepsHash)
    (L := fun _ s r ↦ r.Formed crypto ∧ r.Proven crypto s)
    (fun _ _ _ _ _ _ _ hr _ ht ↦
      have hp := turn_proven hr.1 hr.2 ht
      ⟨trivial, ⟨turn_formed hr.1 ht, hp.1⟩, hp.2⟩)
    (fun _ _ _ _ _ hr hk ↦ ⟨hr.1, hr.2.mono hk⟩) ⟨trivial, fun _ ↦ ⟨trivial, trivial⟩⟩ h).2 i
  obtain ⟨⟨hash, hhash, hverify⟩, hheld⟩ := hinv.2.of_outgoing hi acting current hc
  have hevent : call.event = .rehashed := by simp [Call.event, hc]
  exact ⟨hash, (hheld.hash (hu rfl call hi hevent)).trans hhash, hverify⟩

def Request.isAnswered : Request → Bool
  | .answered call _ => call.event == .rehashed
  | _ => false

def Request.proof : Request → Option Text
  | .writing call =>
    match call.purpose with
    | .change _ current => some current
    | _ => none
  | _ => none

theorem Request.exists_of_proof {current : Text} (h : r.proof = some current) :
    ∃ call acting, r = .writing call ∧ call.purpose = .change acting current := by
  unfold proof at h
  split at h
  · next call =>
    split at h
    · next acting current hp =>
      cases h
      exact ⟨call, acting, rfl, hp⟩
    · cases h
  · cases h

theorem proven_of_persist_inTurn : ∃ p,
    Pool.Runs (turn plainCrypto) Undisturbed (start sampleAccess)
      (changing 0 "password-0" "password-1" ++ completing 0 ++ changing 1 "password-1" "password-2") p ∧
    (p.thread 1).proof = some "password-1".toList ∧
    ∃ hash, p.shared.access.passwordHash = some hash ∧
      plainCrypto.verifyPassword hash "password-1".toList = true := by
  obtain ⟨p, hp, hproof, hu⟩ : ∃ p, Pool.Runs (turn plainCrypto) Undisturbed (start sampleAccess)
      (changing 0 "password-0" "password-1" ++ completing 0 ++ changing 1 "password-1" "password-2") p ∧
    (p.thread 1).proof = some "password-1".toList ∧
    Undisturbed p.shared (p.thread 1) .persist := by decide
  obtain ⟨call, acting, hi, hc⟩ := Request.exists_of_proof hproof
  exact ⟨p, hp, hproof, proven_of_persist hp (hi ▸ rfl) hc hu⟩

/-- Two changes read one hash, and the second replaces the first one's password. -/
theorem unproven_of_overlap : ∃ p q call acting,
    Pool.Runs (turn plainCrypto) (fun _ _ _ ↦ True) (start sampleAccess)
      (changing 0 "password-0" "password-1" ++ changing 1 "password-0" "password-2" ++ completing 0) p ∧
    (p.thread 0).isAnswered = true ∧
    p.thread 1 = .writing call ∧ call.purpose = .change acting "password-0".toList ∧
    p.shared.access.passwordHash = some "password-1".toList ∧
    plainCrypto.verifyPassword "password-1".toList "password-0".toList = false ∧
    Pool.step (turn plainCrypto) p (1, .persist) = some q ∧
    q.shared.access.passwordHash = some "password-2".toList := by
  obtain ⟨p, hp, hanswered, hproof, hstored, q, hstep, hq⟩ : ∃ p,
      Pool.Runs (turn plainCrypto) (fun _ _ _ ↦ True) (start sampleAccess)
        (changing 0 "password-0" "password-1" ++ changing 1 "password-0" "password-2" ++ completing 0) p ∧
      (p.thread 0).isAnswered = true ∧ (p.thread 1).proof = some "password-0".toList ∧
      p.shared.access.passwordHash = some "password-1".toList ∧
      ∃ q ∈ Pool.step (turn plainCrypto) p (1, .persist),
        q.shared.access.passwordHash = some "password-2".toList := by
    decide
  obtain ⟨call, acting, hi, hc⟩ := Request.exists_of_proof hproof
  exact ⟨p, q, call, acting, hp, hanswered, hi, hc, hstored, by decide, hstep, hq⟩

end MicaCore.Api.Console
