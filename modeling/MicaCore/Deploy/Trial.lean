import MicaCore.Deploy.OneTrial
import MicaCore.Deploy.Usable

namespace MicaCore.Deploy

open Data Crash Prog

/-- A boot of the trial is spent, it ends, or an installation starts one. -/
inductive TrialWrite (store : Store) (op : Command) (u v : Device) : Prop
  | same : v.trial = u.trial → TrialWrite store op u v
  | ended : v.trial = none → TrialWrite store op u v
  | spend {pending : Text} : Spends pending u.trial v.trial → TrialWrite store op u v
  | start {envelope : Bytes} {target : SetTarget} {objects : Sources} {set : UpdateSet} :
      op = .installSet envelope target objects → store.trust.authenticateSet envelope = .ok set →
      v.trial = some ⟨.core, store.trust.setId set, trialAttempts⟩ → TrialWrite store op u v

section

variable {store : Store} {s t u v : Device} {op : Command}

theorem InstallWrite.trial_eq {plan : Installation} {running : Text} {envelope : Bytes}
    (h : InstallWrite store plan running envelope s u v) : v.trial = u.trial := by
  cases h with
  | adds h => exact h.sameCores.trial
  | retain | save => rfl
  | drops _ _ _ h => exact h.sameCores.trial
  | name | insert | final => rfl

theorem InstallSetWrite.trials {envelope : Bytes} {target : SetTarget} {objects : Sources}
    {set : UpdateSet} {state : SetState} (hseen : SetSeen store envelope set state s)
    (h : InstallSetWrite store envelope set state s u v) :
    TrialWrite store (.installSet envelope target objects) u v := by
  cases h with
  | adds h => exact .same h.sameCores.trial
  | trial _ _ hv =>
    subst hv
    exact .start rfl hseen.authentic rfl
  | name _ _ _ _ _ hv =>
    subst hv
    exact .same rfl

theorem SettleWrite.trials {booted : Text} {boot : CoreBoot} (h : SettleWrite store booted boot s u v) :
    TrialWrite store op u v := by
  cases h with
  | adds h => exact .same h.sameCores.trial
  | sets | envelope => exact .same rfl
  | trial => exact .ended rfl
  | release _ _ _ _ _ h =>
    obtain ⟨k, id, -, -, rfl, -⟩ := h
    exact .same rfl

theorem BootWrite.trials {id : Text} {receipt : BootReceipt} (h : BootWrite store id receipt s u v) :
    TrialWrite store op u v := by
  cases h with
  | adds h => exact .same h.sameCores.trial
  | stop | count => exact .same rfl
  | spend _ _ h =>
    obtain ⟨pending, trial, i, i', -, hspends, -, -, rfl, rfl⟩ := h
    exact .spend hspends
  | run _ _ _ hv =>
    subst hv
    exact .same rfl

theorem CommandWrite.trials (h : CommandWrite store s op u v) : TrialWrite store op u v := by
  cases h with
  | install _ _ h => exact .same h.trial_eq
  | installSet hseen h => exact h.trials hseen
  | confirm _ _ h | confirmation _ _ h => exact .same h.sameCores.trial
  | settle _ h | settlement _ _ _ h => exact h.trials
  | reject _ h | rollback _ _ h => exact .same h.sameCores.trial
  | failBoot _ h | retire h => exact .same h.sameCores.trial
  | collect _ h => exact .same h.sameCores.trial
  | boot h => exact h.trials
  | reset => exact .same rfl

end

def Device.bootsLeft (d : Device) (id : Text) : ℕ :=
  d.trial.elim 0 fun trial ↦ if trial.id = id then trial.attemptsLeft else 0

def Command.triesAlone (store : Store) (id : Text) : Command → Bool
  | .installSet envelope _ _ =>
    (store.trust.authenticateSet envelope).toOption.any (store.trust.setId · == id)
  | _ => false

section

variable {store : Store} {s t u v : Device} {op : Command} {id : Text}

theorem Spends.bootsLeft_le {pending : Text} (h : Spends pending u.trial v.trial) (id : Text) :
    v.bootsLeft id ≤ u.bootsLeft id := by
  obtain ⟨n, hu, hv⟩ := h
  by_cases hid : pending = id
  · simp [Device.bootsLeft, hu, hv, hid]
  · simp [Device.bootsLeft, hu, hv, hid]

theorem Spends.bootsLeft_self (h : Spends id u.trial v.trial) :
    v.bootsLeft id + 1 = u.bootsLeft id := by
  obtain ⟨n, hu, hv⟩ := h
  simp [Device.bootsLeft, hu, hv]

theorem CommandWrite.bootsLeft_le (hop : op.triesAlone store id = false) (h : CommandWrite store s op u v) :
    v.bootsLeft id ≤ u.bootsLeft id := by
  cases h.trials with
  | same h => rw [Device.bootsLeft, h, Device.bootsLeft]
  | ended h => simp [Device.bootsLeft, h]
  | spend h => exact h.bootsLeft_le id
  | @start _ _ _ set hinstall hauth htrial =>
    subst hinstall
    have hne : store.trust.setId set ≠ id := by
      simpa [Command.triesAlone, hauth, Except.toOption] using hop
    simp [Device.bootsLeft, htrial, hne]

theorem bootsLeft_getLastD_le {us : List Device} (hop : op.triesAlone store id = false)
    (hchain : List.IsChain (CommandWrite store s op) (v :: us)) :
    (us.getLastD v).bootsLeft id ≤ v.bootsLeft id := by
  have hall : ∀ w ∈ us, w.bootsLeft id ≤ v.bootsLeft id :=
    forall_mem_of_isChain (fun w ↦ w.bootsLeft id ≤ v.bootsLeft id) le_rfl
      (fun _ _ hu huw ↦ (huw.bootsLeft_le hop).trans hu) hchain
  rcases Prog.getLastD_eq_or_mem us v with h | h
  · rw [h]
  · exact hall _ h

theorem Store.wp_boot_run (store : Store) (id : Text) (receipt : BootReceipt) (root : BootRoot)
    (write : WriteEnd) (s : Device) :
    wp (store.boot id receipt root write)
      (fun u v ↦ v.run = none ∨ ∃ state core, s.readState = .ok state ∧
        (∃ b, Composed state id core { s with run := none, boot := b } u) ∧
        v = { u with run := some ⟨{ receipt with deploymentId := id }, core⟩ })
      (fun _ _ ↦ True) s := by
  unfold Store.boot
  rw [wp_bind, stop, wp_write, andThen_ok, wp_bind]
  refine ⟨.inl rfl, wp_launch (fun _ _ _ _ _ _ _ _ _ _ _ _ _ ↦ .inl rfl) (fun _ ↦ trivial) fun b _ ↦ ?_⟩
  rw [andThen_ok]
  have hstopped : ∀ u v : Device, u.run = none → (Adds u v ∨ ∃ state,
      Device.readState { s with run := none, boot := b } = .ok state ∧
        SpendWrite state id { s with run := none, boot := b } u v) → v.run = none := by
    rintro u v hu (h | ⟨state, -, _, _, _, _, -, -, -, -, rfl, rfl⟩)
    · rw [h.sameDeployments.run, hu]
    · rfl
  refine wp_seq (wp_invariant (fun d : Device ↦ d.run = none) rfl hstopped
    (store.wp_composition write root id { s with run := none, boot := b }))
    (fun c t hcomposed ↦ ?_) fun u v huv ↦ .inl (hstopped u v huv.1 huv.2)
  obtain ⟨_, state, hstate, hc⟩ := hcomposed
  rw [wp_write]
  exact ⟨.inr ⟨state, c.coreBoot, hstate, ⟨b, hc⟩, rfl⟩, trivial⟩

end

def Device.runsAlone (id : Text) (d : Device) : Bool := d.run.any (·.core == ⟨id, true, false⟩)

def Device.runsOnTrial (id : Text) (d : Device) : Bool :=
  d.run.any fun r ↦ r.core.coreSetId == id && r.core.pending

/-- A boot in which `p` comes to hold. -/
def bootsInto (p : Device → Bool) (e : Event Command Device) : Bool :=
  e.op.isBoot && e.visited.any p

section

variable {store : Store} {e : Event Command Device} {id : Text}

theorem composed_of_boot (hvalid : e.Valid store.exec) (hboot : e.op.isBoot = true)
    {xs ys : List Device} {v : Device} {r : Running} (hvisited : e.visited = xs ++ v :: ys)
    (hrun : v.run = some r) :
    ∃ state, e.before.readState = .ok state ∧ ∃ u ∈ e.before :: xs, v.trial = u.trial ∧
      ∃ b, Composed state r.receipt.deploymentId r.core { e.before with run := none, boot := b } u := by
  cases hop : e.op with
  | boot id receipt root write =>
    have hexec : store.exec e.op = store.boot id receipt root write := by rw [hop, Store.exec]
    have hchain := hvalid.isChain (hexec ▸ store.wp_boot_run id receipt root write e.before)
    rw [hvisited, Prog.isChain_append_getLastD] at hchain
    have hmem : xs.getLastD e.before ∈ e.before :: xs :=
      List.mem_cons.2 (Prog.getLastD_eq_or_mem xs e.before)
    rcases (List.isChain_cons_cons.1 hchain.2).1 with hnone | ⟨state, core, hstate, hc, hv⟩
    · rw [hrun] at hnone
      cases hnone
    · obtain rfl : _ = r := by simpa [hv] using hrun
      exact ⟨state, hstate, _, hmem, by rw [hv], hc⟩
  | _ =>
    rw [hop] at hboot
    cases hboot

theorem Composes.alone_of_core {state : SetState} {deployment : Text} {alone : Bool}
    (h : Composes state deployment alone ⟨id, true, false⟩) : alone = true := by
  cases h with
  | alone => rfl

theorem spends_of_runsAlone (hvalid : e.Valid store.exec) (hboot : e.op.isBoot = true)
    {xs ys : List Device} {v : Device} (hvisited : e.visited = xs ++ v :: ys)
    (hv : v.runsAlone id = true) :
    ∃ u ∈ xs, Spends id e.before.trial u.trial ∧ v.trial = u.trial := by
  obtain ⟨⟨receipt, core⟩, hrun, hcore⟩ := (Option.any_eq_true _ _).1 hv
  obtain rfl : core = ⟨id, true, false⟩ := by simpa using hcore
  obtain ⟨state, -, u, hu, htrial, b, hc⟩ := composed_of_boot hvalid hboot hvisited hrun
  obtain ⟨alone, hcomposes, hspends⟩ := hc.composes
  have hspent : Spends id e.before.trial u.trial := hspends hcomposes.alone_of_core
  rcases List.mem_cons.1 hu with rfl | hu
  · obtain ⟨n, hn, hn'⟩ := hspent
    rw [hn] at hn'
    simp at hn'
  · exact ⟨u, hu, hspent, htrial⟩

theorem bootsLeft_event (hvalid : e.Valid store.exec) (hop : e.op.triesAlone store id = false) :
    e.after.bootsLeft id + (if bootsInto (Device.runsAlone id) e then 1 else 0) ≤
      e.before.bootsLeft id := by
  have hchain := hvalid.isChain (store.wp_exec e.op e.before)
  split
  · next hinto =>
    rw [bootsInto, Bool.and_eq_true, List.any_eq_true] at hinto
    obtain ⟨hboot, v, hv, hruns⟩ := hinto
    obtain ⟨xs, ys, hvisited⟩ := List.append_of_mem hv
    obtain ⟨u, -, hspends, htrial⟩ := spends_of_runsAlone hvalid hboot hvisited hruns
    rw [← htrial] at hspends
    have hspent := hspends.bootsLeft_self
    rw [hvisited, Prog.isChain_append_getLastD] at hchain
    have hrest := bootsLeft_getLastD_le hop hchain.2.tail
    have hafter : e.after = ys.getLastD v := by
      rw [Event.after, hvisited, Prog.getLastD_append]
      cases ys <;> rfl
    rw [hafter]
    omega
  · exact bootsLeft_getLastD_le hop hchain

theorem bootsLeft_of_run {s t : Device} {es : List (Event Command Device)}
    (hrun : Run store.exec (fun _ op ↦ op.triesAlone store id = false) s es t) :
    t.bootsLeft id + (es.filter (bootsInto (Device.runsAlone id))).length ≤ s.bootsLeft id := by
  induction hrun with
  | nil s => simp
  | @cons e es t hvalid hop _ ih =>
    have hevent := bootsLeft_event hvalid hop
    rw [List.filter_cons]
    split at hevent
    · next hinto =>
      rw [if_pos hinto, List.length_cons]
      omega
    · next hinto =>
      rw [if_neg hinto]
      omega

end

/-- The event installed the set alone: it came as far as naming it. -/
structure InstallsAlone (store : Store) (id : Text) (e : Event Command Device) : Prop where
  op : e.op.triesAlone store id = true
  before : e.before.names.pending ≠ some id
  after : e.after.names.pending = some id

/-- If the set is pending, then without a deployment. -/
def PendsAlone (id : Text) (d : Device) : Prop := d.names.pending = some id → d.names.pair = none

section

variable {store : Store} {e : Event Command Device} {id : Text} {s u v : Device} {op : Command}

theorem InstallSetWrite.tried {envelope : Bytes} {set : UpdateSet} {state : SetState}
    (h : InstallSetWrite store envelope set state s u v)
    (hu : u.names.pending = some (store.trust.setId set) →
      u.names.pair = none ∧ u.trial = some ⟨.core, store.trust.setId set, trialAttempts⟩) :
    v.names.pending = some (store.trust.setId set) →
      v.names.pair = none ∧ v.trial = some ⟨.core, store.trust.setId set, trialAttempts⟩ := by
  cases h with
  | adds h =>
    rw [h.sameCores.trial, Device.names, h.sameCores.sets]
    exact hu
  | trial _ _ hv =>
    subst hv
    exact fun hp ↦ ⟨(hu hp).1, rfl⟩
  | name hu' _ _ _ _ hv =>
    obtain ⟨i, rfl⟩ := hu'
    subst hv
    exact fun _ ↦ ⟨rfl, rfl⟩

theorem InstallsAlone.tried (h : InstallsAlone store id e) (hvalid : e.Valid store.exec) :
    PendsAlone id e.after ∧ e.after.bootsLeft id = trialAttempts := by
  have hchain := hvalid.isChain (store.wp_exec e.op e.before)
  have hstep : ∀ u v, (u.names.pending = some id →
      u.names.pair = none ∧ u.trial = some ⟨.core, id, trialAttempts⟩) →
      CommandWrite store e.before e.op u v → v.names.pending = some id →
      v.names.pair = none ∧ v.trial = some ⟨.core, id, trialAttempts⟩ := by
    intro u v hu huv
    have hop := h.op
    generalize e.op = op at huv hop
    cases huv with
    | @installSet _ _ _ set _ _ _ hseen hw =>
      obtain rfl : store.trust.setId set = id := by
        simpa [Command.triesAlone, hseen.authentic, Except.toOption] using hop
      exact hw.tried hu
    | _ => cases hop
  have hall := forall_mem_of_isChain _ (fun hp ↦ absurd hp h.before) hstep hchain
  have htried : e.after.names.pair = none ∧ e.after.trial = some ⟨.core, id, trialAttempts⟩ := by
    rcases e.after_eq_or_mem with heq | hmem
    · exact absurd (heq ▸ h.after) h.before
    · exact hall _ hmem h.after
  exact ⟨fun _ ↦ htried.1, by simp [Device.bootsLeft, htried.2]⟩

theorem NameWrite.pendsAlone (hop : op.isInstall = false) (h : NameWrite store s op u v)
    (hu : PendsAlone id u) : PendsAlone id v := by
  have hsame : v.sets = u.sets → PendsAlone id v := by
    intro h
    rwa [PendsAlone, Device.names, h]
  cases h with
  | same h _ | stop h _ => exact hsame h
  | boot _ _ _ hv => exact hsame (by rw [hv])
  | install hinstall =>
    rw [hop] at hinstall
    cases hinstall
  | installSet _ _ _ _ _ _ hv =>
    subst hv
    exact fun _ ↦ rfl
  | settle _ _ hheld hsettle _ _ _ hsets hv =>
    subst hv
    obtain ⟨held', retained, hheld', -, -, rfl⟩ := Device.settlement_eq_ok hsettle
    obtain rfl := Except.ok.inj (hheld.symm.trans hheld')
    have hnames := Device.names_of_readState hheld hsets
    intro hp
    change (SetState.settle _ retained _ _).pending = some id at hp
    change (SetState.settle _ retained _ _).pair = none
    rw [SetState.pair_settle, hp]
    rw [SetState.pending_settle] at hp
    split at hp
    · rw [PendsAlone, hnames] at hu
      simpa using hu hp
    · cases hp

theorem pendsAlone_of_event (hvalid : e.Valid store.exec)
    (hpairs : e.op.isInstall = true → ∀ v ∈ e.visited, PendsAlone id v)
    (hbefore : PendsAlone id e.before) : PendsAlone id e.after := by
  rcases e.after_eq_or_mem with heq | hmem
  · rwa [heq]
  · cases hop : e.op.isInstall with
    | true => exact hpairs hop _ hmem
    | false =>
      have hchain := hvalid.isChain (store.wp_exec e.op e.before)
      exact forall_mem_of_isChain (PendsAlone id) hbefore
        (fun _ _ hu huv ↦ huv.names.pendsAlone hop hu) hchain _ hmem

theorem runsAlone_of_runsOnTrial (hvalid : e.Valid store.exec) (hbefore : PendsAlone id e.before)
    (h : bootsInto (Device.runsOnTrial id) e = true) :
    bootsInto (Device.runsAlone id) e = true := by
  rw [bootsInto, Bool.and_eq_true, List.any_eq_true] at h ⊢
  obtain ⟨hboot, v, hv, hruns⟩ := h
  refine ⟨hboot, v, hv, ?_⟩
  obtain ⟨⟨receipt, core⟩, hrun, hcore⟩ := (Option.any_eq_true _ _).1 hruns
  obtain ⟨xs, ys, hvisited⟩ := List.append_of_mem hv
  obtain ⟨state, hstate, u, -, -, b, hc⟩ := composed_of_boot hvalid hboot hvisited hrun
  obtain ⟨alone, hcomposes, -⟩ := hc.composes
  have hnames := Device.names_of_readState hstate rfl
  rw [Device.runsAlone, hrun]
  cases hcomposes with
  | paired hpending hpaired =>
    obtain rfl : _ = id := by simpa using hcore
    rw [PendsAlone, hnames] at hbefore
    simp [SetState.paired, hpending, hbefore hpending] at hpaired
  | alone hpending _ _ => simpa using hcore
  | bound | current => simp at hcore

theorem runsOnTrial_le_of_run {t : Device} {es : List (Event Command Device)}
    (hpairs : ∀ e ∈ es, e.op.isInstall = true → ∀ v ∈ e.visited, PendsAlone id v)
    (hs : PendsAlone id s) {A : Device → Command → Prop} (hrun : Run store.exec A s es t) :
    (es.filter (bootsInto (Device.runsOnTrial id))).length ≤
      (es.filter (bootsInto (Device.runsAlone id))).length := by
  induction hrun with
  | nil => simp
  | @cons e es t hvalid _ _ ih =>
    have hafter := pendsAlone_of_event hvalid (hpairs e (by simp)) hs
    have hrest := ih (fun e' he' ↦ hpairs e' (by simp [he'])) hafter
    rw [List.filter_cons, List.filter_cons]
    cases honTrial : bootsInto (Device.runsOnTrial id) e with
    | true =>
      have halone := runsAlone_of_runsOnTrial hvalid hs honTrial
      simpa [halone] using hrest
    | false =>
      split
      · next h => cases h
      · split
        · exact hrest.trans (Nat.le_succ _)
        · exact hrest

end

/-- A set installed alone runs on no more boots than its trial gives, each spent first, unless paired. -/
theorem trial_of_run (store : Store) {s t : Device} {e : Event Command Device}
    {es : List (Event Command Device)} {id : Text}
    (hrun : Run store.exec (fun _ _ ↦ True) s (e :: es) t) (hinstall : InstallsAlone store id e)
    (hagain : ∀ e' ∈ es, e'.op.triesAlone store id = false) :
    (es.filter (bootsInto (Device.runsAlone id))).length ≤ trialAttempts ∧
      (∀ e' ∈ es, e'.op.isBoot = true → ∀ xs v ys, e'.visited = xs ++ v :: ys →
        v.runsAlone id = true → ∃ u ∈ xs, Spends id e'.before.trial u.trial ∧ v.trial = u.trial) ∧
      ((∀ e' ∈ es, e'.op.isInstall = true → ∀ v ∈ e'.visited, PendsAlone id v) →
        (es.filter (bootsInto (Device.runsOnTrial id))).length ≤ trialAttempts) := by
  cases hrun with
  | cons hvalid _ hrun =>
    obtain ⟨hpends, hleft⟩ := hinstall.tried hvalid
    have halone : (es.filter (bootsInto (Device.runsAlone id))).length ≤ trialAttempts := by
      have hcount := bootsLeft_of_run (hrun.strengthen (B := fun _ op ↦ op.triesAlone store id = false)
        hagain)
      omega
    refine ⟨halone, fun e' he' hboot xs v ys hvisited hv ↦ ?_, fun hpairs ↦ ?_⟩
    · exact spends_of_runsAlone (hrun.before_mem he').1 hboot hvisited hv
    · exact (runsOnTrial_le_of_run hpairs hpends hrun).trans halone

def Sample.triedAndPaired : List (Command × Option ℕ) :=
  [(boot 1, none), (boot 1, none), (boot 1, none), (boot 1, none), (.confirmation, none),
    (installWith 2 2, none), (boot 2, none)]

def Sample.setInstallation : Event Command Device :=
  .whole store.exec device (installSet 2)

theorem Sample.installsAlone_setInstallation : InstallsAlone store (hexId 2) setInstallation :=
  ⟨by decide, by decide, by decide +kernel⟩

theorem trial_of_run_triedAndPaired :
    InstallsAlone Sample.store (Sample.hexId 2) Sample.setInstallation ∧
      ((Run.play Sample.store.exec Sample.setInstallation.after Sample.triedAndPaired).filter
        (bootsInto (Device.runsAlone (Sample.hexId 2)))).length ≤ trialAttempts :=
  have hrun := Run.of_play Sample.store.exec (fun _ _ ↦ True) Sample.device
    ((Sample.installSet 2, none) :: Sample.triedAndPaired) fun _ _ ↦ trivial
  ⟨Sample.installsAlone_setInstallation,
    (trial_of_run Sample.store hrun Sample.installsAlone_setInstallation (by decide)).1⟩

/-- A set given up is on trial again when a later installation pairs it. -/
theorem not_forall_trial :
    ¬ ∀ (store : Store) (s t : Device) (e : Event Command Device) (es : List (Event Command Device))
      (id : Text), Run store.exec (fun _ _ ↦ True) s (e :: es) t → InstallsAlone store id e →
        (∀ e' ∈ es, e'.op.triesAlone store id = false) →
        (es.filter (bootsInto (Device.runsOnTrial id))).length ≤ trialAttempts := by
  intro h
  have hrun := Run.of_play Sample.store.exec (fun _ _ ↦ True) Sample.device
    ((Sample.installSet 2, none) :: Sample.triedAndPaired) fun _ _ ↦ trivial
  have hcount := h _ _ _ Sample.setInstallation _ (Sample.hexId 2) hrun
    Sample.installsAlone_setInstallation (by decide)
  revert hcount
  decide +kernel

end MicaCore.Deploy
