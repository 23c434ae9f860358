import MicaCore.Deploy.SetSpec
import MicaCore.Deploy.System

namespace MicaCore.Deploy

open Data Crash Prog

/-- The loader had a boot of `id` to give, and spent one of a counted entry. -/
inductive Launched (id : Text) (b : BootRecords) : BootRecords → Prop
  | confirmed {entries : List Record} {entry : Record} : b.entries = .ok entries → entry ∈ entries →
      entry.id = id → entry.triesLeft = none → Launched id b b
  | counted {entries : List Record} {entry : Record} {n n' : Fin 4} {b' : BootRecords} :
      b.entries = .ok entries → entry ∈ entries → entry.id = id → entry.triesLeft = some n →
      n.val = n'.val + 1 → Tried id (some n') b b' → Launched id b b'

/-- What ran is gone, the loader counts, the set's boot is spent, and the system runs. -/
inductive BootWrite (store : Store) (id : Text) (receipt : BootReceipt) (s : Device) :
    Device → Device → Prop
  | adds {u v : Device} : Adds u v → BootWrite store id receipt s u v
  | stop : BootWrite store id receipt s s { s with run := none }
  | count {entries : List Record} {entry : Record} {n n' : Fin 4} {b b' : BootRecords} :
      s.boot.entries = .ok entries → entry ∈ entries → entry.id = id → entry.triesLeft = some n →
      n.val = n'.val + 1 → Kept s.boot b → Kept s.boot b' ∨ Tried id (some n') s.boot b' →
      BootWrite store id receipt s { s with run := none, boot := b } { s with run := none, boot := b' }
  | spend {state : SetState} {b : BootRecords} {u v : Device} : Launched id s.boot b →
      s.readState = .ok state → SpendWrite state id { s with run := none, boot := b } u v →
      BootWrite store id receipt s u v
  | run {state : SetState} {b : BootRecords} {core : CoreBoot} {u v : Device} : Launched id s.boot b →
      s.readState = .ok state → Composed state id core { s with run := none, boot := b } u →
      v = { u with run := some ⟨{ receipt with deploymentId := id }, core⟩ } →
      BootWrite store id receipt s u v

variable {G : Device → Device → Prop}

theorem wp_launch {id : Text} {R : Except String Unit → Device → Prop} {s : Device}
    (hG : ∀ entries entry (n n' : Fin 4) b b', s.boot.entries = .ok entries → entry ∈ entries →
      entry.id = id → entry.triesLeft = some n → n.val = n'.val + 1 → Kept s.boot b →
      Kept s.boot b' ∨ Tried id (some n') s.boot b' → G { s with boot := b } { s with boot := b' })
    (herr : ∀ e, R (.error e) s)
    (hok : ∀ b, Launched id s.boot b → R (.ok ()) { s with boot := b }) :
    wp (launch id) G R s := by
  unfold launch
  refine wp_read_seq (fun entries hentries ↦ ?_) herr
  refine wp_ofExcept_seq (fun entry hfind ↦ ?_) herr
  obtain ⟨hmem, rfl⟩ := mem_of_find_id (orError_eq_ok.1 hfind)
  have hwrite : ∀ n n' : Fin 4, entry.triesLeft = some n → n.val = n'.val + 1 →
      wp (writeTries entry (some n')) G R s := fun n n' htries hn ↦
    wp_writeTries hentries hmem
      (fun b b' hb hb' ↦ hG entries entry n n' b b' hentries hmem rfl htries hn hb hb') herr
      fun b hb ↦ hok b (.counted hentries hmem rfl htries hn hb)
  split
  · next htries => simpa using hok s.boot (.confirmed hentries hmem rfl htries)
  · exact (wp_fail _).2 (herr _)
  · next htries => exact hwrite 1 0 htries rfl
  · next htries => exact hwrite 2 1 htries rfl
  · next htries => exact hwrite 3 2 htries rfl

theorem Store.wp_boot (store : Store) (id : Text) (receipt : BootReceipt) (root : BootRoot)
    (write : WriteEnd) (s : Device) :
    wp (store.boot id receipt root write) (BootWrite store id receipt s) (fun _ _ ↦ True) s := by
  unfold Store.boot
  rw [wp_bind, stop, wp_write, andThen_ok, wp_bind]
  refine ⟨.stop, wp_launch (fun entries entry n n' b b' hes he hid ht hn hb hb' ↦
    .count hes he hid ht hn hb hb') (fun _ ↦ trivial) fun b hb ↦ ?_⟩
  rw [andThen_ok]
  refine wp_seq (store.wp_composition write root id _) (fun c t ⟨state, hstate, hc⟩ ↦ ?_)
    fun u v huv ↦ ?_
  · rw [wp_write]
    exact ⟨.run hb hstate hc rfl, trivial⟩
  · rcases huv with huv | ⟨state, hstate, huv⟩
    · exact .adds huv
    · exact .spend hb hstate huv

/-- The durable writes of a command: those of the operation it runs. -/
inductive CommandWrite (store : Store) (s : Device) : Command → Device → Device → Prop
  | install {envelope : Bytes} {target : Target} {objects : Sources} {latest : Option Bytes}
      {r : Running} {plan : Installation} {u v : Device} : s.run = some r →
      plan.Seen store envelope r.receipt s →
      InstallWrite store plan r.receipt.deploymentId envelope s u v →
      CommandWrite store s (.install envelope target objects latest) u v
  | installSet {envelope : Bytes} {target : SetTarget} {objects : Sources} {set : UpdateSet}
      {state : SetState} {u v : Device} : SetSeen store envelope set state s →
      InstallSetWrite store envelope set state s u v →
      CommandWrite store s (.installSet envelope target objects) u v
  | confirm {r : Running} {plan : Store.Confirmation} {u v : Device} : s.run = some r →
      store.planConfirm r.receipt s = .ok plan → ConfirmWrite plan s u v →
      CommandWrite store s .confirm u v
  | settle {r : Running} {u v : Device} : s.run = some r →
      SettleWrite store r.receipt.deploymentId r.core s u v → CommandWrite store s .settle u v
  | confirmation {r : Running} {plan : Store.Confirmation} {u v : Device} : s.run = some r →
      store.planConfirm r.receipt s = .ok plan → ConfirmWrite plan s u v →
      CommandWrite store s .confirmation u v
  | settlement {r : Running} {plan : Store.Confirmation} {t u v : Device} : s.run = some r →
      store.planConfirm r.receipt s = .ok plan → Confirmed plan s t →
      SettleWrite store r.receipt.deploymentId r.core t u v →
      CommandWrite store s .confirmation u v
  | reject {id : Text} {plan : Rejection} {u v : Device} : planReject id s = .ok plan →
      RejectWrite plan s u v → CommandWrite store s (.reject id) u v
  | rollback {r : Running} {plan : Rejection} {u v : Device} : s.run = some r →
      planReject r.receipt.deploymentId s = .ok plan → RejectWrite plan s u v →
      CommandWrite store s .rollback u v
  | failBoot {r : Running} {u v : Device} : s.run = some r →
      RetireWrite r.receipt.deploymentId s u v → CommandWrite store s .failBoot u v
  | retire {id : Text} {u v : Device} : RetireWrite id s u v → CommandWrite store s (.retire id) u v
  | collect {r : Running} {u v : Device} : s.run = some r → CollectWrite store r.receipt s u v →
      CommandWrite store s .collect u v
  | boot {id : Text} {receipt : BootReceipt} {root : BootRoot} {write : WriteEnd} {u v : Device} :
      BootWrite store id receipt s u v → CommandWrite store s (.boot id receipt root write) u v
  | reset : CommandWrite store s .reset s { s with run := none }

inductive CommandDone (store : Store) (s : Device) : Command → Device → Prop
  | settle {r : Running} {t : Device} : s.run = some r →
      SettleDone store r.receipt.deploymentId r.core s t → CommandDone store s .settle t
  | confirmation {r : Running} {plan : Store.Confirmation} {t t' : Device} : s.run = some r →
      store.planConfirm r.receipt s = .ok plan → Confirmed plan s t →
      SettleDone store r.receipt.deploymentId r.core t t' → CommandDone store s .confirmation t'
  | other {op : Command} {t : Device} : op ≠ .settle → op ≠ .confirmation → CommandDone store s op t

theorem wp_running {β : Type} {f : Running → Op β}
    {R : Except String β → Device → Prop} {s : Device} (herr : ∀ e, R (.error e) s)
    (hok : ∀ r, s.run = some r → wp (f r) G R s) : wp (running >>= f) G R s := by
  rw [wp_bind, running, wp_read]
  cases hrun : s.run with
  | none => exact herr _
  | some r => exact hok r hrun

theorem Store.wp_settle (store : Store) {r : Running} {t : Device} (hrun : t.run = some r)
    {R : Except String Unit → Device → Prop}
    (hG : ∀ u v, SettleWrite store r.receipt.deploymentId r.core t u v → G u v)
    (herr : ∀ e t, R (.error e) t)
    (hok : ∀ t', SettleDone store r.receipt.deploymentId r.core t t' → R (.ok ()) t') :
    wp store.settle G R t := by
  unfold Store.settle
  refine wp_running (fun e ↦ herr e t) fun r' hr' ↦ ?_
  obtain rfl : r = r' := by simpa [hrun] using hr'
  exact wp_seq (store.wp_settleSets _ _ t) (fun _ t' h ↦ (wp_pure _).2 (hok t' h)) hG
    fun e t _ ↦ herr e t

theorem Store.wp_confirmation (store : Store) (s : Device) :
    wp store.confirmation (CommandWrite store s .confirmation)
      (onOk fun _ t ↦ CommandDone store s .confirmation t) s := by
  unfold Store.confirmation
  refine wp_running (fun _ ↦ trivial) fun r hrun ↦ ?_
  refine wp_read_seq fun _ _ ↦ ?_
  refine wp_seq (store.wp_confirm r.receipt s) (fun _ t ⟨plan, hplan, hdone⟩ ↦ ?_)
    fun u v ⟨plan, hplan, huv⟩ ↦ .confirmation hrun hplan huv
  refine wp_read_seq fun _ _ ↦ ?_
  rw [wp_bind, wp_ensure]
  refine ⟨fun _ ↦ ?_, fun _ ↦ trivial⟩
  have hrun' : t.run = some r := by
    obtain ⟨b₀, b, i, -, -, -, -, rfl⟩ := hdone
    exact hrun
  exact store.wp_settle hrun' (fun u v h ↦ .settlement hrun hplan hdone h)
    (fun _ _ ↦ trivial) fun t' h ↦ .confirmation hrun hplan hdone h

theorem Store.wp_exec (store : Store) (op : Command) (s : Device) :
    wp (store.exec op) (CommandWrite store s op) (onOk fun _ t ↦ CommandDone store s op t) s := by
  have hother : ∀ {op : Command} {r : Except String Unit} {t : Device}, op ≠ .settle →
      op ≠ .confirmation → onOk (fun _ t ↦ CommandDone store s op t) r t := by
    intro op r t h h'
    cases r with
    | error e => trivial
    | ok x => exact .other h h'
  have hany : ∀ {op : Command} {α : Type} {p : Op α} {G : Device → Device → Prop}
      {R : Except String α → Device → Prop}, op ≠ .settle → op ≠ .confirmation → wp p G R s →
      (∀ u v, G u v → CommandWrite store s op u v) →
      wp (do let _ ← p; pure ()) (CommandWrite store s op)
        (onOk fun _ t ↦ CommandDone store s op t) s := by
    intro op α p G R h h' hp hG
    exact wp_seq hp (fun _ _ _ ↦ (wp_pure _).2 (hother h h')) hG
  cases op with
  | install envelope target objects latest =>
    refine wp_running (fun _ ↦ trivial) fun r hrun ↦ ?_
    refine hany (by simp) (by simp) (store.wp_install envelope target objects r.receipt latest s) ?_
    rintro u v ⟨plan, hseen, h⟩
    exact .install hrun hseen h
  | installSet envelope target objects =>
    refine hany (by simp) (by simp) (store.wp_installSet envelope target objects s) ?_
    rintro u v ⟨set, state, hseen, h⟩
    exact .installSet hseen h
  | confirm =>
    refine wp_running (fun _ ↦ trivial) fun r hrun ↦ ?_
    refine hany (by simp) (by simp) (store.wp_confirm r.receipt s) ?_
    rintro u v ⟨plan, hplan, h⟩
    exact .confirm hrun hplan h
  | settle =>
    cases hrun : s.run with
    | none => simp [Store.exec, Store.settle, running, hrun, orError, onOk]
    | some r =>
      exact store.wp_settle hrun (fun u v h ↦ .settle hrun h) (fun _ _ ↦ trivial)
        fun t' h ↦ .settle hrun h
  | confirmation => exact store.wp_confirmation s
  | reject id =>
    refine hany (by simp) (by simp) (wp_reject id s) ?_
    rintro u v ⟨plan, hplan, h⟩
    exact .reject hplan h
  | rollback =>
    refine wp_running (fun _ ↦ trivial) fun r hrun ↦ ?_
    refine hany (by simp) (by simp) (store.wp_rollback r.receipt s) ?_
    rintro u v ⟨plan, hplan, h⟩
    exact .rollback hrun hplan h
  | failBoot =>
    refine wp_running (fun _ ↦ trivial) fun r hrun ↦ ?_
    split
    · exact (wp_pure _).2 (hother (by simp) (by simp))
    · exact hany (by simp) (by simp) (store.wp_failBoot r.receipt s) fun u v h ↦ .failBoot hrun h
  | retire id =>
    exact hany (by simp) (by simp) (wp_retireFailedConfirmed id s) fun u v h ↦ .retire h
  | collect =>
    refine wp_running (fun _ ↦ trivial) fun r hrun ↦ ?_
    exact hany (by simp) (by simp) (store.wp_collect r.receipt s) fun u v h ↦ .collect hrun h
  | boot id receipt root write =>
    exact wp_mono (store.wp_boot id receipt root write s) (fun u v h ↦ .boot h)
      fun r t _ ↦ hother (by simp) (by simp)
  | reset => exact (wp_write _).2 ⟨.reset, hother (by simp) (by simp)⟩

namespace Store

variable {store : Store} {A : Device → Command → Prop} {I : Device → Prop} {s t : Device}
  {es : List (Event Command Device)}
  (hstep : ∀ {s op u v}, I s → A s op → CommandWrite store s op u v → I u → I v)

include hstep

theorem run_invariant (hs : I s) (h : Run store.exec A s es t) : ∀ u ∈ s :: states es, I u :=
  h.invariant (G := fun u v ↦ I u → I v) (fun _ _ hu huv ↦ huv hu)
    (fun s op hs ha ↦ ⟨_, wp_mono (store.wp_exec op s) (fun _ _ huv ↦ hstep hs ha huv)
      fun _ _ h ↦ h⟩) hs

theorem run_isChain {G : Device → Device → Prop}
    (hG : ∀ {s op u v}, I s → A s op → CommandWrite store s op u v → I u → G u v) (hs : I s)
    (h : Run store.exec A s es t) : List.IsChain G (s :: states es) := by
  have hchain := h.isChain (G := fun u v ↦ I u → I v ∧ G u v) (fun _ _ hu huv ↦ (huv hu).1)
    (fun s op hs ha ↦ ⟨_, wp_mono (store.wp_exec op s)
      (fun _ _ huv hu ↦ ⟨hstep hs ha huv hu, hG hs ha huv hu⟩) fun _ _ h ↦ h⟩) hs
  refine (Prog.isChain_and_of_forall I hs (fun _ _ hu huv ↦ (huv hu).1) hchain).imp ?_
  exact fun u v huv ↦ (huv.2 huv.1).2

end Store

end MicaCore.Deploy
