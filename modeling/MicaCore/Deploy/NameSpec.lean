import MicaCore.Deploy.EntrySpec

namespace MicaCore.Deploy

open Data Crash Prog

/-- A settlement starts where the command did, or where its confirmation ended. -/
inductive Settles (store : Store) (s : Device) (r : Running) : Command → Device → Prop
  | settle : Settles store s r .settle s
  | confirmation {plan : Store.Confirmation} {t : Device} :
      store.planConfirm r.receipt s = .ok plan →
      Confirmed plan s t → Settles store s r .confirmation t

/-- What a command's write makes of the set state and of what runs. -/
inductive NameWrite (store : Store) (s : Device) (op : Command) (u v : Device) : Prop
  | same : v.sets = u.sets → v.run = u.run → NameWrite store s op u v
  | stop : v.sets = u.sets → v.run = none → NameWrite store s op u v
  | boot {state : SetState} {receipt : BootReceipt} {core : CoreBoot} : s.readState = .ok state →
      Launched receipt.deploymentId s.boot u.boot →
      Composed state receipt.deploymentId core { s with run := none, boot := u.boot } u →
      v = { u with run := some ⟨receipt, core⟩ } → NameWrite store s op u v
  | install {envelope : Bytes} {r : Running} {plan : Installation} {held cores : SetState}
      {i : AList fun _ : Item ↦ Bytes} : op.isInstall = true → s.run = some r →
      plan.Seen store envelope r.receipt s → Retained [some r.receipt.deploymentId] s.boot u.boot →
      s.readState = .ok held → u.sets = s.sets → u.run = s.run →
      Named store plan r.receipt.deploymentId held cores u →
      cores.bound.size ≤ 2 → v = { u with sets := some cores, items := i } →
      NameWrite store s op u v
  | installSet {envelope : Bytes} {set : UpdateSet} {state : SetState} {retained : List Text}
      {i : AList fun _ : Item ↦ Bytes} : SetSeen store envelope set state s →
      SetComplete store.trust set envelope u → SameDeployments s u → u.sets = s.sets →
      s.retainedDeployments none = .ok retained →
      (state.tryAlone retained (store.trust.setId set)).bound.size ≤ 2 →
      v = { u with sets := some (state.tryAlone retained (store.trust.setId set)), items := i } →
      NameWrite store s op u v
  | settle {r : Running} {t : Device} {held state : SetState} {verdict : SetSettlement}
      {i : AList fun _ : Item ↦ Bytes} : s.run = some r → Settles store s r op t →
      t.readState = .ok held →
      t.settlement r.receipt.deploymentId r.core = .ok (verdict, state) → state ≠ held →
      state.bound.size ≤ 2 →
      SameDeployments t u → u.sets = t.sets → v = { u with sets := some state, items := i } →
      NameWrite store s op u v

structure SameCores (u v : Device) : Prop where
  sets : v.sets = u.sets
  trial : v.trial = u.trial
  run : v.run = u.run

section

variable {store : Store} {s u v : Device} {op : Command}

theorem SameCores.names (h : SameCores u v) : NameWrite store s op u v := .same h.sets h.run

theorem Adds.sameCores (h : Adds u v) : SameCores u v := by
  obtain ⟨i, rfl, -⟩ := h
  exact ⟨rfl, rfl, rfl⟩

theorem Drops.sameCores {c : Collection} (h : Drops c u v) : SameCores u v := by
  obtain ⟨i, rfl, -⟩ := h
  exact ⟨rfl, rfl, rfl⟩

theorem ConfirmWrite.sameCores {plan : Store.Confirmation} (h : ConfirmWrite plan s u v) :
    SameCores u v := by
  cases h with
  | adds h => exact h.sameCores
  | tries | save | retain => exact ⟨rfl, rfl, rfl⟩

theorem RejectWrite.sameCores {plan : Rejection} (h : RejectWrite plan s u v) : SameCores u v := by
  cases h with
  | adds h => exact h.sameCores
  | tries | save => exact ⟨rfl, rfl, rfl⟩

theorem RetireWrite.sameCores {id : Text} (h : RetireWrite id s u v) : SameCores u v := by
  cases h with
  | tries => exact ⟨rfl, rfl, rfl⟩

theorem CollectWrite.sameCores {receipt : BootReceipt} (h : CollectWrite store receipt s u v) :
    SameCores u v := by
  cases h with
  | retain => exact ⟨rfl, rfl, rfl⟩
  | drops _ _ _ _ _ _ h => exact h.sameCores

theorem InstallWrite.names {plan : Installation} {r : Running} {envelope : Bytes}
    (hop : op.isInstall = true) (hrun : s.run = some r)
    (hseen : plan.Seen store envelope r.receipt s)
    (h : InstallWrite store plan r.receipt.deploymentId envelope s u v) :
    NameWrite store s op u v := by
  cases h with
  | adds h => exact h.sameCores.names
  | retain | save => exact .same rfl rfl
  | drops _ _ _ h => exact h.sameCores.names
  | name hb hheld hu hnamed hsize _ =>
    refine .install hop hrun hseen ?_ hheld ?_ ?_ hnamed hsize rfl
    all_goals rw [hu]
    exact hb
  | insert | final => exact .same rfl rfl

theorem InstallSetWrite.names {envelope : Bytes} {set : UpdateSet} {state : SetState}
    (hseen : SetSeen store envelope set state s)
    (h : InstallSetWrite store envelope set state s u v) :
    NameWrite store s op u v := by
  cases h with
  | adds h => exact h.sameCores.names
  | trial _ _ hv => exact .same (by rw [hv]) (by rw [hv])
  | name hu hcomplete hretained hsize _ hv =>
    obtain ⟨i, rfl⟩ := hu
    exact .installSet hseen hcomplete ⟨rfl, rfl, rfl⟩ rfl hretained hsize hv

theorem SettleWrite.names {r : Running} {t : Device} (hrun : s.run = some r)
    (ht : Settles store s r op t)
    (h : SettleWrite store r.receipt.deploymentId r.core t u v) : NameWrite store s op u v := by
  cases h with
  | adds h => exact h.sameCores.names
  | sets hheld hsettle hne hsize _ _ =>
    exact .settle hrun ht hheld hsettle hne hsize ⟨rfl, rfl, rfl⟩ rfl rfl
  | trial | envelope => exact .same rfl rfl
  | release _ _ _ _ _ h =>
    obtain ⟨k, id, -, -, rfl, -⟩ := h
    exact .same rfl rfl

theorem BootWrite.names {id : Text} {receipt : BootReceipt} (h : BootWrite store id receipt s u v) :
    NameWrite store s op u v := by
  cases h with
  | adds h => exact h.sameCores.names
  | stop => exact .stop rfl rfl
  | count => exact .same rfl rfl
  | spend _ _ h =>
    obtain ⟨_, _, _, _, -, -, -, -, rfl, rfl⟩ := h
    exact .same rfl rfl
  | @run state b core _ _ hlaunched hstate hc hv =>
    obtain ⟨trial, i, rfl, hi⟩ := hc.form
    exact .boot hstate hlaunched hc hv

theorem CommandWrite.names (h : CommandWrite store s op u v) : NameWrite store s op u v := by
  cases h with
  | install hrun hseen h => exact h.names rfl hrun hseen
  | installSet hseen h => exact h.names hseen
  | confirm _ _ h | confirmation _ _ h => exact h.sameCores.names
  | settle hrun h => exact h.names hrun .settle
  | settlement hrun hplan hdone h => exact h.names hrun (.confirmation hplan hdone)
  | reject _ h | rollback _ _ h => exact h.sameCores.names
  | failBoot _ h | retire h => exact h.sameCores.names
  | collect _ h => exact h.sameCores.names
  | boot h => exact h.names
  | reset => exact .stop rfl rfl

end

end MicaCore.Deploy
