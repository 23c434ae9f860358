import MicaCore.Deploy.SetsInstalled

namespace MicaCore.Deploy

open Data Crash Prog

def Store.Lists (store : Store) (d : Device) (component : Text) : Prop :=
  ∃ id ∈ d.names.named, ∃ components, store.setComponents d id = .ok components ∧
    component ∈ components

/-- Envelopes and components are exactly those of the named sets. -/
structure Exact (store : Store) (d : Device) : Prop where
  envelopes : ∀ id, Has (.file (.setEnvelope id)) d ↔ id ∈ d.names.named
  directories : ∀ id, Has (.dir (.component id)) d ↔ store.Lists d id
  volumes : d.boot.isUbi = true → ∀ id, isId id = true →
    (Has (.volume (.core id)) d ↔ store.Lists d id)
  complete : ∀ id ∈ d.names.named, SetInstalled store d id

/-- Every envelope is of a set that the set state names. -/
def EnvelopesNamed (d : Device) : Prop :=
  ∀ id, Has (.file (.setEnvelope id)) d → id ∈ d.names.named

def Command.settles : Command → Bool
  | .settle | .confirmation => true
  | _ => false

section

variable {store : Store} {s t u : Device}

theorem lists_iff_mem_heldComponents {kept : List Text} {component : Text}
    (h : store.heldComponents u = .ok kept) : store.Lists u component ↔ component ∈ kept := by
  simp only [Store.heldComponents, bind_eq_ok, pure_eq_ok] at h
  obtain ⟨state, hstate, lists, hlists, rfl⟩ := h
  obtain ⟨rfl, -⟩ := Device.readState_eq_ok.1 hstate
  obtain ⟨hfrom, hto⟩ := exists_of_mapM_eq_ok hlists
  rw [List.mem_flatten]
  constructor
  · rintro ⟨id, hid, components, hread, hmem⟩
    obtain ⟨list, hlist, hread'⟩ := hfrom id hid
    obtain rfl : components = list := by simpa [hread] using hread'
    exact ⟨components, hlist, hmem⟩
  · rintro ⟨list, hlist, hmem⟩
    obtain ⟨id, hid, hread⟩ := hto list hlist
    exact ⟨id, hid, list, hread, hmem⟩

theorem SetInstalled.setComponents {id : Text} {components : List Text} {component : Text}
    (h : SetInstalled store u id) (hread : store.setComponents u id = .ok components)
    (hmem : component ∈ components) :
    ∃ envelope set, SetComplete store.trust set envelope u ∧
      ∃ core ∈ set.components, core.id = component := by
  obtain ⟨envelope, set, hauth, rfl, hcomplete⟩ := h
  simp only [Store.setComponents, Device.readBounded, bind_eq_ok, pure_eq_ok, orError_eq_ok,
    hcomplete.envelope, Option.some.injEq] at hread
  obtain ⟨_, ⟨_, rfl, _, _, rfl⟩, set', hauth', rfl⟩ := hread
  obtain rfl : set = set' := by simpa [hauth] using hauth'
  exact ⟨envelope, set, hcomplete, by simpa using hmem⟩

theorem SetsInstalled.component {component : Text} (h : SetsInstalled store u)
    (hlists : store.Lists u component) :
    Has (.dir (.component component)) u ∧
      (u.boot.isUbi = true → Has (.volume (.core component)) u) := by
  obtain ⟨id, hid, components, hread, hmem⟩ := hlists
  obtain ⟨envelope, set, hcomplete, core, hcore, rfl⟩ := (h.named id hid).setComponents hread hmem
  refine ⟨h.rooted (.coreHash core.id) core.id rfl (hcomplete.hashes core hcore), fun hubi ↦ ?_⟩
  refine hcomplete.objects (.volume (.core core.id), core.content.image) ?_
  exact List.mem_flatMap.2 ⟨core, hcore, by simp [largeObject, hubi]⟩

structure Settled (store : Store) (s t : Device) : Prop where
  envelopes : ∀ id, Has (.file (.setEnvelope id)) t ↔
    Has (.file (.setEnvelope id)) s ∧ id ∉ dropped s.names t.names
  directories : ∀ id, Has (.dir (.component id)) t → store.Lists t id
  volumes : t.boot.isUbi = true → ∀ id, isId id = true → Has (.volume (.core id)) t →
    store.Lists t id
  named : t.names.named ⊆ s.names.named

theorem SettleDone.settled {booted : Text} {boot : CoreBoot} (h : SettleDone store booted boot s t)
    (hne : t.names ≠ s.names) : Settled store s t := by
  cases h with
  | unchanged _ _ ht =>
    subst ht
    exact absurd rfl hne
  | @changed held state verdict w kept hheld hsettle _ hw hgone hkept hdone =>
    have hs : s.names = held := Device.names_of_readState hheld rfl
    have hwt : t.names = w.names := by
      obtain ⟨i, rfl⟩ := hdone.released.only
      rfl
    have ht : t.names = state := hwt.trans hw.names_eq
    have hboot : t.boot = w.boot := by
      obtain ⟨i, rfl⟩ := hdone.released.only
      rfl
    have hkept' : store.heldComponents t = .ok kept := hdone.released.heldComponents_eq.trans hkept
    refine ⟨fun id ↦ ?_, fun id h ↦ ?_, fun hubi id hid h ↦ ?_, ?_⟩
    · have hspared : t.items.lookup (.file (.setEnvelope id)) = w.items.lookup (.file (.setEnvelope id)) :=
        hdone.released.spared _ fun _ hk ↦ by cases hk
      rw [hs, ht, Has, hspared]
      by_cases hid : id ∈ dropped held state
      · simp only [hid, not_true_eq_false, and_false, iff_false]
        exact hgone id hid
      · simp only [hid, not_false_eq_true, and_true]
        rw [hw.items.spared _ rfl fun id' hid' heq ↦ ?_]
        · rfl
        · cases heq
          exact hid hid'
    · exact (lists_iff_mem_heldComponents hkept').2 (hdone.dirs id h)
    · exact (lists_iff_mem_heldComponents hkept').2 (hdone.volumes (hboot ▸ hubi) id hid h)
    · obtain ⟨held', retained, hheld', -, -, rfl⟩ := Device.settlement_eq_ok hsettle
      rw [hheld] at hheld'
      cases hheld'
      rw [ht, hs]
      exact SetState.named_settle_subset

theorem Settled.exact_iff (h : Settled store s t) (hs : SetsInstalled store s)
    (ht : SetsInstalled store t) : Exact store t ↔ EnvelopesNamed s := by
  have henvelope : ∀ id ∈ s.names.named, Has (.file (.setEnvelope id)) s := by
    intro id hid
    obtain ⟨envelope, set, -, rfl, hcomplete⟩ := hs.named id hid
    rw [Has, hcomplete.envelope]
    rfl
  have hdropped : ∀ id, id ∈ dropped s.names t.names ↔ id ∈ s.names.named ∧ id ∉ t.names.named := by
    simp [dropped]
  constructor
  · intro hexact id hid
    by_contra hnot
    have hleft : Has (.file (.setEnvelope id)) t :=
      (h.envelopes id).2 ⟨hid, fun hd ↦ hnot ((hdropped id).1 hd).1⟩
    exact hnot (h.named ((hexact.envelopes id).1 hleft))
  · intro hnamed
    refine ⟨fun id ↦ ?_, fun id ↦ ⟨h.directories id, fun hl ↦ (ht.component hl).1⟩,
      fun hubi id hid ↦ ⟨h.volumes hubi id hid, fun hl ↦ (ht.component hl).2 hubi⟩, ht.named⟩
    rw [h.envelopes, hdropped]
    constructor
    · rintro ⟨hhas, hnot⟩
      by_contra hout
      exact hnot ⟨hnamed id hhas, hout⟩
    · intro hid
      exact ⟨henvelope id (h.named hid), fun hd ↦ hd.2 hid⟩

theorem Confirmed.setItemsKept {plan : Store.Confirmation} (h : Confirmed plan s t) :
    SetItemsKept s t ∧ t.names = s.names := by
  obtain ⟨b₀, b, i, htried, hi, hret, -, rfl⟩ := h
  exact ⟨hi.setItemsKept (hret.isUbi.trans htried.isUbi), rfl⟩

theorem Settled.of_kept (h : Settled store t u) (hitems : SetItemsKept s t)
    (hnames : t.names = s.names) :
    Settled store s u where
  envelopes id := by
    rw [h.envelopes, hnames, Has, hitems.items _ ⟨rfl, .inl ⟨id, rfl⟩⟩]
    rfl
  directories := h.directories
  volumes := h.volumes
  named := hnames ▸ h.named

theorem CommandDone.settled {op : Command} (h : CommandDone store s op t)
    (hop : op.settles = true) (hne : t.names ≠ s.names) : Settled store s t := by
  cases h with
  | settle _ h => exact h.settled hne
  | confirmation _ _ hconfirmed h =>
    obtain ⟨hitems, hnames⟩ := hconfirmed.setItemsKept
    exact (h.settled (hnames ▸ hne)).of_kept hitems hnames
  | other h h' =>
    cases op with
    | settle => exact absurd rfl h
    | confirmation => exact absurd rfl h'
    | _ => cases hop

theorem commandDone_of_completed {e : Event Command Device} (h : e.Valid store.exec)
    (hcompleted : e.completed = true) : CommandDone store e.before e.op e.after := by
  obtain ⟨-, a, hok⟩ := h.ended hcompleted
  have hdone := (store.wp_exec e.op e.before).2
  rw [hok] at hdone
  rw [h.after_eq_last hcompleted]
  exact hdone

end

/-- In every run, a settlement leaves exactly the named sets' objects just when no other
envelope was there. -/
theorem exact_iff_of_run (store : Store) {s t : Device} {es : List (Event Command Device)}
    (hs : SetsInstalled store s) (hrun : Run store.exec (fun _ _ ↦ True) s es t) :
    ∀ e ∈ es, e.completed = true → e.op.settles = true →
      e.after.names ≠ e.before.names → (Exact store e.after ↔ EnvelopesNamed e.before) := by
  intro e he hcompleted hop hne
  have hinstalled := setsInstalled_of_run store hs hrun
  obtain ⟨hvalid, -, hbefore⟩ := hrun.before_mem he
  have hafter : e.after ∈ s :: states es := by
    rcases e.after_eq_or_mem with h | h
    · rwa [h]
    · exact List.mem_cons_of_mem _ (List.mem_flatMap.2 ⟨e, he, h⟩)
  have hsettled := (commandDone_of_completed hvalid hcompleted).settled hop hne
  exact hsettled.exact_iff (hinstalled _ hbefore) (hinstalled _ hafter)

theorem Sample.setsInstalled_device : SetsInstalled Sample.store Sample.device where
  named id hid := by
    obtain rfl : id = Sample.hexId 1 := by
      have hall : ∀ x ∈ Sample.device.names.named, x = Sample.hexId 1 := by decide
      exact hall id hid
    exact ⟨[1], Sample.set 1, by decide, by decide,
      ⟨by decide, by decide, by decide⟩⟩
  rooted p id hp hf := by
    have hall : ∀ k ∈ Sample.device.items.keys,
        (componentOf k).all (fun id ↦ Sample.device.holds (.dir (.component id))) = true := by
      decide
    have hk := hall (.file p) (AList.lookup_isSome.1 hf)
    simpa [componentOf, hp, Device.holds] using hk

def Sample.setUpdated : List (Command × Option ℕ) :=
  [(boot 1, none), (installSet 3, none), (boot 1, none), (.confirmation, none)]

/-- The same after an installation of set 2 was cut off after its envelope. -/
def Sample.setUpdatedBesideStray : List (Command × Option ℕ) :=
  [(boot 1, none), (installSet 2, some 10)] ++ Sample.setUpdated

theorem exact_iff_of_run_setUpdated : SetsInstalled Sample.store Sample.device ∧
    ∀ e ∈ Run.play Sample.store.exec Sample.device Sample.setUpdated, e.completed = true →
      e.op.settles = true → e.after.names ≠ e.before.names →
      (Exact Sample.store e.after ↔ EnvelopesNamed e.before) :=
  have hrun := Run.of_play Sample.store.exec (fun _ _ ↦ True) Sample.device Sample.setUpdated
    fun _ _ ↦ trivial
  ⟨Sample.setsInstalled_device, exact_iff_of_run Sample.store Sample.setsInstalled_device hrun⟩

/-- An envelope no manifest names outlives the collection of a later update. -/
theorem not_forall_exact :
    ¬ ∀ (store : Store) (s t : Device) (es : List (Event Command Device)), SetsInstalled store s →
      Run store.exec (fun _ _ ↦ True) s es t → ∀ e ∈ es, e.completed = true →
        e.op.settles = true → e.after.names ≠ e.before.names → Exact store e.after := by
  intro h
  have hrun := Run.of_play Sample.store.exec (fun _ _ ↦ True) Sample.device
    Sample.setUpdatedBesideStray fun _ _ ↦ trivial
  obtain ⟨e, he, hcompleted, hop, hne, hheld, hnot⟩ :
      ∃ e ∈ Run.play Sample.store.exec Sample.device Sample.setUpdatedBesideStray,
        e.completed = true ∧ e.op.settles = true ∧ e.after.names ≠ e.before.names ∧
        e.after.holds (.file (.setEnvelope (Sample.hexId 2))) = true ∧
        Sample.hexId 2 ∉ e.after.names.named := by decide +kernel
  have hexact := h Sample.store Sample.device _ _ Sample.setsInstalled_device hrun e he
    hcompleted hop hne
  exact hnot ((hexact.envelopes (Sample.hexId 2)).1 hheld)

end MicaCore.Deploy
