import MicaCore.Deploy.Binding
import MicaCore.Deploy.Candidate
import MicaCore.Deploy.NameSpec

namespace MicaCore.Deploy

open Data Crash Prog

structure SetState.Readable (state : SetState) : Prop where
  size : state.bound.size ≤ 2
  isId : ∀ id ∈ state.ids, isId id = true
  pending : ∀ id, state.pending = some id → state.current ≠ some id

variable {state : SetState}

theorem SetState.check_eq_ok {x : Unit} : state.check = .ok x ↔ state.Readable := by
  simp only [SetState.check, bind_eq_ok, ensure_eq_ok, forM_eq_ok, validId_eq_ok, decide_eq_true_eq,
    Bool.or_eq_true, Option.isNone_iff_eq_none, bne_iff_ne]
  constructor
  · rintro ⟨-, hsize, -, hids, hpending⟩
    refine ⟨hsize, hids, fun id hid hcurrent ↦ ?_⟩
    simp [hid, hcurrent] at hpending
  · intro h
    refine ⟨(), h.size, (), h.isId, ?_⟩
    cases hp : state.pending with
    | none => exact .inl rfl
    | some id => exact .inr (h.pending id hp).symm

def Device.names (d : Device) : SetState := d.sets.getD {}

theorem SetState.readable_empty : ({} : SetState).Readable where
  size := by decide
  isId id h := by simp [SetState.mem_ids] at h
  pending id h := by simp at h

variable {d : Device}

theorem Device.readState_eq_ok : d.readState = .ok state ↔ d.names = state ∧ state.Readable := by
  unfold Device.readState Device.names
  cases d.sets with
  | none =>
    simp only [pure_eq_ok, Option.getD_none]
    exact ⟨fun h ↦ ⟨h, h ▸ SetState.readable_empty⟩, fun h ↦ h.1⟩
  | some held =>
    simp only [bind_eq_ok, pure_eq_ok, Option.getD_some, SetState.check_eq_ok]
    constructor
    · rintro ⟨-, h, rfl⟩
      exact ⟨rfl, h⟩
    · rintro ⟨rfl, h⟩
      exact ⟨(), h, rfl⟩

theorem Device.names_of_readState {s u : Device} (h : s.readState = .ok state)
    (hsets : u.sets = s.sets) : u.names = state := by
  rw [Device.names, hsets]
  exact (Device.readState_eq_ok.1 h).1

/-- What runs is on the set bound to it, or on the pending one it is paired with. -/
def Linked (r : Running) (state : SetState) : Prop :=
  (state.pending = some r.core.coreSetId ∧ state.paired = some r.receipt.deploymentId) ∨
    ∀ own, state.bound.get r.receipt.deploymentId = some own → own = r.core.coreSetId

theorem Composes.linked {receipt : BootReceipt} {alone : Bool} {core : CoreBoot}
    (h : Composes state receipt.deploymentId alone core) : Linked ⟨receipt, core⟩ state := by
  cases h with
  | paired hpending hpaired => exact .inl ⟨hpending, hpaired⟩
  | bound _ hbound => exact .inr fun own hown ↦ by simpa [hbound, eq_comm] using hown
  | alone _ _ hbound | current _ hbound => exact .inr fun own hown ↦ by simp [hbound] at hown

section

variable {store : Store} {s t u v : Device} {op : Command} {r : Running}

theorem Settles.sets_eq (h : Settles store s r op t) : t.sets = s.sets := by
  cases h with
  | settle => rfl
  | confirmation _ h =>
    obtain ⟨_, _, _, _, _, _, _, rfl⟩ := h
    rfl

theorem Settles.run_eq (h : Settles store s r op t) : t.run = s.run := by
  cases h with
  | settle => rfl
  | confirmation _ h =>
    obtain ⟨_, _, _, _, _, _, _, rfl⟩ := h
    rfl

variable {state : SetState}

theorem Device.settlement_eq_ok {booted : Text} {boot : CoreBoot} {verdict : SetSettlement}
    (h : t.settlement booted boot = .ok (verdict, state)) :
    ∃ held retained, t.readState = .ok held ∧ t.retainedDeployments (some booted) = .ok retained ∧
      verdict = held.verdict retained booted boot.coreSetId (held.pending.any t.trialIsOver) ∧
      state = held.settle retained booted verdict := by
  simp only [Device.settlement, bind_eq_ok, pure_eq_ok, Prod.mk.injEq] at h
  obtain ⟨held, hheld, retained, hretained, rfl, rfl⟩ := h
  exact ⟨held, retained, hheld, hretained, rfl, rfl⟩

theorem isId_of_retainedDeployments {booted : Option Text} {retained : List Text}
    (h : t.retainedDeployments booted = .ok retained) {id : Text} (hid : id ∈ retained) :
    isId id = true := by
  simp only [Device.retainedDeployments, bind_eq_ok, pure_eq_ok] at h
  obtain ⟨entries, hentries, rfl⟩ := h
  obtain ⟨e, he, rfl⟩ := List.mem_map.1 hid
  exact (BootRecords.entries_eq_ok hentries).2.isId e (List.mem_filter.1 he).1

theorem SetState.Readable.filter (h : state.Readable) (p : Text → Text → Bool) (pair : Option Text)
    (hpair : ∀ id, pair = some id → Deploy.isId id = true)
    (hsize : (state.bound.filter p).size ≤ 2) :
    { state with pair := pair, bound := state.bound.filter p }.Readable where
  size := hsize
  isId id hid := by
    rcases SetState.mem_ids.1 hid with hid | hid | hid | ⟨own, hid⟩ | ⟨deployment, hid⟩
    · exact h.isId id (SetState.mem_ids.2 (.inl hid))
    · exact h.isId id (SetState.mem_ids.2 (.inr (.inl hid)))
    · exact hpair id hid
    · exact h.isId id (SetState.mem_ids.2 (.inr (.inr (.inr (.inl
        ⟨own, (OrdMap.get_filter_eq_some.1 hid).1⟩)))))
    · exact h.isId id (SetState.mem_ids.2 (.inr (.inr (.inr (.inr
        ⟨deployment, (OrdMap.get_filter_eq_some.1 hid).1⟩)))))
  pending := h.pending

theorem SetState.Readable.setPending (h : state.Readable) {id : Text}
    (hid : Deploy.isId id = true) (hne : state.current ≠ some id) :
    { state with pending := some id }.Readable where
  size := h.size
  isId x hx := by
    rcases SetState.mem_ids.1 hx with hx | hx | hx
    · exact h.isId x (SetState.mem_ids.2 (.inl hx))
    · obtain rfl : id = x := by simpa using hx
      exact hid
    · exact h.isId x (SetState.mem_ids.2 (.inr (.inr hx)))
  pending x hx := by
    obtain rfl : id = x := by simpa using hx
    exact hne

variable {held : SetState}

theorem SetState.Readable.settle (h : held.Readable) {retained : List Text}
    (hret : ∀ id ∈ retained, Deploy.isId id = true) (hlink : Linked r held) {ended : Bool}
    {verdict : SetSettlement}
    (hverdict : verdict = held.verdict retained r.receipt.deploymentId r.core.coreSetId ended)
    (hsize : (held.settle retained r.receipt.deploymentId verdict).bound.size ≤ 2) :
    (held.settle retained r.receipt.deploymentId verdict).Readable where
  size := hsize
  isId id hid := by
    have hnamed : ∀ {x : Text}, x ∈ (held.settle retained r.receipt.deploymentId verdict).named →
        Deploy.isId x = true := fun hx ↦
      h.isId _ (SetState.named_subset_ids (SetState.named_settle_subset hx))
    rcases SetState.mem_ids.1 hid with hid | hid | hid | ⟨own, hid⟩ | hid
    · exact hnamed (SetState.mem_named.2 (.inl hid))
    · exact hnamed (SetState.mem_named.2 (.inr (.inl hid)))
    · rw [SetState.pair_settle] at hid
      split at hid
      · cases hid
      · exact h.isId id (SetState.mem_ids.2 (.inr (.inr (.inl hid))))
    · exact hret id (SetState.mem_retained_of_get_settle hid)
    · exact hnamed (SetState.mem_named.2 (.inr (.inr hid)))
  pending id hid := by
    rw [SetState.pending_settle] at hid
    split at hid
    swap
    · cases hid
    next hunchanged =>
    -- the pending set did not run, or the verdict would be to commit it
    have hne : r.core.coreSetId ≠ id := fun heq ↦ by
      simp [SetState.verdict, hid, heq, hunchanged] at hverdict
    rw [SetState.current_settle, hunchanged, if_neg (by simp)]
    cases hown : held.bound.get r.receipt.deploymentId with
    | none => exact h.pending id hid
    | some own =>
      rcases hlink with ⟨hpending, -⟩ | hbound
      · exact absurd (by simpa [hpending] using hid) hne
      · simpa [hbound own hown] using hne

theorem Device.names_eq (h : u.sets = some state) : u.names = state := by
  rw [Device.names, h]
  rfl

theorem Device.names_congr (h : v.sets = u.sets) : v.names = u.names := by
  rw [Device.names, Device.names, h]

variable {plan : Installation} {receipt : BootReceipt} {envelope : Bytes}

theorem Installation.Seen.pending
    (hseen : plan.Seen store envelope receipt s) (hheld : s.readState = .ok held) :
    held.pending = none := by
  obtain ⟨target, objects, latest, hchoice⟩ := hseen.choice
  obtain ⟨state, hstate, hpending, -⟩ := Store.state_of_coreChoice hchoice
  obtain rfl : held = state := by simpa [hheld] using hstate
  exact hpending

theorem Named.readable {cores : SetState} (hfree : store.trust.CollisionFree)
    (hseen : plan.Seen store envelope receipt s) (hheld : s.readState = .ok held)
    (hsize : cores.bound.size ≤ 2) (h : Named store plan receipt.deploymentId held cores u) :
    cores.Readable := by
  have hread := (Device.readState_eq_ok.1 hheld).2
  cases h with
  | keep => exact hread.filter _ none (by simp) hsize
  | @pair setId set envelope' _ hchoice =>
    obtain ⟨target, objects, latest, hcore⟩ := hseen.choice
    obtain ⟨rfl, hauth, set', envelope'', hauth', hcurrent, hnewer⟩ :=
      Store.newerSet_of_coreChoice hheld (hchoice ▸ hcore)
    refine (hread.filter _ (some plan.id) (fun id hid ↦ ?_) hsize).setPending
      (store.trust.isId_setId set) fun heq ↦ ?_
    · obtain rfl : plan.id = id := by simpa using hid
      rw [hseen.id_eq]
      exact store.trust.isId_deploymentId _
    · have hid : store.trust.setId set' = store.trust.setId set := by
        have : held.current = some (store.trust.setId set) := heq
        simpa [hcurrent] using this
      rw [hfree _ _ _ _ hauth' hauth hid] at hnewer
      exact lt_irrefl _ hnewer

theorem NameWrite.readable (hfree : store.trust.CollisionFree) (h : NameWrite store s op u v)
    (hlink : ∀ r, s.run = some r → Linked r s.names) (hu : u.names.Readable) :
    v.names.Readable := by
  cases h with
  | same h _ | stop h _ => rwa [Device.names_congr h]
  | boot _ _ _ hv => rwa [hv]
  | install _ _ hseen _ hheld _ _ hnamed hsize hv =>
    rw [Device.names_eq (by rw [hv])]
    exact hnamed.readable hfree hseen hheld hsize
  | @installSet envelope set state retained i hseen _ _ _ _ hsize hv =>
    rw [Device.names_eq (by rw [hv])]
    refine ((Device.readState_eq_ok.1 hseen.read).2.filter _ none (by simp) hsize).setPending
      (store.trust.isId_setId set) hseen.current
  | @settle r t held state verdict i hrun ht hheld hsettle _ hsize _ _ hv =>
    rw [Device.names_eq (by rw [hv])]
    obtain ⟨held', retained, hheld', hretained, hverdict, rfl⟩ := Device.settlement_eq_ok hsettle
    obtain rfl : held = held' := by simpa [hheld] using hheld'
    have hread := Device.readState_eq_ok.1 hheld
    refine hread.2.settle (fun id hid ↦ isId_of_retainedDeployments hretained hid) ?_ hverdict hsize
    rw [← hread.1, Device.names_congr ht.sets_eq]
    exact hlink r hrun

theorem Linked.filter (h : Linked r held) (hpending : held.pending = none)
    {pending pair : Option Text} (p : Text → Text → Bool) :
    Linked r { held with pending := pending, pair := pair, bound := held.bound.filter p } := by
  rcases h with ⟨h, -⟩ | h
  · rw [hpending] at h
    cases h
  · exact .inr fun own hown ↦ h own (OrdMap.get_filter_eq_some.1 hown).1

theorem NameWrite.linked (h : NameWrite store s op u v)
    (hs : ∀ r, s.run = some r → Linked r s.names) (hu : ∀ r, u.run = some r → Linked r u.names) :
    ∀ r, v.run = some r → Linked r v.names := by
  intro r hr
  cases h with
  | same hsets hrun =>
    rw [Device.names_congr hsets]
    exact hu r (hrun ▸ hr)
  | stop _ hrun =>
    rw [hrun] at hr
    cases hr
  | @boot state receipt core hstate _ hc hv =>
    subst hv
    obtain rfl : ⟨receipt, core⟩ = r := by simpa using hr
    obtain ⟨trial, i, hform, -⟩ := hc.form
    obtain ⟨alone, hcomposes, -⟩ := hc.composes
    have hnames : u.names = s.names := Device.names_congr (by rw [hform])
    have hread := (Device.readState_eq_ok.1 hstate).1
    rw [← hread] at hcomposes
    exact (hnames ▸ hcomposes.linked : Linked _ u.names)
  | @install envelope r' plan held cores i _ hrun hseen _ hheld hsets hurun hnamed _ hv =>
    have hpending := hseen.pending hheld
    have hlink : Linked r held := by
      rw [← (Device.readState_eq_ok.1 hheld).1]
      exact hs r (by rw [← hurun, ← hr, hv])
    rw [Device.names_eq (by rw [hv])]
    cases hnamed with
    | keep | pair => exact hlink.filter hpending _
  | @installSet envelope set state retained i hseen _ hsame hsets _ _ hv =>
    rw [Device.names_eq (by rw [hv])]
    refine Linked.filter ?_ hseen.pending _
    rw [← (Device.readState_eq_ok.1 hseen.read).1]
    exact hs r (by rw [← hsame.run, ← hr, hv])
  | @settle r' t held state verdict i hrun ht hheld hsettle _ hsize hsame _ hv =>
    obtain ⟨held', retained, hheld', hretained, hverdict, rfl⟩ := Device.settlement_eq_ok hsettle
    rw [Device.names_eq (by rw [hv])]
    obtain rfl : r' = r := by
      have hvr : v.run = t.run := by rw [hv, ← hsame.run]
      rw [hvr, ht.run_eq, hrun] at hr
      simpa using hr
    exact .inr fun own hown ↦ by simp [SetState.get_settle_self] at hown

/-- No set is pending, or the deployment it is paired with is. -/
def SetState.Accompanied (state : SetState) : Prop := state.pending.isSome → state.paired.isSome

theorem Named.accompanied {cores : SetState} (hseen : plan.Seen store envelope receipt s)
    (hheld : s.readState = .ok held) (h : Named store plan receipt.deploymentId held cores u) :
    cores.Accompanied := by
  have hpending := hseen.pending hheld
  intro hsome
  cases h with
  | keep => simp [hpending] at hsome
  | pair => rfl

theorem SetState.Accompanied.settle (h : held.Accompanied) (retained : List Text)
    (booted : Text) (verdict : SetSettlement) :
    (held.settle retained booted verdict).Accompanied := by
  intro hsome
  have hpending : (held.settle retained booted verdict).pending = held.pending := by
    rw [SetState.pending_settle] at hsome ⊢
    split at hsome
    · next hunchanged => rw [if_pos hunchanged]
    · cases hsome
  have hpair : (held.settle retained booted verdict).pair = held.pair := by
    obtain ⟨pending, hp⟩ := Option.isSome_iff_exists.1 hsome
    rw [SetState.pair_settle, hp]
    rfl
  rw [SetState.paired, hpending, hpair]
  exact h (hpending ▸ hsome)

/-- No entry is counted beside a set alone, and what runs is on a set of its own. -/
structure OnTrial (d : Device) : Prop where
  record : OnRecord d
  readable : d.names.Readable
  linked : ∀ r, d.run = some r → Linked r d.names
  apart : d.names.Accompanied ∨ ∀ e ∈ d.boot.view, ¬ e.Counted

theorem CommandWrite.apart (h : CommandWrite store s op u v) (hs : OnTrial s) (hu : OnTrial u) :
    v.names.Accompanied ∨ ∀ e ∈ v.boot.view, ¬ e.Counted := by
  -- where the set state stays, an entry comes to be counted only after its set is named
  have hsame : v.sets = u.sets → v.names.Accompanied ∨ ∀ e ∈ v.boot.view, ¬ e.Counted := by
    intro hsets
    rw [Device.names_congr hsets]
    refine hu.apart.elim .inl fun hnone ↦ ?_
    by_cases hall : ∀ e ∈ v.boot.view, ¬ e.Counted
    · exact .inr hall
    · push Not at hall
      obtain ⟨e, he, hcounted⟩ := hall
      rcases h.entries.counted hs.record.listed he hcounted with ⟨e', he', -, hcounted'⟩ | hinsert
      · exact absurd hcounted' (hnone e' he')
      · obtain ⟨_, _, _, hins, -⟩ := hinsert
        obtain ⟨_, hseen⟩ := hins.seen
        obtain ⟨_, hheld, hnamed⟩ := hins.named
        rw [Device.names_eq hins.sets]
        exact .inl (hnamed.accompanied hseen hheld)
  cases h.names with
  | same h _ | stop h _ => exact hsame h
  | boot _ _ _ hv => exact hsame (by rw [hv])
  | install _ _ hseen _ hheld _ _ hnamed _ hv =>
    rw [Device.names_eq (by rw [hv])]
    exact .inl (hnamed.accompanied hseen hheld)
  | installSet hseen _ hsame _ _ _ hv =>
    obtain ⟨effective, heff, hcand⟩ := hseen.effective
    refine .inr ?_
    rw [hv, hsame.boot]
    exact (hs.record.candidate_eq_none_iff heff).1 hcand
  | settle _ _ hheld hsettle _ _ _ hsets hv =>
    obtain ⟨held, retained, hheld', -, -, rfl⟩ := Device.settlement_eq_ok hsettle
    rw [hv]
    refine hu.apart.imp (fun hacc ↦ ?_) id
    rw [Device.names_congr hsets, (Device.readState_eq_ok.1 hheld').1] at hacc
    exact hacc.settle retained _ _

theorem CommandWrite.onTrial (hfree : store.trust.CollisionFree) (h : CommandWrite store s op u v)
    (hs : OnTrial s) (hu : OnTrial u) : OnTrial v where
  record := h.onRecord hs.record hu.record
  readable := h.names.readable hfree hs.linked hu.readable
  linked := h.names.linked hs.linked hu.linked
  apart := h.apart hs hu

end

/-- No entry and no set is on trial, and nothing runs. -/
structure AtRest (d : Device) : Prop where
  entries : ∃ entries, d.boot.entries = .ok entries ∧ ∀ e ∈ entries, ¬ e.Counted
  candidate : d.recorded.candidate = none
  sets : ∃ state, d.readState = .ok state ∧ state.pending = none
  run : d.run = none

theorem AtRest.onTrial (h : AtRest d) : OnTrial d := by
  obtain ⟨entries, hentries, hnone⟩ := h.entries
  obtain ⟨state, hstate, hpending⟩ := h.sets
  obtain ⟨hperm, hlist⟩ := BootRecords.entries_eq_ok hentries
  obtain ⟨rfl, hread⟩ := Device.readState_eq_ok.1 hstate
  have hview : ∀ e ∈ d.boot.view, ¬ e.Counted := fun e he ↦ hnone e (hperm.mem_iff.2 he)
  exact ⟨⟨hlist.toListed.perm hperm.symm, fun e he hcounted ↦ absurd hcounted (hview e he),
    .inl h.candidate⟩, hread, by simp [h.run], .inr hview⟩

/-- No set is pending alone while a deployment is the candidate. -/
structure OneTrial (d : Device) : Prop where
  reads : ∃ state, d.readState = .ok state
  apart : ∀ state effective, d.readState = .ok state → d.effectiveState = .ok effective →
    ¬ (state.pending.isSome ∧ state.paired = none ∧ effective.candidate.isSome)

theorem OnTrial.oneTrial (h : OnTrial d) : OneTrial d where
  reads := ⟨d.names, Device.readState_eq_ok.2 ⟨rfl, h.readable⟩⟩
  apart := by
    rintro state effective hstate heff ⟨hpending, hpaired, hcand⟩
    obtain ⟨rfl, -⟩ := Device.readState_eq_ok.1 hstate
    rcases h.apart with hacc | hnone
    · have := hacc hpending
      simp [hpaired] at this
    · rw [(h.record.candidate_eq_none_iff heff).2 hnone] at hcand
      cases hcand

/-- No run from rest ever has two trials open. -/
theorem oneTrial_of_run (store : Store) (hfree : store.trust.CollisionFree) {s t : Device}
    {es : List (Event Command Device)} (hs : AtRest s)
    (hrun : Run store.exec (fun _ _ ↦ True) s es t) :
    ∀ u ∈ s :: states es, OneTrial u := by
  intro u hu
  have hinv := Store.run_invariant (I := OnTrial) (fun hs _ h hu ↦ h.onTrial hfree hs hu)
    hs.onTrial hrun
  exact (hinv u hu).oneTrial

namespace Sample

theorem set_of_authenticateSet {bytes : Bytes} {set : UpdateSet}
    (h : trust.authenticateSet bytes = .ok set) : ∃ k < 16, set = Sample.set k := by
  simp only [Trust.authenticateSet, contract_eq_ok, bind_eq_ok, pure_eq_ok, trust] at h
  obtain ⟨set', hopen, -, -, rfl⟩ := h
  split at hopen
  · next k =>
    split at hopen
    · next hk =>
      cases hopen
      exact ⟨k.toNat, hk, rfl⟩
    · cases hopen
  · cases hopen

theorem collisionFree : trust.CollisionFree := by
  intro bytes bytes' set set' h h' hid
  obtain ⟨k, hk, rfl⟩ := set_of_authenticateSet h
  obtain ⟨k', hk', rfl⟩ := set_of_authenticateSet h'
  rw [hexId_injective hk hk' hid]

theorem atRest : AtRest device where
  entries := ⟨[⟨hexId 1, hexId 12, 1, none⟩], by decide, by simp [Record.Counted]⟩
  candidate := rfl
  sets := ⟨{ current := some (hexId 1) }, by decide, rfl⟩
  run := rfl

def setThenPair : List (Command × Option ℕ) :=
  [(boot 1, none), (installSet 2, none), (boot 1, none), (.confirmation, none),
    (installWith 2 3, none), (boot 2, none)]

end Sample

theorem oneTrial_of_run_setThenPair : OneTrial ((states (Run.play Sample.store.exec Sample.device
    Sample.setThenPair)).getLastD Sample.device) :=
  have hrun := Run.of_play Sample.store.exec (fun _ _ ↦ True) Sample.device Sample.setThenPair
    fun _ _ ↦ trivial
  oneTrial_of_run Sample.store Sample.collisionFree Sample.atRest hrun _ hrun.end_mem

end MicaCore.Deploy
