import MicaCore.Settings.Frame

namespace MicaCore.Bus

open Concurrent Data Network Settings

inductive LinkKind where
  | wifi
  | ethernet
  deriving DecidableEq

structure Link where
  name : Text
  kind : LinkKind

section

variable (fmt : Formats)

def wiredGateway : Json → Except String (Option Text)
  | .null => .ok none
  | value => do
    let gateway ← orError "invalid_gateway" ((Codec.readText value).filter validIpv4)
    pure (some gateway)

def wiredDns : Json → Except String (List Text)
  | .null => .ok []
  | .arr servers => servers.mapM fun server ↦
    orError "invalid_dns" ((Codec.readText server).filter fun text ↦ (parseIp fmt text).isSome)
  | _ => .error "invalid_dns"

def wiredStatic (entry : Json) : Except String (Option StaticConfig) :=
  match jsonGet "static" entry with
  | none => .ok none
  | some addressing => do
    let address ← orError "invalid_address"
      ((Codec.readText (jsonIndex "address" addressing)).filter validCidr)
    let gateway ← wiredGateway (jsonIndex "gateway" addressing)
    let dns ← wiredDns fmt (jsonIndex "dns" addressing)
    pure (some ⟨address, gateway, dns⟩)

def provisioningSetNetwork (links : List Link)
    (network : NetworkMap) (interface : Text) (entry : Json) :
    Except String NetworkMap := do
  ensure (links.any fun link ↦ link.name == interface && link.kind == .ethernet) "unknown_interface"
  let next := (network.get interface).getD {}
  ensure (next.kind == .physical) "unknown_interface"
  let addressing ← wiredStatic fmt entry
  let network := network.insert interface
    { next with dns := [], dhcp := addressing.isNone, static := addressing }
  forM (mapViolations fmt network [interface]).head?.toList fun violation ↦ .error violation.code
  pure network

variable {ρ : Type} (serde : Serde ρ)

def provisioningRestoreNetwork (network : NetworkMap) (previous : List (Text × Json)) :
    NetworkMap :=
  previous.foldl (fun network p ↦
    match serde.iface.read p.2 with
    | some entry => network.insert p.1 entry
    | none => network.erase p.1) network

inductive Provision where
  | setNetwork (links : List Link) (interface : Text) (entry : Json)
  | restoreNetwork (previous : List (Text × Json))

namespace Provision

def interfaces : Provision → List Text
  | .setNetwork _ interface _ => [interface]
  | .restoreNetwork previous => previous.map Prod.fst

def next (network : NetworkMap) : Provision → Except String NetworkMap
  | .setNetwork links interface entry => provisioningSetNetwork fmt links network interface entry
  | .restoreNetwork previous => .ok (provisioningRestoreNetwork serde network previous)

end Provision

structure Prepared where
  interfaces : List Text
  read : NetworkMap
  next : NetworkMap

/-- The settings, and what the last accepted write of each interface stored. -/
structure Stored (ρ : Type) where
  tree : Settings.Tree ρ
  last : Text → Option IfaceSettings

/-- What a thread does next; `landed` is a write that was accepted and saved. -/
inductive Turn where
  | write (writes : List (Text × Json)) (landed : Bool)
  | read (op : Provision)
  | commit (landed : Bool)

def addresses (writes : List (Text × Json)) (iface : Text) : Bool :=
  writes.any fun w ↦ (segments w.1).any fun ss ↦ comparable ss ["network".toList, iface]

variable (rules : Rules ρ)

def persist (t : Settings.Tree ρ) (writes : List (Text × Json))
    (landed : Bool) : Option (Settings.Tree ρ) :=
  if landed then (writes.foldlM (fun (t : Settings.Tree ρ) w ↦ t.set serde fmt rules w.1 w.2) t).toOption else none

namespace Prepared

def writes (p : Prepared) : List (Text × Json) := [("network".toList, serde.iface.map.write p.next)]

end Prepared

namespace Stored

def accept (s : Stored ρ) (addressed : Text → Bool) : Option (Settings.Tree ρ) → Stored ρ
  | none => s
  | some t => ⟨t, fun iface ↦ if addressed iface then t.network.get iface else s.last iface⟩

/-- Writes hold one lock throughout; an operation reads under one and writes under another. -/
def turn (s : Stored ρ) : Option Prepared → Turn → Option (Stored ρ × Option Prepared)
  | none, .write writes landed =>
    some (s.accept (addresses writes) (persist fmt serde rules s.tree writes landed), none)
  | none, .read op =>
    some (s, (op.next fmt serde s.tree.network).toOption.map fun next ↦
      ⟨op.interfaces, s.tree.network, next⟩)
  | some p, .commit landed =>
    some (s.accept p.interfaces.contains
      (persist fmt serde rules s.tree (p.writes serde) landed), none)
  | _, _ => none

/-- Every interface has what the last accepted write of it stored. -/
def Kept (s : Stored ρ) : Prop := ∀ iface, s.tree.network.get iface = s.last iface

/-- An operation writes where the other interfaces are as it read them. -/
def Undisturbed (s : Stored ρ) : Option Prepared → Turn → Prop
  | some p, .commit landed => (persist fmt serde rules s.tree (p.writes serde) landed).isSome →
    ∀ iface ∉ p.interfaces, s.tree.network.get iface = p.read.get iface
  | _, _ => True

def start (t : Settings.Tree ρ) : Pool (Stored ρ) (Option Prepared) :=
  ⟨⟨t, t.network.get⟩, fun _ ↦ none⟩

end Stored

end

variable {ρ : Type} {fmt : Formats} {serde : Serde ρ} {rules : Rules ρ}

variable {iface : Text}

theorem get_provisioningRestoreNetwork {previous : List (Text × Json)}
    (h : iface ∉ previous.map Prod.fst) (network : NetworkMap) :
    (provisioningRestoreNetwork serde network previous).get iface = network.get iface := by
  unfold provisioningRestoreNetwork
  induction previous generalizing network with
  | nil => rfl
  | cons p previous ih =>
    simp only [List.map_cons, List.mem_cons, not_or] at h
    rw [List.foldl_cons, ih h.2]
    split
    · simp [OrdMap.get_insert, h.1]
    · simp [OrdMap.get_erase, h.1]

theorem Provision.get_next {op : Provision} {network next : NetworkMap}
    (h : op.next fmt serde network = .ok next) (hiface : iface ∉ op.interfaces) :
    next.get iface = network.get iface := by
  cases op with
  | setNetwork links interface entry =>
    simp only [Provision.next, provisioningSetNetwork, bind_eq_ok, pure_eq_ok] at h
    obtain ⟨_, -, _, -, addressing, -, _, -, rfl⟩ := h
    have hne : iface ≠ interface := by simpa [interfaces] using hiface
    simp [OrdMap.get_insert, hne]
  | restoreNetwork previous =>
    cases h
    exact get_provisioningRestoreNetwork hiface network

variable {t t' : Settings.Tree ρ}

theorem get_network_of_foldlM {writes : List (Text × Json)}
    (h : writes.foldlM (fun (t : Settings.Tree ρ) w ↦ t.set serde fmt rules w.1 w.2) t = .ok t')
    (hnot : addresses writes iface = false) : t'.network.get iface = t.network.get iface := by
  induction writes generalizing t with
  | nil =>
    cases h
    rfl
  | cons w writes ih =>
    simp only [addresses, List.any_cons, Bool.or_eq_false_iff] at hnot
    obtain ⟨u, hu, hrest⟩ := bind_eq_ok.1 (List.foldlM_cons (m := Except SettingsError) ▸ h)
    obtain ⟨ss, hss⟩ := Settings.Tree.segments_of_set hu
    have hdiff : ¬ Comparable ss ["network".toList, iface] := by
      rw [← comparable_iff]
      simpa [hss] using hnot.1
    rw [ih hrest hnot.2, Settings.Tree.get_network_of_set hu hss hdiff]

theorem persist_eq_some {writes : List (Text × Json)} {landed : Bool} :
    persist fmt serde rules t writes landed = some t' ↔ landed = true ∧
      writes.foldlM (fun (t : Settings.Tree ρ) w ↦ t.set serde fmt rules w.1 w.2) t = .ok t' := by
  unfold persist
  cases landed with
  | false => simp
  | true => cases writes.foldlM (fun (t : Settings.Tree ρ) w ↦ t.set serde fmt rules w.1 w.2) t <;> simp [Except.toOption]

theorem network_of_commit {p : Prepared} {landed : Bool}
    (h : persist fmt serde rules t (p.writes serde) landed = some t') : t'.network = p.next := by
  obtain ⟨-, hset⟩ := persist_eq_some.1 h
  obtain ⟨u, hu, hrest⟩ := bind_eq_ok.1 (List.foldlM_cons (m := Except SettingsError) ▸ hset)
  cases hrest
  rw [Settings.Tree.set_network hu]

namespace Stored

variable {s s' : Stored ρ} {r r' : Option Prepared} {a : Turn}

/-- A thread holds a map it read, changed in its own interfaces only. -/
def Holds (r : Option Prepared) : Prop :=
  ∀ p, r = some p → ∀ iface ∉ p.interfaces, p.next.get iface = p.read.get iface

def Confined (s : Stored ρ) (r : Option Prepared) (s' : Stored ρ) : Prop :=
  ∀ p, r = some p → ∀ iface ∉ p.interfaces, s'.tree.network.get iface = s.tree.network.get iface

theorem holds_turn (h : turn fmt serde rules s r a = some (s', r')) : Holds r' := by
  rintro p rfl iface hiface
  cases r with
  | some q => cases a <;> cases h
  | none =>
    cases a with
    | write | commit => cases h
    | read op =>
      simp only [turn, Option.some.injEq, Prod.mk.injEq, Option.map_eq_some_iff] at h
      obtain ⟨-, next, hnext, rfl⟩ := h
      have hop : op.next fmt serde s.tree.network = .ok next := by
        cases hop : op.next fmt serde s.tree.network with
        | error e => simp [hop, Except.toOption] at hnext
        | ok m => simpa [hop, Except.toOption] using hnext
      exact Provision.get_next hop hiface

theorem Kept.accept {addressed : Text → Bool} {t : Settings.Tree ρ} (hs : s.Kept)
    (h : ∀ iface, addressed iface = false → t.network.get iface = s.tree.network.get iface) :
    (s.accept addressed (some t)).Kept := by
  intro iface
  change t.network.get iface = if addressed iface then t.network.get iface else s.last iface
  split
  · rfl
  · next hnot => exact (h iface (by simpa using hnot)).trans (hs iface)

theorem Kept.turn_iff (hs : s.Kept) (hr : Holds r)
    (h : turn fmt serde rules s r a = some (s', r')) :
    (s'.Kept ∧ Confined s r s') ↔ Undisturbed fmt serde rules s r a := by
  cases r with
  | none =>
    refine iff_of_true ⟨?_, fun _ hp ↦ by cases hp⟩ (by cases a <;> trivial)
    cases a with
    | commit landed => cases h
    | read op =>
      cases h
      exact hs
    | write writes landed =>
      cases h
      cases hpersist : persist fmt serde rules s.tree writes landed with
      | none => exact hs
      | some t =>
        exact hs.accept fun iface hnot ↦ get_network_of_foldlM (persist_eq_some.1 hpersist).2 hnot
  | some p =>
    cases a with
    | write | read => cases h
    | commit landed =>
      cases h
      rw [Undisturbed]
      cases hpersist : persist fmt serde rules s.tree (p.writes serde) landed with
      | none => exact iff_of_true ⟨hs, fun _ _ _ _ ↦ rfl⟩ (by simp)
      | some t =>
        have hnetwork := network_of_commit hpersist
        constructor
        · rintro ⟨-, hconfined⟩ - iface hiface
          rw [← hr p rfl iface hiface, ← hnetwork]
          exact (hconfined p rfl iface hiface).symm
        · intro hundisturbed
          have hsame : ∀ iface ∉ p.interfaces, t.network.get iface = s.tree.network.get iface := by
            intro iface hiface
            rw [hnetwork, hr p rfl iface hiface, hundisturbed rfl iface hiface]
          refine ⟨hs.accept fun iface hnot ↦ hsame iface (by simpa using hnot), fun q hq iface hiface ↦ ?_⟩
          cases hq
          exact hsame iface hiface

def Sound (p q : Pool (Stored ρ) (Option Prepared)) (l : ℕ × Turn) : Prop :=
  q.shared.Kept ∧ Confined p.shared (p.thread l.1) q.shared

theorem holds_step {p q : Pool (Stored ρ) (Option Prepared)} {l : ℕ × Turn}
    (hp : ∀ i, Holds (p.thread i))
    (h : Pool.step (turn fmt serde rules) p l = some q) : ∀ i, Holds (q.thread i) := by
  obtain ⟨s, r, ht, rfl⟩ := Pool.step_eq_some h
  intro i
  by_cases hi : i = l.1
  · subst hi
    simpa using holds_turn ht
  · simpa [hi] using hp i

end Stored

open Stored in
/-- Turns leave interfaces as last stored, exactly if every operation is undisturbed. -/
theorem sound_iff_undisturbed {ρ : Type} (fmt : Formats) (serde : Serde ρ) (rules : Rules ρ)
    (t : Settings.Tree ρ)
    (ls : List (ℕ × Turn)) (q : Pool (Stored ρ) (Option Prepared))
    (hrun : Pool.Runs (turn fmt serde rules) (fun _ _ _ ↦ True) (start t) ls q) :
    (∀ js l ks p p', ls = js ++ l :: ks →
        Pool.Runs (turn fmt serde rules) (fun _ _ _ ↦ True) (start t) js p →
        Pool.step (turn fmt serde rules) p l = some p' → Sound p p' l) ↔
      Pool.Runs (turn fmt serde rules) (Undisturbed fmt serde rules) (start t) ls q := by
  refine Trace.forall_step_iff (I := fun p ↦ p.shared.Kept ∧ ∀ i, Holds (p.thread i))
    (P := fun p l p' ↦ Sound p p' l) ?_ ?_ ⟨fun _ ↦ rfl, fun _ _ hp ↦ by cases hp⟩ hrun
  · rintro p l p' ⟨hkept, hholds⟩ hstep
    obtain ⟨s, r, ht, rfl⟩ := Pool.step_eq_some hstep
    exact hkept.turn_iff (hholds l.1) ht
  · rintro p l p' ⟨-, hholds⟩ hstep hsound
    exact ⟨hsound.1, holds_step hholds hstep⟩

namespace Sample

def eth0 : Provision := .setNetwork [⟨"eth0".toList, .ethernet⟩] "eth0".toList (.obj [])

def writeEth1 : Turn := .write [("network.eth1".toList, .obj [("dhcp".toList, .bool true)])] true

abbrev sampleTurn : Stored Unit → Option Prepared → Turn → Option (Stored Unit × Option Prepared) :=
  Stored.turn Network.Sample.formats Settings.Sample.serde Settings.Sample.rules

abbrev initial : Pool (Stored Unit) (Option Prepared) := Stored.start (Settings.Tree.default ())

def current (p : Pool (Stored Unit) (Option Prepared)) (l : ℕ × Turn) : Prop :=
  ((p.thread l.1).all fun op ↦ p.shared.tree.network == op.read) = true

instance (p : Pool (Stored Unit) (Option Prepared)) (l : ℕ × Turn) : Decidable (current p l) :=
  inferInstanceAs (Decidable (_ = true))

theorem undisturbed_of_current {p : Pool (Stored Unit) (Option Prepared)} {l : ℕ × Turn}
    (h : current p l) :
    Stored.Undisturbed Network.Sample.formats Settings.Sample.serde Settings.Sample.rules p.shared
      (p.thread l.1) l.2 := by
  unfold current at h
  cases hr : p.thread l.1 with
  | none => trivial
  | some op =>
    rw [hr, Option.all_some, beq_iff_eq] at h
    cases l.2 with
    | commit landed => exact fun _ iface _ ↦ by rw [h]
    | _ => trivial

end Sample

theorem sound_iff_undisturbed_eth0 :
    ∃ p q, Pool.Runs Sample.sampleTurn (fun _ _ _ ↦ True) Sample.initial
        [(0, Sample.writeEth1), (1, .read Sample.eth0)] p ∧
      Pool.step Sample.sampleTurn p (1, .commit true) = some q ∧
      Stored.Sound p q (1, .commit true) ∧
      (q.shared.tree.network.get "eth0".toList).isSome = true := by
  obtain ⟨q, hcurrent, heth0⟩ :
      ∃ q, Trace (Pool.step Sample.sampleTurn) Sample.current Sample.initial
      ([(0, Sample.writeEth1), (1, .read Sample.eth0)] ++ [(1, .commit true)]) q ∧
    (q.shared.tree.network.get "eth0".toList).isSome = true := by decide
  have hrun := hcurrent.imp_mem (B := fun _ _ ↦ True) fun _ _ _ _ ↦ trivial
  obtain ⟨p, hp, hlast⟩ := hrun.split
  cases hlast with
  | cons _ hstep htail =>
    cases htail
    exact ⟨p, q, hp, hstep, (sound_iff_undisturbed _ _ _ _ _ q hrun).2
      (hcurrent.imp_mem fun _ _ _ h ↦ Sample.undisturbed_of_current h) _ _ [] p q rfl hp hstep,
      heth0⟩

/-- A write between an operation's reading and writing is undone. -/
theorem not_forall_kept :
    ¬ ∀ (fmt : Formats) (serde : Serde Unit) (rules : Rules Unit) (t : Settings.Tree Unit) (ls : List (ℕ × Turn))
      (q : Pool (Stored Unit) (Option Prepared)) (interface : Text),
      Pool.Runs (Stored.turn fmt serde rules) (fun _ _ _ ↦ True) (Stored.start t) ls q →
      (∀ l ∈ ls, ∀ op, l.2 = .read op → op.interfaces = [interface]) →
      ∀ iface ≠ interface, q.shared.tree.network.get iface = q.shared.last iface := by
  intro h
  obtain ⟨q, hrun, hend⟩ : ∃ q, Pool.Runs Sample.sampleTurn (fun _ _ _ ↦ True) Sample.initial
      [(1, .read Sample.eth0), (0, Sample.writeEth1), (1, .commit true)] q ∧
    q.shared.tree.network.get "eth1".toList = none ∧
    (q.shared.last "eth1".toList).isSome = true := by
    decide
  have hkept := h _ _ _ _ _ q "eth0".toList hrun
    (by simp [Sample.writeEth1, Sample.eth0, Provision.interfaces])
    "eth1".toList (by decide)
  rw [← hkept, hend.1] at hend
  exact absurd hend.2 (by decide)

end MicaCore.Bus
