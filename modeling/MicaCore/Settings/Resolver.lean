import MicaCore.Network.Applicable
import MicaCore.Settings.Tree

namespace MicaCore.Settings

open Data Network

namespace Tree

variable {ρ : Type} {fmt : Formats} {serde : Serde ρ} {rules : Rules ρ} {t t' : Tree ρ}

/-- The stored resolver settings pass their own check. -/
def Resolvable (fmt : Formats) (t : Tree ρ) : Prop :=
  validateDns fmt t.dns t.hostname t.network = .ok ()

/-- A write that leaves the resolver alone gives no interface a server's address. -/
def Clear (fmt : Formats) (t t' : Tree ρ) : Prop :=
  t'.network ≠ t.network → t'.dns = t.dns →
    Foreign (ownAddresses fmt t'.network) t'.dns.global.servers

variable {path : Text}

theorem refuse_eq_ok {x : Except String Unit} {u : Unit} : refuse path x = .ok u ↔ x = .ok () := by
  cases x <;> simp [refuse]

theorem checksDns_iff : checksDns t t' = true ↔
    t'.dns ≠ t.dns ∨ (t'.hostname ≠ t.hostname ∧ t'.dns.staticRecords ≠ []) ∨
      (t'.network ≠ t.network ∧ t'.dns.global ≠ t.dns.global) := by
  simp [checksDns, or_assoc]

theorem resolvable_of_set {value : Json} (h : t.set serde fmt rules path value = .ok t')
    (hchecked : checksDns t t' = true) : t'.Resolvable fmt := by
  simp only [set, bind_eq_ok, pure_eq_ok, checkWrite, refuse_eq_ok] at h
  obtain ⟨root, -, candidate, -, _, ⟨_, -, _, -, _, hdns, -⟩, rfl⟩ := h
  rw [if_pos hchecked] at hdns
  exact hdns

theorem Resolvable.set_iff {value : Json} (hr : t.Resolvable fmt)
    (h : t.set serde fmt rules path value = .ok t') : t'.Resolvable fmt ↔ Clear fmt t t' := by
  constructor
  · exact fun hr' _ _ ↦ (validateDns_eq_ok.1 hr').2
  · intro hclear
    by_cases hchecked : checksDns t t' = true
    · exact resolvable_of_set h hchecked
    · -- Nothing was checked again: the settings are the old ones, and so are the records' rules.
      simp only [checksDns_iff, not_or, not_and, not_not] at hchecked
      obtain ⟨hdns, hname, -⟩ := hchecked
      obtain ⟨hsound, hforeign⟩ := validateDns_eq_ok.1 hr
      refine validateDns_eq_ok.2 ⟨?_, ?_⟩
      · rw [hdns] at hname ⊢
        exact hsound.of_hostname (or_iff_not_imp_left.2 hname)
      · by_cases hnetwork : t'.network = t.network
        · rwa [hdns, hnetwork]
        · exact hclear hnetwork hdns

inductive Sets (serde : Serde ρ) (fmt : Formats) (rules : Rules ρ) : Tree ρ → List (Tree ρ) → Prop
  | nil (t : Tree ρ) : Sets serde fmt rules t []
  | cons {t t' : Tree ρ} {ts : List (Tree ρ)} (path : Text) (value : Json) :
      t.set serde fmt rules path value = .ok t' → Sets serde fmt rules t' ts → Sets serde fmt rules t (t' :: ts)

theorem Sets.forall_resolvable_iff {ts : List (Tree ρ)} (h : Sets serde fmt rules t ts)
    (hr : t.Resolvable fmt) : (∀ u ∈ ts, u.Resolvable fmt) ↔ (t :: ts).IsChain (Clear fmt) := by
  induction h with
  | nil => simp
  | cons path value hset _ ih =>
    rw [List.forall_mem_cons, List.isChain_cons_cons, ← hr.set_iff hset]
    exact and_congr_right ih

theorem resolvable_default (rest : ρ) : (default rest).Resolvable fmt := rfl

end Tree

/-- The resolver's rules hold of every tree iff no such write gave an interface a server's address. -/
theorem resolvable_iff_isChain_clear {ρ : Type} (fmt : Formats) (serde : Serde ρ)
    (rules : Rules ρ) (rest : ρ)
    (ts : List (Tree ρ)) (h : Tree.Sets serde fmt rules (.default rest) ts) :
    (∀ t ∈ ts, t.Resolvable fmt) ↔ (Tree.default rest :: ts).IsChain (Tree.Clear fmt) :=
  h.forall_resolvable_iff (Tree.resolvable_default rest)

namespace Sample

def serde : Serde Unit where
  iface := Codec.iface
  dns := Codec.dns
  writeRest _ := []
  readRest fs := if fs.isEmpty then some () else none
  readOther _ := none
  message _ := []
  read_write _ := rfl
  sorted _ := .nil
  others _ _ hf := by simp at hf

def rules : Rules Unit := ⟨fun _ r ↦ r, fun _ _ ↦ .ok (), fun _ _ ↦ .ok (), fun _ ↦ rfl⟩

def server : Tree Unit := { Tree.default () with dns := { global := { servers := ["10.0.0.1".toList] } } }

def wired (address : String) : Tree Unit :=
  { server with network := OrdMap.empty.insert "eth0".toList { static := some { address := address.toList } } }

def staticJson (address : String) : Json :=
  .obj [("static".toList, .obj [("address".toList, .str address.toList)])]

theorem sets_wired (address : String)
    (h : server.set serde Network.Sample.formats rules "network.eth0".toList (staticJson address) =
      .ok (wired address)) :
    Tree.Sets serde Network.Sample.formats rules (.default ()) [server, wired address] :=
  .cons "dns.global.servers".toList (.arr [.str "10.0.0.1".toList]) (by decide)
    (.cons "network.eth0".toList (staticJson address) h (.nil _))

end Sample

theorem resolvable_iff_isChain_clear_wired :
    Sample.server.Resolvable Network.Sample.formats ∧
      (Sample.wired "10.0.0.2/24").Resolvable Network.Sample.formats := by
  have hall := (resolvable_iff_isChain_clear Network.Sample.formats Sample.serde Sample.rules () _
    (Sample.sets_wired "10.0.0.2/24" (by decide))).2 ?_
  · exact ⟨hall _ (by simp), hall _ (by simp)⟩
  rw [List.isChain_cons_cons, List.isChain_cons_cons]
  refine ⟨fun h ↦ absurd rfl h, fun _ _ ↦ ?_, .singleton _⟩
  intro server hserver addr haddr
  obtain rfl := List.mem_singleton.1 hserver
  obtain rfl : BitVec.ofNat 32 167772161 = addr := Option.some.inj ((by decide :
    some (BitVec.ofNat 32 167772161) = parseIpv4 "10.0.0.1".toList).trans haddr)
  decide

/-- A server is listed first, and an interface gets its address afterwards. -/
theorem not_forall_resolvable :
    ¬ ∀ (fmt : Formats) (serde : Serde Unit) (rules : Rules Unit) (ts : List (Tree Unit)),
      Tree.Sets serde fmt rules (.default ()) ts → ∀ t ∈ ts, t.Resolvable fmt := by
  intro h
  have hr := h Network.Sample.formats Sample.serde Sample.rules _
    (Sample.sets_wired "10.0.0.1/24" (by decide)) (Sample.wired "10.0.0.1/24") (by simp)
  have hown := (validateDns_eq_ok.1 hr).2 "10.0.0.1".toList
    (by decide) (BitVec.ofNat 32 167772161) (by decide)
  exact hown (by decide)

end MicaCore.Settings
