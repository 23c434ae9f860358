import MicaCore.Network.Applicable
import Mathlib.Data.Finset.Card
import Mathlib.Logic.Relation
import Mathlib.Order.Monotone.Basic

namespace MicaCore.Network

open Data Relation

def BuiltOn (m : NetworkMap) (upper lower : Text) : Prop :=
  ∃ cfg, m.get upper = some cfg ∧
    ((∃ vlan, cfg.vlan = some vlan ∧ vlan.parent = lower) ∨ lower ∈ bridgePortsOf cfg)

def allPorts (entries : List (Text × IfaceSettings)) : List Text :=
  entries.flatMap (bridgePortsOf ·.2)

/-- What an entry is built on: a VLAN on its parent, a bridge on its ports. -/
def lowerOf (m : NetworkMap) (upper : Text) : List Text :=
  match m.get upper with
  | none => []
  | some cfg => (cfg.vlan.map (·.parent)).toList ++ bridgePortsOf cfg

/-- What is found below an entry in `n` steps down parents and ports. -/
def below (m : NetworkMap) (x : Text) : ℕ → List Text
  | 0 => []
  | n + 1 => (x :: below m x n).flatMap (lowerOf m)

/-- No link is built on itself, and each port is in one bridge. -/
structure Buildable (m : NetworkMap) : Prop where
  irreflexive : ∀ x, ¬ BuiltOn m x x
  acyclic : ∀ x, ¬ TransGen (BuiltOn m) x x
  claimed : ∀ bridge cfg port, m.get bridge = some cfg → port ∈ bridgePortsOf cfg →
    (allPorts m.entries).count port = 1

section

variable {fmt : Formats} {m : NetworkMap} {iface port : Text} {claimedBy : OrdMap Text Text}

theorem claimPort_of_portViolations (h : portViolations fmt m iface claimedBy port = []) :
    claimedBy.get port = none ∧ claimPort m iface claimedBy port = claimedBy.insert port iface := by
  unfold portViolations at h
  unfold claimPort
  cases hcfg : m.get port with
  | none => simp [hcfg] at h
  | some cfg =>
    by_cases hkind : cfg.kind = .can
    · simp [hcfg, hkind] at h
    · simp only [hcfg, hkind, if_false, List.append_eq_nil_iff] at h
      cases hclaimed : claimedBy.get port with
      | none => exact ⟨rfl, by simp [hkind]⟩
      | some other => simp [hclaimed] at h

theorem claimPort_keeps (h : claimedBy.get port ≠ none) (p : Text) :
    (claimPort m iface claimedBy p).get port ≠ none := by
  unfold claimPort
  split
  · exact h
  · split
    · exact h
    · rw [OrdMap.get_insert]
      split <;> simp [h]

theorem foldl_claimPort_keeps (h : claimedBy.get port ≠ none) (ports : List Text) :
    (ports.foldl (claimPort m iface) claimedBy).get port ≠ none := by
  induction ports generalizing claimedBy with
  | nil => exact h
  | cons p ports ih => exact ih (claimPort_keeps h p)

theorem of_bridgeViolations {ports : List Text}
    (h : bridgeViolations fmt m iface claimedBy ports = []) :
    ports.Nodup ∧ ∀ p ∈ ports, claimedBy.get p = none ∧
      (ports.foldl (claimPort m iface) claimedBy).get p ≠ none := by
  induction ports generalizing claimedBy with
  | nil => simp
  | cons p ports ih =>
    obtain ⟨hp, hports⟩ := List.append_eq_nil_iff.1 h
    obtain ⟨hfree, hclaim⟩ := claimPort_of_portViolations hp
    obtain ⟨hnodup, hrest⟩ := ih hports
    have hothers : ∀ q ∈ ports, q ≠ p ∧ claimedBy.get q = none := by
      intro q hq
      have hnone := (hrest q hq).1
      rw [hclaim, OrdMap.get_insert] at hnone
      split at hnone
      · cases hnone
      · next hne => exact ⟨hne, hnone⟩
    refine ⟨List.nodup_cons.2 ⟨fun hmem ↦ (hothers p hmem).1 rfl, hnodup⟩, ?_⟩
    refine List.forall_mem_cons.2 ⟨⟨hfree, ?_⟩, fun q hq ↦ ⟨(hothers q hq).2, (hrest q hq).2⟩⟩
    refine foldl_claimPort_keeps ?_ ports
    simp [hclaim, OrdMap.get_insert]

theorem nodup_of_topologyFrom {entries : List (Text × IfaceSettings)}
    (h : topologyFrom fmt m claimedBy entries = []) :
    (allPorts entries).Nodup ∧ ∀ p ∈ allPorts entries, claimedBy.get p = none := by
  induction entries generalizing claimedBy with
  | nil => simp [allPorts]
  | cons e entries ih =>
    obtain ⟨iface, cfg⟩ := e
    simp only [topologyFrom, List.append_eq_nil_iff] at h
    obtain ⟨hnodup, hports⟩ := of_bridgeViolations h.1.2
    obtain ⟨hrest, hfree⟩ := ih h.2
    -- A port that is still free after this bridge is none of its own, and was free before it.
    have hlater : ∀ p ∈ allPorts entries, p ∉ bridgePortsOf cfg ∧ claimedBy.get p = none := by
      intro p hp
      refine ⟨fun hmem ↦ (hports p hmem).2 (hfree p hp), ?_⟩
      by_contra hclaimed
      exact foldl_claimPort_keeps hclaimed _ (hfree p hp)
    simp only [allPorts, List.flatMap_cons] at hrest hlater ⊢
    refine ⟨List.nodup_append.2 ⟨hnodup, hrest, ?_⟩, ?_⟩
    · rintro p hp _ hp' rfl
      exact (hlater p hp').1 hp
    · exact List.forall_mem_append.2 ⟨fun p hp ↦ (hports p hp).1, fun p hp ↦ (hlater p hp).2⟩

theorem parent_of_vlanViolations {cfg : IfaceSettings} {vlan : VlanConfig}
    (h : vlanViolations fmt m iface cfg = []) (hvlan : cfg.vlan = some vlan) :
    m.get vlan.parent ≠ none := by
  intro hnone
  simp [vlanViolations, hvlan, hnone] at h

theorem declared_of_builtOn (h : topologyViolations fmt m = []) {upper lower : Text}
    (hbuilt : BuiltOn m upper lower) : lower ∈ m.keys := by
  obtain ⟨cfg, hget, ⟨vlan, hvlan, rfl⟩ | hport⟩ := hbuilt
  · have hviolations := (of_topologyFrom h (OrdMap.get_eq_some_iff.1 hget)).1
    exact OrdMap.mem_keys.2 (Option.ne_none_iff_exists'.1 (parent_of_vlanViolations hviolations hvlan))
  · obtain ⟨cfg', hcfg', -⟩ := port_of_topologyViolations h hget hport
    exact OrdMap.mem_keys.2 ⟨cfg', hcfg'⟩

theorem builtOn_iff {upper lower : Text} : BuiltOn m upper lower ↔ lower ∈ lowerOf m upper := by
  unfold BuiltOn lowerOf
  cases m.get upper with
  | none => simp
  | some cfg => simp [eq_comm]

theorem transGen_of_below {x y : Text} {n : ℕ} (h : y ∈ below m x n) :
    TransGen (BuiltOn m) x y := by
  induction n generalizing y with
  | zero => cases h
  | succ n ih =>
    obtain ⟨z, hz, hy⟩ := List.mem_flatMap.1 h
    have hbuilt := builtOn_iff.2 hy
    rcases List.mem_cons.1 hz with rfl | hz
    · exact .single hbuilt
    · exact .tail (ih hz) hbuilt

theorem below_of_transGen {x y : Text} (h : TransGen (BuiltOn m) x y) : ∃ n, y ∈ below m x n := by
  induction h with
  | single h => exact ⟨1, List.mem_flatMap.2 ⟨x, List.mem_cons_self, builtOn_iff.1 h⟩⟩
  | tail _ h ih =>
    obtain ⟨n, hn⟩ := ih
    exact ⟨n + 1, List.mem_flatMap.2 ⟨_, List.mem_cons_of_mem _ hn, builtOn_iff.1 h⟩⟩

theorem below_succ_subset {x : Text} {n k : ℕ} (h : below m x n ⊆ below m x k) :
    below m x (n + 1) ⊆ below m x (k + 1) := by
  intro y hy
  obtain ⟨z, hz, hy⟩ := List.mem_flatMap.1 hy
  exact List.mem_flatMap.2 ⟨z, List.cons_subset_cons x h hz, hy⟩

theorem below_subset_succ (x : Text) (n : ℕ) : below m x n ⊆ below m x (n + 1) := by
  induction n with
  | zero => exact List.nil_subset _
  | succ n ih => exact below_succ_subset ih

/-- The walk down from an entry finds all there is below it in as many steps as the map has
entries: each step finds another one, or none is left. -/
theorem below_bounded (h : topologyViolations fmt m = []) (x : Text) (n : ℕ) :
    below m x n ⊆ below m x m.entries.length := by
  have hsubset {n k : ℕ} (hle : below m x n ⊆ below m x k) :
      (below m x n).toFinset ⊆ (below m x k).toFinset :=
    fun y hy ↦ List.mem_toFinset.2 (hle (List.mem_toFinset.1 hy))
  have hsucc (n : ℕ) : (below m x n).toFinset ⊆ (below m x (n + 1)).toFinset :=
    hsubset (below_subset_succ x n)
  have hmono : Monotone fun n ↦ (below m x n).toFinset := monotone_nat_of_le_succ hsucc
  have hbound (n : ℕ) : (below m x n).toFinset.card ≤ m.entries.length := by
    have hkeys : (below m x n).toFinset ⊆ m.keys.toFinset := by
      intro y hy
      obtain ⟨z, -, hbuilt⟩ := TransGen.tail'_iff.1 (transGen_of_below (List.mem_toFinset.1 hy))
      exact List.mem_toFinset.2 (declared_of_builtOn h hbuilt)
    calc (below m x n).toFinset.card ≤ m.keys.toFinset.card := Finset.card_le_card hkeys
      _ ≤ m.keys.length := m.keys.toFinset_card_le
      _ = m.entries.length := List.length_map ..
  have hstable (n : ℕ) (heq : (below m x n).toFinset.card = (below m x (n + 1)).toFinset.card) :
      (below m x (n + 1)).toFinset.card = (below m x (n + 2)).toFinset.card := by
    have hback := Finset.eq_of_subset_of_card_le (hsucc n) heq.ge
    refine le_antisymm (Finset.card_le_card (hsucc _)) (Finset.card_le_card ?_)
    refine hsubset (below_succ_subset fun y hy ↦ ?_)
    exact List.mem_toFinset.1 (hback ▸ List.mem_toFinset.2 hy)
  intro y hy
  have hmax := hmono (le_max_left n m.entries.length) (List.mem_toFinset.2 hy)
  have hcard := Nat.stabilises_of_monotone (fun _ _ hle ↦ Finset.card_le_card (hmono hle))
    hbound hstable
    (le_max_right n m.entries.length)
  rw [← Finset.eq_of_subset_of_card_le (hmono (le_max_right n _)) hcard.le] at hmax
  exact List.mem_toFinset.1 hmax

end

/-- An accepted map can be built just if no entry is found again below itself. -/
theorem buildable_iff (fmt : Formats) (m : NetworkMap) (h : topologyViolations fmt m = []) :
    Buildable m ↔ ∀ x ∈ m.keys, x ∉ below m x m.entries.length := by
  constructor
  · exact fun hbuildable x _ hx ↦ hbuildable.acyclic x (transGen_of_below hx)
  · intro hbelow
    have hacyclic : ∀ x, ¬ TransGen (BuiltOn m) x x := by
      intro x hx
      obtain ⟨n, hn⟩ := below_of_transGen hx
      obtain ⟨z, -, hbuilt⟩ := TransGen.tail'_iff.1 hx
      exact hbelow x (declared_of_builtOn h hbuilt) (below_bounded h x n hn)
    refine ⟨fun x hx ↦ hacyclic x (.single hx), hacyclic, ?_⟩
    intro bridge cfg port hget hport
    refine List.count_eq_one_of_mem (nodup_of_topologyFrom h).1 ?_
    exact List.mem_flatMap.2 ⟨_, OrdMap.get_eq_some_iff.1 hget, hport⟩

namespace Sample

def tagged (parent : String) : NetworkMap :=
  (OrdMap.empty.insert "eth0".toList {}).insert "vlan5".toList
    { kind := .vlan, vlan := some ⟨parent.toList, 5⟩ }

end Sample

theorem buildable_iff_sample : Buildable (Sample.tagged "eth0") :=
  (buildable_iff Sample.formats _ rfl).2 (by decide)

/-- A VLAN may be its own parent. -/
theorem not_forall_buildable : ¬ ∀ fmt m, topologyViolations fmt m = [] → Buildable m := by
  intro h
  exact (h Sample.formats (Sample.tagged "vlan5") rfl).irreflexive "vlan5".toList
    ⟨_, rfl, .inl ⟨_, rfl, rfl⟩⟩

end MicaCore.Network
