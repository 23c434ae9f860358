import MicaCore.Bus.Overlap
import MicaCore.Settings.Resolver

namespace MicaCore.Settings

open Data Network Fields
open Bus (Comparable segments segments_eq_some)

section Objects

variable {α : Type} {c : Codec α}

theorem find_map_write (c : Codec α) (l : List (Text × α)) (k : Text) :
    OrdMap.find k (l.map fun e ↦ (e.1, c.write e.2)) = (OrdMap.find k l).map c.write := by
  induction l with
  | nil => rfl
  | cons e l ih =>
    obtain ⟨k', a⟩ := e
    simp only [List.map_cons, OrdMap.find]
    split
    · rfl
    · exact ih

theorem find_of_mapM {fs : Fields} {l : List (Text × α)}
    (h : fs.mapM (fun f ↦ (c.read f.2).map (f.1, ·)) = some l) (k : Text) :
    OrdMap.find k l = (OrdMap.find k fs).bind c.read ∧ l.map Prod.fst = fs.map Prod.fst := by
  induction fs generalizing l with
  | nil =>
    obtain rfl : [] = l := by simpa using h
    exact ⟨rfl, rfl⟩
  | cons f fs ih =>
    obtain ⟨name, value⟩ := f
    simp only [List.mapM_cons, Option.bind_eq_bind, Option.bind_eq_some_iff, Option.map_eq_some_iff,
      Option.pure_def, Option.some.injEq] at h
    obtain ⟨_, ⟨a, ha, rfl⟩, rest, hrest, rfl⟩ := h
    obtain ⟨hfind, hkeys⟩ := ih hrest
    refine ⟨?_, by simp [hkeys]⟩
    simp only [OrdMap.find]
    split
    · simp [ha]
    · exact hfind

theorem get_of_readMap {fs : Fields} {m : OrdMap Text α} (hsorted : fs.Pairwise fun a b ↦ a.1 < b.1)
    (h : c.map.read (.obj fs) = some m) (k : Text) : m.get k = (OrdMap.find k fs).bind c.read := by
  obtain ⟨l, hl, rfl⟩ := Option.map_eq_some_iff.1 h
  obtain ⟨hfind, hkeys⟩ := find_of_mapM hl k
  have hl' : l.Pairwise fun a b ↦ a.1 < b.1 := by
    rw [← List.pairwise_map, hkeys, List.pairwise_map]
    exact hsorted
  rw [OrdMap.get_ofList hl', hfind]

theorem filter_insertEntry {p : Text × Json → Bool} {k : Text} (hk : ∀ v, p (k, v) = false) (value : Json)
    (fs : Fields) : (OrdMap.insertEntry k value fs).filter p = fs.filter p := by
  induction fs with
  | nil => simp [OrdMap.insertEntry, hk]
  | cons f fs ih =>
    obtain ⟨name, v⟩ := f
    rw [OrdMap.insertEntry]
    split
    · rw [List.filter_cons, hk]
      rfl
    · split
      · next heq =>
        rw [List.filter_cons, List.filter_cons, hk, heq, hk]
        rfl
      · rw [List.filter_cons, List.filter_cons, ih]

end Objects

namespace Tree

variable {ρ : Type} {fmt : Formats} {serde : Serde ρ} {rules : Rules ρ} {t t' : Tree ρ}

theorem find_fields (t : Tree ρ) (k : Text) :
    OrdMap.find k (t.fields serde) =
      if k = "dns".toList then some (serde.dns.write t.dns)
      else if k = "hostname".toList then some (.str t.hostname)
      else if k = "network".toList then some (serde.iface.map.write t.network)
      else OrdMap.find k (serde.writeRest t.rest) := by
  rw [fields, OrdMap.find_insertEntry, OrdMap.find_insertEntry, OrdMap.find_insertEntry]
  congr

variable {path : Text} {value : Json}

theorem set_eq_ok (h : t.set serde fmt rules path value = .ok t') :
    ∃ root c, t.written serde path value = .ok root ∧ ofJson serde root = some c ∧
      t' = { c with rest := rules.tidy t.rest c.rest } := by
  simp only [set, bind_eq_ok, pure_eq_ok, orError_eq_ok] at h
  obtain ⟨root, hroot, c, hc, _, -, rfl⟩ := h
  exact ⟨root, c, hroot, hc, rfl⟩

theorem network_of_ofJson {fs : Fields} {c : Tree ρ} (h : ofJson serde (.obj fs) = some c) :
    ((OrdMap.find "network".toList fs).bind serde.iface.map.read) = some c.network := by
  simp only [ofJson, Option.bind_eq_bind, Option.bind_eq_some_iff, Option.some.injEq] at h
  obtain ⟨_, -, network, hnetwork, _, -, _, -, rfl⟩ := h
  exact hnetwork

theorem get_network_of_set {ss : List Text} {iface : Text}
    (h : t.set serde fmt rules path value = .ok t') (hss : segments path = some ss)
    (hnot : ¬ Comparable ss ["network".toList, iface]) :
    t'.network.get iface = t.network.get iface := by
  obtain ⟨root, c, hroot, hc, rfl⟩ := set_eq_ok h
  rcases segments_eq_some.1 hss with ⟨-, rfl⟩ | hsplit
  · exact absurd (.inl List.nil_prefix) hnot
  rw [written, if_neg (by simp [isRoot_eq_false hsplit]), hsplit] at hroot
  cases ss with
  | nil => exact absurd (.inl List.nil_prefix) hnot
  | cons s rest =>
    obtain ⟨child, rfl, -, hbelow⟩ := setBelow_obj hroot
    have hnetwork := network_of_ofJson hc
    rw [OrdMap.find_insertEntry, find_fields] at hnetwork
    by_cases hs : "network".toList = s
    · subst hs
      cases rest with
      | nil => exact absurd (.inl ⟨[iface], rfl⟩) hnot
      | cons k rest =>
        obtain ⟨walked, hchild⟩ := hbelow (by simp)
        rw [find_fields] at hchild
        obtain ⟨grandchild, rfl, -, -⟩ := setBelow_obj hchild
        have hk : iface ≠ k := fun heq ↦ hnot (.inr ⟨rest, by simp [heq]⟩)
        rw [if_pos rfl, Option.bind_some] at hnetwork
        have hsorted : (t.network.entries.map fun e ↦ (e.1, serde.iface.write e.2)).Pairwise
            fun a b ↦ a.1 < b.1 := List.pairwise_map.2 t.network.sorted
        rw [get_of_readMap (OrdMap.sorted_insertEntry _ _ hsorted) hnetwork,
          OrdMap.find_insertEntry, if_neg hk, find_map_write]
        change (((t.network.get iface).map serde.iface.write).bind serde.iface.read) = t.network.get iface
        cases t.network.get iface <;> simp
    · rw [if_neg hs] at hnetwork
      have hsame : some t.network = some c.network := by
        simpa using hnetwork
      rw [← Option.some.inj hsame]

theorem segments_of_set (h : t.set serde fmt rules path value = .ok t') :
    ∃ ss, segments path = some ss := by
  obtain ⟨root, -, hroot, -, -⟩ := set_eq_ok h
  rw [written] at hroot
  split at hroot
  · next hr => exact ⟨[], segments_eq_some.2 (.inl ⟨hr, rfl⟩)⟩
  · obtain ⟨ss, hsplit, -⟩ := bind_eq_ok.1 hroot
    exact ⟨ss, segments_eq_some.2 (.inr hsplit)⟩

theorem filter_writeRest (r : ρ) :
    (serde.writeRest r).filter (fun f ↦ !ownFields.contains (String.ofList f.1)) =
      serde.writeRest r := by
  refine List.filter_eq_self.2 fun f hf ↦ ?_
  simpa using serde.others r f hf

theorem ofJson_insert_network (t : Tree ρ) (network : NetworkMap) :
    ofJson serde (.obj (OrdMap.insertEntry "network".toList (serde.iface.map.write network) (t.fields serde))) =
      some { t with network := network } := by
  have hfind (k : Text) := OrdMap.find_insertEntry "network".toList k
    (serde.iface.map.write network)
  have hrest : (OrdMap.insertEntry "network".toList (serde.iface.map.write network) (t.fields serde)).filter
      (fun f ↦ !ownFields.contains (String.ofList f.1)) = serde.writeRest t.rest := by
    have hown : ∀ k ∈ ownFields, ∀ v : Json, (!ownFields.contains (String.ofList (k.toList, v).1)) = false := by
      simp [ownFields]
    rw [filter_insertEntry (hown "network" (by decide)), fields, filter_insertEntry (hown "dns" (by decide)),
      filter_insertEntry (hown "hostname" (by decide)), filter_insertEntry (hown "network" (by decide)),
      filter_writeRest]
  simp only [ofJson, hrest, required, defaulted, lookup, hfind, find_fields]
  simp [serde.read_write, Codec.text, Codec.readText]

theorem set_network {network : NetworkMap}
    (h : t.set serde fmt rules "network".toList (serde.iface.map.write network) = .ok t') :
    t' = { t with network := network } := by
  obtain ⟨root, c, hroot, hc, rfl⟩ := set_eq_ok h
  have hsplit : splitPath "network".toList = .ok ["network".toList] := by decide
  obtain rfl : Json.obj (OrdMap.insertEntry "network".toList (serde.iface.map.write network) (t.fields serde)) =
      root := by
    rw [written, if_neg (by decide), hsplit] at hroot
    simpa [bind, Except.bind, jsonPathSet, toJson, setBelow] using hroot
  rw [ofJson_insert_network] at hc
  cases hc
  simp [rules.tidy_self]

end Tree

end MicaCore.Settings
