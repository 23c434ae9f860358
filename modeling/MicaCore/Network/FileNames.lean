import MicaCore.Network.Apply

namespace MicaCore.Network

open Data

variable (iface : Text)

theorem stripped_pskFile (index : ℕ) :
    ((stripPrefix "wg-".toList (pskFile iface index)).bind
      (stripSuffix ".psk".toList)).bind (rsplitOnce '-') = some (iface, numeral index) := by
  have hname : pskFile iface index =
      "wg-".toList ++ ((iface ++ '-' :: numeral index) ++ ".psk".toList) := by
    simp only [pskFile, List.append_assoc, List.cons_append]
  rw [hname, stripPrefix_append, Option.bind_some, stripSuffix_append, Option.bind_some,
    rsplitOnce_append iface (not_mem_numeral (by decide) index)]

theorem pskIface_pskFile (index : ℕ) : pskIface (pskFile iface index) = some iface := by
  rw [pskIface, stripped_pskFile]
  rfl

theorem pskFile_injective {iface iface' : Text} {index index' : ℕ}
    (h : pskFile iface index = pskFile iface' index') : iface = iface' ∧ index = index' := by
  have hsplit := stripped_pskFile iface' index'
  rw [← h, stripped_pskFile, Option.some.injEq, Prod.mk.injEq] at hsplit
  exact ⟨hsplit.1, numeral_injective hsplit.2⟩

theorem mem_presharedKeys {network : NetworkMap} {k : (Text × ℕ) × Text} :
    k ∈ presharedKeys network ↔ ∃ cfg wireguard peer, network.get k.1.1 = some cfg ∧
      cfg.wireguard = some wireguard ∧ wireguard.peers[k.1.2]? = some peer ∧
        peer.presharedKey = some k.2 := by
  obtain ⟨⟨iface, index⟩, key⟩ := k
  simp only [presharedKeys, List.mem_flatMap]
  constructor
  · rintro ⟨⟨name, cfg⟩, he, hk⟩
    cases hw : cfg.wireguard with
    | none => simp [hw] at hk
    | some wireguard =>
      simp only [hw, Option.elim_some, List.mem_filterMap, Option.map_eq_some_iff] at hk
      obtain ⟨⟨peer, position⟩, hpeer, psk, hpsk, heq⟩ := hk
      cases heq
      exact ⟨cfg, wireguard, peer, OrdMap.get_eq_some_iff.2 he, hw,
        by simpa [List.mem_zipIdx_iff_getElem?] using hpeer, hpsk⟩
  · rintro ⟨cfg, wireguard, peer, hget, hw, hpeer, hpsk⟩
    refine ⟨(iface, cfg), OrdMap.get_eq_some_iff.1 hget, ?_⟩
    simp only [hw, Option.elim_some, List.mem_filterMap, Option.map_eq_some_iff]
    exact ⟨(peer, index), by simpa [List.mem_zipIdx_iff_getElem?] using hpeer, key, hpsk, rfl⟩

theorem snd_lt_of_zipIdx {α : Type} (l : List α) : l.zipIdx.Pairwise fun a b ↦ a.2 < b.2 := by
  refine List.pairwise_map.1 ?_
  rw [List.zipIdx_map_snd]
  exact List.pairwise_lt_range'

theorem pairwise_presharedKeys (network : NetworkMap) :
    (presharedKeys network).Pairwise fun k k' ↦ k.1 ≠ k'.1 := by
  have hiface : ∀ (e : Text × IfaceSettings) (k : (Text × ℕ) × Text),
      k ∈ e.2.wireguard.elim [] (fun wireguard ↦
        wireguard.peers.zipIdx.filterMap fun x ↦ x.1.presharedKey.map ((e.1, x.2), ·)) → k.1.1 = e.1 := by
    intro e k hk
    cases hw : e.2.wireguard with
    | none => simp [hw] at hk
    | some wireguard =>
      simp only [hw, Option.elim_some, List.mem_filterMap, Option.map_eq_some_iff] at hk
      obtain ⟨x, _, psk, _, rfl⟩ := hk
      rfl
  refine List.pairwise_flatMap.2 ⟨fun e _ ↦ ?_,
    network.sorted.imp fun {e e'} hlt k hk k' hk' heq ↦ ?_⟩
  · cases e.2.wireguard with
    | none => exact .nil
    | some wireguard =>
      refine List.Pairwise.filterMap _ (fun x x' hlt k hk k' hk' heq ↦ ?_) (snd_lt_of_zipIdx _)
      obtain ⟨psk, _, rfl⟩ := Option.map_eq_some_iff.1 hk
      obtain ⟨psk', _, rfl⟩ := Option.map_eq_some_iff.1 hk'
      exact absurd (Prod.mk.inj heq).2 (ne_of_lt hlt)
  · have hsame := congrArg Prod.fst heq
    rw [hiface e k hk, hiface e' k' hk'] at hsame
    exact absurd hsame (ne_of_lt hlt)

theorem nodup_pskFiles (network : NetworkMap) :
    ((presharedKeys network).map fun k ↦ pskFile k.1.1 k.1.2).Nodup :=
  List.pairwise_map.2 ((pairwise_presharedKeys network).imp fun hne heq ↦
    hne (Prod.ext (pskFile_injective heq).1 (pskFile_injective heq).2))

theorem isPrefixOf_enclosed (a b c : Text) : a.isPrefixOf (a ++ b ++ c) = true := by
  rw [List.isPrefixOf_iff_prefix, List.append_assoc]
  exact List.prefix_append a (b ++ c)

theorem isSuffixOf_enclosed (a b c : Text) : c.isSuffixOf (a ++ b ++ c) = true :=
  List.isSuffixOf_iff_suffix.2 (List.suffix_append (a ++ b) c)

theorem isMicaManaged_unitName : isMicaManaged (unitName iface) = true := by
  unfold isMicaManaged unitName
  rw [isPrefixOf_enclosed, isSuffixOf_enclosed, Bool.true_or, Bool.and_true, Bool.true_or]

theorem isMicaManaged_netdevName : isMicaManaged (netdevName iface) = true := by
  unfold isMicaManaged netdevName
  rw [isPrefixOf_enclosed, isSuffixOf_enclosed _ _ ".netdev".toList, Bool.or_true, Bool.and_true,
    Bool.true_or]

theorem isMicaManaged_autoUnitName : isMicaManaged (autoUnitName iface) = true := by
  unfold isMicaManaged autoUnitName
  rw [isPrefixOf_enclosed "60-mica-auto-".toList, isSuffixOf_enclosed, Bool.and_true, Bool.or_true]

def AllManaged (files : OrdMap Text Text) : Prop :=
  ∀ name text, files.get name = some text → isMicaManaged name = true

theorem AllManaged.insert {files : OrdMap Text Text} {name text : Text} (h : AllManaged files)
    (hname : isMicaManaged name = true) : AllManaged (files.insert name text) := by
  intro n t hget
  rw [OrdMap.get_insert] at hget
  split at hget
  · next heq => rw [heq, hname]
  · exact h n t hget

theorem AllManaged.foldl {α : Type} {add : OrdMap Text Text → α → OrdMap Text Text}
    (hadd : ∀ files a, AllManaged files → AllManaged (add files a)) (l : List α)
    {files : OrdMap Text Text}
    (h : AllManaged files) : AllManaged (l.foldl add files) := by
  induction l generalizing files with
  | nil => exact h
  | cons a l ih => exact ih (hadd files a h)

theorem allManaged_renderFiles (board : Board) (keys : Keystore) (network : NetworkMap) (ports : List Text) :
    AllManaged (renderFiles board keys network ports) := by
  refine AllManaged.foldl (fun _ port h ↦ h.insert (isMicaManaged_autoUnitName port)) _
    (AllManaged.foldl (fun files e h ↦ ?_) _ fun _ _ h ↦ by simp at h)
  cases renderNetdev e.1 e.2 keys with
  | none => exact h.insert (isMicaManaged_unitName e.1)
  | some netdev => exact (h.insert (isMicaManaged_unitName e.1)).insert (isMicaManaged_netdevName e.1)

theorem netdevName_injective {iface iface' : Text} (h : netdevName iface = netdevName iface') :
    iface = iface' := by
  unfold netdevName at h
  rwa [List.append_left_inj, List.append_right_inj] at h

theorem append_network_ne_netdevName (t iface : Text) :
    t ++ ".network".toList ≠ netdevName iface := by
  have hunit : (t ++ ".network".toList).getLast? = some 'k' :=
    List.getLast?_append_of_ne_nil t (by decide : ".network".toList ≠ [])
  have hdevice : (netdevName iface).getLast? = some 'v' :=
    List.getLast?_append_of_ne_nil _ (by decide : ".netdev".toList ≠ [])
  intro h
  rw [h, hdevice] at hunit
  cases hunit

theorem unitName_ne_netdevName (iface iface' : Text) : netdevName iface ≠ unitName iface' :=
  (append_network_ne_netdevName _ iface).symm

theorem autoUnitName_ne_netdevName (iface port : Text) : netdevName iface ≠ autoUnitName port :=
  (append_network_ne_netdevName _ iface).symm

theorem get_renderFiles_netdevName (board : Board) (keys : Keystore) (network : NetworkMap)
    (ports : List Text) (iface : Text) :
    (renderFiles board keys network ports).get (netdevName iface) =
      (network.get iface).bind fun cfg ↦ renderNetdev iface cfg keys := by
  have hauto : ∀ (ports : List Text) (files : OrdMap Text Text) (text : Text → Text),
      (ports.foldl (fun files port ↦ files.insert (autoUnitName port) (text port)) files).get
        (netdevName iface) = files.get (netdevName iface) := by
    intro ports
    induction ports with
    | nil => exact fun _ _ ↦ rfl
    | cons port ports ih =>
      intro files text
      rw [List.foldl_cons, ih, OrdMap.get_insert, if_neg (autoUnitName_ne_netdevName iface port)]
  have hdeclared : ∀ (entries : List (Text × IfaceSettings)) (files : OrdMap Text Text)
      (text : Text × IfaceSettings → Text), entries.Pairwise (fun a b ↦ a.1 < b.1) →
      (entries.foldl (fun files e ↦ (renderNetdev e.1 e.2 keys).elim (files.insert (unitName e.1) (text e))
        ((files.insert (unitName e.1) (text e)).insert (netdevName e.1))) files).get (netdevName iface) =
          ((OrdMap.find iface entries).bind fun cfg ↦ renderNetdev iface cfg keys).or
            (files.get (netdevName iface)) := by
    intro entries
    induction entries with
    | nil => exact fun _ _ _ ↦ rfl
    | cons e entries ih =>
      intro files text hsorted
      obtain ⟨hlt, hsorted⟩ := List.pairwise_cons.1 hsorted
      rw [List.foldl_cons, ih _ text hsorted]
      have hstep : ((renderNetdev e.1 e.2 keys).elim (files.insert (unitName e.1) (text e))
          ((files.insert (unitName e.1) (text e)).insert (netdevName e.1))).get (netdevName iface) =
          if e.1 = iface then (renderNetdev iface e.2 keys).or (files.get (netdevName iface))
          else files.get (netdevName iface) := by
        split
        · next heq =>
          rw [heq]
          cases renderNetdev iface e.2 keys <;>
            simp [OrdMap.get_insert, unitName_ne_netdevName iface iface]
        · next hne =>
          have hname : netdevName iface ≠ netdevName e.1 := fun h ↦ hne (netdevName_injective h).symm
          cases renderNetdev e.1 e.2 keys <;>
            simp [OrdMap.get_insert, unitName_ne_netdevName iface e.1, hname]
      rw [hstep, OrdMap.find]
      split
      · next heq =>
        rw [OrdMap.find_eq_none_of_forall_ne fun e' he' h ↦ absurd (hlt e' he') (by rw [h, heq]; exact lt_irrefl _)]
        rfl
      · rfl
  unfold renderFiles
  rw [hauto, hdeclared _ _ _ network.sorted, OrdMap.get_empty, Option.or_none]
  rfl

end MicaCore.Network
