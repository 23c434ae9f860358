import MicaCore.Network.Settled
import MicaCore.Network.Injection

namespace MicaCore.Network

open Crash Data

variable {dev : Device} {o : Outcomes} {w t : World} {prev network : NetworkMap}

def Names (text : Text) (key : String) (path : Text) : Prop :=
  ∃ ds, readUnit text = some ds ∧ ∃ d ∈ ds, entry key path ∈ d.entries

/-- The files are those that an apply of the map leaves. -/
structure Corresponds (dev : Device) (prev : NetworkMap) (w : World) : Prop where
  valid : validateNetwork dev.fmt prev = .ok ()
  units : ∃ ports, w.managed = renderFiles dev.board dev.keystore prev ports
  keys : ∀ iface ∈ tunnels prev, ∃ key, w.keys.get (keyFile iface) = some key
  psks : Synced (presharedKeys prev) w.psks

/-- The unit files are as they were, and the key files their devices name. -/
structure FilesKept (dev : Device) (w t : World) : Prop where
  units : t.units = w.units
  keys : ∀ iface text name, w.units.get (netdevName iface) = some text →
    Names text "PrivateKeyFile" (dev.keystore.dir.join name) → t.keys.get name = w.keys.get name
  psks : ∀ iface text name, w.units.get (netdevName iface) = some text →
    Names text "PresharedKeyFile" (dev.keystore.pskDir.join name) →
    t.psks.get name = w.psks.get name

theorem Directory.join_injective (dir : Directory) {name name' : Text} (h : dir.join name = dir.join name') :
    name = name' := by
  rw [Directory.join, Directory.join, List.append_right_inj] at h
  exact (List.cons.inj h).2

theorem Corresponds.netdev (h : Corresponds dev prev w) {iface text : Text} :
    w.units.get (netdevName iface) = some text ↔
      ∃ cfg, prev.get iface = some cfg ∧ renderNetdev iface cfg dev.keystore = some text := by
  obtain ⟨ports, hports⟩ := h.units
  have hget := congrArg (OrdMap.get · (netdevName iface)) hports
  simp only [get_managed, isMicaManaged_netdevName, if_true, get_renderFiles_netdevName] at hget
  rw [hget, Option.bind_eq_some_iff]

theorem Corresponds.readUnit (h : Corresponds dev prev w) {iface text : Text} {cfg : IfaceSettings}
    (hget : prev.get iface = some cfg) (htext : renderNetdev iface cfg dev.keystore = some text) :
    ∃ ds, declaredNetdev iface cfg dev.keystore = some ds ∧ readUnit text = some ds := by
  have hread := readUnit_renderNetdev ((validateNetwork_eq_ok.1 h.valid).1 iface cfg hget)
    dev.keystore
  rw [htext, Option.map_some] at hread
  obtain ⟨ds, hds, heq⟩ := Option.map_eq_some_iff.1 hread.symm
  exact ⟨ds, hds, heq.symm⟩

section Named

variable {iface : Text} {cfg : IfaceSettings} {keys : Keystore} {ds : List Declared} {d : Declared}
  {path : Text}

theorem key_of_mem_declaredPeer {index : ℕ} {peer : WireguardPeer} {e : String × List Text}
    (h : e ∈ (declaredPeer iface keys index peer).entries) :
    e.1 ≠ "PrivateKeyFile" ∧
      (e.1 = "PresharedKeyFile" → peer.presharedKey.isSome = true ∧ e.2 = [keys.pskPath iface index]) := by
  simp only [declaredPeer, List.mem_cons, List.mem_append, List.mem_map] at h
  rcases h with rfl | ((h | h) | ⟨_, _, rfl⟩) | ⟨_, _, rfl⟩
  · simp [entry]
  · split at h
    · next hpsk =>
      rw [List.mem_singleton.1 h]
      exact ⟨by simp [entry], fun _ ↦ ⟨hpsk, rfl⟩⟩
    · simp at h
  · split at h
    · simp at h
    · rw [List.mem_singleton.1 h]
      simp
  · simp [entry]
  · simp [entry]

theorem named_of_declaredNetdev (hds : declaredNetdev iface cfg keys = some ds) (hd : d ∈ ds) :
    (entry "PrivateKeyFile" path ∈ d.entries → cfg.kind = .wireguard ∧ path = keys.keyPath iface) ∧
    (entry "PresharedKeyFile" path ∈ d.entries → ∃ wireguard index peer psk,
      cfg.wireguard = some wireguard ∧ wireguard.peers[index]? = some peer ∧
        peer.presharedKey = some psk ∧ path = keys.pskPath iface index) := by
  unfold declaredNetdev at hds
  split at hds
  · cases hds
    rcases List.mem_cons.1 hd with rfl | hd
    · simp [entry]
    · rw [List.mem_singleton.1 hd]
      simp [entry]
  · cases hds
    rw [List.mem_singleton.1 hd]
    simp [entry]
  · next wireguard hkind hwireguard =>
    cases hds
    rcases List.mem_cons.1 hd with rfl | hd
    · simp [entry]
    rcases List.mem_cons.1 hd with rfl | hd
    · constructor
      · simp only [List.mem_cons, List.mem_map]
        rintro (h | ⟨_, _, h⟩)
        · exact ⟨hkind, by simpa [entry] using h⟩
        · simp [entry] at h
      · simp only [List.mem_cons, List.mem_map]
        rintro (h | ⟨_, _, h⟩) <;> simp [entry] at h
    · obtain ⟨⟨peer, index⟩, hmem, rfl⟩ := List.mem_map.1 hd
      refine ⟨fun h ↦ absurd rfl (key_of_mem_declaredPeer h).1, fun h ↦ ?_⟩
      obtain ⟨hsome, heq⟩ := (key_of_mem_declaredPeer h).2 rfl
      obtain ⟨psk, hpsk⟩ := Option.isSome_iff_exists.1 hsome
      exact ⟨wireguard, index, peer, psk, hwireguard,
        by simpa [List.mem_zipIdx_iff_getElem?] using hmem, hpsk, (List.cons.inj heq).1⟩
  · cases hds

theorem declaredNetdev_psk {wireguard : WireguardConfig} {index : ℕ} {peer : WireguardPeer} {psk : Text}
    (hkind : cfg.kind = .wireguard) (hwireguard : cfg.wireguard = some wireguard)
    (hpeer : wireguard.peers[index]? = some peer) (hpsk : peer.presharedKey = some psk) :
    ∃ ds, declaredNetdev iface cfg keys = some ds ∧
      ∃ d ∈ ds, entry "PresharedKeyFile" (keys.pskPath iface index) ∈ d.entries := by
  unfold declaredNetdev
  rw [hkind, hwireguard]
  refine ⟨_, rfl, declaredPeer iface keys index peer, ?_, ?_⟩
  · refine List.mem_cons_of_mem _ (List.mem_cons_of_mem _ (List.mem_map.2 ⟨(peer, index), ?_, rfl⟩))
    simpa [List.mem_zipIdx_iff_getElem?] using hpeer
  · simp [declaredPeer, hpsk]

end Named

theorem mem_tunnels {iface : Text} {cfg : IfaceSettings} (hget : network.get iface = some cfg)
    (hkind : cfg.kind = .wireguard) : iface ∈ tunnels network :=
  List.mem_map.2 ⟨(iface, cfg), List.mem_filter.2 ⟨OrdMap.get_eq_some_iff.1 hget, by simp [hkind]⟩, rfl⟩

theorem Corresponds.filesKept_iff (h : Corresponds dev prev w) (hunits : t.units = w.units)
    (hsynced : Synced (presharedKeys network) t.psks)
    (hkeys : ∀ name key, w.keys.get name = some key → t.keys.get name = some key) :
    FilesKept dev w t ↔ ∀ k ∈ presharedKeys prev, k ∈ presharedKeys network := by
  constructor
  · rintro hkept k hk
    obtain ⟨cfg, wireguard, peer, hget, hwireguard, hpeer, hpsk⟩ := mem_presharedKeys.1 hk
    have hentry := validateEntry_eq_ok.1 ((validateNetwork_eq_ok.1 h.valid).1 _ _ hget)
    have hkind : cfg.kind = .wireguard := (validateKindBlocks_eq_ok.1 hentry.2.2.2.1).2.2.1.1
      (by simp [hwireguard])
    obtain ⟨ds, hds, d, hd, hnamed⟩ : ∃ ds, declaredNetdev k.1.1 cfg dev.keystore = some ds ∧ _ :=
      declaredNetdev_psk hkind hwireguard hpeer hpsk
    obtain ⟨text, htext⟩ : ∃ text, renderNetdev k.1.1 cfg dev.keystore = some text := by
      rw [renderNetdev_eq, hds]
      exact ⟨_, rfl⟩
    obtain ⟨ds', hds', hread⟩ := h.readUnit hget htext
    obtain rfl : ds = ds' := Option.some.inj (hds.symm.trans hds')
    have hsame : t.psks.get (pskFile k.1.1 k.1.2) = some k.2 := by
      rw [hkept.psks k.1.1 text (pskFile k.1.1 k.1.2) (h.netdev.2 ⟨cfg, hget, htext⟩)
        ⟨ds, hread, d, hd, hnamed⟩, h.psks.held k hk]
    by_contra hnot
    have hgone := hsynced.gone (pskFile k.1.1 k.1.2)
      (by simp [pskIface_pskFile]) fun k' hk' hname ↦ by
      have hplace : k'.1 = k.1 := Prod.ext (pskFile_injective hname).1 (pskFile_injective hname).2
      have hheld := hsynced.held k' hk'
      rw [hname, hsame] at hheld
      exact hnot (Prod.ext hplace (Option.some.inj hheld).symm ▸ hk')
    rw [hsame] at hgone
    cases hgone
  · intro hall
    refine ⟨hunits, fun iface text name htext hnames ↦ ?_, fun iface text name htext hnames ↦ ?_⟩
    all_goals
      obtain ⟨cfg, hget, hrender⟩ := h.netdev.1 htext
      obtain ⟨ds, hds, hread⟩ := h.readUnit hget hrender
      obtain ⟨ds', hread', d, hd, hnamed⟩ := hnames
      obtain rfl : ds = ds' := Option.some.inj (hread.symm.trans hread')
    · obtain ⟨hkind, hpath⟩ := (named_of_declaredNetdev hds hd).1 hnamed
      rw [Directory.join_injective _ hpath]
      obtain ⟨key, hkey⟩ := h.keys iface (mem_tunnels hget hkind)
      rw [hkey, hkeys _ key hkey]
    · obtain ⟨wireguard, index, peer, psk, hwireguard, hpeer, hpsk, hpath⟩ :=
        (named_of_declaredNetdev hds hd).2 hnamed
      rw [Directory.join_injective _ hpath]
      have hk : ((iface, index), psk) ∈ presharedKeys prev :=
        mem_presharedKeys.2 ⟨cfg, wireguard, peer, hget, hwireguard, hpeer, hpsk⟩
      have hbefore := h.psks.held _ hk
      have hafter := hsynced.held _ (hall _ hk)
      exact hafter.trans hbefore.symm

/-- A rolled-back apply leaves its files iff the new map has every preshared key of the old. -/
theorem filesKept_of_rolledBack (dev : Device) (o : Outcomes) (prev network : NetworkMap) (w : World)
    (reason : String) (h : Corresponds dev prev w)
    (hresult : (writeAndSettle dev o network w).result = .error (.rolledBack reason)) :
    FilesKept dev w ((writeAndSettle dev o network).last w) ↔
      ∀ k ∈ presharedKeys prev, k ∈ presharedKeys network := by
  have hsettled : Settled dev o network w (writeAndSettle dev o network w).result
      ((writeAndSettle dev o network).last w) := writeAndSettle_settled.2
  obtain ⟨-, -, hunits, hsynced, hkeys, -⟩ := hsettled.rolledBack reason hresult
  exact h.filesKept_iff hunits hsynced hkeys

namespace Sample

def tunnel (port : ℕ) (psk : Char) : NetworkMap :=
  OrdMap.empty.insert "wg0".toList {
    kind := .wireguard,
    wireguard := some {
      listenPort := some port,
      peers := [{ publicKey := key 'a', presharedKey := some (key psk) }] } }

def device : Device := ⟨formats, .discover, keys, some⟩

def down : Outcomes := { drawn := fun _ ↦ [], settles := fun _ ↦ .error "wg0 is down" }

def established (port : ℕ) (psk : Char) : World where
  units := renderFiles .discover keys (tunnel port psk) []
  keys := OrdMap.empty.insert (keyFile "wg0".toList) (key 'k')
  psks := OrdMap.empty.insert (pskFile "wg0".toList 0) (key psk)
  applied := true

theorem corresponds_established : Corresponds device (tunnel 1 'b') (established 1 'b') where
  valid := rfl
  units := ⟨[], managed_of_allManaged (allManaged_renderFiles _ _ _ _)⟩
  keys iface hiface := by
    obtain rfl := List.mem_singleton.1 hiface
    exact ⟨_, rfl⟩
  psks := by
    refine ⟨fun k hk ↦ ?_, fun name _ hnot ↦ ?_⟩
    · obtain rfl := List.mem_singleton.1 hk
      rfl
    · rw [established, OrdMap.get_insert, if_neg]
      · rfl
      · exact fun h ↦ hnot _ (List.mem_singleton_self _) h.symm

end Sample

theorem filesKept_of_rolledBack_tunnel :
    FilesKept Sample.device (Sample.established 1 'b')
      ((writeAndSettle Sample.device Sample.down (Sample.tunnel 2 'b')).last (Sample.established 1 'b')) :=
  (filesKept_of_rolledBack Sample.device Sample.down (Sample.tunnel 1 'b') (Sample.tunnel 2 'b')
    (Sample.established 1 'b') "wg0 is down" Sample.corresponds_established rfl).2 (by decide)

/-- The failed map's preshared key stays in the old one's place. -/
theorem not_forall_filesKept :
    ¬ ∀ (dev : Device) (o : Outcomes) (prev network : NetworkMap) (w : World) (reason : String),
      Corresponds dev prev w →
      (writeAndSettle dev o network w).result = .error (.rolledBack reason) →
        FilesKept dev w ((writeAndSettle dev o network).last w) := by
  intro h
  have hresult : (writeAndSettle Sample.device Sample.down (Sample.tunnel 2 'c')
      (Sample.established 1 'b')).result = .error (.rolledBack "wg0 is down") := rfl
  have hkept := h Sample.device Sample.down (Sample.tunnel 1 'b') (Sample.tunnel 2 'c')
    (Sample.established 1 'b') "wg0 is down" Sample.corresponds_established hresult
  have hsettled : Settled Sample.device Sample.down (Sample.tunnel 2 'c') (Sample.established 1 'b')
      (writeAndSettle Sample.device Sample.down (Sample.tunnel 2 'c') (Sample.established 1 'b')).result
      ((writeAndSettle Sample.device Sample.down (Sample.tunnel 2 'c')).last (Sample.established 1 'b')) :=
    writeAndSettle_settled.2
  obtain ⟨-, -, hunits, hsynced, hkeys, -⟩ := hsettled.rolledBack _ hresult
  exact absurd ((Sample.corresponds_established.filesKept_iff hunits hsynced hkeys).1 hkept) (by decide)

end MicaCore.Network
