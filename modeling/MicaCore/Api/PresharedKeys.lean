import MicaCore.Network.Applicable

namespace MicaCore.Api

open Data Network
open Settings (quotePathSegment)

def sentinel : Text := "<redacted>".toList

structure ApiRefusal where
  status : ℕ
  code : String
  message : String
  path : Text

def ifaceSettingsPath (iface : Text) : Text := "network.".toList ++ quotePathSegment iface

def noStoredKey (iface : Text) (index : ℕ) : ApiRefusal where
  status := 422
  code := "validation_failed"
  message := s!"network.{iface.shown} peer {index} sends `<redacted>` as its preshared key, " ++
    "and no key is stored for that peer to keep"
  path := ifaceSettingsPath iface

def keptKey (stored : List WireguardPeer) (publicKey : Text) : Option Text :=
  (stored.find? (·.publicKey == publicKey)).bind (·.presharedKey)

def restorePeer (iface : Text) (stored : List WireguardPeer) (index : ℕ) (peer : WireguardPeer) :
    Except ApiRefusal WireguardPeer :=
  if peer.presharedKey ≠ some sentinel then .ok peer
  else match keptKey stored peer.publicKey with
    | some kept => .ok { peer with presharedKey := some kept }
    | none => .error (noStoredKey iface index)

def restorePeers (iface : Text) (stored : List WireguardPeer) : ℕ → List WireguardPeer →
    Except ApiRefusal (List WireguardPeer)
  | _, [] => pure []
  | index, peer :: peers => do
    let peer ← restorePeer iface stored index peer
    let peers ← restorePeers iface stored (index + 1) peers
    pure (peer :: peers)

def storedPeers (iface : Text) (stored : NetworkMap) : List WireguardPeer :=
  ((stored.get iface).bind (·.wireguard)).elim [] (·.peers)

def restorePresharedKeys (iface : Text) (cfg : IfaceSettings) (stored : NetworkMap) :
    Except ApiRefusal IfaceSettings :=
  match cfg.wireguard with
  | none => .ok cfg
  | some wireguard => (restorePeers iface (storedPeers iface stored) 0 wireguard.peers).map fun peers ↦
      { cfg with wireguard := some { wireguard with peers := peers } }

def servedPeer (peer : WireguardPeer) : WireguardPeer :=
  { peer with presharedKey := peer.presharedKey.map fun _ ↦ sentinel }

def servedEntry (cfg : IfaceSettings) : IfaceSettings :=
  { cfg with wireguard := cfg.wireguard.map fun wireguard ↦
      { wireguard with peers := wireguard.peers.map servedPeer } }

/-- Sending a map back as it was served changes nothing. -/
def SentBack (m : NetworkMap) : Prop :=
  ∀ iface cfg, m.get iface = some cfg → restorePresharedKeys iface (servedEntry cfg) m = .ok cfg

/-- The first peer of a public key has the preshared key of each peer of that key. -/
def FirstHolds (m : NetworkMap) : Prop :=
  ∀ iface cfg wireguard, m.get iface = some cfg → cfg.wireguard = some wireguard →
    ∀ peer ∈ wireguard.peers, ∀ key, peer.presharedKey = some key →
      ∃ first, wireguard.peers.find? (·.publicKey == peer.publicKey) = some first ∧
      first.presharedKey = some key

section

variable (iface : Text) (stored : List WireguardPeer) (index : ℕ)

theorem restorePeer_servedPeer (peer : WireguardPeer) :
    restorePeer iface stored index (servedPeer peer) = .ok peer ↔
      ∀ key, peer.presharedKey = some key → keptKey stored peer.publicKey = some key := by
  obtain ⟨publicKey, allowedIps, endpoint, keepalive, name, psk⟩ := peer
  cases psk with
  | none => simp [restorePeer, servedPeer]
  | some key =>
    simp only [restorePeer, servedPeer, Option.map_some, ne_eq, not_true, if_false, Option.some.injEq, forall_eq']
    cases hkept : keptKey stored publicKey with
    | none | some => simp

theorem restorePeers_served (peers : List WireguardPeer) :
    restorePeers iface stored index (peers.map servedPeer) = .ok peers ↔
      ∀ peer ∈ peers, ∀ key, peer.presharedKey = some key →
      keptKey stored peer.publicKey = some key := by
  induction peers generalizing index with
  | nil => simp [restorePeers]
  | cons peer peers ih =>
    rw [List.forall_mem_cons, ← restorePeer_servedPeer iface stored index, ← ih (index + 1)]
    simp only [List.map_cons, restorePeers, bind_eq_ok, pure_eq_ok]
    constructor
    · rintro ⟨p, hp, ps, hps, heq⟩
      cases heq
      exact ⟨hp, hps⟩
    · rintro ⟨hp, hps⟩
      exact ⟨peer, hp, peers, hps, rfl⟩

end

/-- A map sent back is kept exactly if the first peer of a key holds what all of them have. -/
theorem sentBack_iff (m : NetworkMap) : SentBack m ↔ FirstHolds m := by
  unfold SentBack FirstHolds
  refine forall₂_congr fun iface cfg ↦ ?_
  rw [forall_comm]
  refine forall_congr' fun hget ↦ ?_
  cases hwireguard : cfg.wireguard with
  | none =>
    have hserved : servedEntry cfg = cfg := by
      unfold servedEntry
      rw [hwireguard, Option.map_none, ← hwireguard]
    simp [restorePresharedKeys, hserved, hwireguard]
  | some wireguard =>
    have hstored : storedPeers iface m = wireguard.peers := by simp [storedPeers, hget, hwireguard]
    have hrestore : restorePresharedKeys iface (servedEntry cfg) m = .ok cfg ↔
        restorePeers iface wireguard.peers 0 (wireguard.peers.map servedPeer) = .ok wireguard.peers := by
      simp only [restorePresharedKeys, servedEntry, hwireguard, Option.map_some, hstored, map_eq_ok]
      constructor
      · rintro ⟨peers, hpeers, heq⟩
        have hsame := congrArg IfaceSettings.wireguard heq
        rw [hwireguard] at hsame
        rw [hpeers, ← Option.some.inj hsame]
      · exact fun h ↦ ⟨_, h, by rw [← hwireguard]⟩
    rw [hrestore, restorePeers_served]
    simp [keptKey, Option.bind_eq_some_iff]

namespace Sample

def tunnel (publicKey publicKey' : Char) : NetworkMap :=
  OrdMap.empty.insert "wg0".toList
    { kind := .wireguard
      wireguard := some
        { peers :=
            [{ publicKey := Network.Sample.key publicKey, presharedKey := some (Network.Sample.key 'x') },
              { publicKey := Network.Sample.key publicKey', presharedKey := some (Network.Sample.key 'y') }] } }

end Sample

theorem sentBack_iff_sample : SentBack (Sample.tunnel 'a' 'b') := by
  refine (sentBack_iff _).2 fun iface cfg wireguard hget hwireguard peer hpeer key hkey ↦ ?_
  simp only [Sample.tunnel, OrdMap.get_insert] at hget
  split at hget
  · cases hget
    cases hwireguard
    rcases List.mem_pair.1 hpeer with rfl | rfl
    · exact ⟨_, rfl, hkey⟩
    · exact ⟨_, rfl, hkey⟩
  · cases hget

/-- The second of two peers with one public key is given the first one's key. -/
theorem not_forall_sentBack : ¬ ∀ fmt m, mapViolations fmt m m.keys = [] → SentBack m := by
  intro h
  have hback := h Network.Sample.formats (Sample.tunnel 'a' 'a') rfl "wg0".toList _ rfl
  have hkeys := congrArg (fun r ↦ (r.toOption.bind (·.wireguard)).map fun w ↦ w.peers.map (·.presharedKey)) hback
  exact absurd hkeys (by decide)

end MicaCore.Api
