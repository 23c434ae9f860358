import MicaCore.Network.Applicable
import Mathlib.Data.Set.Lattice
import Mathlib.Order.CompletePartialOrder

namespace MicaCore.Network

open Data

def addressValue (address : Text) : BitVec 32 :=
  BitVec.ofNat 32 ((address.splitOn '.').foldl (fun n octet ↦ n * 256 + decimal octet) 0)

/-- The static subnet of an entry, with octets read as decimal numbers. -/
def IfaceSettings.subnet (cfg : IfaceSettings) : Option (BitVec 32 × ℕ) :=
  if cfg.dhcp then none
  else cfg.static.bind fun static ↦
    if validCidr static.address then
      (splitOnce '/' static.address).map fun (address, bits) ↦ (addressValue address, decimal bits)
    else none

def subnetAddresses (s : BitVec 32 × ℕ) : Set (BitVec 32) := {x | x &&& mask s.2 = s.1 &&& mask s.2}

def isDefaultRoute (fmt : Formats) (route : RouteConfig) : Bool :=
  match splitOnce '/' route.destination with
  | some (address, bits) => (parseIp fmt address).isSome && parseUnsigned 255 bits == some 0
  | none => false

/-- The maps that writes lead to: each passes with what it changes among the carried. -/
inductive StoredMap (fmt : Formats) : NetworkMap → Prop
  | empty : StoredMap fmt .empty
  | write {m m' : NetworkMap} {carried : List Text} : StoredMap fmt m →
      (∀ iface cfg, m'.get iface = some cfg → m.get iface ≠ some cfg → iface ∈ carried) →
      mapViolations fmt m' carried = [] → StoredMap fmt m'

/-- No two entries collide, and every static gateway is on its entry's subnet. -/
structure Apart (fmt : Formats) (m : NetworkMap) : Prop where
  subnets : ∀ i j c c', i ≠ j → m.get i = some c → m.get j = some c' → ∀ s s',
    c.subnet = some s → c'.subnet = some s' → Disjoint (subnetAddresses s) (subnetAddresses s')
  metrics : ∀ i j c c', i ≠ j → m.get i = some c → m.get j = some c' →
    ∀ r ∈ c.routes, ∀ r' ∈ c'.routes,
    isDefaultRoute fmt r = true → isDefaultRoute fmt r' = true → ∀ n, r.metric = some n →
    r'.metric ≠ some n
  vlans : ∀ i j c c', i ≠ j → m.get i = some c → m.get j = some c' → ∀ v v',
    c.vlan = some v → c'.vlan = some v' → (v.parent, v.id) ≠ (v'.parent, v'.id)
  ports : ∀ i j c c', i ≠ j → m.get i = some c → m.get j = some c' → ∀ w w',
    c.wireguard = some w → c'.wireguard = some w' → ∀ p, w.listenPort = some p →
    w'.listenPort ≠ some p
  gateways : ∀ i c, m.get i = some c → c.dhcp = false → ∀ gateway, c.staticGateway = some gateway →
    validIpv4 gateway = true → ∃ s, c.subnet = some s ∧ addressValue gateway ∈ subnetAddresses s

/-- Octets and default routes in plain form, and a gateway beside an address. -/
structure PlainSpelling (fmt : Formats) (cfg : IfaceSettings) : Prop where
  address : ∀ static, cfg.static = some static → canonical (splitCidr static.address).1 = true
  gateway : ∀ gateway, cfg.staticGateway = some gateway → canonical gateway = true
  routes : ∀ route ∈ cfg.routes, isDefaultRoute fmt route = true →
    isDefaultDestination route.destination = true
  beside : ∀ static, cfg.static = some static → static.gateway.isSome = true → static.address ≠ []

section Collisions

variable {α : Type} {items : List (Text × α)} {carried : List Text} {collide : α → α → Bool}

theorem collisionAt_of_foldl {pairs found : List (ℕ × ℕ)} (h : pairs.foldl (fun found pair ↦
      match collisionAt items carried collide pair.1 pair.2 with
      | some report => if found.any (·.1 == report.1) then found else found ++ [report]
      | none => found) found = []) :
    found = [] ∧ ∀ pair ∈ pairs, collisionAt items carried collide pair.1 pair.2 = none := by
  induction pairs generalizing found with
  | nil => exact ⟨h, by simp⟩
  | cons pair pairs ih =>
    obtain ⟨hstep, hrest⟩ := ih h
    cases hat : collisionAt items carried collide pair.1 pair.2 with
    | none => exact ⟨by simpa [hat] using hstep, List.forall_mem_cons.2 ⟨hat, hrest⟩⟩
    | some report =>
      simp only [hat] at hstep
      split at hstep
      · next hany => simp [hstep] at hany
      · simp at hstep

theorem reports_of_foldl {pairs found : List (ℕ × ℕ)} {P : ℕ × ℕ → Prop} (hfound : ∀ r ∈ found, P r)
    (hpairs : ∀ (pair : ℕ × ℕ) r, collisionAt items carried collide pair.1 pair.2 = some r → P r) :
    ∀ r ∈ pairs.foldl (fun found pair ↦
      match collisionAt items carried collide pair.1 pair.2 with
      | some report => if found.any (·.1 == report.1) then found else found ++ [report]
      | none => found) found, P r := by
  induction pairs generalizing found with
  | nil => exact hfound
  | cons pair pairs ih =>
    refine ih ?_
    beta_reduce
    split
    · next report hat =>
      split
      · exact hfound
      · refine List.forall_mem_append.2 ⟨hfound, fun r hr ↦ ?_⟩
        exact List.mem_singleton.1 hr ▸ hpairs pair report hat
    · exact hfound

theorem items_of_collisionAt {pair r : ℕ × ℕ}
    (h : collisionAt items carried collide pair.1 pair.2 = some r) :
    ∃ own other, items[r.1]? = some own ∧ items[r.2]? = some other := by
  simp only [collisionAt, Option.bind_eq_bind, Option.bind_eq_some_iff] at h
  obtain ⟨e, he, l, hl, h⟩ := h
  split at h
  · cases h
  · split at h
    · cases h
      exact ⟨l, e, hl, he⟩
    · split at h
      · cases h
        exact ⟨e, l, he, hl⟩
      · cases h

variable {violation : Text × α → Text × α → NetworkViolation}

theorem collisions_of_violations (h : collisionViolations items carried collide violation = []) :
    collisions items carried collide = [] := by
  rw [collisionViolations, List.filterMap_eq_nil_iff] at h
  refine List.eq_nil_iff_forall_not_mem.2 fun r hr ↦ ?_
  have hitems := reports_of_foldl (P := fun r ↦ ∃ own other, items[r.1]? = some own ∧
    items[r.2]? = some other)
    (by simp) (fun _ _ ↦ items_of_collisionAt) r hr
  obtain ⟨own, other, hown, hother⟩ := hitems
  simpa [hown, hother] using h r hr

theorem collide_at {p q : ℕ} {i j : Text} {a b : α} (h : collisions items carried collide = [])
    (hlt : p < q) (hp : items[p]? = some (i, a)) (hq : items[q]? = some (j, b))
    (hcarried : i ∈ carried ∨ j ∈ carried) : collide a b = false := by
  have hlen : q < items.length := (List.getElem?_eq_some_iff.1 hq).1
  have hmem : (p, q) ∈ (List.range items.length).flatMap fun later ↦
      (List.range later).map fun earlier ↦ (earlier, later) := by
    simp only [List.mem_flatMap, List.mem_range, List.mem_map]
    exact ⟨q, hlen, p, hlt, rfl⟩
  have hnone := (collisionAt_of_foldl h).2 _ hmem
  by_contra hcollide
  rw [Bool.not_eq_false] at hcollide
  simp only [collisionAt, hp, hq, Option.bind_eq_bind, Option.bind_some, hcollide, Bool.not_true,
    Bool.false_eq_true, if_false] at hnone
  rcases hcarried with hi | hj
  · split at hnone <;> simp [hi] at hnone
  · simp [hj] at hnone

theorem collide_eq_false {i j : Text} {a b : α}
    (h : collisionViolations items carried collide violation = [])
    (hsymm : ∀ a b, collide a b = collide b a) (ha : (i, a) ∈ items) (hb : (j, b) ∈ items)
    (hne : i ≠ j) (hcarried : i ∈ carried ∨ j ∈ carried) : collide a b = false := by
  have hnone := collisions_of_violations h
  obtain ⟨p, hp⟩ := List.mem_iff_getElem?.1 ha
  obtain ⟨q, hq⟩ := List.mem_iff_getElem?.1 hb
  rcases Nat.lt_trichotomy p q with hlt | rfl | hlt
  · exact collide_at hnone hlt hp hq hcarried
  · rw [hp] at hq
    cases hq
    exact absurd rfl hne
  · rw [hsymm]
    exact collide_at hnone hlt hq hp hcarried.symm

def Separate (of : IfaceSettings → List α) (collide : α → α → Bool) (m : NetworkMap) : Prop :=
  ∀ i j c c', i ≠ j → m.get i = some c → m.get j = some c' →
    ∀ a ∈ of c, ∀ b ∈ of c', collide a b = false

theorem Separate.write {of : IfaceSettings → List α} {m m' : NetworkMap}
    (hold : Separate of collide m) (hsymm : ∀ a b, collide a b = collide b a)
    (hcarried : ∀ iface cfg, m'.get iface = some cfg → m.get iface ≠ some cfg → iface ∈ carried)
    (hitems : ∀ i c a, m'.get i = some c → a ∈ of c → (i, a) ∈ items)
    (h : collisionViolations items carried collide violation = []) : Separate of collide m' := by
  intro i j c c' hne hi hj a ha b hb
  by_cases hold' : i ∈ carried ∨ j ∈ carried
  · exact collide_eq_false h hsymm (hitems i c a hi ha) (hitems j c' b hj hb) hne hold'
  · -- Neither is carried, so both stand in the map before as they do now.
    rw [not_or] at hold'
    have hi' : m.get i = some c := by_contra fun hnot ↦ hold'.1 (hcarried i c hi hnot)
    have hj' : m.get j = some c' := by_contra fun hnot ↦ hold'.2 (hcarried j c' hj hnot)
    exact hold i j c c' hne hi' hj' a ha b hb

end Collisions

section Subnets

theorem mask_and_mask (p q : ℕ) : mask p &&& mask q = mask (min p q) := by
  refine BitVec.eq_of_getLsbD_eq fun i hi ↦ ?_
  simp only [mask, BitVec.getLsbD_and, BitVec.getLsbD_shiftLeft, BitVec.getLsbD_allOnes]
  rw [Bool.eq_iff_iff]
  simp only [Bool.and_eq_true, decide_eq_true_eq, Bool.not_eq_true', decide_eq_false_iff_not]
  omega

theorem and_mask_min {x a : BitVec 32} {p : ℕ} (h : x &&& mask p = a &&& mask p) (q : ℕ) :
    x &&& mask (min p q) = a &&& mask (min p q) := by
  rw [← mask_and_mask, ← BitVec.and_assoc, h, BitVec.and_assoc]

theorem disjoint_of_overlap {a b : BitVec 32 × ℕ} (h : overlap a b = false) :
    Disjoint (subnetAddresses a) (subnetAddresses b) := by
  refine Set.disjoint_left.2 fun x ha hb ↦ ?_
  have hb' := and_mask_min hb a.2
  rw [min_comm] at hb'
  simp [overlap, ← and_mask_min ha b.2, hb'] at h

theorem overlap_comm (a b : BitVec 32 × ℕ) : overlap a b = overlap b a := by
  rw [overlap, overlap, min_comm, Bool.beq_comm]

theorem map_decimal_of_mapM {octets : List Text} {ns : List ℕ}
    (h : octets.mapM parseOctet = some ns) :
    octets.map decimal = ns := by
  induction octets generalizing ns with
  | nil => simpa using h
  | cons octet octets ih =>
    simp only [List.mapM_cons, Option.bind_eq_bind, Option.bind_eq_some_iff, Option.pure_def,
      Option.some.injEq] at h
    obtain ⟨n, hn, rest, hrest, rfl⟩ := h
    simp only [parseOctet, Option.ite_none_right_eq_some] at hn
    rw [List.map_cons, ih hrest, (parseDigits_eq_some.1 hn.2).2.2]

theorem addressValue_of_parseIpv4 {t : Text} {x : BitVec 32} (h : parseIpv4 t = some x) :
    addressValue t = x := by
  unfold parseIpv4 at h
  split at h
  · next a b c d hoctets =>
    cases h
    have hmap := map_decimal_of_mapM hoctets
    have hfold : ((t.splitOn '.').map decimal).foldl (fun n m ↦ n * 256 + m) 0 = _ := List.foldl_map
    rw [hmap] at hfold
    rw [addressValue, ← hfold]
    simp
  · cases h

theorem parseIpv4_eq_addressValue {t : Text} (hvalid : validIpv4 t = true) (h : canonical t = true) :
    parseIpv4 t = some (addressValue t) := by
  obtain ⟨x, hx⟩ := Option.isSome_iff_exists.1 (isSome_parseIpv4.2 ⟨hvalid, h⟩)
  rw [hx, addressValue_of_parseIpv4 hx]

theorem ipv4Cidr_eq {address bits cidr : Text} (hsplit : splitOnce '/' cidr = some (address, bits))
    (hvalid : validCidr cidr = true) (h : canonical address = true) :
    ipv4Cidr cidr = some (addressValue address, decimal bits) := by
  have hparts := hvalid
  simp only [validCidr, hsplit, Bool.and_eq_true] at hparts
  obtain ⟨⟨⟨⟨haddress, -⟩, -⟩, hdigits⟩, hbits⟩ := hparts
  obtain ⟨n, hn, hle⟩ := (Option.any_eq_true ..).1 hbits
  rw [parseUnsigned_of_isDigit hdigits] at hn
  obtain ⟨hchars, -, rfl⟩ := parseDigits_eq_some.1 hn
  have hparse : parseUnsigned (2 ^ 32 - 1) bits = some (decimal bits) := by
    rw [parseUnsigned_of_isDigit hdigits]
    exact parseDigits_eq_some.2 ⟨hchars, (of_decide_eq_true hle).trans (by decide), rfl⟩
  simp only [ipv4Cidr, if_pos hvalid, hsplit, Option.bind_eq_bind, Option.bind_some,
    parseIpv4_eq_addressValue haddress h, hparse, Option.pure_def]

theorem PlainSpelling.staticCidr_eq {fmt : Formats} {cfg : IfaceSettings} (h : PlainSpelling fmt cfg) :
    staticCidr cfg = cfg.subnet := by
  unfold staticCidr IfaceSettings.subnet
  split
  · rfl
  · cases hstatic : cfg.static with
    | none => rfl
    | some static =>
      have hcanonical := h.address static hstatic
      simp only [Option.bind_some]
      cases hvalid : validCidr static.address with
      | false => simp [ipv4Cidr, hvalid]
      | true =>
        cases hsplit : splitOnce '/' static.address with
        | none => simp [validCidr, hsplit] at hvalid
        | some parts =>
          obtain ⟨address, bits⟩ := parts
          rw [splitCidr, hsplit] at hcanonical
          simp [ipv4Cidr_eq hsplit hvalid hcanonical]

end Subnets

def metricsOf (cfg : IfaceSettings) : List ℕ :=
  (cfg.routes.filter (isDefaultDestination ·.destination)).filterMap (·.metric)

def vlanOf (cfg : IfaceSettings) : List (Text × ℕ) := (cfg.vlan.map fun v ↦ (v.parent, v.id)).toList

def portOf (cfg : IfaceSettings) : List ℕ := (cfg.wireguard.bind (·.listenPort)).toList

/-- What every write keeps, in the terms of the rules themselves. -/
structure Uncollided (m : NetworkMap) : Prop where
  subnets : Separate (fun c ↦ (staticCidr c).toList) overlap m
  metrics : Separate metricsOf (· == ·) m
  vlans : Separate vlanOf (· == ·) m
  ports : Separate portOf (· == ·) m
  gateways : ∀ i c, m.get i = some c → gatewayOutOfSubnet c = none
  addresses : ∀ i c static, m.get i = some c → c.static = some static → c.dhcp = false →
    static.address ≠ [] → validCidr static.address = true

section Writes

variable {fmt : Formats} {m m' : NetworkMap} {carried : List Text}

variable {cfg : IfaceSettings}

theorem entry_of_mapViolations (h : mapViolations fmt m carried = []) {iface : Text}
    (hget : m.get iface = some cfg) (hcarried : iface ∈ carried) :
    entryViolations fmt iface cfg = [] := by
  simp only [mapViolations, List.append_eq_nil_iff, List.flatMap_eq_nil_iff] at h
  have hentry := h.1.2 _ (OrdMap.get_eq_some_iff.1 hget)
  simpa [hcarried] using hentry

theorem gateway_of_entryViolations {iface : Text}
    (h : entryViolations fmt iface cfg = []) : gatewayOutOfSubnet cfg = none := by
  simp only [entryViolations, List.append_eq_nil_iff, elim_singleton_eq_nil] at h
  exact h.1.1.2

theorem Uncollided.write (h : Uncollided m)
    (hcarried : ∀ iface cfg, m'.get iface = some cfg → m.get iface ≠ some cfg → iface ∈ carried)
    (hviolations : mapViolations fmt m' carried = []) : Uncollided m' := by
  have hentry : ∀ i c, m'.get i = some c → entryViolations fmt i c = [] ∨ m.get i = some c := by
    intro i c hi
    by_cases hold : m.get i = some c
    · exact .inr hold
    · exact .inl (entry_of_mapViolations hviolations hi (hcarried i c hi hold))
  have hwrite := hviolations
  simp only [mapViolations, writeViolations, List.append_eq_nil_iff] at hwrite
  obtain ⟨-, ⟨⟨hsubnets, hmetrics⟩, hvlans⟩, hports⟩ := hwrite
  have hcomm : ∀ (α : Type) [BEq α] [LawfulBEq α] (a b : α), (a == b) = (b == a) := fun _ _ _ a b ↦
    Bool.beq_comm
  refine ⟨h.subnets.write overlap_comm hcarried ?_ hsubnets,
    h.metrics.write (hcomm ℕ) hcarried ?_ hmetrics,
    h.vlans.write (hcomm _) hcarried ?_ hvlans, h.ports.write (hcomm ℕ) hcarried ?_ hports, ?_, ?_⟩
  · intro i c a hi ha
    rw [Option.mem_toList] at ha
    exact List.mem_filterMap.2 ⟨_, OrdMap.get_eq_some_iff.1 hi, by simp [ha]⟩
  · intro i c a hi ha
    obtain ⟨route, hroute, hmetric⟩ := List.mem_filterMap.1 ha
    refine List.mem_flatMap.2 ⟨_, OrdMap.get_eq_some_iff.1 hi, List.mem_filterMap.2 ⟨route, hroute, ?_⟩⟩
    simp [hmetric]
  · intro i c a hi ha
    obtain ⟨vlan, hvlan, rfl⟩ := Option.map_eq_some_iff.1 (Option.mem_toList.1 ha)
    exact List.mem_filterMap.2 ⟨_, OrdMap.get_eq_some_iff.1 hi, by simp [hvlan]⟩
  · intro i c a hi ha
    have hport : c.wireguard.bind (·.listenPort) = some a := Option.mem_toList.1 ha
    exact List.mem_filterMap.2 ⟨_, OrdMap.get_eq_some_iff.1 hi, by simp [hport]⟩
  · intro i c hi
    rcases hentry i c hi with hnew | hold
    · exact gateway_of_entryViolations hnew
    · exact h.gateways i c hold
  · intro i c static hi
    rcases hentry i c hi with hnew | hold
    · exact (entryViolations_eq_nil hnew).2.1 static
    · exact h.addresses i c static hold

theorem StoredMap.uncollided (h : StoredMap fmt m) : Uncollided m := by
  induction h with
  | empty => constructor <;> simp [Separate]
  | write _ hcarried hviolations ih => exact ih.write hcarried hviolations

theorem Uncollided.gateway {i : Text} (h : Uncollided m) (hplain : PlainSpelling fmt cfg)
    (hget : m.get i = some cfg) (hdhcp : cfg.dhcp = false) {gateway : Text}
    (hgateway : cfg.staticGateway = some gateway) (hvalid : validIpv4 gateway = true) :
    ∃ s, cfg.subnet = some s ∧ addressValue gateway ∈ subnetAddresses s := by
  obtain ⟨static, hstatic, hown⟩ := Option.bind_eq_some_iff.1 hgateway
  have hne := hplain.beside static hstatic (by simp [hown])
  have hcidr := h.addresses i cfg static hget hstatic hdhcp hne
  have hsome : cfg.subnet ≠ none := by
    cases hsplit : splitOnce '/' static.address with
    | none => simp [validCidr, hsplit] at hcidr
    | some parts => simp [IfaceSettings.subnet, hdhcp, hstatic, hcidr, hsplit]
  obtain ⟨s, hs⟩ := Option.ne_none_iff_exists'.1 hsome
  have hinside := h.gateways i cfg hget
  rw [gatewayOutOfSubnet, hplain.staticCidr_eq, hs, hgateway] at hinside
  simp only [parseIpv4_eq_addressValue hvalid (hplain.gateway gateway hgateway)] at hinside
  exact ⟨s, hs, by simpa [subnetAddresses] using hinside⟩

/-- A stored map whose entries are spelled plainly has no collisions. -/
theorem stored_apart (fmt : Formats) (m : NetworkMap) (h : StoredMap fmt m)
    (hplain : ∀ i c, m.get i = some c → PlainSpelling fmt c) : Apart fmt m := by
  have huncollided := h.uncollided
  refine ⟨?_, ?_, ?_, ?_, fun i c hi hdhcp gateway ↦ huncollided.gateway (hplain i c hi) hi hdhcp⟩
  · intro i j c c' hne hi hj s s' hs hs'
    rw [← (hplain i c hi).staticCidr_eq] at hs
    rw [← (hplain j c' hj).staticCidr_eq] at hs'
    exact disjoint_of_overlap (huncollided.subnets i j c c' hne hi hj s (by simp [hs]) s' (by simp [hs']))
  · intro i j c c' hne hi hj r hr r' hr' hdefault hdefault' n hn hn'
    have hmem : n ∈ metricsOf c :=
      List.mem_filterMap.2 ⟨r, List.mem_filter.2 ⟨hr, (hplain i c hi).routes r hr hdefault⟩, hn⟩
    have hmem' : n ∈ metricsOf c' :=
      List.mem_filterMap.2 ⟨r', List.mem_filter.2 ⟨hr', (hplain j c' hj).routes r' hr' hdefault'⟩, hn'⟩
    simpa using huncollided.metrics i j c c' hne hi hj n hmem n hmem'
  · intro i j c c' hne hi hj v v' hv hv' heq
    have hapart := huncollided.vlans i j c c' hne hi hj (v.parent, v.id) (by simp [vlanOf, hv])
      (v'.parent, v'.id) (by simp [vlanOf, hv'])
    exact beq_eq_false_iff_ne.1 hapart heq
  · intro i j c c' hne hi hj w w' hw hw' p hp hp'
    have hapart := huncollided.ports i j c c' hne hi hj p
      (by simp [portOf, hw, hp]) p (by simp [portOf, hw', hp'])
    simp at hapart

end Writes

namespace Sample

def pair (address address' : String) : NetworkMap :=
  (OrdMap.empty.insert "eth0".toList { static := some { address := address.toList } }).insert
    "eth1".toList
    { static := some { address := address'.toList } }

theorem stored_pair {address address' : String}
    (h : mapViolations formats (pair address address') ["eth0".toList, "eth1".toList] = []) :
    StoredMap formats (pair address address') := by
  refine .write .empty (fun i c hi _ ↦ ?_) h
  simp only [pair, OrdMap.get_insert] at hi
  split at hi
  · simp_all
  · split at hi
    · simp_all
    · cases hi

end Sample

theorem stored_apart_sample : Apart Sample.formats (Sample.pair "10.0.0.1/24" "10.0.1.1/24") := by
  refine stored_apart _ _ (Sample.stored_pair rfl) fun i c hi ↦ ?_
  simp only [Sample.pair, OrdMap.get_insert] at hi
  split at hi
  · cases hi
    exact ⟨by rintro _ ⟨⟩; decide, nofun, nofun, by rintro _ ⟨⟩ ⟨⟩⟩
  · split at hi
    · cases hi
      exact ⟨by rintro _ ⟨⟩; decide, nofun, nofun, by rintro _ ⟨⟩ ⟨⟩⟩
    · cases hi

/-- An octet with a leading zero is admitted and not compared. -/
theorem not_forall_stored_apart : ¬ ∀ fmt m, StoredMap fmt m → Apart fmt m := by
  intro h
  have hapart := h Sample.formats (Sample.pair "10.0.0.1/24" "010.0.0.2/24")
    (Sample.stored_pair rfl)
  have hdisjoint := hapart.subnets "eth0".toList "eth1".toList _ _ (by decide) rfl rfl
    (0x0a000001#32, 24) (0x0a000002#32, 24) rfl rfl
  exact Set.disjoint_left.1 hdisjoint (rfl : 0x0a000002#32 &&& mask 24 = 0x0a000001#32 &&& mask 24) rfl

end MicaCore.Network
