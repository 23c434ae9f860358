import MicaCore.Deploy.Identity

namespace MicaCore.Network

open Data

def parseDigits (limit : ℕ) (t : Text) : Option ℕ :=
  if !t.isEmpty && t.all Char.isDigit && decimal t ≤ limit then some (decimal t) else none

def parseUnsigned (limit : ℕ) : Text → Option ℕ
  | '+' :: digits => parseDigits limit digits
  | digits => parseDigits limit digits

def leadingZero (octet : Text) : Bool := octet.head? == some '0' && octet.length != 1

def parseOctet (octet : Text) : Option ℕ :=
  if octet.length ≤ 3 && !leadingZero octet then parseDigits 255 octet else none

def parseIpv4 (t : Text) : Option (BitVec 32) :=
  match (t.splitOn '.').mapM parseOctet with
  | some [a, b, c, d] => some (BitVec.ofNat 32 (((a * 256 + b) * 256 + c) * 256 + d))
  | _ => none

inductive IpAddr where
  | v4 (bits : BitVec 32)
  | v6 (bits : BitVec 128)
  deriving DecidableEq

def IpAddr.width : IpAddr → ℕ
  | .v4 _ => 32
  | .v6 _ => 128

/-- The readers taken from elsewhere, and how a text is quoted in a message. -/
structure Formats where
  parseIpv6 : Text → Option (BitVec 128)
  decodeBase64 : Text → Option (List UInt8)
  debug : Text → String
  ipv6_chars {t : Text} {a : BitVec 128} : parseIpv6 t = some a →
    ∀ c ∈ t, c.isAlphanum ∨ c = ':' ∨ c = '.'
  ipv6_colon {t : Text} {a : BitVec 128} : parseIpv6 t = some a → ':' ∈ t
  base64_chars {t : Text} {b : List UInt8} : decodeBase64 t = some b →
    ∀ c ∈ t, c.isAlphanum ∨ c = '+' ∨ c = '/' ∨ c = '='

variable (fmt : Formats)

def parseIp (t : Text) : Option IpAddr :=
  ((parseIpv4 t).map .v4).or ((fmt.parseIpv6 t).map .v6)

def splitCidr (value : Text) : Text × Option Text :=
  match splitOnce '/' value with
  | some (addr, bits) => (addr, some bits)
  | none => (value, none)

def isIpOrCidr (value : Text) : Bool :=
  (parseIp fmt (splitCidr value).1).any fun addr ↦
    (splitCidr value).2.all fun bits ↦ (parseUnsigned 255 bits).any (· ≤ addr.width)

def bracketed (host : Text) : Option Text :=
  (stripPrefix ['['] host).bind (stripSuffix [']'])

def isHostPort (value : Text) : Bool :=
  match rsplitOnce ':' value with
  | none => false
  | some (host, port) =>
    (parseUnsigned 65535 port).isSome &&
      match bracketed host with
      | some inner => (fmt.parseIpv6 inner).isSome
      | none => !host.isEmpty &&
          host.all fun c ↦ c.isAlphanum || c == '.' || c == '-' || c == '_'

def isWireguardKey (value : Text) : Bool := (fmt.decodeBase64 value).any (·.length == 32)

def validIpv4 (address : Text) : Bool :=
  (address.splitOn '.').length == 4 &&
    (address.splitOn '.').all fun octet ↦
      !octet.isEmpty && byteLength octet ≤ 3 && octet.all Char.isDigit &&
        (parseUnsigned 65535 octet).any (· ≤ 255)

def validCidr (cidr : Text) : Bool :=
  match splitOnce '/' cidr with
  | none => false
  | some (address, bits) =>
    validIpv4 address && !bits.isEmpty && byteLength bits ≤ 2 && bits.all Char.isDigit &&
      (parseUnsigned 255 bits).any (· ≤ 32)

def canonical (address : Text) : Bool := (address.splitOn '.').all fun octet ↦ !leadingZero octet

def literalChar (c : Char) : Bool := c.isAlphanum || ".:/+-_[]=".toList.contains c

def Literal (t : Text) : Prop := ∀ c ∈ t, literalChar c = true

instance (t : Text) : Decidable (Literal t) :=
  decidable_of_iff (t.all literalChar = true) List.all_eq_true

variable {c : Char}

theorem literalChar_of_isAlphanum (h : c.isAlphanum = true) : literalChar c = true := by
  simp [literalChar, h]

theorem literalChar_of_isDigit (h : c.isDigit = true) : literalChar c = true :=
  literalChar_of_isAlphanum (by simp [Char.isAlphanum, h])

variable {limit : ℕ} {t : Text}

theorem parseDigits_eq_some {n : ℕ} :
    parseDigits limit t = some n ↔
      (t ≠ [] ∧ t.all Char.isDigit = true) ∧ decimal t ≤ limit ∧ decimal t = n := by
  simp [parseDigits]
  tauto

theorem Literal.of_isDigit (h : t.all Char.isDigit = true) : Literal t :=
  fun c hc ↦ literalChar_of_isDigit (List.all_eq_true.1 h c hc)

theorem literal_of_parseUnsigned {n : ℕ} (h : parseUnsigned limit t = some n) : Literal t := by
  unfold parseUnsigned at h
  split at h
  · next digits =>
    have hdigits := Literal.of_isDigit (parseDigits_eq_some.1 h).1.2
    intro c hc
    rcases List.mem_cons.1 hc with rfl | hc
    · decide
    · exact hdigits c hc
  · exact Literal.of_isDigit (parseDigits_eq_some.1 h).1.2

theorem parseUnsigned_of_isDigit (h : t.all Char.isDigit = true) :
    parseUnsigned limit t = parseDigits limit t := by
  unfold parseUnsigned
  split
  · simp [Char.isDigit] at h
  · rfl

theorem byteLength_of_isDigit (h : t.all Char.isDigit = true) : byteLength t = t.length := by
  induction t with
  | nil => rfl
  | cons c t ih =>
    obtain ⟨hc, ht⟩ := Bool.and_eq_true_iff.1 h
    have hsize : c.utf8Size = 1 := by
      have hle := (Bool.and_eq_true_iff.1 hc).2
      simp only [decide_eq_true_eq, UInt32.le_iff_toNat_le] at hle
      rw [Char.utf8Size, if_pos]
      rw [UInt32.le_iff_toNat_le]
      exact hle.trans (by decide)
    have ih := ih ht
    simp only [byteLength, List.map_cons, List.sum_cons, List.length_cons] at ih ⊢
    omega

theorem any_parseDigits {a b : ℕ} (h : a ≤ b) (t : Text) :
    (parseDigits b t).any (· ≤ a) = (parseDigits a t).isSome := by
  unfold parseDigits
  by_cases ha : decimal t ≤ a
  · cases !t.isEmpty && t.all Char.isDigit <;> simp [ha, ha.trans h]
  · split <;> simp [ha]

theorem isSome_parseOctet {octet : Text} :
    (parseOctet octet).isSome = true ↔
      (!octet.isEmpty && byteLength octet ≤ 3 && octet.all Char.isDigit &&
        (parseUnsigned 65535 octet).any (· ≤ 255)) = true ∧ leadingZero octet = false := by
  by_cases hdigits : octet.all Char.isDigit = true
  · rw [parseUnsigned_of_isDigit hdigits, byteLength_of_isDigit hdigits, any_parseDigits (by decide),
      parseOctet, hdigits]
    cases octet with
    | nil => simp [parseDigits]
    | cons c octet =>
      generalize decide ((c :: octet).length ≤ 3) = short
      cases short <;> cases leadingZero (c :: octet) <;> simp
  · simp [parseOctet, parseDigits, hdigits]

variable {α : Type}

theorem isSome_mapM {β : Type} {f : α → Option β} {xs : List α} :
    (xs.mapM f).isSome = true ↔ ∀ x ∈ xs, (f x).isSome = true := by
  induction xs with
  | nil => simp
  | cons x xs ih =>
    rw [List.mapM_cons, List.forall_mem_cons, ← ih]
    cases f x <;> cases xs.mapM f <;> simp

theorem length_of_mapM {β : Type} {f : α → Option β} {xs : List α} {ys : List β}
    (h : xs.mapM f = some ys) : ys.length = xs.length := by
  induction xs generalizing ys with
  | nil => simp_all
  | cons x xs ih =>
    rw [List.mapM_cons] at h
    cases hx : f x <;> cases hxs : xs.mapM f <;> simp_all
    simp [← h, ih]

theorem isSome_parseIpv4 :
    (parseIpv4 t).isSome = true ↔ validIpv4 t = true ∧ canonical t = true := by
  have hocts : ((t.splitOn '.').mapM parseOctet).isSome = true ↔
      ((t.splitOn '.').all fun octet ↦ !octet.isEmpty && byteLength octet ≤ 3 &&
        octet.all Char.isDigit && (parseUnsigned 65535 octet).any (· ≤ 255)) = true ∧
      canonical t = true := by
    simp only [isSome_mapM, isSome_parseOctet, canonical, List.all_eq_true, Bool.not_eq_true',
      forall_and]
  rw [validIpv4, Bool.and_eq_true, and_assoc, ← hocts, parseIpv4]
  cases hm : (t.splitOn '.').mapM parseOctet with
  | none => simp
  | some ys =>
    rw [← length_of_mapM hm]
    match ys with
    | [] | [_] | [_, _] | [_, _, _] => simp
    | [_, _, _, _] => simp
    | _ :: _ :: _ :: _ :: _ :: ys => simp

theorem digit_or_dot_of_validIpv4 (h : validIpv4 t = true) :
    ∀ c ∈ t, c.isDigit = true ∨ c = '.' := by
  intro c hc
  have hjoin : ['.'].intercalate (t.splitOn '.') = t := List.intercalate_splitOn ..
  rw [← hjoin] at hc
  obtain ⟨octet, hoctet, hmem⟩ | rfl := mem_of_mem_intercalate hc
  · have hall := List.all_eq_true.1 (Bool.and_eq_true_iff.1 h).2 octet hoctet
    simp only [Bool.and_eq_true] at hall
    exact .inl (List.all_eq_true.1 hall.1.2 c hmem)
  · exact .inr rfl

variable {fmt}

theorem literal_of_parseIp {a : IpAddr} (h : parseIp fmt t = some a) : Literal t := by
  intro c hc
  rcases Option.or_eq_some_iff.1 h with hv4 | ⟨-, hv6⟩
  · have hvalid := (isSome_parseIpv4.1 (by simpa using congrArg Option.isSome hv4)).1
    rcases digit_or_dot_of_validIpv4 hvalid c hc with hdigit | rfl
    · exact literalChar_of_isDigit hdigit
    · decide
  · obtain ⟨bits, hbits, -⟩ := Option.map_eq_some_iff.1 hv6
    rcases fmt.ipv6_chars hbits c hc with halnum | rfl | rfl
    · exact literalChar_of_isAlphanum halnum
    · decide
    · decide

theorem Literal.append {s : Text} (hs : Literal s) (ht : Literal t) : Literal (s ++ t) :=
  fun c hc ↦ (List.mem_append.1 hc).elim (hs c) (ht c)

theorem Literal.cons (hc : literalChar c = true) (ht : Literal t) : Literal (c :: t) :=
  fun d hd ↦ (List.mem_cons.1 hd).elim (fun h ↦ h ▸ hc) (ht d)

theorem literal_of_isIpOrCidr (h : isIpOrCidr fmt t = true) : Literal t := by
  obtain ⟨addr, haddr, hbits⟩ := (Option.any_eq_true ..).1 h
  unfold splitCidr at haddr hbits
  split at haddr
  · next a bits hsplit =>
    rw [hsplit] at hbits
    obtain ⟨n, hn, -⟩ := (Option.any_eq_true ..).1 hbits
    rw [splitOnce_eq_some hsplit]
    exact (literal_of_parseIp haddr).append (.cons (by decide) (literal_of_parseUnsigned hn))
  · exact literal_of_parseIp haddr

theorem bracketed_eq_some {host inner : Text} (h : bracketed host = some inner) :
    host = '[' :: (inner ++ [']']) := by
  obtain ⟨rest, hrest, hinner⟩ := Option.bind_eq_some_iff.1 h
  rw [stripPrefix_eq_some hrest, stripSuffix_eq_some hinner]
  rfl

theorem literal_of_isHostPort (h : isHostPort fmt t = true) : Literal t := by
  unfold isHostPort at h
  split at h
  · cases h
  · next host port hsplit =>
    obtain ⟨hport, hhost⟩ := Bool.and_eq_true_iff.1 h
    obtain ⟨n, hn⟩ := Option.isSome_iff_exists.1 hport
    rw [splitOnce_of_rsplitOnce hsplit]
    refine Literal.append ?_ (.cons (by decide) (literal_of_parseUnsigned hn))
    split at hhost
    · next inner hinner =>
      obtain ⟨bits, hbits⟩ := Option.isSome_iff_exists.1 hhost
      have hv6 : parseIp fmt inner ≠ none := by simp [parseIp, hbits]
      obtain ⟨a, ha⟩ := Option.ne_none_iff_exists'.1 hv6
      rw [bracketed_eq_some hinner]
      exact .cons (by decide) ((literal_of_parseIp ha).append (.cons (by decide) (by simp [Literal])))
    · intro c hc
      have hchar := List.all_eq_true.1 (Bool.and_eq_true_iff.1 hhost).2 c hc
      simp only [Bool.or_eq_true, beq_iff_eq] at hchar
      rcases hchar with ((halnum | rfl) | rfl) | rfl
      · exact literalChar_of_isAlphanum halnum
      · decide
      · decide
      · decide

theorem isIpOrCidr_of_validCidr (h : validCidr t = true) :
    isIpOrCidr fmt t = canonical (splitCidr t).1 := by
  unfold validCidr at h
  split at h
  · cases h
  · next address bits hsplit =>
    simp only [Bool.and_eq_true] at h
    obtain ⟨⟨⟨⟨hvalid, -⟩, -⟩, -⟩, hbits⟩ := h
    have hv6 : fmt.parseIpv6 address = none := by
      rw [Option.eq_none_iff_forall_ne_some]
      intro a ha
      have hcolon := fmt.ipv6_colon ha
      rcases digit_or_dot_of_validIpv4 hvalid _ hcolon with hdigit | hdot
      · exact absurd hdigit (by decide)
      · exact absurd hdot (by decide)
    have hv4 := isSome_parseIpv4 (t := address)
    rw [isIpOrCidr, splitCidr, hsplit]
    simp only [parseIp, hv6, Option.map_none, Option.or_none, Option.all_some]
    cases hp : parseIpv4 address with
    | none =>
      cases hc : canonical address with
      | false => rfl
      | true => simp [hp, hvalid, hc] at hv4
    | some a =>
      have hc : canonical address = true := (hv4.1 (by simp [hp])).2
      rw [hc]
      exact hbits

theorem literal_of_isWireguardKey (h : isWireguardKey fmt t = true) : Literal t := by
  obtain ⟨bytes, hbytes, -⟩ := (Option.any_eq_true ..).1 h
  intro c hc
  rcases fmt.base64_chars hbytes c hc with halnum | rfl | rfl | rfl
  · exact literalChar_of_isAlphanum halnum
  · decide
  · decide
  · decide

end MicaCore.Network
