import MicaCore.Data.Checked
import MicaCore.Deploy.Chunks

namespace MicaCore.Deploy.Chunks

open Data

def indexHeader : ℕ := 8 + 64 + 8 + 4

def indexEntry : ℕ := 64 + 4

def magic : Bytes := asBytes "MICAIDX1".toList

abbrev Index := List (Text × ℕ)

def indexLimit (bytes : ℕ) : Checked ℕ := do
  let entries ← mulU64 indexEntry ((bytes + minChunk - 1) / minChunk)
  addU64 indexHeader entries

def hexByte (b : UInt8) : Bool := (48 ≤ b && b ≤ 57) || (97 ≤ b && b ≤ 102)

def parseEntry (bytes : Bytes) (entry : ℕ) : Checked (Text × ℕ) := do
  let first := indexHeader + entry * indexEntry
  let raw ← slice bytes first (first + 64)
  let sha ← orError (.refused "invalid utf-8 sequence") (fromUtf8 raw)
  refuse (raw.length == 64 && raw.all hexByte) "invalid chunk digest"
  let length ← slice bytes (first + 64) (first + 68)
  let length := bigEndian length
  refuse (0 < length && length ≤ maxChunk) "invalid chunk length"
  pure (sha, length)

def parseEntries (bytes : Bytes) : ℕ → ℕ → Index → ℕ → Checked (Index × ℕ)
  | 0, _, chunks, total => pure (chunks, total)
  | left + 1, entry, chunks, total => do
    let chunk ← parseEntry bytes entry
    let total ← addU64 total chunk.2
    parseEntries bytes left (entry + 1) (chunks ++ [chunk]) total

def parseHeader (bytes : Bytes) (object : Artifact) : Checked ℕ := do
  let limit ← indexLimit object.bytes
  refuse (bytes.length ≤ limit) "transfer index exceeds the bound its object allows"
  refuse (indexHeader ≤ bytes.length) "invalid transfer index"
  let start ← slice bytes 0 8
  refuse (start == magic) "invalid transfer index"
  let name ← slice bytes 8 72
  refuse (name == utf8Bytes object.sha256) "transfer index is for another object"
  let length ← slice bytes 72 80
  refuse (bigEndian length == object.bytes) "transfer index disagrees with the signed object length"
  let count ← slice bytes 80 84
  pure (bigEndian count)

def parseIndex (bytes : Bytes) (object : Artifact) : Checked Index := do
  let count ← parseHeader bytes object
  let entries ← mulU64 indexEntry count
  let size ← addU64 indexHeader entries
  refuse (size == bytes.length) "transfer index length does not match its chunk count"
  let (chunks, total) ← parseEntries bytes count 0 [] 0
  refuse (total == object.bytes) "chunk lengths do not sum to the signed object length"
  pure chunks

def encodeEntry (chunk : Text × ℕ) : Bytes := utf8Bytes chunk.1 ++ toBigEndian 4 (chunk.2 % 2 ^ 32)

def writeHeader (object : Artifact) (count : ℕ) : Bytes :=
  magic ++ (utf8Bytes object.sha256 ++ (toBigEndian 8 (object.bytes % 2 ^ 64) ++ toBigEndian 4 (count % 2 ^ 32)))

def writeIndex (object : Artifact) (chunks : Index) : Bytes :=
  writeHeader object chunks.length ++ chunks.flatMap encodeEntry

theorem length_flatMap_of_forall {α β : Type} {f : α → List β} {l : List α} {n : ℕ}
    (h : ∀ x ∈ l, (f x).length = n) : (l.flatMap f).length = n * l.length := by
  simp [List.length_flatMap, List.map_congr_left h, Nat.mul_comm]

section Hex

theorem toNat_of_hexDigit {c : Char} (h : hexDigit c = true) :
    48 ≤ c.toNat ∧ c.toNat ≤ 57 ∨ 97 ≤ c.toNat ∧ c.toNat ≤ 102 := by
  simp only [hexDigit, Bool.or_eq_true, Bool.and_eq_true, decide_eq_true_eq] at h
  exact h

theorem hexByte_iff (b : UInt8) : hexByte b = true ↔
    48 ≤ b.toNat ∧ b.toNat ≤ 57 ∨ 97 ≤ b.toNat ∧ b.toNat ≤ 102 := by
  simp only [hexByte, Bool.or_eq_true, Bool.and_eq_true, decide_eq_true_eq, UInt8.le_iff_toNat_le]
  rfl

theorem encodeUtf8_of_isId {s : Text} (h : isId s = true) :
    (utf8Bytes s).length = 64 ∧ (utf8Bytes s).all hexByte = true := by
  obtain ⟨hlength, hall⟩ := Bool.and_eq_true_iff.1 h
  have hdigits : ∀ c ∈ s, hexDigit c = true := List.all_eq_true.1 hall
  have hascii : utf8Bytes s = s.map fun c ↦ UInt8.ofNat c.toNat := by
    refine utf8Bytes_eq_map fun c hc ↦ ?_
    have hrange := toNat_of_hexDigit (hdigits c hc)
    omega
  rw [hascii]
  refine ⟨by rw [List.length_map]; exact eq_of_beq hlength, List.all_eq_true.2 fun b hb ↦ ?_⟩
  obtain ⟨c, hc, rfl⟩ := List.mem_map.1 hb
  have hrange := toNat_of_hexDigit (hdigits c hc)
  rw [hexByte_iff, UInt8.toNat_ofNat']
  omega

theorem isId_of_encodeUtf8 {s : Text} (hlength : (utf8Bytes s).length = 64)
    (hall : (utf8Bytes s).all hexByte = true) : isId s = true := by
  have hbytes : ∀ b ∈ utf8Bytes s, hexByte b = true := List.all_eq_true.1 hall
  have hascii : ∀ b ∈ utf8Bytes s, b.toNat < 128 := by
    intro b hb
    have hrange := (hexByte_iff b).1 (hbytes b hb)
    omega
  rw [isId, eq_map_of_utf8Bytes hascii, List.length_map, hlength, List.all_map, Bool.and_eq_true]
  refine ⟨rfl, List.all_eq_true.2 fun b hb ↦ ?_⟩
  have hrange := (hexByte_iff b).1 (hbytes b hb)
  rw [← toNat_ofNat_of_lt (hascii b hb)] at hrange
  simp only [Function.comp_apply, hexDigit, Bool.or_eq_true, Bool.and_eq_true, decide_eq_true_eq]
  exact hrange

end Hex

section Entries

variable {bytes : Bytes} {chunks : Index} {entry left total : ℕ}

structure Entry (chunk : Text × ℕ) : Prop where
  hex : isId chunk.1 = true
  positive : 0 < chunk.2
  bounded : chunk.2 ≤ maxChunk

def sum (chunks : Index) : ℕ := (chunks.map Prod.snd).sum

variable {chunk : Text × ℕ}

theorem length_encodeEntry (h : Entry chunk) : (encodeEntry chunk).length = 68 := by
  rw [encodeEntry, List.length_append, (encodeUtf8_of_isId h.hex).1, length_toBigEndian]

theorem entry_start (entry : ℕ) : indexHeader + entry * indexEntry = 84 + 68 * entry := by
  rw [Nat.mul_comm]
  rfl

theorem parseEntry_of_encoded {tail : Bytes} (h : Entry chunk)
    (hdrop : bytes.drop (84 + 68 * entry) = encodeEntry chunk ++ tail)
    (hlength : 84 + 68 * entry + 68 ≤ bytes.length) : parseEntry bytes entry = .ok chunk := by
  obtain ⟨sha, length⟩ := chunk
  obtain ⟨hsha, hhex⟩ := encodeUtf8_of_isId h.hex
  have hpositive : 0 < length := h.positive
  have hbounded : length ≤ maxChunk := h.bounded
  have hsmall : length < 2 ^ 32 := Nat.lt_of_le_of_lt hbounded (by decide)
  rw [encodeEntry, List.append_assoc, Nat.mod_eq_of_lt hsmall] at hdrop
  have hraw := slice_of_drop hdrop (by rw [hsha]; omega)
  have hbehind : bytes.drop (84 + 68 * entry + 64) = toBigEndian 4 length ++ tail := by
    rw [← List.drop_drop, hdrop, List.drop_left' hsha]
  have hcount := slice_of_drop hbehind (by rw [length_toBigEndian]; omega)
  rw [hsha] at hraw
  rw [length_toBigEndian, Nat.add_assoc] at hcount
  have hdecode : bigEndian (toBigEndian 4 length) = length := bigEndian_toBigEndian 4 length hsmall
  have hutf8 : fromUtf8 (utf8Bytes sha) = some sha := fromUtf8_eq_some_iff.2 rfl
  simp only [parseEntry, entry_start, bind_eq_ok, pure_eq_ok, orError_eq_ok, refuse, ensure_eq_ok]
  refine ⟨_, hraw, sha, hutf8, (), ?_, _, hcount, (), ?_, ?_⟩
  · rw [hsha, hhex]
    rfl
  · rw [hdecode]
    simp [hpositive, hbounded]
  · rw [hdecode]

theorem parseEntry_eq_ok (h : parseEntry bytes entry = .ok chunk) :
    Entry chunk ∧ bytes.drop (84 + 68 * entry) =
      encodeEntry chunk ++ bytes.drop (84 + 68 * (entry + 1)) := by
  simp only [parseEntry, entry_start, bind_eq_ok, pure_eq_ok, orError_eq_ok, refuse,
    ensure_eq_ok] at h
  obtain ⟨raw, hraw, sha, hutf8, _, hhex, length, hlength, _, hbounds, rfl⟩ := h
  obtain rfl := fromUtf8_eq_some_iff.1 hutf8
  obtain ⟨-, hdrop⟩ := slice_eq_ok hraw
  obtain ⟨hfour, hdrop'⟩ := slice_eq_ok hlength
  simp only [Bool.and_eq_true, beq_iff_eq, decide_eq_true_eq] at hhex hbounds
  have hsmall : bigEndian length < 2 ^ 32 := Nat.lt_of_le_of_lt hbounds.2 (by decide)
  have hwidth : length.length = 4 := by omega
  refine ⟨⟨isId_of_encodeUtf8 hhex.1 hhex.2, hbounds.1, hbounds.2⟩, ?_⟩
  have hencode : toBigEndian 4 (bigEndian length) = length := by
    rw [← hwidth]
    exact toBigEndian_bigEndian length
  rw [hdrop, hdrop', encodeEntry, Nat.mod_eq_of_lt hsmall, hencode, List.append_assoc]
  rfl

theorem calm_parseEntry (h : 84 + 68 * entry + 68 ≤ bytes.length) :
    Calm (parseEntry bytes entry) := by
  rw [parseEntry, entry_start]
  refine (Calm.slice (by omega) (by omega)).bind fun raw _ ↦ ?_
  refine (Calm.orError _ _).bind fun sha _ ↦ (Calm.refuse _ _).bind fun _ _ ↦ ?_
  refine (Calm.slice (by omega) (by omega)).bind fun length _ ↦ ?_
  exact (Calm.refuse _ _).bind fun _ _ ↦ Calm.pure _

theorem parseEntries_of_encoded {es : Index} (hes : ∀ c ∈ es, Entry c)
    (hdrop : bytes.drop (84 + 68 * entry) = es.flatMap encodeEntry)
    (hlength : bytes.length = 84 + 68 * (entry + es.length)) (htotal : total + sum es < 2 ^ 64) :
    parseEntries bytes es.length entry chunks total = .ok (chunks ++ es, total + sum es) := by
  induction es generalizing entry chunks total with
  | nil => simp [parseEntries, sum, pure, Except.pure]
  | cons chunk es ih =>
    obtain ⟨hchunk, hes⟩ := List.forall_mem_cons.1 hes
    have hsum : sum (chunk :: es) = chunk.2 + sum es := by simp [sum]
    rw [List.flatMap_cons] at hdrop
    rw [List.length_cons] at hlength
    have hread : parseEntry bytes entry = .ok chunk := parseEntry_of_encoded hchunk hdrop (by omega)
    have hadd : addU64 total chunk.2 = .ok (total + chunk.2) := addU64_eq (by omega)
    have hbehind : bytes.drop (84 + 68 * (entry + 1)) = es.flatMap encodeEntry := by
      rw [Nat.mul_add, ← Nat.add_assoc, ← List.drop_drop, hdrop,
        List.drop_left' (length_encodeEntry hchunk)]
    rw [List.length_cons, parseEntries, hread]
    change (addU64 total chunk.2 >>= fun total ↦ _) = _
    rw [hadd]
    change parseEntries bytes es.length (entry + 1) (chunks ++ [chunk]) (total + chunk.2) = _
    rw [ih hes hbehind (by omega) (by omega), List.append_assoc, List.singleton_append, hsum, Nat.add_assoc]

theorem parseEntries_eq_ok {chunks' : Index} {total' : ℕ}
    (hlength : bytes.length = 84 + 68 * (entry + left))
    (h : parseEntries bytes left entry chunks total = .ok (chunks', total')) :
    ∃ es, chunks' = chunks ++ es ∧ es.length = left ∧ bytes.drop (84 + 68 * entry) =
      es.flatMap encodeEntry ∧
      (∀ c ∈ es, Entry c) ∧ total' = total + sum es := by
  induction left generalizing entry chunks total with
  | zero =>
    cases h
    refine ⟨[], (List.append_nil _).symm, rfl, ?_, fun c hc ↦ (by cases hc), rfl⟩
    exact List.drop_eq_nil_of_le (by omega)
  | succ left ih =>
    simp only [parseEntries, bind_eq_ok] at h
    obtain ⟨chunk, hread, total₁, hadd, h⟩ := h
    obtain ⟨es, rfl, hes, hdrop, hentries, htotal⟩ := ih (by omega) h
    obtain ⟨hchunk, hfirst⟩ := parseEntry_eq_ok hread
    refine ⟨chunk :: es, by simp, by rw [List.length_cons, hes], ?_, List.forall_mem_cons.2 ⟨hchunk, hentries⟩, ?_⟩
    · rw [hfirst, hdrop, List.flatMap_cons]
    · rw [htotal, addU64_eq_ok hadd]
      simp [sum, Nat.add_assoc]

theorem calm_parseEntries (hlength : bytes.length = 84 + 68 * (entry + left))
    (htotal : total + maxChunk * left < 2 ^ 64) :
    Calm (parseEntries bytes left entry chunks total) := by
  induction left generalizing entry chunks total with
  | zero => exact Calm.pure _
  | succ left ih =>
    rw [parseEntries]
    refine (calm_parseEntry (by omega)).bind fun chunk hread ↦ ?_
    have hbounded : chunk.2 ≤ maxChunk := (parseEntry_eq_ok hread).1.bounded
    have hmul : maxChunk * (left + 1) = maxChunk * left + maxChunk := Nat.mul_succ _ _
    refine (Calm.addU64 (by omega)).bind fun total₁ hadd ↦ ih (by omega) ?_
    rw [addU64_eq_ok hadd]
    omega

end Entries

section Index

variable {bytes : Bytes} {object : Artifact} {chunks : Index}

def limit (bytes : ℕ) : ℕ := 84 + 68 * ((bytes + 4095) / 4096)

theorem indexLimit_eq (h : object.bytes < 2 ^ 64) :
    indexLimit object.bytes = .ok (limit object.bytes) := by
  have hentries : mulU64 indexEntry ((object.bytes + minChunk - 1) / minChunk) =
      .ok (68 * ((object.bytes + 4095) / 4096)) := mulU64_eq (by change 68 * ((_ + 4095) / 4096) < _; omega)
  rw [indexLimit, hentries]
  exact addU64_eq (by change 84 + _ < _; omega)

theorem length_writeHeader (h : isId object.sha256 = true) (count : ℕ) :
    (writeHeader object count).length = 84 := by
  simp only [writeHeader, List.length_append, length_toBigEndian, (encodeUtf8_of_isId h).1]
  rfl

theorem length_writeIndex (h : isId object.sha256 = true) (hentries : ∀ c ∈ chunks, Entry c) :
    (writeIndex object chunks).length = 84 + 68 * chunks.length := by
  rw [writeIndex, List.length_append, length_writeHeader h,
    length_flatMap_of_forall fun c hc ↦ length_encodeEntry (hentries c hc)]

variable (hbytes : object.bytes < 2 ^ 64)

include hbytes

theorem parseHeader_of_written (hid : isId object.sha256 = true) {count : ℕ}
    (hcount : count < 2 ^ 32) {tail : Bytes} (h : bytes = writeHeader object count ++ tail)
    (hlimit : bytes.length ≤ limit object.bytes) : parseHeader bytes object = .ok count := by
  have hsha := (encodeUtf8_of_isId hid).1
  have hmagic : magic.length = 8 := rfl
  have hlength : 84 ≤ bytes.length := by
    rw [h, List.length_append, length_writeHeader hid]
    omega
  rw [writeHeader, Nat.mod_eq_of_lt hbytes, Nat.mod_eq_of_lt hcount] at h
  simp only [List.append_assoc] at h
  have hstart : slice bytes 0 8 = .ok magic :=
    slice_append (h.trans (List.nil_append _).symm) rfl rfl
  have hname : slice bytes 8 72 = .ok (utf8Bytes object.sha256) :=
    slice_append h hmagic (by rw [hsha])
  have hsize : slice bytes 72 80 = .ok (toBigEndian 8 object.bytes) :=
    slice_append (h.trans (List.append_assoc ..).symm) (by rw [List.length_append, hmagic, hsha])
      (by rw [length_toBigEndian])
  have hentries : slice bytes 80 84 = .ok (toBigEndian 4 count) := by
    simp only [← List.append_assoc] at h
    rw [List.append_assoc] at h
    exact slice_append h (by simp only [List.length_append, hmagic, hsha, length_toBigEndian])
      (by rw [length_toBigEndian])
  simp only [parseHeader, bind_eq_ok, pure_eq_ok, refuse, ensure_eq_ok]
  refine ⟨_, indexLimit_eq hbytes, (), decide_eq_true hlimit, (), decide_eq_true hlength,
    _, hstart, (),
    beq_self_eq_true _, _, hname, (), beq_self_eq_true _, _, hsize, (), ?_, _, hentries, ?_⟩
  · rw [bigEndian_toBigEndian 8 _ hbytes, beq_self_eq_true]
  · exact bigEndian_toBigEndian 4 _ hcount

theorem parseHeader_eq_ok {count : ℕ} (h : parseHeader bytes object = .ok count) :
    bytes.length ≤ limit object.bytes ∧ 84 ≤ bytes.length ∧ count < 2 ^ 32 ∧
      bytes = writeHeader object count ++ bytes.drop 84 := by
  simp only [parseHeader, bind_eq_ok, pure_eq_ok, refuse, ensure_eq_ok] at h
  obtain ⟨bound, hbound, _, hlimit, _, hheader, start, hstart, _, hmagic, name, hname, _, hsha, size, hsize, _,
    hlength, number, hnumber, rfl⟩ := h
  cases (indexLimit_eq hbytes).symm.trans hbound
  obtain ⟨-, hdrop₀⟩ := slice_eq_ok hstart
  obtain ⟨-, hdrop₁⟩ := slice_eq_ok hname
  obtain ⟨hsize₁, hdrop₂⟩ := slice_eq_ok hsize
  obtain ⟨hnumber₁, hdrop₃⟩ := slice_eq_ok hnumber
  have hsmall : bigEndian number < 2 ^ 32 := by
    have hlt := bigEndian_lt number
    rw [hnumber₁] at hlt
    exact hlt
  refine ⟨of_decide_eq_true hlimit, of_decide_eq_true hheader, hsmall, ?_⟩
  have hsizeBytes : toBigEndian 8 object.bytes = size := by
    rw [← eq_of_beq hlength, ← show size.length = 8 from hsize₁]
    exact toBigEndian_bigEndian size
  have hnumberBytes : toBigEndian 4 (bigEndian number) = number := by
    rw [← show number.length = 4 from hnumber₁]
    exact toBigEndian_bigEndian number
  rw [writeHeader, Nat.mod_eq_of_lt hbytes, Nat.mod_eq_of_lt hsmall, hsizeBytes, hnumberBytes,
    ← eq_of_beq hmagic, ← eq_of_beq hsha]
  rw [List.drop_zero] at hdrop₀
  simp only [List.append_assoc]
  rw [← hdrop₃, ← hdrop₂, ← hdrop₁, ← hdrop₀]

theorem calm_parseHeader : Calm (parseHeader bytes object) := by
  rw [parseHeader]
  refine Calm.bind ?_ fun bound _ ↦ (Calm.refuse _ _).bind fun _ _ ↦
    (Calm.refuse _ _).bind fun _ hheader ↦ ?_
  · rw [indexLimit_eq hbytes]
    exact Calm.ok _
  have hlength : 84 ≤ bytes.length := of_decide_eq_true (ensure_eq_ok.1 hheader)
  refine (Calm.slice (by omega) (by omega)).bind fun start _ ↦ (Calm.refuse _ _).bind fun _ _ ↦ ?_
  refine (Calm.slice (by omega) (by omega)).bind fun name _ ↦ (Calm.refuse _ _).bind fun _ _ ↦ ?_
  refine (Calm.slice (by omega) (by omega)).bind fun size _ ↦ (Calm.refuse _ _).bind fun _ _ ↦ ?_
  exact (Calm.slice (by omega) (by omega)).bind fun number _ ↦ Calm.pure _

theorem parseIndex_writeIndex (hid : isId object.sha256 = true)
    (hentries : ∀ c ∈ chunks, Entry c) (hcount : chunks.length < 2 ^ 32)
    (hsum : sum chunks = object.bytes)
    (hlimit : (writeIndex object chunks).length ≤ limit object.bytes) :
    parseIndex (writeIndex object chunks) object = .ok chunks := by
  have hlength := length_writeIndex hid hentries
  have hheader := parseHeader_of_written hbytes hid hcount rfl hlimit
  have hmul : mulU64 indexEntry chunks.length = .ok (68 * chunks.length) :=
    mulU64_eq (by change 68 * _ < _; omega)
  have hadd : addU64 indexHeader (68 * chunks.length) = .ok (84 + 68 * chunks.length) :=
    addU64_eq (by change 84 + _ < _; omega)
  have hdrop : (writeIndex object chunks).drop (84 + 68 * 0) = chunks.flatMap encodeEntry := by
    rw [writeIndex, List.drop_left' (length_writeHeader hid _)]
  have hread : parseEntries (writeIndex object chunks) chunks.length 0 [] 0 =
      .ok ([] ++ chunks, 0 + sum chunks) :=
    parseEntries_of_encoded hentries hdrop (by rw [hlength, Nat.zero_add]) (by omega)
  simp only [parseIndex, bind_eq_ok, pure_eq_ok, refuse, ensure_eq_ok]
  refine ⟨_, hheader, _, hmul, _, hadd, (), by rw [hlength, beq_self_eq_true], _, hread, (), ?_, ?_⟩
  · rw [Nat.zero_add, hsum, beq_self_eq_true]
  · rw [List.nil_append]

theorem parseIndex_eq_ok (h : parseIndex bytes object = .ok chunks) :
    writeIndex object chunks = bytes ∧ (∀ c ∈ chunks, Entry c) ∧ sum chunks = object.bytes := by
  simp only [parseIndex, bind_eq_ok, pure_eq_ok, refuse, ensure_eq_ok] at h
  obtain ⟨count, hheader, entries, hmul, size, hadd, _, hsize, ⟨read, total⟩, hread, _, htotal, rfl⟩ := h
  obtain ⟨-, -, hcount, hwritten⟩ := parseHeader_eq_ok hbytes hheader
  have hlength : bytes.length = 84 + 68 * (0 + count) := by
    rw [← eq_of_beq hsize, addU64_eq_ok hadd, mulU64_eq_ok hmul, Nat.zero_add]
    rfl
  obtain ⟨es, hes, hnumber, hdrop, hentries, hsum⟩ := parseEntries_eq_ok hlength hread
  rw [List.nil_append] at hes
  subst hes
  refine ⟨?_, hentries, ?_⟩
  · rw [writeIndex, hnumber, ← hdrop]
    exact hwritten.symm
  · rw [← eq_of_beq htotal, hsum, Nat.zero_add]

theorem calm_parseIndex : Calm (parseIndex bytes object) := by
  rw [parseIndex]
  refine (calm_parseHeader hbytes).bind fun count hheader ↦ ?_
  obtain ⟨-, -, hcount, -⟩ := parseHeader_eq_ok hbytes hheader
  have hentry : indexEntry = 68 := rfl
  have hheader : indexHeader = 84 := rfl
  have hmax : maxChunk = 65536 := rfl
  refine (Calm.mulU64 (by rw [hentry]; omega)).bind fun entries hmul ↦ ?_
  have hentries := mulU64_eq_ok hmul
  refine (Calm.addU64 (by rw [hentry] at hentries; omega)).bind fun size hadd ↦ ?_
  refine (Calm.refuse _ _).bind fun _ hsize ↦ ?_
  have hlength : bytes.length = 84 + 68 * (0 + count) := by
    rw [← eq_of_beq (ensure_eq_ok.1 hsize), addU64_eq_ok hadd, hentries, Nat.zero_add]
    rfl
  refine (calm_parseEntries hlength (by rw [hmax]; omega)).bind fun answer _ ↦ ?_
  exact (Calm.refuse _ _).bind fun _ _ ↦ Calm.pure _

end Index

section Produced

variable {sha : Sha}

def indexOf (found : List Found) : Index := found.map fun f ↦ (f.sha, f.length)

/-- The digest and the length of every piece of a stream. -/
def piecesOf (sha : Sha) (stream : Bytes) : Index :=
  (cut sha [] stream).map fun piece ↦ (hexDigest sha piece, piece.length)

theorem indexOf_marks (offset : ℕ) (pieces : List Bytes) :
    indexOf (marks sha offset pieces) = pieces.map fun piece ↦
      (hexDigest sha piece, piece.length) := by
  induction pieces generalizing offset with
  | nil => rfl
  | cons piece pieces ih =>
    rw [marks, List.map_cons, ← ih (offset + piece.length)]
    rfl

theorem indexOf_chunk {reads : List Bytes} (h : ∀ buffer ∈ reads, buffer ≠ []) :
    indexOf (chunk sha (reads.map .ok)).1 = piecesOf sha reads.flatten := by
  rw [chunk_eq h, indexOf_marks, piecesOf]

theorem isId_hexDigest (bytes : Bytes) : isId (hexDigest sha bytes) = true := by
  have hdigit : ∀ n < 16, hexDigit (hexChar n) = true := by decide
  have hlength (l : Bytes) : (hex l).length = 2 * l.length :=
    length_flatMap_of_forall fun _ _ ↦ rfl
  rw [isId, hexDigest, hlength, sha.length_digest, Bool.and_eq_true]
  refine ⟨rfl, List.all_eq_true.2 fun c hc ↦ ?_⟩
  obtain ⟨b, -, hc⟩ := List.mem_flatMap.1 hc
  have hb : b.toNat < 256 := b.toNat_lt
  rcases List.mem_cons.1 hc with rfl | hc
  · exact hdigit _ (by omega)
  · obtain rfl := List.mem_singleton.1 hc
    exact hdigit _ (by omega)

theorem minChunk_mul_le (pieces : List Bytes) (h : ∀ piece ∈ pieces, minChunk ≤ piece.length) :
    minChunk * pieces.length ≤ pieces.flatten.length := by
  induction pieces with
  | nil => exact Nat.zero_le _
  | cons piece pieces ih =>
    obtain ⟨hpiece, hrest⟩ := List.forall_mem_cons.1 h
    have hsum := ih hrest
    rw [List.length_cons, List.flatten_cons, List.length_append, Nat.mul_succ]
    omega

theorem length_cut_le (sha : Sha) (stream : Bytes) : (cut sha [] stream).length ≤
    (stream.length + 4095) / 4096 := by
  rcases List.eq_nil_or_concat (cut sha [] stream) with hnil | ⟨pieces, piece, hconcat⟩
  · rw [hnil]
    exact Nat.zero_le _
  · have hmin : ∀ p ∈ pieces, minChunk ≤ p.length := by
      intro p hp
      have hmem : p ∈ (cut sha [] stream).dropLast := by
        rw [hconcat, List.concat_eq_append, List.dropLast_concat]
        exact hp
      exact (length_of_mem_dropLast (by decide) hmem).1
    have hpiece : 1 ≤ piece.length := by
      have hmem : piece ∈ cut sha [] stream := by
        rw [hconcat, List.concat_eq_append]
        exact List.mem_append_right _ (List.mem_singleton_self _)
      exact (length_of_mem_cut (by decide) hmem).1
    have hsum := minChunk_mul_le pieces hmin
    have hflat := congrArg List.length (flatten_cut sha [] stream)
    rw [hconcat, List.concat_eq_append, List.flatten_append, List.length_append, List.flatten_singleton,
      List.nil_append] at hflat
    have hfour : minChunk = 4096 := rfl
    rw [hfour] at hsum
    rw [hconcat, List.concat_eq_append, List.length_append, List.length_singleton]
    omega

theorem entry_of_mem_piecesOf {stream : Bytes} {c : Text × ℕ} (h : c ∈ piecesOf sha stream) :
    Entry c := by
  obtain ⟨piece, hpiece, rfl⟩ := List.mem_map.1 h
  obtain ⟨hpositive, hbounded⟩ := length_of_mem_cut (by decide) hpiece
  exact ⟨isId_hexDigest piece, hpositive, hbounded⟩

theorem sum_piecesOf (stream : Bytes) : sum (piecesOf sha stream) = stream.length := by
  have hflat := congrArg List.length (flatten_cut sha [] stream)
  rw [List.length_flatten, List.nil_append] at hflat
  rw [sum, piecesOf, List.map_map]
  exact hflat

/-- What the chunker finds is written within the limit and read back. -/
structure RoundTrips (sha : Sha) (object : Artifact) : Prop where
  written : ∀ reads : List Bytes, (∀ buffer ∈ reads, buffer ≠ []) → isId object.sha256 = true →
    reads.flatten.length = object.bytes → (chunk sha (reads.map .ok)).1.length < 2 ^ 32 →
    (∃ limit, indexLimit object.bytes = .ok limit ∧
      (writeIndex object (indexOf (chunk sha (reads.map .ok)).1)).length ≤ limit) ∧
    parseIndex (writeIndex object (indexOf (chunk sha (reads.map .ok)).1)) object =
      .ok (indexOf (chunk sha (reads.map .ok)).1)
  read : ∀ bytes chunks, parseIndex bytes object = .ok chunks → writeIndex object chunks = bytes ∧
    (∀ c ∈ chunks, 1 ≤ c.2 ∧ c.2 ≤ maxChunk) ∧ sum chunks = object.bytes
  calm : ∀ bytes, Calm (parseIndex bytes object)

/-- Every object of an artifact has an index that is written within its limit, read back as it
was, and read in no other form. -/
theorem roundTrips (sha : Sha) (object : Artifact) (hbytes : object.bytes < 2 ^ 64) :
    RoundTrips sha object where
  written reads hreads hid hlength hcount := by
    have hentries : ∀ c ∈ piecesOf sha reads.flatten, Entry c := fun c ↦ entry_of_mem_piecesOf
    have hfew : (piecesOf sha reads.flatten).length < 2 ^ 32 := by
      rwa [← indexOf_chunk hreads, indexOf, List.length_map]
    have hlimit : (writeIndex object (piecesOf sha reads.flatten)).length ≤ limit object.bytes := by
      have hpieces := length_cut_le sha reads.flatten
      rw [hlength] at hpieces
      rw [length_writeIndex hid hentries, piecesOf, List.length_map, limit]
      omega
    rw [indexOf_chunk hreads]
    refine ⟨⟨_, indexLimit_eq hbytes, hlimit⟩, ?_⟩
    exact parseIndex_writeIndex hbytes hid hentries hfew (by rw [sum_piecesOf, hlength]) hlimit
  read bytes chunks h := by
    obtain ⟨hwrite, hentries, hsum⟩ := parseIndex_eq_ok hbytes h
    exact ⟨hwrite, fun c hc ↦ ⟨(hentries c hc).positive, (hentries c hc).bounded⟩, hsum⟩
  calm _ := calm_parseIndex hbytes

def Sha.constant : Sha := ⟨fun _ ↦ List.replicate 32 0, fun _ ↦ List.length_replicate⟩

theorem roundTrips_constant :
    let object : Artifact := ⟨150000, List.replicate 64 '0'⟩
    let reads : List Bytes := [List.replicate 100000 0, List.replicate 50000 1]
    RoundTrips Sha.constant object ∧
      parseIndex (writeIndex object (indexOf (chunk Sha.constant (reads.map .ok)).1)) object =
        .ok (indexOf (chunk Sha.constant (reads.map .ok)).1) := by
  intro object reads
  have hreads : ∀ buffer ∈ reads, buffer ≠ [] := fun buffer hbuffer ↦ by
    rcases List.mem_pair.1 hbuffer with rfl | rfl <;>
      exact List.ne_nil_of_length_pos (by rw [List.length_replicate]; decide)
  have hlength : reads.flatten.length = 150000 := by
    rw [List.flatten_cons, List.flatten_singleton, List.length_append, List.length_replicate,
      List.length_replicate]
  have htrips := roundTrips Sha.constant object (by decide)
  refine ⟨htrips, (htrips.written reads hreads (by decide) hlength ?_).2⟩
  have hpieces := length_cut_le Sha.constant reads.flatten
  have hcount := congrArg List.length (indexOf_chunk hreads : _ = piecesOf Sha.constant _)
  rw [indexOf, piecesOf, List.length_map, List.length_map] at hcount
  rw [hcount]
  rw [hlength] at hpieces
  omega

end Produced

end MicaCore.Deploy.Chunks
