import MicaCore.Boot.Board
import MicaCore.Boot.FitRecords
import MicaCore.Crash.Program
import MicaCore.Data.Bytes

namespace MicaCore.Boot

open Data Deploy
open Crash (Prog)

def entriesKey : Bytes := utf8Bytes "mica_entries=".toList

def le32 (n : UInt32) : Bytes :=
  [n.toUInt8, (n >>> 8).toUInt8, (n >>> 16).toUInt8, (n >>> 24).toUInt8]

def envData (value : Bytes) : Bytes :=
  entriesKey ++ value ++ List.replicate (envSize.toNat - 5 - (entriesKey.length + value.length)) 0

def encode (records : List FitRecord) (flag : UInt8) : Except String Bytes := do
  let value ← renderRecords records
  let data := envData (utf8Bytes value)
  pure (le32 (crc32 data) ++ flag :: data)

def validCrc (bytes : Bytes) : Bool :=
  bytes.length == envSize.toNat && bytes.take 4 == le32 (crc32 (bytes.drop 5))

def decode (bytes : Bytes) : Except String (List FitRecord) := do
  let data := bytes.drop 5
  ensure (entriesKey.isPrefixOf data) "boot records absent from environment"
  let stop ← orError "unterminated boot environment" (data.findIdx? (· == 0))
  ensure (stop + 1 < data.length && (data.drop stop).all (· == 0)) "unexpected boot environment data"
  let text ← orError "invalid utf-8 sequence" (fromUtf8 ((data.take stop).drop entriesKey.length))
  parseRecords text

def flagOf (bytes : Bytes) : UInt8 := bytes.getD 4 0

structure Copies where
  a : Option Bytes
  b : Option Bytes

structure Environment where
  records : List FitRecord
  slot : Slot
  flag : UInt8

namespace Copies

def get (c : Copies) : Slot → Option Bytes
  | .a => c.a
  | .b => c.b

def put (c : Copies) (slot : Slot) (bytes : Option Bytes) : Copies :=
  match slot with
  | .a => { c with a := bytes }
  | .b => { c with b := bytes }

def candidate (c : Copies) (slot : Slot) : Option Bytes := (c.get slot).filter validCrc

def activeSlot : Option Bytes → Option Bytes → Option Slot
  | some _, none => some .a
  | none, some _ => some .b
  | none, none => none
  | some a, some b =>
    let a := flagOf a
    let b := flagOf b
    if (a == 255 && b == 0) || (b > a && !(b == 255 && a == 0)) then some .b else some .a

def load (c : Copies) : Except String Environment := do
  let slot ← orError "no valid redundant boot environment"
    (activeSlot (c.candidate .a) (c.candidate .b))
  let copy ← orError "no valid redundant boot environment" (c.candidate slot)
  let records ← decode copy
  pure ⟨records, slot, flagOf copy⟩

end Copies

def Environment.save (env : Environment) : Prog Copies String Unit := do
  let flag := env.flag + 1
  let bytes ← Prog.ofExcept (encode env.records flag)
  Prog.write fun c ↦ c.put env.slot.other (some bytes)
  let saved ← Prog.read Copies.load
  Prog.ensure (saved.slot == env.slot.other && saved.flag == flag && saved.records == env.records)
    "boot environment read-back mismatch"

section Codec

variable {records rs : List FitRecord} {text : Text}

theorem length_utf8Bytes (t : Text) : (utf8Bytes t).length = byteLength t := by
  induction t with
  | nil => rfl
  | cons c t ih =>
    rw [byteLength, List.map_cons, List.sum_cons, ← byteLength, ← ih]
    simp [utf8Bytes, String.length_utf8EncodeChar]

theorem ne_zero_of_mem_utf8Bytes {t : Text} (h : t.all plainAscii = true) {byte : UInt8}
    (hmem : byte ∈ utf8Bytes t) : byte ≠ 0 := by
  obtain ⟨c, hc, hbyte⟩ := List.mem_flatMap.1 hmem
  have hplain := List.all_eq_true.1 h c hc
  simp only [plainAscii, Bool.and_eq_true, decide_eq_true_eq, bne_iff_ne, ne_eq] at hplain
  obtain ⟨hlt, hne⟩ := hplain
  have hval : c.toNat = c.val.toNat := rfl
  have hsize : c.utf8Size = 1 := by
    rw [Char.utf8Size_eq_one_iff, UInt32.le_iff_toNat_le]
    exact Nat.le_of_lt_succ hlt
  rw [String.utf8EncodeChar_eq_singleton hsize, List.mem_singleton] at hbyte
  rintro rfl
  have hzero : c.val.toNat = 0 := by
    have hmod := congrArg UInt8.toNat hbyte
    rw [UInt8.toNat_zero, UInt32.toNat_toUInt8, Nat.mod_eq_of_lt (by omega)] at hmod
    exact hmod.symm
  exact hne (Char.ext (UInt32.toNat_inj.1 hzero))

theorem zero_not_mem_entriesKey : (0 : UInt8) ∉ entriesKey := fun hmem ↦
  ne_zero_of_mem_utf8Bytes (t := "mica_entries=".toList) (by decide) hmem rfl

theorem length_entriesKey : entriesKey.length = 13 := by decide

theorem length_envData {value : Bytes} (h : value.length ≤ 512) :
    (envData value).length = 65531 := by
  simp only [envData, List.length_append, List.length_replicate, length_entriesKey, toNat_envSize]
  omega

theorem findIdx_envData {value : Bytes} (h : value.length ≤ 512) (hzero : 0 ∉ value) :
    (envData value).findIdx? (· == 0) = some (13 + value.length) := by
  have hnone : (entriesKey ++ value).findIdx? (· == 0) = none := by
    rw [List.findIdx?_eq_none_iff]
    intro byte hbyte
    rw [beq_eq_false_iff_ne]
    rintro rfl
    exact (List.mem_append.1 hbyte).elim zero_not_mem_entriesKey hzero
  obtain ⟨k, hk⟩ : ∃ k, envSize.toNat - 5 - (entriesKey.length + value.length) = k + 1 :=
    ⟨65530 - (13 + value.length), by rw [length_entriesKey, toNat_envSize]; omega⟩
  rw [envData, List.findIdx?_append, hnone, hk, List.replicate_succ, List.findIdx?_cons]
  simp [length_entriesKey]

theorem decode_envData {head : Bytes} (hhead : head.length = 5) (hascii : text.all plainAscii = true)
    (hlength : text.length ≤ 300) : decode (head ++ envData (utf8Bytes text)) =
    parseRecords text := by
  have hbytes : (utf8Bytes text).length = text.length := by
    rw [length_utf8Bytes, byteLength_of_plainAscii hascii]
  have hzero : 0 ∉ utf8Bytes text := fun hmem ↦ ne_zero_of_mem_utf8Bytes hascii hmem rfl
  have hdata : (head ++ envData (utf8Bytes text)).drop 5 = envData (utf8Bytes text) :=
    List.drop_left' hhead
  have hkey : entriesKey.isPrefixOf (envData (utf8Bytes text)) = true := by
    rw [List.isPrefixOf_iff_prefix, envData, List.append_assoc]
    exact List.prefix_append _ _
  have hstop := @findIdx_envData (utf8Bytes text) (by omega) hzero
  have hprefix : (entriesKey ++ utf8Bytes text).length = 13 + (utf8Bytes text).length := by
    rw [List.length_append, length_entriesKey]
  have hrest : (envData (utf8Bytes text)).drop (13 + (utf8Bytes text).length) =
      List.replicate (envSize.toNat - 5 - (entriesKey.length + (utf8Bytes text).length)) 0 :=
    List.drop_left' hprefix
  have hvalue : ((envData (utf8Bytes text)).take (13 + (utf8Bytes text).length)).drop entriesKey.length =
      utf8Bytes text := by
    rw [envData, List.take_left' hprefix, List.drop_left]
  have hend : (13 + (utf8Bytes text).length) + 1 < (envData (utf8Bytes text)).length := by
    rw [length_envData (by omega)]
    omega
  have hpadding : ∀ byte ∈ (envData (utf8Bytes text)).drop (13 + (utf8Bytes text).length),
      byte = 0 := by
    rw [hrest]
    exact fun byte hbyte ↦ List.eq_of_mem_replicate hbyte
  simp only [decode, hdata, hkey, hstop, orError, ensure, bind, Except.bind, if_true]
  simp only [Bool.and_eq_true, decide_eq_true_eq, List.all_eq_true, beq_iff_eq]
  rw [if_pos ⟨hend, hpadding⟩]
  simp only [hvalue, (fromUtf8_eq_some_iff (s := text)).2]

theorem encode_eq_ok {flag : UInt8} (h : renderRecords records = .ok text) :
    encode records flag = .ok (le32 (crc32 (envData (utf8Bytes text))) ++ flag :: envData (utf8Bytes text)) := by
  simp only [encode, h, bind, Except.bind, pure, Except.pure]

theorem length_le32 (n : UInt32) : (le32 n).length = 4 := rfl

theorem drop_front (n : UInt32) (flag : UInt8) (data : Bytes) :
    (le32 n ++ flag :: data).drop 5 = data := rfl

structure Encoded (bytes : Bytes) (flag : UInt8) (text : Text) : Prop where
  length : bytes.length = envSize.toNat
  crc : validCrc bytes = true
  flag : flagOf bytes = flag
  decoded : decode bytes = parseRecords text

theorem encoded_of_render {flag : UInt8} (h : renderRecords records = .ok text) :
    ∃ bytes, encode records flag = .ok bytes ∧ Encoded bytes flag text := by
  obtain ⟨rfl, rs, hparse⟩ := renderRecords_eq_ok.1 h
  obtain ⟨hne, hlisting, htext⟩ := parseRecords_eq_ok.1 hparse
  obtain ⟨hascii, hbound⟩ := hlisting.bounds hne
  rw [← htext] at hascii hbound
  have hbytes : (utf8Bytes (renderText records)).length ≤ 512 := by
    rw [length_utf8Bytes, byteLength_of_plainAscii hascii]
    omega
  have hlength := length_envData hbytes
  refine ⟨_, encode_eq_ok h, ?_, ?_, rfl, ?_⟩
  · rw [List.length_append, List.length_cons, hlength, length_le32, toNat_envSize]
  · rw [validCrc, List.length_append, List.length_cons, hlength, length_le32, toNat_envSize,
      List.take_left' (length_le32 _), drop_front]
    simp
  · rw [List.append_cons]
    exact decode_envData (by rw [List.length_append, length_le32, List.length_singleton]) hascii hbound

def Canonical (text : Text) : Prop := ∃ rs, rs ≠ [] ∧ Listing rs ∧ text = renderText rs

/-- Records are read back exactly if no name holds a separator. -/
theorem roundTrip_iff {flag : UInt8} (h : renderRecords records = .ok text) :
    ((∃ bytes, encode records flag = .ok bytes ∧ bytes.length = envSize.toNat ∧ validCrc bytes = true ∧
        decode bytes = .ok records) ∧
      (∀ text rs, parseRecords text = .ok rs → renderRecords rs = .ok text) ∧
      ∀ text, (∃ rs, parseRecords text = .ok rs) ↔ Canonical text) ↔
    ∀ r ∈ records, ∀ c ∈ [',', ';'], c ∉ r.id ∧ c ∉ r.kernelId := by
  obtain ⟨bytes, hencode, hencoded⟩ : ∃ bytes, encode records flag = .ok bytes ∧
      Encoded bytes flag text :=
    encoded_of_render h
  obtain ⟨rfl, rs, hparse⟩ := renderRecords_eq_ok.1 h
  have hclean := eq_iff_clean hparse
  constructor
  · rintro ⟨⟨bytes', hencode', -, -, hdecode⟩, -⟩
    obtain rfl : bytes' = bytes := Except.ok.inj (hencode'.symm.trans hencode)
    rw [hencoded.decoded, hparse] at hdecode
    exact hclean.1 (Except.ok.inj hdecode)
  · intro hnames
    obtain rfl := hclean.2 hnames
    refine ⟨⟨bytes, hencode, hencoded.length, hencoded.crc, hencoded.decoded.trans hparse⟩, ?_, ?_⟩
    · intro text rs htext
      obtain ⟨-, -, rfl⟩ := parseRecords_eq_ok.1 htext
      exact renderRecords_eq_ok.2 ⟨rfl, rs, htext⟩
    · intro text
      simp only [parseRecords_eq_ok, Canonical]

end Codec

section Samples

def nameOf (n : Nat) : Text := List.replicate 63 '0' ++ numeral n

def twoRecords : List FitRecord := [⟨nameOf 2, nameOf 5, 7, some 3⟩, ⟨nameOf 1, nameOf 4, 6, none⟩]

def foldedRecord : FitRecord :=
  ⟨nameOf 2 ++ ',' :: nameOf 5 ++ ",7,3;".toList ++ nameOf 1, nameOf 4, 6, none⟩

theorem listing_twoRecords : Listing twoRecords := by
  refine ⟨by decide, ?_, by decide⟩
  simp only [twoRecords, List.forall_mem_cons]
  exact ⟨⟨by decide, by decide, by decide, fun t ht ↦ by cases ht; decide⟩,
    ⟨by decide, by decide, by decide, by simp⟩, by simp⟩

theorem renderText_foldedRecord : renderText [foldedRecord] = renderText twoRecords := by
  have hseven : numeral 7 = ['7'] := by decide
  have hthree : renderTries (some 3) = ['3'] := by decide
  simp [renderText, foldedRecord, twoRecords, renderRow, fieldsOf, List.intercalate, hseven, hthree]

theorem parseRecords_twoRecords : parseRecords (renderText twoRecords) = .ok twoRecords :=
  parseRecords_eq_ok.2 ⟨by decide, listing_twoRecords, rfl⟩

theorem parseRecords_foldedRecord : parseRecords (renderText [foldedRecord]) = .ok twoRecords := by
  rw [renderText_foldedRecord, parseRecords_twoRecords]

theorem render_twoRecords : renderRecords twoRecords = .ok (renderText twoRecords) :=
  renderRecords_eq_ok.2 ⟨rfl, twoRecords, parseRecords_twoRecords⟩

theorem render_foldedRecord : renderRecords [foldedRecord] = .ok (renderText [foldedRecord]) :=
  renderRecords_eq_ok.2 ⟨rfl, twoRecords, parseRecords_foldedRecord⟩

theorem roundTrip_twoRecords :
    ∃ bytes, encode twoRecords 255 = .ok bytes ∧ validCrc bytes = true ∧
    decode bytes = .ok twoRecords := by
  have hclean : ∀ r ∈ twoRecords, r.Clean := fun r hr ↦ (listing_twoRecords.valid r hr).clean
  obtain ⟨⟨bytes, hencode, -, hcrc, hdecode⟩, -⟩ := (roundTrip_iff render_twoRecords).2 hclean
  exact ⟨bytes, hencode, hcrc, hdecode⟩

/-- One record is accepted and read back as two. -/
theorem not_forall_roundTrip :
    ¬∀ (records : List FitRecord) (flag : UInt8) (text : Text), renderRecords records = .ok text →
      (∃ bytes, encode records flag = .ok bytes ∧ bytes.length = envSize.toNat ∧ validCrc bytes = true ∧
        decode bytes = .ok records) ∧
      (∀ text rs, parseRecords text = .ok rs → renderRecords rs = .ok text) ∧
      ∀ text, (∃ rs, parseRecords text = .ok rs) ↔ Canonical text := by
  intro hall
  obtain ⟨⟨bytes, hencode, -, -, hdecode⟩, -⟩ := hall [foldedRecord] 0 _ render_foldedRecord
  obtain ⟨bytes', hencode', hencoded⟩ : ∃ bytes, encode [foldedRecord] 0 = .ok bytes ∧
      Encoded bytes 0 (renderText [foldedRecord]) := encoded_of_render render_foldedRecord
  obtain rfl : bytes' = bytes := Except.ok.inj (hencode'.symm.trans hencode)
  rw [hencoded.decoded, parseRecords_foldedRecord] at hdecode
  exact absurd (Except.ok.inj hdecode) (by decide)

end Samples

end MicaCore.Boot
