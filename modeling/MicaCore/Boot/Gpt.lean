import MicaCore.Data.Checked
import MicaCore.Deploy.Chunks

namespace MicaCore.Boot.Gpt

open Data Deploy
open Deploy.Chunks (hex)

structure Partition where
  number : ℕ
  uuid : Text
  start : ℕ
  sectors : ℕ
  deriving DecidableEq

def readLe (width : ℕ) (bytes : Bytes) (offset : ℕ) : Checked ℕ :=
  orError (.refused "truncated GPT")
    (if offset + width ≤ bytes.length then some (littleEndian ((bytes.drop offset).take width)) else none)

def u32le : Bytes → ℕ → Checked ℕ := readLe 4
def u64le : Bytes → ℕ → Checked ℕ := readLe 8

def hexWidth : ℕ → ℕ → Text
  | 0, _ => []
  | width + 1, n => hexWidth width (n / 16) ++ [Nat.digitChar (n % 16)]

def protective (bytes : Bytes) : Checked Unit := do
  let message := "not a protective GPT partition table"
  let signature ← slice bytes 510 512
  refuse (signature == [0x55, 0xaa]) message
  let kind ← byteAt bytes 450
  refuse (kind == 0xee) message
  let status ← byteAt bytes 446
  refuse (status == 0) message
  let first ← u32le bytes 454
  refuse (first == 1) message
  let others ← slice bytes 462 510
  refuse (others.all (· == 0)) message

def efiPart : Bytes := "EFI PART".toUTF8.toList

def geometry (h : Bytes) (sectors : ℕ) : Checked ℕ := do
  let message := "unsupported GPT header or geometry"
  let backup ← u64le h 32
  let signature ← slice h 0 8
  refuse (signature == efiPart) message
  let revision ← u32le h 8
  refuse (revision == 0x00010000) message
  let size ← u32le h 12
  refuse (size == 92) message
  let reserved ← u32le h 20
  refuse (reserved == 0) message
  let current ← u64le h 24
  refuse (current == 1) message
  refuse (67 ≤ backup && backup < sectors) message
  let table ← u64le h 72
  refuse (table == 2) message
  let count ← u32le h 80
  refuse (count == 128) message
  let width ← u32le h 84
  refuse (width == 128) message
  pure backup

def checksums (bytes h : Bytes) : Checked Unit := do
  let message := "GPT checksum mismatch"
  let before ← slice h 0 16
  let after ← slice h 20 92
  let headerSum ← u32le h 16
  refuse ((crc32 (before ++ List.replicate 4 0 ++ after)).toNat == headerSum) message
  let table ← slice bytes 1024 bytes.length
  let tableSum ← u32le h 88
  refuse ((crc32 table).toNat == tableSum) message

def usable (h : Bytes) (backup : ℕ) : Checked (ℕ × ℕ) := do
  let message := "invalid GPT usable range"
  let first ← u64le h 40
  let last ← u64le h 48
  refuse (34 ≤ first && first ≤ last) message
  let limit ← subU64 backup 32
  refuse (last < limit) message
  pure (first, last)

def uuidText (id : Bytes) : Checked Text := do
  let a ← u32le id 0
  let b ← slice id 4 6
  let c ← slice id 6 8
  let d ← slice id 8 10
  let e ← slice id 10 16
  pure (hexWidth 8 a ++ '-' :: hexWidth 4 (littleEndian b) ++ '-' :: hexWidth 4 (littleEndian c) ++
    '-' :: hex d ++ '-' :: hex e)

def clear (uuid : Text) (start stop : ℕ) : List Partition → Checked Bool
  | [] => pure true
  | p :: ps =>
    if p.uuid = uuid then pure false
    else if stop < p.start then clear uuid start stop ps
    else do
      let next ← addU64 p.start p.sectors
      if next ≤ start then clear uuid start stop ps else pure false

def parseEntry (first last : ℕ) (partitions : List Partition) (i : ℕ) (entry : Bytes) :
    Checked (List Partition) := do
  let type ← slice entry 0 16
  if type.all (· == 0) then pure partitions
  else do
    let start ← u64le entry 32
    let stop ← u64le entry 40
    let id ← slice entry 16 32
    refuse (first ≤ start && start ≤ stop && stop ≤ last && id.any (· != 0))
      "invalid GPT partition range or UUID"
    let uuid ← uuidText id
    let isClear ← clear uuid start stop partitions
    refuse isClear "duplicate UUID or overlapping GPT partitions"
    let length ← subU64 stop start
    let sectors ← addU64 length 1
    pure (partitions ++ [⟨i + 1, uuid, start, sectors⟩])

def entryOf (bytes : Bytes) (i : ℕ) : Bytes := (bytes.drop (1024 + 128 * i)).take 128

def parseEntries (bytes : Bytes) (first last n : ℕ) : Checked (List Partition) :=
  (List.range n).foldlM (fun partitions i ↦ parseEntry first last partitions i (entryOf bytes i)) []

def parseTable (bytes : Bytes) (sectors : ℕ) : Checked (List Partition) := do
  protective bytes
  let h ← slice bytes 512 1024
  let backup ← geometry h sectors
  checksums bytes h
  let (first, last) ← usable h backup
  parseEntries bytes first last ((bytes.length - 1024) / 128)

def parse (bytes : Bytes) (sectors : ℕ) : Checked (List Partition) := do
  refuse (bytes.length == 34 * 512 && 67 < sectors) "invalid bounded GPT disk"
  parseTable bytes sectors

def field (bytes : Bytes) (i offset width : ℕ) : Bytes := ((entryOf bytes i).drop offset).take width

def mixedEndian (id : Bytes) : Text :=
  hex (id.take 4).reverse ++ '-' :: hex ((id.drop 4).take 2).reverse ++
    '-' :: hex ((id.drop 6).take 2).reverse ++ '-' :: hex ((id.drop 8).take 2) ++
    '-' :: hex ((id.drop 10).take 6)

def used (bytes : Bytes) (i : ℕ) : Bool := !(field bytes i 0 16).all (· == 0)

def partitionOf (bytes : Bytes) (i : ℕ) : Partition where
  number := i + 1
  uuid := mixedEndian (field bytes i 16 16)
  start := littleEndian (field bytes i 32 8)
  sectors := littleEndian (field bytes i 40 8) - littleEndian (field bytes i 32 8) + 1

/-- Two partitions share neither name nor sector. -/
def Apart (p q : Partition) : Prop :=
  p.uuid ≠ q.uuid ∧ (p.start + p.sectors ≤ q.start ∨ q.start + q.sectors ≤ p.start)

def Within (first last : ℕ) (p : Partition) : Prop :=
  first ≤ p.start ∧ 0 < p.sectors ∧ p.start + p.sectors ≤ last + 1

section Readers

variable {bytes h id entry : Bytes} {width offset n : ℕ}

theorem readLe_calm : Calm (readLe width bytes offset) := Calm.orError _ _

theorem readLe_eq_ok : readLe width bytes offset = .ok n ↔
    offset + width ≤ bytes.length ∧ littleEndian ((bytes.drop offset).take width) = n := by
  rw [readLe, orError_eq_ok]
  simp

theorem readLe_lt (hread : readLe width bytes offset = .ok n) : n < 256 ^ width := by
  obtain ⟨hlength, rfl⟩ := readLe_eq_ok.mp hread
  have hlt := bigEndian_lt ((bytes.drop offset).take width).reverse
  have hwidth : ((bytes.drop offset).take width).reverse.length = width := by simp; omega
  rwa [hwidth] at hlt

theorem hexWidth_bigEndian (bytes : Bytes) :
    hexWidth (2 * bytes.length) (bigEndian bytes) = hex bytes := by
  induction bytes using List.reverseRecOn with
  | nil => rfl
  | append_singleton bytes b ih =>
    have hb : b.toNat < 256 := b.toNat_lt
    rw [List.length_append, List.length_singleton, Nat.mul_add, bigEndian_append_singleton]
    have hhigh : (256 * bigEndian bytes + b.toNat) / 16 / 16 = bigEndian bytes := by omega
    have hmid : (256 * bigEndian bytes + b.toNat) / 16 % 16 = b.toNat / 16 := by omega
    have hlow : (256 * bigEndian bytes + b.toNat) % 16 = b.toNat % 16 := by omega
    change hexWidth (2 * bytes.length + 1 + 1) _ = _
    rw [hexWidth, hexWidth, hhigh, hmid, hlow, ih]
    simp [hex, Chunks.hexChar]

theorem hexWidth_littleEndian {width : ℕ} (hlength : bytes.length = width) :
    hexWidth (2 * width) (littleEndian bytes) = hex bytes.reverse := by
  rw [← hlength, ← List.length_reverse]
  exact hexWidth_bigEndian bytes.reverse

theorem uuidText_eq (hid : id.length = 16) : uuidText id = .ok (mixedEndian id) := by
  have hread : u32le id 0 = .ok (littleEndian ((id.drop 0).take 4)) :=
    readLe_eq_ok.mpr ⟨by omega, rfl⟩
  have htake : ∀ first width, first + width ≤ 16 → ((id.drop first).take width).length = width := by
    intro first width hle
    simp
    omega
  have hgroup := hexWidth_littleEndian (htake 0 4 (by decide))
  have hgroup₁ := hexWidth_littleEndian (htake 4 2 (by decide))
  have hgroup₂ := hexWidth_littleEndian (htake 6 2 (by decide))
  simp only [Nat.reduceMul, List.drop_zero] at hgroup hgroup₁ hgroup₂
  rw [uuidText, hread, slice_eq (show 4 ≤ 6 by decide) (show 6 ≤ id.length by omega),
    slice_eq (show 6 ≤ 8 by decide) (show 8 ≤ id.length by omega),
    slice_eq (show 8 ≤ 10 by decide) (show 10 ≤ id.length by omega),
    slice_eq (show 10 ≤ 16 by decide) (show 16 ≤ id.length by omega)]
  simp only [bind, Except.bind, pure, Except.pure, Nat.reduceSub, List.drop_zero,
    mixedEndian, hgroup,
    hgroup₁, hgroup₂]

theorem protective_calm (hlength : bytes.length = 34 * 512) : Calm (protective bytes) := by
  unfold protective
  refine (Calm.slice (by decide) (by omega)).guarded fun _ ↦ ?_
  refine (Calm.byteAt (by omega)).guarded fun _ ↦ ?_
  refine (Calm.byteAt (by omega)).guarded fun _ ↦ ?_
  refine readLe_calm.guarded fun _ ↦ ?_
  exact (Calm.slice (by decide) (by omega)).bind fun _ _ ↦ Calm.refuse _ _

theorem geometry_calm (hlength : h.length = 512) (sectors : ℕ) : Calm (geometry h sectors) := by
  unfold geometry
  refine readLe_calm.bind fun _ _ ↦ ?_
  refine (Calm.slice (by decide) (by omega)).guarded fun _ ↦ ?_
  refine readLe_calm.guarded fun _ ↦ ?_
  refine readLe_calm.guarded fun _ ↦ ?_
  refine readLe_calm.guarded fun _ ↦ ?_
  refine readLe_calm.guarded fun _ ↦ ?_
  refine (Calm.refuse _ _).bind fun _ _ ↦ ?_
  refine readLe_calm.guarded fun _ ↦ ?_
  refine readLe_calm.guarded fun _ ↦ ?_
  refine readLe_calm.guarded fun _ ↦ ?_
  exact Calm.pure _

variable {backup : ℕ}

theorem of_geometry {sectors : ℕ} (hok : geometry h sectors = .ok backup) :
    u64le h 32 = .ok backup ∧ 67 ≤ backup ∧ backup < sectors := by
  simp only [geometry, bind_eq_ok, refuse, ensure_eq_ok, pure_eq_ok, exists_const, Bool.and_eq_true,
    decide_eq_true_eq] at hok
  obtain ⟨_, hread, _, _, _, _, _, _, _, _, _, _, _, _, _, _, _, hrange, _, _, _, _, _, _, _, _, _, rfl⟩ :=
    hok
  exact ⟨hread, hrange⟩

theorem geometry_congr {s s' : ℕ} (hread : u64le h 32 = .ok backup) (hs : backup < s)
    (hs' : backup < s') : geometry h s = geometry h s' := by
  have hrange : (67 ≤ backup && backup < s) = (67 ≤ backup && backup < s') := by simp [hs, hs']
  unfold geometry
  rw [hread]
  change _ = _
  simp only [bind, Except.bind, hrange]

theorem checksums_calm (hbytes : bytes.length = 34 * 512) (hlength : h.length = 512) :
    Calm (checksums bytes h) := by
  unfold checksums
  refine (Calm.slice (by decide) (by omega)).bind fun _ _ ↦ ?_
  refine (Calm.slice (by decide) (by omega)).bind fun _ _ ↦ ?_
  refine readLe_calm.guarded fun _ ↦ ?_
  refine (Calm.slice (by omega) le_rfl).bind fun _ _ ↦ ?_
  exact readLe_calm.bind fun _ _ ↦ Calm.refuse _ _

theorem usable_calm (hbackup : 32 ≤ backup) : Calm (usable h backup) := by
  unfold usable
  refine readLe_calm.bind fun _ _ ↦ readLe_calm.guarded fun _ ↦ ?_
  exact (Calm.subU64 hbackup).bind fun _ _ ↦ (Calm.refuse _ _).bind fun _ _ ↦ Calm.pure _

theorem of_usable {first last : ℕ} (hok : usable h backup = .ok (first, last)) :
    u64le h 40 = .ok first ∧ u64le h 48 = .ok last ∧ 34 ≤ first ∧ first ≤ last ∧
    last < backup - 32 := by
  simp only [usable, bind_eq_ok, refuse, ensure_eq_ok, pure_eq_ok, Prod.mk.injEq, Bool.and_eq_true,
    decide_eq_true_eq] at hok
  obtain ⟨_, hfirst, _, hlast, _, hrange, limit, hlimit, _, hbelow, rfl, rfl⟩ := hok
  obtain ⟨-, rfl⟩ := subU64_eq_ok hlimit
  exact ⟨hfirst, hlast, hrange.1, hrange.2, hbelow⟩

end Readers

section Entries

variable {bytes : Bytes} {first last i n : ℕ} {uuid : Text} {start stop : ℕ} {ps ps' : List Partition}

theorem clear_calm (h : ∀ p ∈ ps, p.start + p.sectors < 2 ^ 64) :
    Calm (clear uuid start stop ps) := by
  induction ps with
  | nil => exact Calm.pure _
  | cons p ps ih =>
    have hrest := ih fun q hq ↦ h q (List.mem_cons_of_mem _ hq)
    unfold clear
    split
    · exact Calm.pure _
    · split
      · exact hrest
      · refine (Calm.addU64 (h p List.mem_cons_self)).bind fun _ _ ↦ ?_
        split
        · exact hrest
        · exact Calm.pure _

theorem of_clear (h : clear uuid start stop ps = .ok true) :
    ∀ p ∈ ps, p.uuid ≠ uuid ∧ (stop < p.start ∨ p.start + p.sectors ≤ start) := by
  induction ps with
  | nil => nofun
  | cons p ps ih =>
    rw [clear] at h
    split at h
    · cases h
    · next huuid =>
      split at h
      · next hbefore => exact List.forall_mem_cons.mpr ⟨⟨huuid, .inl hbefore⟩, ih h⟩
      · obtain ⟨next, hnext, h⟩ := bind_eq_ok.mp h
        split at h
        · next hafter =>
          rw [addU64_eq_ok hnext] at hafter
          exact List.forall_mem_cons.mpr ⟨⟨huuid, .inr hafter⟩, ih h⟩
        · cases h

theorem length_entryOf (hbytes : bytes.length = 34 * 512) (hi : i < 128) :
    (entryOf bytes i).length = 128 := by
  simp [entryOf]
  omega

theorem of_parseEntry (hlength : (entryOf bytes i).length = 128)
    (h : parseEntry first last ps i (entryOf bytes i) = .ok ps') :
    (used bytes i = false ∧ ps' = ps) ∨
    (used bytes i = true ∧ ps' = ps ++ [partitionOf bytes i] ∧ Within first last (partitionOf bytes i) ∧
      ∀ p ∈ ps, Apart p (partitionOf bytes i)) := by
  obtain ⟨type, htype, h⟩ := bind_eq_ok.mp h
  obtain ⟨-, rfl⟩ := slice_eq_take htype
  have hused : used bytes i = !(((entryOf bytes i).drop 0).take (16 - 0)).all (· == 0) := rfl
  split at h
  · next hzero =>
    rw [hused, hzero]
    exact .inl ⟨rfl, (pure_eq_ok.mp h).symm⟩
  · next hzero =>
    simp only [bind_eq_ok, refuse, ensure_eq_ok, pure_eq_ok, Bool.and_eq_true, decide_eq_true_eq] at h
    obtain ⟨start, hstart, stop, hstop, id, hid, _, ⟨⟨⟨hfirst, hle⟩, hlast⟩, -⟩, uuid, huuid, isClear, hclear,
      _, rfl, length, hsub, sectors, hadd, rfl⟩ := h
    obtain ⟨-, rfl⟩ := slice_eq_take hid
    obtain ⟨-, rfl⟩ := readLe_eq_ok.mp hstart
    obtain ⟨-, rfl⟩ := readLe_eq_ok.mp hstop
    rw [uuidText_eq (by simp; omega)] at huuid
    cases huuid
    obtain ⟨-, rfl⟩ := subU64_eq_ok hsub
    obtain rfl := addU64_eq_ok hadd
    refine .inr ⟨by rw [hused]; simpa using hzero, rfl, ⟨hfirst, Nat.succ_pos _, ?_⟩, fun p hp ↦ ?_⟩
    · change littleEndian (((entryOf bytes i).drop 32).take 8) +
        (littleEndian (((entryOf bytes i).drop 40).take 8) -
          littleEndian (((entryOf bytes i).drop 32).take 8) + 1) ≤ last + 1
      omega
    · obtain ⟨hne, hrange⟩ := of_clear hclear p hp
      refine ⟨hne, ?_⟩
      change p.start + p.sectors ≤ littleEndian (((entryOf bytes i).drop 32).take 8) ∨
        littleEndian (((entryOf bytes i).drop 32).take 8) +
          (littleEndian (((entryOf bytes i).drop 40).take 8) -
            littleEndian (((entryOf bytes i).drop 32).take 8) + 1) ≤ p.start
      omega

theorem parseEntry_calm (hlength : (entryOf bytes i).length = 128)
    (hps : ∀ p ∈ ps, p.start + p.sectors < 2 ^ 64) (hlast : last < 2 ^ 64 - 1) :
    Calm (parseEntry first last ps i (entryOf bytes i)) := by
  unfold parseEntry
  refine (Calm.slice (by decide) (by omega)).bind fun type _ ↦ ?_
  split
  · exact Calm.pure _
  · refine readLe_calm.bind fun start _ ↦ readLe_calm.bind fun stop _ ↦ ?_
    refine (Calm.slice (by decide) (by omega)).bind fun id hid ↦ ?_
    refine (Calm.refuse _ _).bind fun _ hrange ↦ ?_
    simp only [refuse, ensure_eq_ok, Bool.and_eq_true, decide_eq_true_eq] at hrange
    obtain ⟨-, rfl⟩ := slice_eq_take hid
    rw [uuidText_eq (by simp; omega)]
    refine (Calm.ok _).bind fun uuid _ ↦ (clear_calm hps).bind fun isClear _ ↦ ?_
    refine (Calm.refuse _ _).bind fun _ _ ↦ (Calm.subU64 (by omega)).bind fun length hsub ↦ ?_
    obtain ⟨-, rfl⟩ := subU64_eq_ok hsub
    exact (Calm.addU64 (by omega)).bind fun sectors _ ↦ Calm.pure _

theorem parseEntries_succ : parseEntries bytes first last (n + 1) =
    parseEntries bytes first last n >>= fun ps ↦ parseEntry first last ps n (entryOf bytes n) := by
  rw [parseEntries, List.range_succ, List.foldlM_append]
  simp [parseEntries]

theorem of_parseEntries (hbytes : bytes.length = 34 * 512) (hn : n ≤ 128)
    (h : parseEntries bytes first last n = .ok ps) :
    ps = ((List.range n).filter (used bytes)).map (partitionOf bytes) ∧
      (∀ p ∈ ps, Within first last p) ∧ ps.Pairwise Apart := by
  induction n generalizing ps with
  | zero =>
    obtain rfl := pure_eq_ok.mp h
    exact ⟨rfl, nofun, .nil⟩
  | succ n ih =>
    rw [parseEntries_succ, bind_eq_ok] at h
    obtain ⟨before, hbefore, hentry⟩ := h
    obtain ⟨rfl, hwithin, hapart⟩ := ih (by omega) hbefore
    rw [List.range_succ, List.filter_append]
    rcases of_parseEntry (length_entryOf hbytes (by omega)) hentry with
      ⟨hunused, rfl⟩ | ⟨hused, rfl, hhere, hclear⟩
    · simp only [List.filter_cons, hunused, Bool.false_eq_true, if_false, List.filter_nil,
        List.append_nil]
      exact ⟨trivial, hwithin, hapart⟩
    · simp only [List.filter_cons, hused, if_true, List.filter_nil, List.map_append, List.map_cons,
        List.map_nil]
      refine ⟨trivial, fun p hp ↦ ?_, List.pairwise_append.mpr ⟨hapart, List.pairwise_singleton _ _, ?_⟩⟩
      · rcases List.mem_append.mp hp with hp | hp
        · exact hwithin p hp
        · rw [List.mem_singleton.mp hp]
          exact hhere
      · intro p hp q hq
        rw [List.mem_singleton.mp hq]
        exact hclear p hp

theorem parseEntries_calm (hbytes : bytes.length = 34 * 512) (hn : n ≤ 128)
    (hlast : last < 2 ^ 64 - 1) :
    Calm (parseEntries bytes first last n) := by
  induction n with
  | zero => exact Calm.pure _
  | succ n ih =>
    rw [parseEntries_succ]
    refine (ih (by omega)).bind fun ps hps ↦ ?_
    refine parseEntry_calm (length_entryOf hbytes (by omega)) (fun p hp ↦ ?_) hlast
    obtain ⟨-, -, hle⟩ := (of_parseEntries hbytes (by omega) hps).2.1 p hp
    omega

end Entries

def lba (bytes : Bytes) (offset : ℕ) : ℕ := littleEndian ((bytes.drop (512 + offset)).take 8)

section Tables

variable {bytes h : Bytes} {sectors sectors' : ℕ} {ps : List Partition}

theorem length_header (hh : slice bytes 512 1024 = .ok h) : h.length = 512 := (slice_eq_ok hh).1

theorem lba_of_u64le (hh : slice bytes 512 1024 = .ok h) {offset n : ℕ} (hoffset : offset + 8 ≤ 512)
    (hread : u64le h offset = .ok n) : lba bytes offset = n := by
  obtain ⟨-, rfl⟩ := slice_eq_take hh
  obtain ⟨-, rfl⟩ := readLe_eq_ok.mp hread
  rw [lba, List.drop_take, List.drop_drop, List.take_take, Nat.min_eq_left (by omega)]

theorem parse_of_bounds (hbytes : bytes.length = 34 * 512) (hsectors : 67 < sectors) :
    parse bytes sectors = parseTable bytes sectors := by
  have hbounds : (bytes.length == 34 * 512 && decide (67 < sectors)) = true := by
    simp [hbytes, hsectors]
  rw [parse, hbounds]
  rfl

theorem parse_of_not_bounds (h : ¬ (bytes.length = 34 * 512 ∧ 67 < sectors)) :
    parse bytes sectors = .error (.refused "invalid bounded GPT disk") := by
  have hbounds : (bytes.length == 34 * 512 && decide (67 < sectors)) = false := by simpa using h
  rw [parse, hbounds]
  rfl

theorem parseTable_calm (hbytes : bytes.length = 34 * 512) : Calm (parseTable bytes sectors) := by
  unfold parseTable
  refine (protective_calm hbytes).bind fun _ _ ↦ ?_
  refine (Calm.slice (by decide) (by omega)).bind fun h hh ↦ ?_
  refine (geometry_calm (length_header hh) _).bind fun backup hbackup ↦ ?_
  obtain ⟨hread, hmin, -⟩ := of_geometry hbackup
  have hmax := readLe_lt hread
  refine (checksums_calm hbytes (length_header hh)).bind fun _ _ ↦ ?_
  refine (usable_calm (by omega)).bind fun ⟨first, last⟩ hrange ↦ ?_
  obtain ⟨-, -, -, -, hlast⟩ := of_usable hrange
  exact parseEntries_calm hbytes (by omega) (by omega)

theorem parse_calm (bytes : Bytes) (sectors : ℕ) : Calm (parse bytes sectors) := by
  by_cases hbounds : bytes.length = 34 * 512 ∧ 67 < sectors
  · rw [parse_of_bounds hbounds.1 hbounds.2]
    exact parseTable_calm hbounds.1
  · rw [parse_of_not_bounds hbounds]
    nofun

theorem of_parse (hok : parse bytes sectors = .ok ps) :
    67 ≤ lba bytes 32 ∧ lba bytes 32 < sectors ∧ lba bytes 48 < lba bytes 32 - 32 ∧
      ps = ((List.range 128).filter (used bytes)).map (partitionOf bytes) ∧
      (∀ p ∈ ps, Within (lba bytes 40) (lba bytes 48) p) ∧ ps.Pairwise Apart := by
  obtain ⟨_, hbounds, htable⟩ := bind_eq_ok.mp hok
  simp only [refuse, ensure_eq_ok, Bool.and_eq_true, beq_iff_eq] at hbounds
  obtain ⟨hbytes, -⟩ := hbounds
  simp only [parseTable, bind_eq_ok] at htable
  obtain ⟨-, -, h, hh, backup, hbackup, -, -, ⟨first, last⟩, hrange, hentries⟩ := htable
  obtain ⟨hread, hmin, hmax⟩ := of_geometry hbackup
  obtain ⟨hfirst, hlast, -, -, hbelow⟩ := of_usable hrange
  rw [lba_of_u64le hh (by decide) hread, lba_of_u64le hh (by decide) hfirst,
    lba_of_u64le hh (by decide) hlast]
  rw [hbytes] at hentries
  exact ⟨hmin, hmax, hbelow, of_parseEntries hbytes le_rfl hentries⟩

theorem parse_congr (hs : 67 < sectors) (hs' : 67 < sectors') (hbackup : lba bytes 32 < sectors)
    (hbackup' : lba bytes 32 < sectors') : parse bytes sectors = parse bytes sectors' := by
  by_cases hbytes : bytes.length = 34 * 512
  · rw [parse_of_bounds hbytes hs, parse_of_bounds hbytes hs']
    have hh : slice bytes 512 1024 = .ok ((bytes.drop 512).take (1024 - 512)) :=
      slice_eq (by decide) (by omega)
    have hread : u64le ((bytes.drop 512).take (1024 - 512)) 32 = .ok (lba bytes 32) := by
      obtain ⟨n, hn⟩ : ∃ n, u64le ((bytes.drop 512).take (1024 - 512)) 32 = .ok n :=
        ⟨_, readLe_eq_ok.mpr ⟨by simp; omega, rfl⟩⟩
      rw [hn, lba_of_u64le hh (by decide) hn]
    unfold parseTable
    rw [hh]
    simp only [bind, Except.bind, geometry_congr hread hbackup hbackup']
  · rw [parse_of_not_bounds fun h ↦ hbytes h.1, parse_of_not_bounds fun h ↦ hbytes h.1]

/-- No read leaves the table and no number wraps; an accepted table's partitions lie apart below
the backup table. -/
theorem table_reads_soundly (bytes : Bytes) (sectors : ℕ) :
    parse bytes sectors ≠ .error .panic ∧
    (∀ ps, parse bytes sectors = .ok ps →
      ps = ((List.range 128).filter (used bytes)).map (partitionOf bytes) ∧ ps.Pairwise Apart ∧
      (∀ p ∈ ps, Within (lba bytes 40) (lba bytes 48) p) ∧ lba bytes 48 < lba bytes 32 - 32) ∧
    (∀ sectors', lba bytes 32 < sectors → lba bytes 32 < sectors' →
      (∀ ps, parse bytes sectors = .ok ps ↔ parse bytes sectors' = .ok ps) ∧
      (67 < sectors → 67 < sectors' → parse bytes sectors = parse bytes sectors')) := by
  refine ⟨parse_calm bytes sectors, fun ps hok ↦ ?_, fun sectors' hs hs' ↦ ⟨fun ps ↦ ?_, ?_⟩⟩
  · obtain ⟨-, -, hbelow, hps, hwithin, hapart⟩ := of_parse hok
    exact ⟨hps, hapart, hwithin, hbelow⟩
  · constructor
    · intro hok
      have hmin := (of_parse hok).1
      rwa [parse_congr (by omega) (by omega) hs' hs]
    · intro hok
      have hmin := (of_parse hok).1
      rwa [parse_congr (by omega) (by omega) hs hs']
  · exact fun h h' ↦ parse_congr h h' hs hs'

end Tables

end MicaCore.Boot.Gpt
