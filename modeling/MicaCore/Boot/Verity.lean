import MicaCore.Deploy.Components
import MicaCore.Deploy.Identity
import Mathlib.Algebra.BigOperators.Intervals
import Mathlib.Data.Nat.Log

namespace MicaCore.Boot

open Data Deploy

structure DmTarget where
  sector : ℕ
  length : ℕ
  kind : String
  parameters : Text
  deriving DecidableEq

def checkedMul (a b : ℕ) : Option ℕ := if a * b < 2 ^ 64 then some (a * b) else none

def asciiGraphic (c : Char) : Bool := '!' ≤ c && c ≤ '~'

def validDescription (description : Text) : Bool :=
  !description.isEmpty && (description.map Char.utf8Size).sum ≤ 128 && description.all asciiGraphic

def words (major minor : ℕ) (description : Text) (image : VerityImage) : List Text :=
  let g := image.verity
  let device := numeral major ++ ':' :: numeral minor
  [['1'], device, device, "4096".toList, "4096".toList, numeral g.dataBlocks,
    numeral (g.hashOffset / 4096), "sha256".toList, image.rootHash, g.salt, ['3'],
    "panic_on_corruption".toList, "root_hash_sig_key_desc".toList, description]

def table (major minor : ℕ) (description : Text) (image : VerityImage) :
    Except String DmTarget := do
  let g := image.verity
  ensure (validDescription description) "invalid verity signature description"
  ensure (g.version == 1 && g.algorithm == "sha256" && g.dataBlockSize == 4096 &&
    g.hashBlockSize == 4096 && decide (0 < g.dataBlocks) &&
    checkedMul g.dataBlocks 4096 == some g.hashOffset &&
    decide (g.hashOffset < image.image.bytes) &&
    g.hashOffset % 4096 == 0 && isId g.salt && isId image.rootHash)
    "invalid signed no-superblock geometry"
  let length ← orError "verity sector overflow" (checkedMul g.dataBlocks 8)
  pure ⟨0, length, "verity", [' '].intercalate (words major minor description image)⟩

/-- The target maps so many data blocks, followed by the hash tree. -/
structure DmTarget.Maps (target : DmTarget) (blocks : ℕ) : Prop where
  verity : target.sector = 0 ∧ target.kind = "verity"
  length : target.length = blocks * 8
  dataBlocks : (target.parameters.splitOn ' ')[5]? = some (numeral blocks)
  hashStart : (target.parameters.splitOn ' ')[6]? = some (numeral blocks)

def hashBlocks (dataBlocks : ℕ) : ℕ :=
  ∑ i ∈ Finset.range (Nat.clog 128 dataBlocks), (dataBlocks + (128 ^ (i + 1) - 1)) / 128 ^ (i + 1)

/-- The products the table is made from do not overflow. -/
structure Fits (v : VerityImage) : Prop where
  data : v.verity.dataBlocks * 4096 < 2 ^ 64
  tree : treeBlocks 64 v.verity.dataBlocks * 4096 < 2 ^ 64
  image : v.verity.hashOffset + treeBlocks 64 v.verity.dataBlocks * 4096 < 2 ^ 64
  sectors : v.verity.dataBlocks * 8 < 2 ^ 64

section Tree

theorem ceilDiv_ceilDiv (n i : ℕ) :
    ((n + 127) / 128 + (128 ^ (i + 1) - 1)) / 128 ^ (i + 1) =
      (n + (128 ^ (i + 2) - 1)) / 128 ^ (i + 2) := by
  have hpos : 0 < 128 ^ (i + 1) := Nat.pow_pos (by decide)
  have hpow : 128 ^ (i + 2) = 128 * 128 ^ (i + 1) := Nat.pow_succ'
  have hshift : (n + 127) / 128 + (128 ^ (i + 1) - 1) =
      (n + 127 + 128 * (128 ^ (i + 1) - 1)) / 128 :=
    (Nat.add_mul_div_left _ _ (by decide)).symm
  have hsum : n + 127 + 128 * (128 ^ (i + 1) - 1) = n + (128 ^ (i + 2) - 1) := by
    rw [hpow, Nat.mul_sub]
    omega
  rw [hshift, Nat.div_div_eq_div_mul, hsum, hpow]

variable {n : ℕ}

theorem hashBlocks_of_le_one (h : n ≤ 1) : hashBlocks n = 0 := by
  rw [hashBlocks, Nat.clog_of_right_le_one h, Finset.range_zero, Finset.sum_empty]

theorem hashBlocks_of_one_lt (h : 1 < n) :
    hashBlocks n = (n + 127) / 128 + hashBlocks ((n + 127) / 128) := by
  have hclog : Nat.clog 128 n = Nat.clog 128 ((n + 127) / 128) + 1 :=
    Nat.clog_of_two_le (by decide) h
  rw [hashBlocks, hclog, Finset.sum_range_succ', hashBlocks, add_comm]
  simp only [ceilDiv_ceilDiv]
  rfl

theorem treeBlocks_eq_hashBlocks {fuel : ℕ} (h : Nat.clog 128 n ≤ fuel) :
    treeBlocks fuel n = hashBlocks n := by
  induction fuel generalizing n with
  | zero =>
    have hone : n ≤ 1 := by
      by_contra hlt
      have hpos : 0 < Nat.clog 128 n := Nat.clog_pos (by decide) (by omega)
      omega
    rw [treeBlocks, hashBlocks_of_le_one hone]
  | succ fuel ih =>
    rw [treeBlocks]
    split
    · next hone => rw [hashBlocks_of_le_one hone]
    · next hlt =>
      have hclog : Nat.clog 128 n = Nat.clog 128 ((n + 127) / 128) + 1 :=
        Nat.clog_of_two_le (by decide) (by omega)
      rw [hashBlocks_of_one_lt (by omega), ih (by omega)]

theorem treeBlocks_le (fuel n : ℕ) : treeBlocks fuel n ≤ n := by
  induction fuel generalizing n with
  | zero => exact Nat.zero_le n
  | succ fuel ih =>
    rw [treeBlocks]
    split
    · exact Nat.zero_le n
    · have hrest := ih ((n + 127) / 128)
      omega

theorem treeBlocks_pos (h : 1 < n) : 0 < treeBlocks 64 n := by
  rw [treeBlocks, if_neg (by omega)]
  have hlevel : 0 < (n + 127) / 128 := by omega
  omega

end Tree

section Mapping

variable {v : VerityImage} {major minor : ℕ} {description : Text}

structure Admitted (v : VerityImage) : Prop where
  shape : v.verity.version = 1 ∧ v.verity.algorithm = "sha256" ∧ v.verity.dataBlockSize = 4096 ∧
    v.verity.hashBlockSize = 4096
  digests : isId v.verity.salt = true ∧ isId v.rootHash = true
  blocks : 0 < v.verity.dataBlocks ∧ v.verity.dataBlocks ≤ maxInteger / 4096
  offset : v.verity.hashOffset = v.verity.dataBlocks * 4096
  bytes : v.image.bytes = v.verity.hashOffset + treeBlocks 64 v.verity.dataBlocks * 4096

theorem admitted_of_validate (h : v.validate = .ok ()) : Admitted v := by
  simp only [VerityImage.validate, bind_eq_ok, require, Deploy.hash, integer, ensure_eq_ok,
    Bool.and_eq_true,
    beq_iff_eq, decide_eq_true_eq] at h
  obtain ⟨_, -, _, -, _, hroot, _, ⟨⟨⟨hversion, halgorithm⟩, hdata⟩, hhash⟩, _, hblocks, _, -, _, hsalt,
    _, hoffset, _, -, hbytes⟩ := h
  exact ⟨⟨hversion, halgorithm, hdata, hhash⟩, ⟨hsalt, hroot⟩, hblocks, hoffset, hbytes⟩

theorem Admitted.fits (h : Admitted v) : Fits v := by
  obtain ⟨-, hle⟩ := h.blocks
  have htree := treeBlocks_le 64 v.verity.dataBlocks
  have hmax : maxInteger / 4096 < 2 ^ 41 := by decide
  have hoffset := h.offset
  exact ⟨by omega, by omega, by omega, by omega⟩

theorem Admitted.clog_le (h : Admitted v) : Nat.clog 128 v.verity.dataBlocks ≤ 64 := by
  obtain ⟨-, hle⟩ := h.blocks
  have hmax : maxInteger / 4096 ≤ 128 ^ 64 := by decide
  exact (Nat.clog_le_iff_le_pow (by decide)).2 (hle.trans hmax)

theorem blank_not_mem_of_isId {id : Text} (h : isId id = true) : ' ' ∉ id := fun hmem ↦ by
  rw [isId, Bool.and_eq_true] at h
  exact absurd (List.all_eq_true.1 h.2 _ hmem) (by decide)

theorem blank_not_mem_words (h : Admitted v) (hdescription : validDescription description = true) :
    ∀ w ∈ words major minor description v, ' ' ∉ w := by
  have hdevice : ' ' ∉ numeral major ++ ':' :: numeral minor := by
    simp [not_mem_numeral (c := ' ') (by decide)]
  have hgraphic : ' ' ∉ description := fun hmem ↦ by
    rw [validDescription, Bool.and_eq_true] at hdescription
    exact absurd (List.all_eq_true.1 hdescription.2 _ hmem) (by decide)
  have hnumeral : ∀ n, ' ' ∉ numeral n := not_mem_numeral (by decide)
  simp only [words, List.forall_mem_cons]
  exact ⟨by decide, hdevice, hdevice, by decide, by decide, hnumeral _, hnumeral _, by decide,
    blank_not_mem_of_isId h.digests.2, blank_not_mem_of_isId h.digests.1, by decide, by decide,
    by decide, hgraphic, by simp⟩

theorem checkedMul_eq_some {a b : ℕ} (h : a * b < 2 ^ 64) :
    checkedMul a b = some (a * b) := if_pos h

theorem Admitted.table_eq_ok (h : Admitted v) (hdescription : validDescription description = true)
    (hblocks : v.verity.dataBlocks ≠ 1) :
    table major minor description v =
      .ok ⟨0, v.verity.dataBlocks * 8, "verity", [' '].intercalate (words major minor description v)⟩ := by
  obtain ⟨hversion, halgorithm, hdata, hhash⟩ := h.shape
  have hpos := h.blocks.1
  have htree := treeBlocks_pos (show 1 < v.verity.dataBlocks by omega)
  have hlonger : v.verity.hashOffset < v.image.bytes := by
    rw [h.bytes]
    omega
  have haligned : v.verity.hashOffset % 4096 = 0 := by
    rw [h.offset, Nat.mul_mod_left]
  simp only [table, bind_eq_ok, pure_eq_ok, ensure_eq_ok, orError_eq_ok, hdescription, true_and,
    checkedMul_eq_some h.fits.sectors, checkedMul_eq_some h.fits.data, Option.some.injEq,
    exists_const, exists_eq_left']
  simp [hversion, halgorithm, hdata, hhash, hpos, h.offset.symm, hlonger, haligned, h.digests]

theorem Admitted.table_ne_ok (h : Admitted v)
    (hblocks : v.verity.dataBlocks = 1) (target : DmTarget) :
    table major minor description v ≠ .ok target := by
  intro htable
  simp only [table, bind_eq_ok, ensure_eq_ok, Bool.and_eq_true, decide_eq_true_eq] at htable
  obtain ⟨_, -, _, ⟨⟨⟨⟨-, hlonger⟩, -⟩, -⟩, -⟩, -⟩ := htable
  have hempty : treeBlocks 64 1 = 0 := by decide
  rw [h.bytes, hblocks, hempty] at hlonger
  omega

/-- An admitted image is mapped if and only if it has more than one data block. -/
theorem mapped_iff (hvalid : v.validate = .ok ())
    (hdescription : validDescription description = true) :
    ((∃ target, table major minor description v = .ok target ∧ target.Maps v.verity.dataBlocks) ∧
      v.image.bytes = v.verity.hashOffset + 4096 * hashBlocks v.verity.dataBlocks ∧ Fits v) ↔
    v.verity.dataBlocks ≠ 1 := by
  have h := admitted_of_validate hvalid
  constructor
  · rintro ⟨⟨target, htable, -⟩, -⟩ hone
    exact h.table_ne_ok hone target htable
  · intro hblocks
    refine ⟨⟨_, h.table_eq_ok hdescription hblocks, ⟨⟨rfl, rfl⟩, rfl, ?_, ?_⟩⟩, ?_, h.fits⟩
    · rw [List.splitOn_intercalate _ (blank_not_mem_words h hdescription) (by simp [words])]
      rfl
    · rw [List.splitOn_intercalate _ (blank_not_mem_words h hdescription) (by simp [words])]
      simp [words, h.offset]
    · rw [h.bytes, treeBlocks_eq_hashBlocks h.clog_le, Nat.mul_comm 4096]

end Mapping

def zeroId : Text := List.replicate 64 '0'

def imageOf (blocks : ℕ) : VerityImage where
  image := ⟨blocks * 4096 + treeBlocks 64 blocks * 4096, zeroId⟩
  rootHash := zeroId
  signature := ⟨1, zeroId⟩
  verity := ⟨1, "sha256", 4096, 4096, blocks, blocks * 4096, zeroId⟩

theorem mapped_twoHundred :
    (∃ target, table 7 0 "cryptsetup:root".toList (imageOf 200) = .ok target ∧ target.Maps 200) ∧
    (imageOf 200).image.bytes = 200 * 4096 + 4096 * hashBlocks 200 := by
  have hvalid : (imageOf 200).validate = .ok () := by decide
  obtain ⟨htable, hlength, -⟩ := (@mapped_iff (imageOf 200) 7 0 "cryptsetup:root".toList hvalid
    (by decide)).2 (by decide)
  exact ⟨htable, hlength⟩

/-- An image of one data block has no hash tree. -/
theorem not_forall_mapped :
    ¬∀ (v : VerityImage) (major minor : ℕ) (description : Text), v.validate = .ok () →
      validDescription description = true →
      (∃ target, table major minor description v = .ok target ∧ target.Maps v.verity.dataBlocks) ∧
        v.image.bytes = v.verity.hashOffset + 4096 * hashBlocks v.verity.dataBlocks ∧ Fits v := by
  intro hall
  have hvalid : (imageOf 1).validate = .ok () := by decide
  obtain ⟨⟨target, htable, -⟩, -⟩ := hall (imageOf 1) 7 0 ['x'] hvalid (by decide)
  exact (admitted_of_validate hvalid).table_ne_ok rfl target htable

end MicaCore.Boot
