import MicaCore.Boot.Board

namespace MicaCore.Boot

open Data

theorem toNat_add_of_lt {a b : UInt64} (h : a.toNat + b.toNat < 2 ^ 64) :
    (a + b).toNat = a.toNat + b.toNat := by
  rw [UInt64.toNat_add, Nat.mod_eq_of_lt h]

theorem toNat_mul_of_lt {a b : UInt64} (h : a.toNat * b.toNat < 2 ^ 64) :
    (a * b).toNat = a.toNat * b.toNat := by
  rw [UInt64.toNat_mul, Nat.mod_eq_of_lt h]

@[simp] theorem toNat_sectorSize : (512 : UInt64).toNat = 512 := rfl

theorem toNat_absDiff (a b : UInt64) :
    (absDiff a b).toNat = (a.toNat - b.toNat) + (b.toNat - a.toNat) := by
  rw [absDiff]
  split
  · next h =>
    have hlt : a.toNat < b.toNat := UInt64.lt_iff_toNat_lt.1 h
    rw [UInt64.toNat_sub_of_le _ _ (UInt64.le_of_lt h)]
    omega
  · next h =>
    have hle : b.toNat ≤ a.toNat := by
      rw [UInt64.lt_iff_toNat_lt] at h
      omega
    rw [UInt64.toNat_sub_of_le _ _ (UInt64.le_iff_toNat_le.2 hle)]
    omega

structure Geometry.Holds (g : Geometry) (offset : UInt64) : Prop where
  aligned : 512 ∣ offset.toNat
  inside : offset.toNat + 65536 ≤ g.sectors.toNat * 512

/-- Both copies lie in the partition and apart; the check's sums are exact. -/
structure Geometry.Sound (g : Geometry) : Prop where
  first : g.Holds g.offsets.1
  second : g.Holds g.offsets.2
  apart : g.offsets.1.toNat + 65536 ≤ g.offsets.2.toNat ∨
    g.offsets.2.toNat + 65536 ≤ g.offsets.1.toNat
  exact : g.sectors.toNat * 512 < 2 ^ 64 ∧ g.offsets.1.toNat + 65536 < 2 ^ 64 ∧
    g.offsets.2.toNat + 65536 < 2 ^ 64

def Geometry.copyAt (g : Geometry) (offset : UInt64) : ℕ := g.startSector.toNat * 512 + offset.toNat

/-- A loader's range is between the primary GPT and the partition's end, clear of a copy. -/
structure Geometry.Clear (g : Geometry) (diskOffset maxBytes offset : UInt64) : Prop where
  above : 34 * 512 ≤ diskOffset.toNat
  inside : diskOffset.toNat + maxBytes.toNat ≤ (g.startSector.toNat + g.sectors.toNat) * 512
  disjoint : diskOffset.toNat + maxBytes.toNat ≤ g.copyAt offset ∨
    g.copyAt offset + 65536 ≤ diskOffset.toNat
  exact : diskOffset.toNat + maxBytes.toNat < 2 ^ 64 ∧
    (g.startSector.toNat + g.sectors.toNat) * 512 < 2 ^ 64 ∧ g.copyAt offset + 65536 < 2 ^ 64

section Layout

variable {g : Geometry} {offset : UInt64}

theorem checkCopy_eq_ok (h : g.checkCopy offset = .ok ()) :
    512 ∣ offset.toNat ∧ (offset + envSize).toNat ≤ (g.sectors * 512).toNat := by
  simp only [Geometry.checkCopy, bind_eq_ok, ensure_eq_ok, beq_iff_eq, decide_eq_true_eq] at h
  obtain ⟨_, haligned, hinside⟩ := h
  refine ⟨Nat.dvd_of_mod_eq_zero ?_, UInt64.le_iff_toNat_le.1 hinside⟩
  simpa using congrArg UInt64.toNat haligned

structure Geometry.Checked (g : Geometry) : Prop where
  start : 1 ≤ g.startSector.toNat ∧ g.startSector.toNat ≤ 2147483648
  sectors : 1 ≤ g.sectors.toNat ∧ g.sectors.toNat ≤ 2147483648
  aligned : 512 ∣ g.offsets.1.toNat ∧ 512 ∣ g.offsets.2.toNat
  inside : (g.offsets.1 + envSize).toNat ≤ g.sectors.toNat * 512 ∧
    (g.offsets.2 + envSize).toNat ≤ g.sectors.toNat * 512
  apart : 65536 ≤ (g.offsets.1.toNat - g.offsets.2.toNat) + (g.offsets.2.toNat - g.offsets.1.toNat)

theorem checked_of_check (h : g.check = .ok ()) : g.Checked := by
  simp only [Geometry.check, bind_eq_ok, ensure_eq_ok, Bool.and_eq_true, decide_eq_true_eq,
    UInt64.le_iff_toNat_le, toNat_envSize, toNat_absDiff, maxSectors, UInt64.reduceToNat] at h
  obtain ⟨_, ⟨hstart, hsectors⟩, _, hfirst, _, hsecond, hapart⟩ := h
  obtain ⟨haligned₁, hinside₁⟩ := checkCopy_eq_ok hfirst
  obtain ⟨haligned₂, hinside₂⟩ := checkCopy_eq_ok hsecond
  have hbytes : (g.sectors * 512).toNat = g.sectors.toNat * 512 := by
    refine toNat_mul_of_lt ?_
    rw [toNat_sectorSize]
    omega
  rw [hbytes] at hinside₁ hinside₂
  exact ⟨hstart, hsectors, ⟨haligned₁, haligned₂⟩, ⟨hinside₁, hinside₂⟩, hapart⟩

def Geometry.Addressable (g : Geometry) : Prop :=
  g.offsets.1.toNat + 65536 < 2 ^ 64 ∧ g.offsets.2.toNat + 65536 < 2 ^ 64

theorem Geometry.Checked.sound (h : g.Checked) (haddress : g.Addressable) : g.Sound := by
  obtain ⟨hfirst, hsecond⟩ := haddress
  obtain ⟨hinside₁, hinside₂⟩ := h.inside
  rw [toNat_add_of_lt hfirst, toNat_envSize] at hinside₁
  rw [toNat_add_of_lt hsecond, toNat_envSize] at hinside₂
  have hbytes : g.sectors.toNat * 512 < 2 ^ 64 := by
    have hle := h.sectors.2
    omega
  have hapart := h.apart
  exact ⟨⟨h.aligned.1, hinside₁⟩, ⟨h.aligned.2, hinside₂⟩, by omega, hbytes, hfirst, hsecond⟩

end Layout

section Loader

variable {facts : BoardFacts} {arch : String} {layout : FitLayout} {diskOffset maxBytes : UInt64}

structure Compared (g : Geometry) (diskOffset maxBytes : UInt64) : Prop where
  above : firstUsableByte.toNat ≤ diskOffset.toNat
  exact : diskOffset.toNat + maxBytes.toNat < 2 ^ 64
  inside : (diskOffset + maxBytes).toNat ≤ ((g.startSector + g.sectors) * 512).toNat
  clear : BoardFacts.clearOf g diskOffset (diskOffset + maxBytes) g.offsets.1 = true ∧
    BoardFacts.clearOf g diskOffset (diskOffset + maxBytes) g.offsets.2 = true

theorem exact_of_validate_target (h : (Target.diskRange diskOffset maxBytes).validate = .ok maxBytes) :
    firstUsableByte.toNat ≤ diskOffset.toNat ∧ diskOffset.toNat + maxBytes.toNat < 2 ^ 64 := by
  simp only [Target.validate, bind_eq_ok, ensure_eq_ok, Bool.and_eq_true, decide_eq_true_eq] at h
  obtain ⟨_, ⟨⟨⟨habove, -⟩, -⟩, hsum⟩, -⟩ := h
  refine ⟨UInt64.le_iff_toNat_le.1 habove, ?_⟩
  by_contra hwrap
  rw [checkedAdd, if_neg hwrap] at hsum
  cases hsum

theorem validateGpt_diskRange (hrecords : facts.records = some layout)
    (hfirmware : facts.firmware = .diskRange diskOffset maxBytes) (h : facts.validateGpt = .ok ()) :
    (diskOffset + maxBytes).toNat ≤ ((layout.startSector + layout.sectors) * 512).toNat ∧
      BoardFacts.clearOf layout.toGeometry diskOffset (diskOffset + maxBytes) layout.offsets.1 = true ∧
      BoardFacts.clearOf layout.toGeometry diskOffset (diskOffset + maxBytes) layout.offsets.2 = true := by
  cases hboot : facts.boot with
  | uefi => simp [BoardFacts.validateGpt, hboot, hrecords] at h
  | ubootFit =>
    simp only [BoardFacts.validateGpt, hboot, hrecords, hfirmware, bind_eq_ok, ensure_eq_ok,
      Bool.and_eq_true, decide_eq_true_eq] at h
    obtain ⟨_, -, p, -, _, -, hend, hclear⟩ := h
    exact ⟨UInt64.le_iff_toNat_le.1 hend, hclear⟩

theorem compared_of_validate (hrecords : facts.records = some layout)
    (hfirmware : facts.firmware = .diskRange diskOffset maxBytes)
    (h : facts.validate arch = .ok ()) :
    Compared layout.toGeometry diskOffset maxBytes := by
  cases hstorage : facts.storage with
  | ubi =>
    simp only [BoardFacts.validate, BoardFacts.validateUbi, hstorage, hrecords, bind_eq_ok] at h
    obtain ⟨_, -, _, -, _, -, _, -, _, ⟨_, -, _, hnone, -⟩, -⟩ := h
    simp at hnone
  | gpt =>
    simp only [BoardFacts.validate, hstorage, hfirmware, bind_eq_ok] at h
    obtain ⟨_, -, _, -, _, -, bytes, htarget, _, hgpt, -⟩ := h
    obtain rfl : maxBytes = bytes := by
      simp only [Target.validate, bind_eq_ok, pure_eq_ok] at htarget
      exact htarget.choose_spec.2
    obtain ⟨habove, hexact⟩ := exact_of_validate_target htarget
    obtain ⟨hinside, hclear⟩ := validateGpt_diskRange hrecords hfirmware hgpt
    exact ⟨habove, hexact, hinside, hclear⟩

theorem clearOf_eq_true {g : Geometry} {tail offset : UInt64}
    (h : BoardFacts.clearOf g diskOffset tail offset = true) (hstart : g.startSector.toNat ≤ 2147483648)
    (hsectors : g.sectors.toNat ≤ 2147483648) (hholds : g.Holds offset) :
    tail.toNat ≤ g.copyAt offset ∨ g.copyAt offset + 65536 ≤ diskOffset.toNat := by
  have hinside := hholds.inside
  have hmul : (g.startSector * 512).toNat = g.startSector.toNat * 512 :=
    toNat_mul_of_lt (by rw [toNat_sectorSize]; omega)
  have hcopy : (g.startSector * 512 + offset).toNat = g.copyAt offset := by
    rw [toNat_add_of_lt (by rw [hmul]; omega), hmul, Geometry.copyAt]
  have hend : (g.startSector * 512 + offset + envSize).toNat = g.copyAt offset + 65536 := by
    rw [toNat_add_of_lt (by rw [hcopy, toNat_envSize, Geometry.copyAt]; omega), hcopy, toNat_envSize]
  simp only [BoardFacts.clearOf, Bool.or_eq_true, decide_eq_true_eq, UInt64.le_iff_toNat_le, hcopy,
    hend] at h
  exact h

theorem Compared.clear_of_holds {g : Geometry} {offset : UInt64} (h : Compared g diskOffset maxBytes)
    (hchecked : g.Checked) (hholds : g.Holds offset)
    (hclear : BoardFacts.clearOf g diskOffset (diskOffset + maxBytes) offset = true) :
    g.Clear diskOffset maxBytes offset := by
  have hstart := hchecked.start.2
  have hsectors := hchecked.sectors.2
  have hholds' := hholds.inside
  have hpartition : ((g.startSector + g.sectors) * 512).toNat =
      (g.startSector.toNat + g.sectors.toNat) * 512 := by
    have hsum : (g.startSector + g.sectors).toNat = g.startSector.toNat + g.sectors.toNat :=
      toNat_add_of_lt (by omega)
    rw [toNat_mul_of_lt (by rw [hsum, toNat_sectorSize]; omega), hsum, toNat_sectorSize]
  have hdisjoint := clearOf_eq_true hclear hstart hsectors hholds
  have hinside := h.inside
  rw [toNat_add_of_lt h.exact] at hdisjoint
  rw [toNat_add_of_lt h.exact, hpartition] at hinside
  refine ⟨h.above, hinside, hdisjoint, h.exact, by omega, ?_⟩
  rw [Geometry.copyAt]
  omega

end Loader

theorem new_eq_ok {startSector sectors : UInt64} {offsets : UInt64 × UInt64} {layout : FitLayout}
    (h : FitLayout.new startSector sectors offsets = .ok layout) :
    layout.toGeometry = ⟨startSector, sectors, offsets⟩ := by
  unfold FitLayout.new at h
  split at h
  · exact congrArg FitLayout.toGeometry (Except.ok.inj h).symm
  · cases h

/-- Copies and loader ranges are apart if and only if no copy's end passes the last address. -/
theorem layout_sound_iff {startSector sectors : UInt64} {offsets : UInt64 × UInt64}
    {layout : FitLayout}
    (h : FitLayout.new startSector sectors offsets = .ok layout) :
    (layout.Sound ∧ ∀ (facts : BoardFacts) (arch : String) (diskOffset maxBytes : UInt64),
      facts.records = some layout → facts.firmware = .diskRange diskOffset maxBytes →
      facts.validate arch = .ok () →
        layout.Clear diskOffset maxBytes offsets.1 ∧ layout.Clear diskOffset maxBytes offsets.2) ↔
    offsets.1.toNat + 65536 < 2 ^ 64 ∧ offsets.2.toNat + 65536 < 2 ^ 64 := by
  have hoffsets : layout.offsets = offsets := congrArg Geometry.offsets (new_eq_ok h)
  have hchecked := checked_of_check layout.checked
  constructor
  · rintro ⟨hsound, -⟩
    have hexact := hsound.exact.2
    rwa [hoffsets] at hexact
  · intro haddress
    have hsound : layout.Sound := hchecked.sound (by rwa [Geometry.Addressable, hoffsets])
    refine ⟨hsound, fun facts arch diskOffset maxBytes hrecords hfirmware hvalid ↦ ?_⟩
    have hcompared := compared_of_validate hrecords hfirmware hvalid
    rw [← hoffsets]
    exact ⟨hcompared.clear_of_holds hchecked hsound.first hcompared.clear.1,
      hcompared.clear_of_holds hchecked hsound.second hcompared.clear.2⟩

def endLayout : FitLayout := ⟨⟨64, 2048, (917504, 983040)⟩, by decide⟩

def loaderFacts : BoardFacts where
  boot := .ubootFit
  kernel := .fit
  partitions := some ⟨1, 2, 3⟩
  firmware := .diskRange 32768 524288
  records := some endLayout

theorem layout_sound_endLayout :
    endLayout.Sound ∧ endLayout.Clear 32768 524288 917504 ∧
    endLayout.Clear 32768 524288 983040 := by
  have hvalid : loaderFacts.validate "arm64" = .ok () := by decide
  have hnew : FitLayout.new 64 2048 (917504, 983040) = .ok endLayout := rfl
  obtain ⟨hsound, hclear⟩ := (layout_sound_iff hnew).2 (by decide)
  exact ⟨hsound, hclear loaderFacts "arm64" 32768 524288 rfl rfl hvalid⟩

/-- An offset near `2 ^ 64` wraps past the check of the area. -/
theorem not_forall_layout_sound :
    ¬∀ (startSector sectors : UInt64) (offsets : UInt64 × UInt64) (layout : FitLayout),
      FitLayout.new startSector sectors offsets = .ok layout →
      layout.Sound ∧ ∀ (facts : BoardFacts) (arch : String) (diskOffset maxBytes : UInt64),
        facts.records = some layout → facts.firmware = .diskRange diskOffset maxBytes →
        facts.validate arch = .ok () →
          layout.Clear diskOffset maxBytes offsets.1 ∧ layout.Clear diskOffset maxBytes offsets.2 := by
  intro hall
  have hnew : FitLayout.new 64 2048 (0, 18446744073709486080) =
      .ok ⟨⟨64, 2048, (0, 18446744073709486080)⟩, by decide⟩ := rfl
  exact absurd (hall _ _ _ _ hnew).1.second.inside (by decide)

end MicaCore.Boot
