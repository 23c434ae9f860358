import MicaCore.Deploy.Device

namespace MicaCore.Deploy

open Data Crash

namespace BootRecords

def mapFiles (f : List Record → List Record) : BootRecords → BootRecords
  | .uefi files => .uefi (f files)
  | .fit ubi a b => .fit ubi a b

end BootRecords

def sameFile (entry file : Record) : Bool :=
  file.id == entry.id && file.triesLeft == entry.triesLeft

def renameFile (entry : Record) (tries : Option (Fin 4)) (files : List Record) : List Record :=
  if entry.triesLeft = tries then files
  else (files.filter fun f ↦ !sameFile { entry with triesLeft := tries } f).map fun f ↦
    if sameFile entry f then { f with triesLeft := tries } else f

def setRecord (entry : Record) (tries : Option (Fin 4)) : List Record → Except String (List Record)
  | [] => .error "boot record is missing"
  | r :: rs =>
    if r.id == entry.id && r.generation == entry.generation then
      .ok ({ r with triesLeft := tries } :: rs)
    else do
      let rs ← setRecord entry tries rs
      pure (r :: rs)

def readBack (slot : Slot) (flag : Fin 256) (records : List Record) : Op Unit := do
  let (saved, copy) ← Prog.read (·.boot.load)
  Prog.ensure (saved == slot && copy.flag == flag && copy.records == records)
    "boot environment read-back mismatch"

/-- Records go to the copy not in use, which a partition, unlike UBI, overwrites in place. -/
def saveRecords (slot : Slot) (flag : Fin 256) (records : List Record) : Op Unit := do
  let copy ← Prog.ofExcept (Copy.encode records (flag + 1))
  let d ← Prog.get
  Prog.when (!d.boot.isUbi) (modifyBoot (.put slot.other none))
  modifyBoot (.put slot.other (some copy))
  readBack slot.other (flag + 1) records

def writeTries (entry : Record) (tries : Option (Fin 4)) : Op Unit := do
  let d ← Prog.get
  match d.boot with
  | .uefi files => do
    Prog.ensure (files.any (sameFile entry)) "No such file or directory"
    modifyBoot (.mapFiles (renameFile entry tries))
  | .fit .. => do
    let (slot, copy) ← Prog.read (·.boot.load)
    let records ← Prog.ofExcept (setRecord entry tries copy.records)
    saveRecords slot copy.flag records

def setTries (entry : Record) (tries : Option (Fin 4)) : Op Unit := do
  Prog.ensure (tries == none || tries == some 0) "attempts cannot be refilled"
  writeTries entry tries

def removeFile (entry : Record) : Op Unit := do
  let d ← Prog.get
  Prog.ensure (d.boot.view.any (sameFile entry)) "No such file or directory"
  modifyBoot (.mapFiles (List.filter fun f ↦ !sameFile entry f))

def keeps (keep : List (Option Text)) (r : Record) : Bool := keep.contains (some r.id)

def retainEntries (entries : List Record) (keep : List (Option Text)) : Op Unit := do
  let d ← Prog.get
  match d.boot with
  | .uefi _ => forM (entries.filter fun r ↦ !keeps keep r) removeFile
  | .fit .. => do
    let (slot, copy) ← Prog.read (·.boot.load)
    saveRecords slot copy.flag (copy.records.filter (keeps keep))
    let (slot, copy) ← Prog.read (·.boot.load)
    saveRecords slot copy.flag copy.records

def insertEntry (record : Record) : Op Unit := do
  let d ← Prog.get
  match d.boot with
  | .uefi _ =>
    atomicUpdate (.entry record.id) [] fun d ↦
      { d with boot := d.boot.mapFiles fun files ↦ files.filter (!sameFile record ·) ++ [record] }
  | .fit .. => do
    let (slot, copy) ← Prog.read (·.boot.load)
    saveRecords slot copy.flag (record :: copy.records)

namespace BootRecords

variable {b : BootRecords} {slot : Slot} {copy : Copy}

theorem view_of_load (h : b.load = .ok (slot, copy)) : b.view = copy.records := by
  cases b with
  | uefi files => simp [load] at h
  | fit ubi a c =>
    simp only [load] at h
    simp [view, h]

theorem load_put_none (h : b.load = .ok (slot, copy)) :
    (b.put slot.other none).load = .ok (slot, copy) := by
  cases b with
  | uefi files => simp [load] at h
  | fit ubi a c =>
    cases a <;> cases c <;> simp only [load, active] at h
    · cases h
    · cases h; rfl
    · cases h; rfl
    · split at h <;> cases h <;> rfl

theorem flag_wraps (f : Fin 256) :
    ((f == 255 && f + 1 == 0) || (decide (f < f + 1) && !(f + 1 == 255 && f == 0))) = true ∧
      ((f + 1 == 255 && f == 0) || (decide (f + 1 < f) && !(f == 255 && f + 1 == 0))) = false := by
  revert f; decide +kernel

theorem load_put_some {new : Copy}
    (h : b.load = .ok (slot, copy)) (hflag : new.flag = copy.flag + 1) :
    (b.put slot.other (some new)).load = .ok (slot.other, new) := by
  have hw := flag_wraps copy.flag
  cases b with
  | uefi files => simp [load] at h
  | fit ubi a c =>
    cases a <;> cases c <;> simp only [load, active] at h
    · cases h
    · cases h
      simp only [Slot.other, put, load, active, hflag, hw.2]
      rfl
    · cases h
      simp only [Slot.other, put, load, active, hflag, hw.1]
      rfl
    · split at h <;> cases h
      · simp only [Slot.other, put, load, active, hflag, hw.2]
        rfl
      · simp only [Slot.other, put, load, active, hflag, hw.1]
        rfl

theorem held_put_subset (h : b.load = .ok (slot, copy)) (new : Option Copy) {r : Record}
    (hr : r ∈ (b.put slot.other new).held) :
    (∃ c, new = some c ∧ r ∈ c.records) ∨ r ∈ copy.records := by
  cases b with
  | uefi files => simp [load] at h
  | fit ubi a c =>
    cases new <;> cases a <;> cases c <;> simp only [load, active] at h
    all_goals try split at h
    all_goals cases h
    all_goals simp_all [Slot.other, put, held, Copy.recordsOf]
    all_goals tauto

end BootRecords

end MicaCore.Deploy
