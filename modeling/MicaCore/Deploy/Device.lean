import MicaCore.Crash.Program
import MicaCore.Data.OrdMap
import MicaCore.Deploy.Components
import MicaCore.Deploy.Records
import Mathlib.Data.Char
import Mathlib.Data.List.AList

namespace MicaCore.Deploy

open Data Crash

structure State where
  highestGeneration : ℕ := 0
  current : Option Text := none
  fallback : Option Text := none
  candidate : Option Text := none
  failed : List Text := []
  deriving DecidableEq

structure SetState where
  current : Option Text := none
  pending : Option Text := none
  pair : Option Text := none
  bound : OrdMap Text Text := .empty
  deriving DecidableEq

structure SetTrial where
  kind : SetKind
  id : Text
  attemptsLeft : ℕ
  deriving DecidableEq

inductive BootKind
  | uefi
  | ubootFit
  deriving DecidableEq

structure BootReceipt where
  backend : BootKind
  deploymentId : Text
  entry : Text
  kernelId : Text
  rootfsId : Text
  contentVerified : Bool
  secureBoot : Bool
  bootVerified : Bool
  deriving DecidableEq

structure CoreBoot where
  coreSetId : Text
  pending : Bool
  paired : Bool
  deriving DecidableEq

structure Running where
  receipt : BootReceipt
  core : CoreBoot
  deriving DecidableEq

inductive Dir
  | root (id : Text)
  | kernel (id : Text)
  | component (id : Text)
  deriving DecidableEq

inductive Path
  | rootfsImg (id : Text)
  | rootfsSignature (id : Text)
  | rootfsHash (id : Text)
  | supportImg (id : Text)
  | supportSignature (id : Text)
  | supportHash (id : Text)
  | bootItb (id : Text)
  | uki (id : Text)
  | descriptor (id : Text)
  | entry (id : Text)
  | coreImg (id : Text)
  | coreSignature (id : Text)
  | coreHash (id : Text)
  | setEnvelope (id : Text)
  | setState
  | setTrial
  | deployments
  deriving DecidableEq

def Path.parent : Path → Option Dir
  | .rootfsImg id | .rootfsSignature id | .rootfsHash id => some (.root id)
  | .supportImg id | .supportSignature id | .supportHash id | .bootItb id => some (.kernel id)
  | .coreImg id | .coreSignature id | .coreHash id => some (.component id)
  | _ => none

def Path.display : Path → String
  | .rootfsImg id => "roots/" ++ id.shown ++ "/rootfs.img"
  | .rootfsSignature id => "roots/" ++ id.shown ++ "/rootfs.roothash.p7s"
  | .rootfsHash id => "roots/" ++ id.shown ++ "/rootfs.roothash"
  | .supportImg id => "kernels/" ++ id.shown ++ "/support.img"
  | .supportSignature id => "kernels/" ++ id.shown ++ "/support.roothash.p7s"
  | .supportHash id => "kernels/" ++ id.shown ++ "/support.roothash"
  | .bootItb id => "kernels/" ++ id.shown ++ "/boot.itb"
  | .uki id => "EFI/mica/kernels/" ++ id.shown ++ ".efi"
  | .descriptor id => "deployments/" ++ id.shown ++ ".json"
  | .entry id => "loader/entries/mica-" ++ id.shown ++ "+3.conf"
  | .coreImg id => "sets/core/objects/" ++ id.shown ++ "/core.img"
  | .coreSignature id => "sets/core/objects/" ++ id.shown ++ "/core.roothash.p7s"
  | .coreHash id => "sets/core/objects/" ++ id.shown ++ "/core.roothash"
  | .setEnvelope id => "sets/core/" ++ id.shown ++ ".json"
  | .setState => "sets/core/state.json"
  | .setTrial => "set-trial.json"
  | .deployments => "deployments.json"

inductive Vol
  | root (id : Text)
  | kernel (id : Text)
  | support (id : Text)
  | core (id : Text)
  deriving DecidableEq

def Vol.display : Vol → String
  | .root id => "r-" ++ id.shown
  | .kernel id => "k-" ++ id.shown
  | .support id => "s-" ++ id.shown
  | .core id => "c-" ++ id.shown

/-- Directories, files, their temporary names, and volumes, on SYSTEM, ESP, DATA and UBI. -/
inductive Item
  | dir (d : Dir)
  | file (p : Path)
  | temporary (p : Path)
  | volume (v : Vol)
  | pendingVolume (v : Vol)
  deriving DecidableEq

/-- The durable state of a device, and what the running system knows of its boot. -/
structure Device where
  boot : BootRecords
  data : Option State
  sets : Option SetState
  trial : Option SetTrial
  items : AList fun _ : Item ↦ Bytes
  run : Option Running

namespace Device

def holds (d : Device) (i : Item) : Bool := (d.items.lookup i).isSome

def put (i : Item) (bytes : Bytes) (d : Device) : Device :=
  { d with items := d.items.insert i bytes }

def remove (i : Item) (d : Device) : Device := { d with items := d.items.erase i }

def readBounded (d : Device) (p : Path) (limit : ℕ) : Except String Bytes := do
  let bytes ← orError (p.display ++ ": No such file or directory") (d.items.lookup (.file p))
  ensure (bytes.length ≤ limit) (p.display ++ ": larger than " ++ toString limit ++ " bytes")
  pure bytes

end Device

abbrev Op := Prog Device String

def atomicUpdate (p : Path) (bytes : Bytes) (f : Device → Device) : Op Unit := do
  Prog.write (Device.put (.temporary p) bytes)
  Prog.write fun d ↦ f (d.remove (.temporary p))

def atomicWrite (p : Path) (bytes : Bytes) : Op Unit := do
  let d ← Prog.get
  Prog.ensure (p.parent.all fun dir ↦ d.holds (.dir dir)) "No such file or directory"
  atomicUpdate p bytes (Device.put (.file p) bytes)

def directory (dir : Option Dir) : Op Unit := do
  let d ← Prog.get
  match dir with
  | some dir => if d.holds (.dir dir) then pure () else Prog.write (Device.put (.dir dir) [])
  | none => pure ()

def Item.scratch : Item → Bool
  | .temporary _ | .pendingVolume _ => true
  | _ => false

def SameItems (items items' : AList fun _ : Item ↦ Bytes) : Prop :=
  ∀ i : Item, i.scratch = false → items'.lookup i = items.lookup i

theorem SameItems.refl (items : AList fun _ : Item ↦ Bytes) : SameItems items items := fun _ _ ↦ rfl

variable {items : AList fun _ : Item ↦ Bytes}

theorem SameItems.trans {items' items'' : AList fun _ : Item ↦ Bytes}
    (h : SameItems items items') (h' : SameItems items' items'') : SameItems items items'' :=
  fun i hi ↦ (h' i hi).trans (h i hi)

theorem SameItems.both {items' items'' : AList fun _ : Item ↦ Bytes}
    (h : SameItems items items') (h' : SameItems items items'') : SameItems items' items'' :=
  fun i hi ↦ (h' i hi).trans (h i hi).symm

variable {k : Item}

theorem sameItems_insert (hk : k.scratch = true)
    (bytes : Bytes) : SameItems items (items.insert k bytes) := fun i hi ↦
  AList.lookup_insert_ne (by rintro rfl; simp [hk] at hi)

theorem sameItems_erase (hk : k.scratch = true) :
    SameItems items (items.erase k) := fun i hi ↦
  AList.lookup_erase_ne (by rintro rfl; simp [hk] at hi)

theorem sameItems_erase_insert
    (hk : k.scratch = true) (bytes : Bytes) : SameItems items ((items.insert k bytes).erase k) :=
  (sameItems_insert hk bytes).trans (sameItems_erase hk)

section

variable {p : Path} {f : Device → Device} {G : Device → Device → Prop}
  {R : Except String Unit → Device → Prop} {s : Device}

@[simp] theorem wp_atomicUpdate {bytes : Bytes} : Prog.wp (atomicUpdate p bytes f) G R s ↔
    G s (s.put (.temporary p) bytes) ∧
      G (s.put (.temporary p) bytes) (f ((s.put (.temporary p) bytes).remove (.temporary p))) ∧
        R (.ok ()) (f ((s.put (.temporary p) bytes).remove (.temporary p))) := by
  simp [atomicUpdate]

theorem wp_replace (hscratch : ∀ i, SameItems s.items i → G s { s with items := i })
    (hsave : ∀ i i', SameItems s.items i → SameItems s.items i' →
      G { s with items := i } (f { s with items := i' }))
    (hok : ∀ i, SameItems s.items i → R (.ok ()) (f { s with items := i })) :
    Prog.wp (atomicUpdate p [] f) G R s := by
  have hk : (Item.temporary p).scratch = true := rfl
  have hput : SameItems s.items _ := sameItems_insert hk []
  have hdone : SameItems s.items _ := sameItems_erase_insert hk []
  exact wp_atomicUpdate.2 ⟨hscratch _ hput, hsave _ _ hput hdone, hok _ hdone⟩

end

def modifyBoot (f : BootRecords → BootRecords) : Op Unit :=
  Prog.write fun d ↦ { d with boot := f d.boot }

end MicaCore.Deploy
