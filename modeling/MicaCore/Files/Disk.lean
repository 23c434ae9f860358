import MicaCore.Deploy.Identity

namespace MicaCore.Files

open Data

abbrev Path := List Bytes

inductive Entry where
  | dir
  | file (content : Bytes) (mode : ℕ)
  | link (target : Bytes)
  deriving DecidableEq

/-- The root is a directory, and so is whatever has an entry below it. -/
structure Disk where
  entry : Path → Option Entry
  root : entry [] = some .dir
  closed : ∀ p n, entry (p ++ [n]) ≠ none → entry p = some .dir

def slash : UInt8 := 47
def dot : UInt8 := 46

inductive Part where
  | up
  | name (n : Bytes)
  deriving DecidableEq

def part (n : Bytes) : Option Part :=
  if n = [] ∨ n = [dot] then none else if n = [dot, dot] then some .up else some (.name n)

def parts (t : Bytes) : List Part := (t.splitOnP (· == slash)).filterMap part

def isAbsolute (t : Bytes) : Bool := t.head? == some slash

inductive Failure where
  | notFound
  | notDirectory
  | loop
  | alreadyExists
  deriving DecidableEq

/-- Where a walk came through and ended, and how many links it may still follow. -/
structure Walk where
  trail : List Path
  found : Except Failure Path
  left : ℕ

namespace Walk

def after (w : Walk) (before : List Path) : Walk := { w with trail := before ++ w.trail }

def andThen (w : Walk) (next : ℕ → Path → Walk) : Walk :=
  match w.found with
  | .error _ => w
  | .ok q => (next w.left q).after w.trail

end Walk

namespace Disk

def origin (p : Path) (t : Bytes) : Path := if isAbsolute t then [] else p

variable (d : Disk)

def walkWith (follow : ℕ → Path → List Part → Walk) : ℕ → Path → List Part → Walk
  | left, p, [] => ⟨[], .ok p, left⟩
  | left, p, x :: rest =>
    if d.entry p = some .dir then
      match x with
      | .up => (walkWith follow left p.dropLast rest).after [p.dropLast]
      | .name n =>
        match d.entry (p ++ [n]) with
        | none => ⟨[], .error .notFound, left⟩
        | some (.link t) =>
          if left = 0 then ⟨[], .error .loop, 0⟩
          else ((follow (left - 1) (origin p t) (parts t)).after [origin p t]).andThen
            fun left q ↦ walkWith follow left q rest
        | some _ => (walkWith follow left (p ++ [n]) rest).after [p ++ [n]]
    else ⟨[], .error .notDirectory, left⟩

def walk : ℕ → ℕ → Path → List Part → Walk
  | 0 => d.walkWith fun _ _ _ ↦ ⟨[], .error .loop, 0⟩
  | depth + 1 => d.walkWith (walk depth)

end Disk

def maxLinks : ℕ := 40

namespace Disk

def resolve (d : Disk) (p : Path) : Except Failure Path :=
  (d.walk maxLinks maxLinks [] (p.map .name)).found

end Disk

end MicaCore.Files
