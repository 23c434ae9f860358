import MicaCore.Deploy.Components

namespace MicaCore.Deploy

open Data

def CoreComponent.runsOn (core : CoreComponent) (level : ℕ) : Bool :=
  core.root.all fun root ↦ root.min ≤ level && root.max.all (level ≤ ·)

def RootFacts.provided (root : RootFacts) (package : String) : Option String :=
  root.provides.bind (·.lookup package)

/-- The root does not provide the package, or at a version in range. -/
def RootRequirement.holds (r : RootRequirement) (root : RootFacts) : Bool :=
  match root.provided r.package with
  | none => true
  | some version =>
    (r.min.all fun min ↦ (DebianVersion.compareVersions version min).any (·.isGE)) &&
      r.max.all fun max ↦ (DebianVersion.compareVersions version max).any (·.isLE)

def RootRequirement.describe (r : RootRequirement) : String :=
  match r.min, r.max with
  | some min, some max => r.package ++ " >= " ++ min ++ ", <= " ++ max
  | some min, none => r.package ++ " >= " ++ min
  | none, some max => r.package ++ " <= " ++ max
  | none, none => r.package

def selectionError (core : CoreComponent) (reason constraint : String) : String :=
  reason ++ ": " ++ core.package ++ " (" ++ constraint ++ ")"

def LevelRange.describe (range : LevelRange) : String :=
  match range.max with
  | some max => toString range.min ++ ".." ++ toString max
  | none => toString range.min ++ ".."

def describeNeeds (core : CoreComponent) : String :=
  "needs [" ++ ", ".intercalate (core.needs.map fun n ↦ "\"" ++ n.package ++ "\"") ++ "]"

def selectable (chosen : List CoreComponent) (root : RootFacts) (core : CoreComponent) :
    Except String Unit := do
  ensure (core.runsOn root.level) <| selectionError core
    "a selected core component does not run on this root's interface level"
    ("root " ++ (core.root.map LevelRange.describe).getD "" ++ ", the root is level " ++
      toString root.level)
  match core.requires.find? (!·.holds root) with
  | some r =>
    .error (selectionError core "a selected core component's root requirement does not hold"
      (r.describe ++ ", the root provides " ++ (root.provided r.package).getD ""))
  | none => pure ()
  match needsMet core chosen "a selected core component's need is not selected" with
  | .error reason => .error (selectionError core reason (describeNeeds core))
  | .ok _ => pure ()

/-- Components a feature selects, each held to what it declares of the root. -/
def select (set : UpdateSet) (features : List String) (root : RootFacts) :
    Except String (List CoreComponent) := do
  let chosen := set.components.filter fun core ↦ core.features.any features.contains
  forM chosen (selectable chosen root)
  pure chosen

end MicaCore.Deploy
