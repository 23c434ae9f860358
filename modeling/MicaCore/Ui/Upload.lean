import MicaCore.Ui.Store

namespace MicaCore.Ui

open Data Crash Prog

def placeDirs (tree : Tree) (path : TreePath) : Tree :=
  path.inits.tail.foldl (fun tree p ↦ if tree.get p = none then tree.insert p .dir else tree) tree

def place (tree : Tree) (entry : PlanEntry) : Tree :=
  if entry.isDir then placeDirs tree entry.target
  else (placeDirs tree entry.target.dropLast).insert entry.target (.file entry.content 1)

def contentOf (plan : List PlanEntry) : Tree := plan.foldl place .empty

def Store.setEntry (s : Store) (generation : ℕ) (path : TreePath) (node : Node) : Store :=
  (s.stagingDir generation).elim s fun tree ↦ s.setStaged generation (tree.insert path node)

section Programs

variable (machine : Machine) (generation : ℕ)

def stagedNode (path : TreePath) : Prog Store Rejection (Option Node) :=
  Prog.read fun s ↦ (orError .io (s.stagingDir generation)).map fun tree ↦ tree.get path

def createDir (path : TreePath) : Prog Store Rejection Unit := do
  match ← stagedNode generation path with
  | none => Prog.write fun s ↦ s.setEntry generation path .dir
  | some .dir => pure ()
  | some _ => Prog.fail .io

def createDirsExclusive (path : TreePath) : Prog Store Rejection Unit :=
  forM path.inits.tail (createDir generation)

def copyBounded (path : TreePath) : List Bytes → Bytes → Prog Store Rejection ℕ
  | [], done => pure done.length
  | piece :: rest, done => do
    Prog.ensure ((done ++ piece).length ≤ maxFileBytes)
      (.package s!"file expands beyond {maxFileBytes} bytes".toList)
    Prog.write fun s ↦ s.setEntry generation path (.file (done ++ piece) 1)
    copyBounded path rest (done ++ piece)

def extractEntry (entry : PlanEntry) (expanded : ℕ) : Prog Store Rejection ℕ :=
  if entry.isDir then do
    createDirsExclusive generation entry.target
    pure expanded
  else do
    createDirsExclusive generation entry.target.dropLast
    let there ← stagedNode generation entry.target
    Prog.ensure there.isNone .io
    Prog.write fun s ↦ s.setEntry generation entry.target (.file [] 1)
    let copied ← copyBounded generation entry.target (machine.pieces entry.content) []
    Prog.ensure (copied == entry.declaredSize) (.package (displayed entry.path ++
      s!" expanded to {copied} bytes, not its declared {entry.declaredSize} bytes".toList))
    Prog.ensure (expanded + copied ≤ maxExpandedBytes)
      (.package s!"archive expands beyond {maxExpandedBytes} bytes".toList)
    tryStep machine (.entry entry.target)
    pure (expanded + copied)

def extractAll : List PlanEntry → ℕ → Prog Store Rejection Unit
  | [], _ => pure ()
  | entry :: rest, expanded => do
    let expanded ← extractEntry machine generation entry expanded
    extractAll rest expanded

def extract (plan : List PlanEntry) : Prog Store Rejection Unit := do
  tryStep machine .makeStaging
  let there ← Prog.read fun s ↦ .ok (s.stagingDir generation)
  Prog.ensure there.isNone .io
  Prog.write fun s ↦ s.setStaged generation .empty
  match ← Prog.attempt (extractAll machine generation plan 0) with
  | .error e => do
    removeStaging machine generation
    Prog.fail e
  | .ok () => tryStep machine .syncStaging

end Programs

/-- Inspect, extract and install, and remove the staging directory when one of the last two
fails. The extraction inspects the same file again. -/
def upload (lib : Readers) (machine : Machine) (served : List Text) (package : Package) :
    Prog Store Rejection ℕ := do
  match inspect lib.toPackageReaders package with
  | .error why => Prog.fail (.package why)
  | .ok inspection =>
    let generation ← Prog.read Store.nextGeneration
    match ← Prog.attempt (extract machine generation inspection.plan) with
    | .error e => do
      removeStaging machine generation
      Prog.fail e
    | .ok () =>
      match ← Prog.attempt (installStaged lib machine generation served true
          (some (inspection.compressedBytes, inspection.expandedBytes))) with
      | .error e => do
        removeStaging machine generation
        Prog.fail e
      | .ok () => pure generation

def startUp (lib : Readers) (machine : Machine) (served : List Text) (s : Store) : Store :=
  (pickUpStaged lib machine served).last s

/-- The content of a package that passes inspection. -/
def Package.Holds (lib : Readers) (package : Package) (tree : Tree) : Prop :=
  ∃ inspection, inspect lib.toPackageReaders package = .ok inspection ∧
    tree = contentOf inspection.plan

/-- Besides its staging directory, an upload adds an installed tree, the package's content. -/
structure Grows (content : Tree → Prop) (key : Text) (s t : Store) : Prop where
  current : t.current = s.current
  kept : ∀ k tree, s.bundles.get k = some tree → t.bundles.get k = some tree
  added : ∀ k tree, t.bundles.get k = some tree → s.bundles.get k = some tree ∨ content tree
  staged : ∀ k, k ≠ key → t.staged.get k = s.staged.get k

namespace Grows

variable {content : Tree → Prop} {key : Text} {s t u : Store}

theorem refl (content : Tree → Prop) (key : Text) (s : Store) : Grows content key s s :=
  ⟨rfl, fun _ _ h ↦ h, fun _ _ h ↦ .inl h, fun _ _ ↦ rfl⟩

theorem trans (h : Grows content key s t) (h' : Grows content key t u) : Grows content key s u where
  current := h'.current.trans h.current
  kept k tree hk := h'.kept k tree (h.kept k tree hk)
  added k tree hk := (h'.added k tree hk).elim (h.added k tree) .inr
  staged k hk := (h'.staged k hk).trans (h.staged k hk)

theorem of_staged (staged : OrdMap Text Tree) (h : ∀ k, k ≠ key → staged.get k = s.staged.get k) :
    Grows content key s { s with staged } :=
  ⟨rfl, fun _ _ h ↦ h, fun _ _ h ↦ .inl h, h⟩

end Grows

section Extraction

variable {machine : Machine} {generation : ℕ} {content : Tree → Prop} {s : Store} {tree : Tree}

theorem Store.setEntry_of_staged (h : s.stagingDir generation = some tree) (path : TreePath)
    (node : Node) :
    s.setEntry generation path node = s.setStaged generation (tree.insert path node) := by
  rw [Store.setEntry, h, Option.elim_some]

theorem grows_setStaged (content : Tree → Prop) (generation : ℕ) (s : Store) (tree : Tree) :
    Grows content (numeral generation) s (s.setStaged generation tree) :=
  Grows.of_staged _ fun k hk ↦ by rw [OrdMap.get_insert, if_neg hk]

@[simp] theorem Store.stagingDir_setStaged :
    (s.setStaged generation tree).stagingDir generation = some tree := by
  simp [Store.stagingDir, Store.setStaged, OrdMap.get_insert]

/-- What a part of an upload changes, and what it leaves staged. -/
def Extracts {α : Type} (content : Tree → Prop) (generation : ℕ) (p : Prog Store Rejection α) (s : Store)
    (tree : Tree) : Prop :=
  p.wp (Grows content (numeral generation))
    (Prog.onOk fun _ t ↦ t.stagingDir generation = some tree) s

theorem extracts_createDir (h : s.stagingDir generation = some tree) (path : TreePath) :
    Extracts content generation (createDir generation path) s
      (if tree.get path = none then tree.insert path .dir else tree) := by
  simp only [Extracts, createDir, stagedNode, wp_bind, wp_read, h, orError, Except.map]
  cases hget : tree.get path with
  | none =>
    rw [andThen_ok, wp_write, Store.setEntry_of_staged h]
    exact ⟨grows_setStaged .., by simp⟩
  | some node => cases node <;> simp [h, onOk]

theorem Extracts.bind {α β : Type} {p : Prog Store Rejection α} {f : α → Prog Store Rejection β}
    {tree' : Tree} (hp : Extracts content generation p s tree)
    (hf : ∀ a t, t.stagingDir generation = some tree → Extracts content generation (f a) t tree') :
    Extracts content generation (p >>= f) s tree' :=
  wp_seq hp hf

theorem extracts_pure {α : Type} (a : α) (h : s.stagingDir generation = some tree) :
    Extracts content generation (pure a) s tree := by
  rw [Extracts, wp_pure]
  exact h

theorem extracts_ensure (b : Bool) (e : Rejection) (h : s.stagingDir generation = some tree) :
    Extracts content generation (ensure b e) s tree := by
  rw [Extracts, wp_ensure]
  exact ⟨fun _ ↦ h, fun _ ↦ trivial⟩

variable (path : TreePath)

theorem extracts_stagedNode (h : s.stagingDir generation = some tree) :
    Extracts content generation (stagedNode generation path) s tree := by
  rw [Extracts, stagedNode, wp_read, h]
  exact h

theorem extracts_setEntry (node : Node) (h : s.stagingDir generation = some tree) :
    Extracts content generation (Prog.write fun s ↦ s.setEntry generation path node) s
      (tree.insert path node) := by
  rw [Extracts, wp_write, Store.setEntry_of_staged h]
  exact ⟨grows_setStaged .., Store.stagingDir_setStaged⟩

theorem extracts_createDirs (paths : List TreePath) (h : s.stagingDir generation = some tree) :
    Extracts content generation (forM paths (createDir generation)) s
      (paths.foldl (fun tree p ↦ if tree.get p = none then tree.insert p .dir else tree) tree) := by
  induction paths generalizing s tree with
  | nil => exact extracts_pure () h
  | cons path paths ih => exact (extracts_createDir h path).bind fun _ _ ht ↦ ih ht

theorem insert_insert_same (tree : Tree) (path : TreePath) (a b : Node) :
    (tree.insert path a).insert path b = tree.insert path b :=
  OrdMap.ext_get fun k ↦ by
    simp only [OrdMap.get_insert]
    split <;> rfl

theorem extracts_copyBounded (pieces : List Bytes) (done : Bytes)
    (h : s.stagingDir generation = some (tree.insert path (.file done 1))) :
    Extracts content generation (copyBounded generation path pieces done) s
      (tree.insert path (.file (done ++ pieces.flatten) 1)) := by
  induction pieces generalizing s done with
  | nil =>
    rw [List.flatten_nil, List.append_nil]
    exact extracts_pure done.length h
  | cons piece rest ih =>
    refine (extracts_ensure _ _ h).bind fun _ t ht ↦ (extracts_setEntry path _ ht).bind fun _ u hu ↦ ?_
    rw [insert_insert_same] at hu
    simpa [List.append_assoc] using ih (done ++ piece) hu

theorem extracts_entry (entry : PlanEntry) (expanded : ℕ) (h : s.stagingDir generation = some tree) :
    Extracts content generation (extractEntry machine generation entry expanded) s
      (place tree entry) := by
  rw [extractEntry, place]
  split
  · exact (extracts_createDirs _ h).bind fun _ _ ht ↦ extracts_pure _ ht
  · refine (extracts_createDirs _ h).bind fun _ _ h₁ ↦ (extracts_stagedNode _ h₁).bind fun _ _ h₂ ↦
      (extracts_ensure _ _ h₂).bind fun _ _ h₃ ↦ (extracts_setEntry _ _ h₃).bind fun _ _ h₄ ↦ ?_
    refine Extracts.bind (extracts_copyBounded entry.target _ [] h₄) fun _ _ h₅ ↦ ?_
    rw [List.nil_append, machine.pieces_flatten] at h₅
    exact (extracts_ensure _ _ h₅).bind fun _ _ h₆ ↦
      (extracts_ensure _ _ h₆).bind fun _ _ h₇ ↦ (extracts_ensure _ _ h₇).bind fun _ _ h₈ ↦
        extracts_pure _ h₈

theorem extracts_all (plan : List PlanEntry)
    (expanded : ℕ) (h : s.stagingDir generation = some tree) :
    Extracts content generation (extractAll machine generation plan expanded) s
      (plan.foldl place tree) := by
  induction plan generalizing s tree expanded with
  | nil => exact extracts_pure () h
  | cons entry rest ih => exact (extracts_entry entry expanded h).bind fun _ _ ht ↦ ih _ ht

theorem wp_removeStaging (machine : Machine) (generation : ℕ) (content : Tree → Prop) (s : Store) :
    (removeStaging machine generation).wp (Grows content (numeral generation)) (fun _ _ ↦ True) s := by
  have herase : ∀ u : Store, Grows content (numeral generation) u
      { u with staged := u.staged.erase (numeral generation) } := fun u ↦
    Grows.of_staged _ fun k hk ↦ by rw [OrdMap.get_erase, if_neg hk]
  rw [removeStaging, wp_get_bind]
  cases s.stagingDir generation with
  | none => exact (wp_pure _).2 trivial
  | some tree =>
    refine wp_seq (R := fun _ _ ↦ True) (wp_forM _ (fun path _ u _ ↦ ?_) trivial) fun _ t _ ↦ ?_
    · rw [wp_write]
      refine ⟨?_, trivial⟩
      cases u.stagingDir generation with
      | none => exact Grows.refl ..
      | some tree => exact grows_setStaged ..
    · rw [wp_when, wp_write]
      exact ⟨fun _ ↦ ⟨herase t, trivial⟩, fun _ ↦ trivial⟩

theorem extracts_extract (plan : List PlanEntry) :
    Extracts content generation (extract machine generation plan) s (contentOf plan) := by
  rw [Extracts, extract, wp_bind, tryStep, wp_ensure]
  refine ⟨fun _ ↦ ?_, fun _ ↦ trivial⟩
  rw [andThen_ok, wp_bind, wp_read, andThen_ok, wp_bind, wp_ensure]
  refine ⟨fun _ ↦ ?_, fun _ ↦ trivial⟩
  rw [andThen_ok, wp_bind, wp_write]
  refine ⟨grows_setStaged .., ?_⟩
  rw [andThen_ok, wp_bind, wp_attempt]
  refine wp_mono (extracts_all plan 0 Store.stagingDir_setStaged) (fun _ _ h ↦ h) fun r t h ↦ ?_
  cases r with
  | error e =>
    exact wp_seq (wp_removeStaging machine generation content t) fun _ _ _ ↦ (wp_fail _).2 trivial
  | ok _ => exact extracts_ensure _ _ h

end Extraction

section Installation

variable {lib : Readers} {machine : Machine} {generation : ℕ} {served : List Text} {enforce : Bool}
  {sizes : Option (ℕ × ℕ)} {G : Store → Store → Prop} {s : Store}

def Store.moved (s : Store) (generation : ℕ) (tree : Tree) : Store :=
  { s with
    staged := s.staged.erase (numeral generation)
    bundles := s.bundles.insert (numeral generation) tree }

theorem wp_tryStep {step : Step} {R : Except Rejection Unit → Store → Prop} :
    (tryStep machine step).wp G R s ↔
      (machine.fails step = false → R (.ok ()) s) ∧ (machine.fails step = true → R (.error .io) s) := by
  rw [tryStep, wp_ensure, Bool.not_eq_true', Bool.not_eq_false']

/-- What installation accepts of a tree that an operator staged. -/
structure Passes (lib : Readers) (served : List Text) (tree : Tree) : Prop where
  valid : validateTree tree = .ok ()
  compatible : ∃ manifest compat, readManifest lib tree = .ok manifest ∧
    checkCompat manifest served = .ok compat

theorem checkStaged_eq_ok {tree : Tree} {compat : CompatCheck}
    (h : checkStaged lib machine s generation served enforce = .ok (tree, compat)) :
    s.stagingDir generation = some tree ∧ s.bundleDir generation = none ∧
    Passes lib served tree ∧ machine.fails .modes = false := by
  simp only [checkStaged, bind_eq_ok, pure_eq_ok, orError_eq_ok, ensure_eq_ok] at h
  obtain ⟨_, htree, _, hfree, _, _, _, hvalid, manifest, hmanifest, _, hcompat, _, hmodes, _, _, heq⟩ := h
  cases heq
  exact ⟨htree, by simpa using hfree, ⟨hvalid, manifest, compat, hmanifest, hcompat⟩, by simpa using hmodes⟩

/-- Nothing changed, or the checked tree is renamed into place, then recorded. -/
theorem wp_installStaged {R : Except Rejection Unit → Store → Prop}
    (herror : (∀ tree compat, checkStaged lib machine s generation served enforce = .ok (tree, compat) →
      ∃ step ∈ [.modes, .sync, .rename], machine.fails step = true) → ∀ e, R (.error e) s)
    (hmoved : ∀ tree compat, checkStaged lib machine s generation served enforce = .ok (tree, compat) →
      (∀ step ∈ [.modes, .sync, .rename], machine.fails step = false) →
      G s (s.moved generation tree) ∧
      (machine.fails .record = true → R (.error .io) (s.moved generation tree)) ∧
      (machine.fails .record = false → ∀ records, G (s.moved generation tree)
        { s.moved generation tree with records } ∧
          R (.ok ()) { s.moved generation tree with records })) :
    (installStaged lib machine generation served enforce sizes).wp G R s := by
  rw [installStaged, wp_bind, wp_read]
  cases hcheck : checkStaged lib machine s generation served enforce with
  | error e => exact herror (by simp [hcheck]) e
  | ok checked =>
    obtain ⟨tree, compat⟩ := checked
    have hmodes := (checkStaged_eq_ok hcheck).2.2.2
    have hfails : ∀ step ∈ [Step.modes, .sync, .rename], machine.fails step = true →
        R (.error .io) s := fun step hstep h ↦ herror (fun _ _ _ ↦ ⟨step, hstep, h⟩) _
    simp only [andThen_ok, wp_bind, wp_tryStep, andThen_error, wp_write]
    refine ⟨fun hsync ↦ ⟨fun hrename ↦ ?_, ?_⟩, ?_⟩
    · obtain ⟨hG, hunrecorded, hrecorded⟩ :=
        hmoved tree compat hcheck (by simp [hmodes, hsync, hrename])
      exact ⟨hG, fun h ↦ hrecorded h _, hunrecorded⟩
    · exact hfails .rename (by simp)
    · exact hfails .sync (by simp)

theorem Store.bundleDir_moved (tree : Tree) :
    (s.moved generation tree).bundleDir generation = some tree := by
  rw [Store.bundleDir, Store.moved, OrdMap.get_insert, if_pos rfl]

theorem Store.get_bundles_moved {k : Text} (hk : k ≠ numeral generation) (tree : Tree) :
    (s.moved generation tree).bundles.get k = s.bundles.get k := by
  rw [Store.moved, OrdMap.get_insert, if_neg hk]

theorem checkInstalled_unenforced (manifest : Option Manifest) (digest : Text) (installed : ℕ)
    (tree : Option Tree) : checkInstalled lib false manifest digest installed tree = .ok () := by
  cases tree with
  | none => rfl
  | some tree =>
    simp only [checkInstalled, Bool.false_eq_true, if_false, Bool.false_and]
    cases validateTree tree <;> rfl

theorem checkStaged_of_passes {tree : Tree} (htree : s.stagingDir generation = some tree)
    (hfree : s.bundleDir generation = none) (h : Passes lib served tree)
    (hmodes : machine.fails .modes = false) :
    ∃ compat, checkStaged lib machine s generation served false = .ok (tree, compat) := by
  obtain ⟨manifest, compat, hmanifest, hcompat⟩ := h.compatible
  refine ⟨compat, ?_⟩
  simp only [checkStaged, bind_eq_ok, pure_eq_ok, orError_eq_ok, ensure_eq_ok, forM_eq_ok]
  exact ⟨tree, htree, (), by simp [hfree], (), rfl, (), h.valid, manifest, hmanifest, compat, hcompat, (),
    by simp [hmodes], (), fun _ _ ↦ checkInstalled_unenforced .., rfl⟩

theorem grows_moved {content : Tree → Prop} {tree : Tree} (htree : content tree)
    (hfree : s.bundleDir generation = none) :
    Grows content (numeral generation) s (s.moved generation tree) := by
  refine ⟨rfl, fun k tree hk ↦ ?_, fun k tree hk ↦ ?_, fun k hk ↦ ?_⟩
  · have hne : k ≠ numeral generation := by
      rintro rfl
      rw [← Store.bundleDir, hfree] at hk
      cases hk
    rwa [Store.get_bundles_moved hne]
  · by_cases hkey : k = numeral generation
    · subst hkey
      rw [← Store.bundleDir, Store.bundleDir_moved] at hk
      exact .inr (Option.some.inj hk ▸ htree)
    · exact .inl (by rwa [Store.get_bundles_moved hkey] at hk)
  · rw [Store.moved, OrdMap.get_erase, if_neg hk]

theorem wp_giveUp {α : Type} (machine : Machine) (generation : ℕ) (content : Tree → Prop) (e : Rejection) :
    (do removeStaging machine generation; fail e : Prog Store Rejection α).wp
      (Grows content (numeral generation)) (fun _ _ ↦ True) s :=
  wp_seq (wp_removeStaging machine generation content s) fun _ _ _ ↦ (wp_fail _).2 trivial

theorem wp_upload (lib : Readers) (machine : Machine) (served : List Text) (package : Package)
    {generation : ℕ} (hnext : s.nextGeneration = .ok generation) :
    (upload lib machine served package).wp (Grows (package.Holds lib) (numeral generation)) (fun _ _ ↦ True) s := by
  unfold upload
  cases hinspect : inspect lib.toPackageReaders package with
  | error why => exact (wp_fail _).2 trivial
  | ok inspection =>
    simp only [wp_bind, wp_read, hnext, andThen_ok, wp_attempt]
    refine wp_mono (extracts_extract inspection.plan) (fun _ _ h ↦ h) fun r t ht ↦ ?_
    cases r with
    | error e => exact wp_giveUp machine generation _ e
    | ok _ =>
      simp only [wp_bind, wp_attempt]
      refine wp_mono (R := fun _ _ ↦ True) (wp_installStaged (fun _ _ ↦ trivial)
        fun tree compat hcheck _ ↦ ?_) (fun _ _ h ↦ h) fun r u _ ↦ ?_
      · obtain ⟨hstaged, hfree, -⟩ := checkStaged_eq_ok hcheck
        obtain rfl : contentOf inspection.plan = tree := Option.some.inj (ht.symm.trans hstaged)
        refine ⟨grows_moved ⟨inspection, hinspect, rfl⟩ hfree, fun _ ↦ trivial, fun _ records ↦ ⟨?_, trivial⟩⟩
        exact ⟨rfl, fun _ _ h ↦ h, fun _ _ h ↦ .inl h, fun _ _ ↦ rfl⟩
      · cases r with
        | error e => exact wp_giveUp machine generation _ e
        | ok _ =>
          rw [andThen_ok, wp_pure]
          trivial

theorem states_upload_of_error (lib : Readers) (machine : Machine) (served : List Text)
    (package : Package) {e : Rejection} (hnext : s.nextGeneration = .error e) :
    (upload lib machine served package s).states = [] := by
  unfold upload
  cases inspect lib.toPackageReaders package with
  | error why => rfl
  | ok inspection => simp [bind, Prog.read, hnext]

theorem grows_of_upload {package : Package} {before mid : Store}
    (hmid : mid ∈ before :: (upload lib machine served package before).states) :
    ∃ key, Grows (package.Holds lib) key before mid := by
  cases hnext : before.nextGeneration with
  | error e =>
    rw [states_upload_of_error lib machine served package hnext, List.mem_singleton] at hmid
    exact ⟨[], hmid ▸ Grows.refl ..⟩
  | ok generation =>
    refine ⟨numeral generation, ?_⟩
    rcases List.mem_cons.1 hmid with rfl | hmid
    · exact Grows.refl ..
    · exact (wp_upload lib machine served package hnext).forall_states (Grows _ _ before)
        (Grows.refl ..) (fun _ _ h h' ↦ h.trans h') mid hmid

end Installation

section StartUp

variable (lib : Readers) (machine : Machine) (served : List Text)

/-- The tree that a start-up installs. -/
structure Installable (s : Store) (generation : ℕ) (tree : Tree) : Prop where
  newest : s.discoverStaged.getLast? = some generation
  staged : s.stagingDir generation = some tree
  free : s.bundleDir generation = none
  passes : Passes lib served tree
  moves : ∀ step ∈ [.modes, .sync, .rename], machine.fails step = false

def Completes : Prop := machine.fails .record = false ∧ machine.fails .pointer = false

/-- Nothing installed changes, or the newest staged tree is installed and activated. -/
def Restarted (s t : Store) : Prop :=
  ((∀ generation tree, ¬Installable lib machine served s generation tree) ∧
    t.current = s.current ∧ t.bundles = s.bundles) ∨
  ∃ generation tree, Installable lib machine served s generation tree ∧
    t.bundles = (s.moved generation tree).bundles ∧
    (¬Completes machine ∧ t.current = s.current ∨ Completes machine ∧ t.current = some generation)

theorem restarted_startUp (s : Store) :
    Restarted lib machine served s (startUp lib machine served s) := by
  suffices h : (pickUpStaged lib machine served).wp (fun _ _ ↦ True)
      (fun _ t ↦ Restarted lib machine served s t) s from h.2
  rw [pickUpStaged, wp_get_bind]
  cases hnewest : s.discoverStaged.getLast? with
  | none =>
    refine (wp_pure _).2 (.inl ⟨fun g tree h ↦ ?_, rfl, rfl⟩)
    rw [h.newest] at hnewest
    cases hnewest
  | some generation =>
    simp only [wp_bind, activate]
    refine wp_installStaged (fun hnone e ↦ .inl ⟨fun g tree h ↦ ?_, rfl, rfl⟩)
      fun tree compat hcheck hsteps ↦ ?_
    · obtain rfl : generation = g := Option.some.inj (hnewest.symm.trans h.newest)
      obtain ⟨compat, hcheck⟩ := checkStaged_of_passes h.staged h.free h.passes (h.moves _ (by simp))
      obtain ⟨step, hstep, hfails⟩ := hnone tree compat hcheck
      rw [h.moves step hstep] at hfails
      cases hfails
    · obtain ⟨hstaged, hfree, hpasses, -⟩ := checkStaged_eq_ok hcheck
      have hready : Installable lib machine served s generation tree :=
        ⟨hnewest, hstaged, hfree, hpasses, hsteps⟩
      refine ⟨trivial, fun hrecord ↦ .inr ⟨generation, tree, hready, rfl, .inl ⟨?_, rfl⟩⟩,
        fun hrecord records ↦ ⟨trivial, ?_⟩⟩
      · simp [Completes, hrecord]
      · simp only [andThen_ok, wp_bind, wp_tryStep, wp_write, wp_pure,
          andThen_error]
        refine ⟨fun hpointer ↦ ⟨trivial, .inr ⟨generation, tree, hready, rfl, .inr ⟨?_, rfl⟩⟩⟩,
          fun hpointer ↦ .inr ⟨generation, tree, hready, rfl, .inl ⟨?_, rfl⟩⟩⟩
        · exact ⟨hrecord, hpointer⟩
        · simp [Completes, hpointer]

end StartUp

section Active

variable (lib : Readers) (known : Tree → Prop) (package : Package)

/-- A tree that was there before, or the package's. -/
def Whole (tree : Tree) : Prop := known tree ∨ package.Holds lib tree

def ActiveWhole (s : Store) : Prop :=
  ∀ generation tree, s.current = some generation → s.bundleDir generation = some tree →
    Whole lib known package tree

variable {lib known package}

theorem ActiveWhole.grows {key : Text} {s t : Store} (h : ActiveWhole lib known package s)
    (hgrows : Grows (package.Holds lib) key s t) : ActiveWhole lib known package t :=
  fun generation tree hcurrent htree ↦
    (hgrows.added _ tree htree).elim (h generation tree (hgrows.current ▸ hcurrent)) .inr

variable {machine : Machine} {served : List Text}

theorem Installable.unique {s : Store} {generation generation' : ℕ} {tree tree' : Tree}
    (h : Installable lib machine served s generation tree)
    (h' : Installable lib machine served s generation' tree') :
    generation' = generation ∧ tree' = tree := by
  obtain rfl : generation' = generation := Option.some.inj (h'.newest.symm.trans h.newest)
  exact ⟨rfl, Option.some.inj (h'.staged.symm.trans h.staged)⟩

/-- After a cut upload, start-up is right exactly when what it installs was active and complete. -/
theorem upload_inactive_iff (lib : Readers) (machine machine' : Machine) (served served' : List Text)
    (known : Tree → Prop) (package : Package) (before mid : Store)
    (hmid : mid ∈ before :: (upload lib machine served package before).states) :
    ((startUp lib machine' served' mid).current = before.current ∧
      (ActiveWhole lib known package before →
        ActiveWhole lib known package (startUp lib machine' served' mid))) ↔
    ∀ generation tree, Installable lib machine' served' mid generation tree →
      (Completes machine' → before.current = some generation) ∧
      (before.current = some generation → Whole lib known package tree) := by
  obtain ⟨key, hgrows⟩ := grows_of_upload hmid
  rcases restarted_startUp lib machine' served' mid with
    ⟨hnone, hcurrent, hbundles⟩ | ⟨generation, tree, hready, hbundles, hcurrent⟩
  · refine ⟨fun _ g tree h ↦ absurd h (hnone g tree), fun _ ↦
      ⟨hcurrent.trans hgrows.current, fun h g tree hg htree ↦ ?_⟩⟩
    rw [Store.bundleDir, hbundles] at htree
    exact h.grows hgrows g tree (hcurrent ▸ hg) htree
  · have htree : (startUp lib machine' served' mid).bundleDir generation = some tree := by
      rw [Store.bundleDir, hbundles, ← Store.bundleDir, Store.bundleDir_moved]
    have hempty : before.bundleDir generation = none := by
      cases hget : before.bundleDir generation with
      | none => rfl
      | some old =>
        have hkept := hgrows.kept _ old hget
        rw [← Store.bundleDir, hready.free] at hkept
        cases hkept
    constructor
    · rintro ⟨hsame, hwhole⟩ g tree' h
      obtain ⟨rfl, rfl⟩ := hready.unique h
      refine ⟨fun hcompletes ↦ ?_, fun hactive ↦ ?_⟩
      · obtain ⟨hfails, -⟩ | ⟨-, hsome⟩ := hcurrent
        · exact absurd hcompletes hfails
        · exact hsame.symm.trans hsome
      · refine hwhole (fun g' old hg' hold ↦ ?_) g tree' (hsame.trans hactive) htree
        obtain rfl : g = g' := Option.some.inj (hactive.symm.trans hg')
        rw [hempty] at hold
        cases hold
    · intro h
      obtain ⟨hcompletes, hwhole⟩ := h generation tree hready
      have hsame : (startUp lib machine' served' mid).current = before.current := by
        obtain ⟨-, hsame⟩ | ⟨hall, hsome⟩ := hcurrent
        · exact hsame.trans hgrows.current
        · exact hsome.trans (hcompletes hall).symm
      refine ⟨hsame, fun hbefore g tree' hg htree' ↦ ?_⟩
      rw [hsame] at hg
      by_cases hkey : g = generation
      · subst hkey
        exact Option.some.inj (htree.symm.trans htree') ▸ hwhole hg
      · rw [Store.bundleDir, hbundles,
          Store.get_bundles_moved (fun h ↦ hkey (numeral_injective h))] at htree'
        exact hbefore.grows hgrows g tree' (hgrows.current.trans hg) htree'

end Active

section CutOff

def cutOff (lib : Readers) (machine : Machine) (served : List Text)
    (package : Package) (before : Store)
    (writes : ℕ) : Store :=
  ((upload lib machine served package before).states.take writes).getLastD before

theorem cutOff_mem (lib : Readers) (machine : Machine) (served : List Text) (package : Package)
    (before : Store) (writes : ℕ) :
    cutOff lib machine served package before writes ∈
      before :: (upload lib machine served package before).states := by
  rcases getLastD_eq_or_mem ((upload lib machine served package before).states.take writes) before
    with h | h
  · exact List.mem_cons.2 (.inl h)
  · exact List.mem_cons_of_mem _ (List.mem_of_mem_take h)

def plainReaders : Readers where
  toPackageReaders := consoleReaders
  parseManifest bytes :=
    if bytes = consoleManifest then .ok ⟨"console".toList, "1.0.0".toList, ["v1".toList]⟩
    else .error "expected value at line 1 column 1".toList
  sha256 bytes := bytes.map fun byte ↦ Char.ofNat byte.toNat

def smoothMachine : Machine where
  pieces content := [content]
  pieces_flatten _ := List.append_nil _
  order tree := tree.keys
  fails _ := false

def shippedTree : Tree :=
  OrdMap.empty.insert (rootPath indexName) (.file (utf8Bytes "old".toList) 1)

def shippedStore : Store where
  staged := .empty
  bundles := OrdMap.empty.insert (numeral 1) shippedTree
  records := .empty
  current := some 1

def served : List Text := ["v1".toList]

def consolePackage : Package := ⟨400, some (consoleArchive "console.js".toList)⟩

def consoleTree : Tree :=
  ((OrdMap.empty.insert (rootPath indexName) (.file [60] 1)).insert (rootPath "console.js".toList)
    (.file [59] 1)).insert (rootPath manifestName) (.file consoleManifest 1)

theorem upload_inactive_uploaded :
    let mid := cutOff plainReaders smoothMachine served consolePackage shippedStore 100
    mid ∈ shippedStore ::
      (upload plainReaders smoothMachine served consolePackage shippedStore).states ∧
    mid.discoverStaged = [] ∧ mid.bundleDir 2 = some consoleTree ∧
    (startUp plainReaders smoothMachine served mid).current = some 1 ∧
    (ActiveWhole plainReaders (· = shippedTree) consolePackage shippedStore →
      ActiveWhole plainReaders (· = shippedTree) consolePackage
        (startUp plainReaders smoothMachine served mid)) := by
  have hmem := cutOff_mem plainReaders smoothMachine served consolePackage shippedStore 100
  have hnone : (cutOff plainReaders smoothMachine served consolePackage shippedStore
      100).discoverStaged = [] := by
    decide +kernel
  refine ⟨hmem, hnone, by decide +kernel, ?_⟩
  refine (upload_inactive_iff plainReaders smoothMachine smoothMachine served served _ _ _ _
    hmem).2 fun g tree h ↦ ?_
  have hnewest := h.newest
  rw [hnone] at hnewest
  cases hnewest

/-- Cut off between two files, the upload's staging directory is activated. -/
theorem not_forall_upload_inactive :
    ¬∀ (lib : Readers) (machine machine' : Machine) (served served' : List Text) (known : Tree → Prop)
      (package : Package) (before mid : Store),
      mid ∈ before :: (upload lib machine served package before).states →
      (startUp lib machine' served' mid).current = before.current ∧
        (ActiveWhole lib known package before → ActiveWhole lib known package (startUp lib machine' served' mid)) := by
  intro h
  have hsame := (h plainReaders smoothMachine smoothMachine served served (· = shippedTree)
    consolePackage shippedStore _
    (cutOff_mem plainReaders smoothMachine served consolePackage shippedStore 3)).1
  revert hsame
  decide +kernel

end CutOff

end MicaCore.Ui
