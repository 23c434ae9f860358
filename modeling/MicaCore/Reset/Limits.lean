import MicaCore.Deploy.Identity

namespace MicaCore.Reset

open Data

mutual
inductive Node where
  | leaf
  | dir (listing : Listing)

inductive Listing where
  | nil
  | cons (name : Text) (node : Node) (rest : Listing)
end

inductive Limit where
  | depth
  | entries
  deriving DecidableEq

def maxDepth : ℕ := 64
def maxEntries : ℕ := 1000000

def visit (depth entries : ℕ) : Except Limit ℕ := do
  ensure (depth ≤ maxDepth) .depth
  ensure (entries + 1 ≤ maxEntries) .entries
  pure (entries + 1)

def visitDir (twice : Bool) (depth entries : ℕ) : Except Limit ℕ := do
  let entries ← visit depth entries
  if twice then visit depth entries else pure entries

mutual
/-- A walk over what is at a path, which visits a directory once, or twice. -/
def Node.walk (twice : Bool) : Node → ℕ → ℕ → Except Limit ℕ
  | .leaf, depth, entries => visit depth entries
  | .dir listing, depth, entries => do
    let entries ← visitDir twice depth entries
    listing.walk twice (depth + 1) entries

def Listing.walk (twice : Bool) : Listing → ℕ → ℕ → Except Limit ℕ
  | .nil, _, entries => .ok entries
  | .cons _ node rest, depth, entries => do
    let entries ← node.walk twice depth entries
    rest.walk twice depth entries
end

def preflightTree (node : Node) (depth entries : ℕ) : Except Limit ℕ :=
  node.walk false depth entries

/-- `remove` visits a directory, and so does `clear_directory`, which it calls for it. -/
def remove (node : Node) (depth entries : ℕ) : Except Limit ℕ := node.walk true depth entries

def Listing.reseedEach (declared : List (List Text)) : Listing → List Text → ℕ → ℕ → Except Limit ℕ
  | .nil, _, _, entries => .ok entries
  | .cons name (.dir listing) rest, relative, depth, entries => do
    let entries ← (if declared.contains (relative ++ [name]) then
        (visit depth entries).bind (listing.reseedEach declared (relative ++ [name]) (depth + 1))
      else remove (.dir listing) depth entries)
    rest.reseedEach declared relative depth entries
  | .cons _ .leaf rest, relative, depth, entries => do
    let entries ← remove .leaf depth entries
    rest.reseedEach declared relative depth entries

inductive Place where
  | missing
  | file
  | link (listing : Option Listing)
  | dir (listing : Listing)

def Place.node : Place → Node
  | .dir listing => .dir listing
  | _ => .leaf

inductive Stop where
  | limit (limit : Limit)
  | io
  deriving DecidableEq

def Place.readDir : Place → Except Stop (Option Listing)
  | .missing | .link none => .ok none
  | .file => .error .io
  | .link (some listing) | .dir listing => .ok (some listing)

inductive ResetTier where
  | configuration
  | applicationData
  deriving DecidableEq

structure Roots where
  config : Place
  apps : Place
  volumes : Place
  containerd : Place
  systemdUnits : Place
  openrcLocal : Place
  accounts : Place
  containers : Place
  user : Place

def targets (roots : Roots) : ResetTier → List Place
  | .configuration => [roots.config]
  | .applicationData => [roots.apps, roots.volumes, roots.containerd, roots.systemdUnits,
      roots.openrcLocal, roots.accounts, roots.user, roots.containers]

def preflightReset (roots : Roots) (tier : ResetTier) : Except Limit ℕ :=
  (targets roots tier).foldlM (fun entries place ↦ preflightTree place.node 0 entries) 0

/-- A removal pass: a directory is cleared, or reduced to its skeleton. -/
inductive Pass where
  | clearContents (dir : Place)
  | reseedTree (root : Place) (skeleton : List (List Text))

def passes (roots : Roots) : ResetTier → List Pass
  | .configuration => [.clearContents roots.config]
  | .applicationData => [.clearContents roots.containerd, .clearContents roots.systemdUnits,
      .clearContents roots.openrcLocal, .clearContents roots.accounts, .clearContents roots.apps,
      .clearContents roots.volumes,
      .reseedTree roots.containers [["networks".toList], ["tmp".toList]],
      .clearContents roots.user]

def Pass.place : Pass → Place
  | .clearContents dir => dir
  | .reseedTree root _ => root

def Pass.each : Pass → Listing → ℕ → ℕ → Except Limit ℕ
  | .clearContents _, listing => listing.walk true
  | .reseedTree _ skeleton, listing => listing.reseedEach skeleton []

def Pass.run (pass : Pass) : Except Stop ℕ := do
  let entries ← (visit 0 0).mapError .limit
  match ← pass.place.readDir with
  | none => pure entries
  | some listing => (pass.each listing 1 entries).mapError .limit

/-- The pass gives up at a limit. -/
def Pass.Limited (pass : Pass) : Prop := ∃ limit, pass.run = .error (.limit limit)

def weight (twice : Bool) : ℕ := if twice then 2 else 1

mutual
def Node.count (twice : Bool) : Node → ℕ
  | .leaf => 1
  | .dir listing => weight twice + listing.count twice

def Listing.count (twice : Bool) : Listing → ℕ
  | .nil => 0
  | .cons _ node rest => node.count twice + rest.count twice
end

mutual
def Node.height : Node → ℕ
  | .leaf => 0
  | .dir listing => listing.height

def Listing.height : Listing → ℕ
  | .nil => 0
  | .cons _ node rest => max (1 + node.height) rest.height
end

/-- The entries, directories that are not kept counted twice. -/
def Listing.countKeeping (declared : List (List Text)) : Listing → List Text → ℕ
  | .nil, _ => 0
  | .cons name (.dir listing) rest, relative =>
    (if declared.contains (relative ++ [name]) then 1 + listing.countKeeping declared (relative ++ [name])
      else 2 + listing.count true) + rest.countKeeping declared relative
  | .cons _ .leaf rest, relative => 1 + rest.countKeeping declared relative

section Walks

def Takes (x : Except Limit ℕ) (entries count : ℕ) (shallow : Prop) : Prop :=
  ∀ m, x = .ok m ↔ shallow ∧ entries + count ≤ maxEntries ∧ entries + count = m

theorem Takes.bind {x : Except Limit ℕ} {f : ℕ → Except Limit ℕ} {entries a b : ℕ} {p q r : Prop}
    (hx : Takes x entries a p)
    (hf : p → entries + a ≤ maxEntries → Takes (f (entries + a)) (entries + a) b q)
    (hr : p ∧ q ↔ r) :
    Takes (x >>= f) entries (a + b) r := by
  intro m
  rw [bind_eq_ok, ← hr]
  constructor
  · rintro ⟨_, hfirst, hrest⟩
    obtain ⟨hp, hfits, rfl⟩ := (hx _).1 hfirst
    obtain ⟨hq, hfits', rfl⟩ := (hf hp hfits m).1 hrest
    exact ⟨⟨hp, hq⟩, by omega, by omega⟩
  · rintro ⟨⟨hp, hq⟩, hfits, rfl⟩
    have hfits' : entries + a ≤ maxEntries := by omega
    exact ⟨_, (hx _).2 ⟨hp, hfits', rfl⟩, (hf hp hfits' _).2 ⟨hq, by omega, by omega⟩⟩

variable {twice : Bool}

theorem takes_visit (depth entries : ℕ) :
    Takes (visit depth entries) entries 1 (depth ≤ maxDepth) := fun m ↦ by
  simp only [visit, bind_eq_ok, ensure_eq_ok, pure_eq_ok, exists_const, decide_eq_true_eq]

theorem takes_pure {entries : ℕ} {p : Prop} (hp : p) (h : entries ≤ maxEntries) :
    Takes (.ok entries) entries 0 p := fun m ↦ by
  simp [hp, h]

theorem takes_visitDir (depth entries : ℕ) :
    Takes (visitDir twice depth entries) entries (weight twice) (depth ≤ maxDepth) := by
  cases twice with
  | false => exact (takes_visit depth entries).bind (fun _ h ↦ takes_pure trivial h) (by simp)
  | true => exact (takes_visit depth entries).bind (fun _ _ ↦ takes_visit depth _) (by simp)

mutual
theorem Node.takes_walk : ∀ (node : Node) (depth entries : ℕ),
    Takes (node.walk twice depth entries) entries (node.count twice)
      (depth + node.height ≤ maxDepth)
  | .leaf, depth, entries => takes_visit depth entries
  | .dir listing, depth, entries => by
    refine (takes_visitDir depth entries).bind (fun hdepth h ↦ listing.takes_walk ?_ h) ?_
    · exact Nat.succ_le_succ hdepth
    · rw [Node.height]
      omega

theorem Listing.takes_walk : ∀ (listing : Listing) {depth entries : ℕ}, depth ≤ maxDepth + 1 →
    entries ≤ maxEntries → Takes (listing.walk twice depth entries) entries (listing.count twice)
      (depth + listing.height ≤ maxDepth + 1)
  | .nil, depth, entries, hdepth, hentries => takes_pure hdepth hentries
  | .cons _ node rest, depth, entries, hdepth, hentries => by
    refine (node.takes_walk depth entries).bind (fun _ h ↦ rest.takes_walk hdepth h) ?_
    rw [Listing.height]
    omega
end

theorem Listing.takes_reseedEach (declared : List (List Text)) :
    ∀ (listing : Listing) {relative : List Text}
    {depth entries : ℕ}, depth ≤ maxDepth + 1 → entries ≤ maxEntries →
    Takes (listing.reseedEach declared relative depth entries) entries
      (listing.countKeeping declared relative) (depth + listing.height ≤ maxDepth + 1)
  | .nil, relative, depth, entries, hdepth, hentries => takes_pure hdepth hentries
  | .cons name .leaf rest, relative, depth, entries, hdepth, hentries => by
    refine (Node.leaf.takes_walk depth entries).bind
      (fun _ h ↦ rest.takes_reseedEach declared hdepth h) ?_
    rw [Listing.height]
    omega
  | .cons name (.dir listing) rest, relative, depth, entries, hdepth, hentries => by
    rw [Listing.reseedEach, Listing.countKeeping, Listing.height, Node.height]
    refine Takes.bind (p := depth + listing.height ≤ maxDepth) ?_
      (fun _ h ↦ rest.takes_reseedEach declared hdepth h) (by omega)
    split
    · exact (takes_visit depth entries).bind
        (fun hd h ↦ listing.takes_reseedEach declared (Nat.succ_le_succ hd) h) (by omega)
    · exact (Node.dir listing).takes_walk depth entries

end Walks

def Pass.count : Pass → Listing → ℕ
  | .clearContents _, listing => listing.count true
  | .reseedTree _ skeleton, listing => listing.countKeeping skeleton []

/-- A pass visits no more than it may, with what is behind links. -/
def Pass.Fits (pass : Pass) : Prop :=
  match pass.place with
  | .dir listing => 1 + pass.count listing ≤ maxEntries
  | .link (some listing) => listing.height ≤ maxDepth ∧ 1 + pass.count listing ≤ maxEntries
  | _ => True

section Passes

variable {pass : Pass} {listing : Listing} {roots : Roots} {tier : ResetTier} {m : ℕ}

theorem Pass.takes_each (pass : Pass) (listing : Listing) :
    Takes (pass.each listing 1 1) 1 (pass.count listing) (1 + listing.height ≤ maxDepth + 1) := by
  cases pass with
  | clearContents dir => exact listing.takes_walk (by decide) (by decide)
  | reseedTree root skeleton => exact listing.takes_reseedEach skeleton (by decide) (by decide)

theorem Pass.limited_iff (h : pass.place.readDir = .ok (some listing)) :
    pass.Limited ↔ ¬ (listing.height ≤ maxDepth ∧ 1 + pass.count listing ≤ maxEntries) := by
  have hrun : pass.run = (pass.each listing 1 1).mapError .limit := by
    rw [Pass.run, h]
    rfl
  have htakes := pass.takes_each listing
  rw [Pass.Limited, hrun]
  cases heach : pass.each listing 1 1 with
  | error limit =>
    refine iff_of_true ⟨limit, rfl⟩ fun hfits ↦ ?_
    cases heach.symm.trans ((htakes _).2 ⟨by omega, hfits.2, rfl⟩)
  | ok n =>
    obtain ⟨hheight, hcount, -⟩ := (htakes n).1 heach
    exact iff_of_false (fun ⟨_, hlimit⟩ ↦ by cases hlimit) (not_not.2 ⟨by omega, hcount⟩)

theorem height_of_preflight (h : preflightReset roots tier = .ok m) {place : Place}
    (hplace : place ∈ targets roots tier) (hdir : place = .dir listing) :
    listing.height ≤ maxDepth := by
  obtain ⟨entries, n, hok⟩ := exists_of_foldlM_eq_ok h place hplace
  rw [hdir] at hok
  have hheight := (((Node.dir listing).takes_walk 0 entries n).1 hok).1
  rwa [Nat.zero_add] at hheight

theorem place_mem_targets (h : pass ∈ passes roots tier) : pass.place ∈ targets roots tier := by
  cases tier with
  | configuration =>
    obtain rfl := List.mem_singleton.1 h
    exact List.mem_singleton_self _
  | applicationData =>
    simp only [passes, List.mem_cons, List.not_mem_nil, or_false] at h
    rcases h with rfl | rfl | rfl | rfl | rfl | rfl | rfl | rfl <;> simp [targets, Pass.place]

/-- No pass fails on a limit exactly when every pass fits. -/
theorem passes_unlimited_iff (h : preflightReset roots tier = .ok m) :
    (∀ pass ∈ passes roots tier, ¬ pass.Limited) ↔ ∀ pass ∈ passes roots tier, pass.Fits := by
  refine forall₂_congr fun pass hpass ↦ ?_
  have hother : pass.place.readDir = .ok none ∨ pass.place.readDir = .error .io →
      ¬ pass.Limited := by
    rintro (hread | hread) ⟨limit, hrun⟩
    · rw [Pass.run, hread] at hrun
      cases hrun
    · rw [Pass.run, hread] at hrun
      cases hrun
  rw [Pass.Fits]
  cases hplace : pass.place with
  | missing => exact iff_of_true (hother (.inl (by rw [hplace]; rfl))) trivial
  | file => exact iff_of_true (hother (.inr (by rw [hplace]; rfl))) trivial
  | link found =>
    cases found with
    | none => exact iff_of_true (hother (.inl (by rw [hplace]; rfl))) trivial
    | some listing => exact (not_congr (Pass.limited_iff (by rw [hplace]; rfl))).trans not_not
  | dir listing =>
    have hheight := height_of_preflight h (place_mem_targets hpass) hplace
    have hread : pass.place.readDir = .ok (some listing) := by rw [hplace]; rfl
    rw [Pass.limited_iff hread, not_not]
    exact and_iff_right hheight

end Passes

def emptyRoots : Roots :=
  ⟨.missing, .missing, .missing, .missing, .missing, .missing, .missing, .missing, .missing⟩

/-- An application with a file two directories down, and a container beside the kept networks. -/
def usedRoots : Roots :=
  let file : Listing := .cons "log".toList .leaf .nil
  { emptyRoots with
    apps := .dir (.cons "app".toList (.dir (.cons "data".toList (.dir file) .nil)) .nil)
    containers := .dir (.cons "networks".toList (.dir file) (.cons "c1".toList (.dir file) .nil)) }

theorem passes_unlimited_used :
    preflightReset usedRoots .applicationData = .ok 15 ∧
      ∀ pass ∈ passes usedRoots .applicationData, ¬ pass.Limited := by
  refine ⟨rfl, (passes_unlimited_iff (m := 15) rfl).2 fun pass hpass ↦ ?_⟩
  simp only [passes, List.mem_cons, List.not_mem_nil, or_false] at hpass
  rcases hpass with rfl | rfl | rfl | rfl | rfl | rfl | rfl | rfl <;>
    first | trivial | exact Nat.le_of_ble_eq_true rfl

def hollow : ℕ → Listing
  | 0 => .nil
  | n + 1 => .cons (numeral n) (.dir .nil) (hollow n)

theorem count_hollow (twice : Bool) (n : ℕ) : (hollow n).count twice = weight twice * n := by
  induction n with
  | zero => rfl
  | succ n ih =>
    rw [hollow, Listing.count, Node.count, Listing.count, ih, Nat.mul_succ]
    omega

theorem height_hollow (n : ℕ) : (hollow n).height ≤ 1 := by
  induction n with
  | zero => exact Nat.zero_le 1
  | succ n ih =>
    rw [hollow, Listing.height]
    exact max_le le_rfl ih

def hollowRoots (n : ℕ) : Roots := { emptyRoots with config := .dir (hollow n) }

theorem preflight_hollowRoots {n : ℕ} (h : 1 + n ≤ maxEntries) :
    preflightReset (hollowRoots n) .configuration =
      .ok (0 + (Node.dir (hollow n)).count false) := by
  have hcount : (Node.dir (hollow n)).count false = 1 + n := by
    rw [Node.count, count_hollow, weight, if_neg (by decide), Nat.one_mul]
  have hheight : 0 + (Node.dir (hollow n)).height ≤ maxDepth := by
    rw [Nat.zero_add]
    exact (height_hollow n).trans (by decide)
  have hok : preflightTree (.dir (hollow n)) 0 0 = .ok (0 + (Node.dir (hollow n)).count false) :=
    ((Node.dir (hollow n)).takes_walk 0 0 _).2 ⟨hheight, by omega, rfl⟩
  rw [preflightReset, targets, List.foldlM_cons, bind_eq_ok]
  exact ⟨_, hok, rfl⟩

theorem limited_hollowRoots {n : ℕ} (h : maxEntries < 1 + 2 * n) :
    (Pass.clearContents (hollowRoots n).config).Limited := by
  refine (Pass.limited_iff rfl).2 fun hfits ↦ ?_
  have hcount : (hollow n).count true = 2 * n := count_hollow true n
  have hle : 1 + (hollow n).count true ≤ maxEntries := hfits.2
  omega

/-- The clearing pass counts an emptied directory twice, the preflight once. -/
theorem not_forall_unlimited :
    ¬ ∀ (tier : ResetTier) (roots : Roots) (m : ℕ), preflightReset roots tier = .ok m →
      ∀ pass ∈ passes roots tier, ¬ pass.Limited := fun h ↦
  h _ _ _ (preflight_hollowRoots (n := 500000) (by decide)) _ (List.mem_singleton_self _)
    (limited_hollowRoots (by decide))

end MicaCore.Reset
