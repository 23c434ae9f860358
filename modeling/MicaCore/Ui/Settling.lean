import MicaCore.Ui.Upload

namespace MicaCore.Ui

open Data Crash

/-- A start of the daemon, and after how many writes it is cut off. -/
structure Restart where
  machine : Machine
  cut : Option ℕ

section Restarts

variable (lib : Readers) (served : List Text)

def Restart.after (r : Restart) (s : Store) : Store :=
  match r.cut with
  | none => (pickUpStaged lib r.machine served).last s
  | some writes => ((pickUpStaged lib r.machine served s).states.take writes).getLastD s

def Restart.completes (r : Restart) (s : Store) : Prop :=
  r.cut = none ∧ ∃ found, (pickUpStaged lib r.machine served s).result = .ok found

def afterRestarts (s : Store) (rs : List Restart) : Store :=
  rs.foldl (fun s r ↦ r.after lib served s) s

/-- One of the restarts completes an installation. -/
def CompletedIn : Store → List Restart → Prop
  | _, [] => False
  | s, r :: rs => r.completes lib served s ∨ CompletedIn (r.after lib served s) rs

/-- Trees staged by hand: acceptable, named by their generation, not yet installed. -/
structure HandStaged (s : Store) : Prop where
  named : ∀ key tree, s.staged.get key = some tree →
    ∃ generation, generationOf key = some generation ∧
    key = numeral generation ∧ s.bundleDir generation = none ∧ Passes lib served tree

def Restart.moves (r : Restart) : Prop :=
  (∀ step ∈ [.modes, .sync, .rename], r.machine.fails step = false) ∧ r.cut ≠ some 0

def Restart.points (r : Restart) : Prop :=
  Completes r.machine ∧ ∀ writes, r.cut = some writes → 3 ≤ writes

/-- A restart that does not stop between the rename and the pointer. -/
def Restart.Clean (r : Restart) : Prop := r.moves → r.points

end Restarts

section Once

variable {lib : Readers} {served : List Text}
    {s : Store} {r : Restart} {generation : ℕ} {tree : Tree}

theorem HandStaged.newest (h : HandStaged lib served s)
    (hnewest : s.discoverStaged.getLast? = some generation) :
    ∃ tree, s.stagingDir generation = some tree ∧ s.bundleDir generation = none ∧
    Passes lib served tree := by
  have hmem : generation ∈ s.staged.keys.filterMap generationOf :=
    (List.mergeSort_perm _ _).mem_iff.1 (List.mem_of_getLast? hnewest)
  obtain ⟨key, hkey, hgen⟩ := List.mem_filterMap.1 hmem
  obtain ⟨tree, htree⟩ := OrdMap.mem_keys.1 hkey
  obtain ⟨g, hg, rfl, hfree, hpasses⟩ := h.named key tree htree
  obtain rfl : g = generation := Option.some.inj (hg.symm.trans hgen)
  exact ⟨tree, htree, hfree, hpasses⟩

theorem pickUpStaged_nothing (machine : Machine) (h : s.discoverStaged = []) :
    pickUpStaged lib machine served s = ⟨[], .ok none⟩ := by
  simp [pickUpStaged, Prog.get, bind, h, pure]

theorem pickUpStaged_staged (machine : Machine) (hnewest : s.discoverStaged.getLast? = some generation)
    (htree : s.stagingDir generation = some tree) (hfree : s.bundleDir generation = none)
    (hpasses : Passes lib served tree) (hmoves : ∀ step ∈ [.modes, .sync, .rename], machine.fails step = false) :
    ∃ recorded, (pickUpStaged lib machine served s).states = s.moved generation tree ::
      (if machine.fails .record then [] else { s.moved generation tree with records := recorded } ::
        if machine.fails .pointer then []
        else [{ s.moved generation tree with records := recorded, current := some generation }]) ∧
      ((∃ found, (pickUpStaged lib machine served s).result = .ok found) ↔ Completes machine) := by
  obtain ⟨compat, hcheck⟩ := checkStaged_of_passes htree hfree hpasses (hmoves _ (by simp))
  have hsync := hmoves .sync (by simp)
  have hrename := hmoves .rename (by simp)
  refine ⟨s.records.insert (numeral generation) ⟨lib.digest tree, compat, none, none⟩, ?_⟩
  cases hrecord : machine.fails .record <;> cases hpointer : machine.fails .pointer <;>
    simp [pickUpStaged, activate, installStaged, Prog.get, Prog.read, Prog.write, tryStep, Prog.ensure,
      Prog.ofExcept, bind, Prog.last, pure, hnewest, hcheck, hsync, hrename, hrecord, hpointer,
      Store.moved, Completes]

theorem pickUpStaged_unmoved (lib : Readers) (served : List Text) (machine : Machine)
    (hnewest : s.discoverStaged.getLast? = some generation)
    (h : ∃ step ∈ [.modes, .sync, .rename], machine.fails step = true) :
    (pickUpStaged lib machine served s).states = [] ∧
      ∃ e, (pickUpStaged lib machine served s).result = .error e := by
  suffices hwp : (pickUpStaged lib machine served).wp (fun _ _ ↦ False)
      (fun r _ ↦ ∃ e, r = .error e) s by
    refine ⟨?_, hwp.2⟩
    by_contra hne
    obtain ⟨t, states, hstates⟩ := List.exists_cons_of_ne_nil hne
    have hchain := hwp.1
    rw [hstates] at hchain
    exact (List.isChain_cons_cons.1 hchain).1
  rw [pickUpStaged, Prog.wp_get_bind, hnewest]
  simp only [Prog.wp_bind, activate]
  refine wp_installStaged (fun _ e ↦ ⟨e, rfl⟩) fun tree compat _ hsteps ↦ ?_
  obtain ⟨step, hstep, hfails⟩ := h
  rw [hsteps step hstep] at hfails
  cases hfails

theorem HandStaged.after (h : HandStaged lib served s)
    (hnewest : s.discoverStaged.getLast? = some generation)
    (r : Restart) :
    (¬ r.moves → r.after lib served s = s ∧ ¬ r.completes lib served s) ∧
    (r.moves → (r.after lib served s).staged = s.staged.erase (numeral generation) ∧
      (∀ g, g ≠ generation → (r.after lib served s).bundleDir g = s.bundleDir g) ∧
      (r.points → (r.after lib served s).current = some generation) ∧
      (¬ r.points → (r.after lib served s).current = s.current) ∧
      (r.completes lib served s ↔ r.cut = none ∧ Completes r.machine)) := by
  obtain ⟨tree, htree, hfree, hpasses⟩ := h.newest hnewest
  constructor
  · intro hmoves
    by_cases hcut : r.cut = some 0
    · exact ⟨by simp [Restart.after, hcut], fun hcompletes ↦ by cases hcut.symm.trans hcompletes.1⟩
    · have hfails : ∃ step ∈ [.modes, .sync, .rename], r.machine.fails step = true := by
        by_contra hnone
        exact hmoves ⟨fun step hstep ↦ by simpa using fun ht ↦ hnone ⟨step, hstep, ht⟩, hcut⟩
      obtain ⟨hstates, e, hresult⟩ := pickUpStaged_unmoved lib served _ hnewest hfails
      refine ⟨?_, ?_⟩
      · rw [Restart.after]
        split <;> simp [Prog.last, hstates]
      · rintro ⟨-, found, hok⟩
        cases hok.symm.trans hresult
  · rintro ⟨hmoves, hcut⟩
    obtain ⟨recorded, hstates, hresult⟩ := pickUpStaged_staged r.machine hnewest htree hfree hpasses hmoves
    have hother : ∀ g, g ≠ generation → (s.moved generation tree).bundleDir g = s.bundleDir g := fun g hg ↦
      Store.get_bundles_moved (fun hshown ↦ hg (numeral_injective hshown)) tree
    -- The pointer is the third write, and every write leaves the directories as the rename made them.
    have hafter : ∃ t : Store, r.after lib served s = t ∧ t.staged = (s.moved generation tree).staged ∧
        t.bundles = (s.moved generation tree).bundles ∧ (r.points → t.current = some generation) ∧
        (¬ r.points → t.current = s.current) := by
      refine ⟨_, rfl, ?_⟩
      rw [Restart.after, Prog.last, hstates]
      rcases hc : r.cut with _ | _ | _ | _ | n
      · cases hrecord : r.machine.fails .record <;> cases hpointer : r.machine.fails .pointer <;>
          simp [Restart.points, Completes, hc, hrecord, hpointer, Store.moved]
      · exact absurd hc hcut
      · simp [Restart.points, hc, Store.moved]
      · cases hrecord : r.machine.fails .record <;> simp [Restart.points, hc, Store.moved]
      · cases hrecord : r.machine.fails .record <;> cases hpointer : r.machine.fails .pointer <;>
          simp [Restart.points, Completes, hc, hrecord, hpointer, Store.moved]
    obtain ⟨t, rfl, hstaged, hbundles, hpoints, hstops⟩ := hafter
    refine ⟨hstaged, fun g hg ↦ ?_, hpoints, hstops, and_congr_right fun _ ↦ hresult⟩
    rw [Store.bundleDir, hbundles]
    exact hother g hg

theorem after_nothing (h : s.discoverStaged = []) (r : Restart) : r.after lib served s = s := by
  rw [Restart.after, Prog.last, pickUpStaged_nothing r.machine h]
  split
  · rfl
  · rw [List.take_nil]
    rfl

theorem HandStaged.mem_discoverStaged (h : HandStaged lib served s) :
    generation ∈ s.discoverStaged ↔
      generationOf (numeral generation) = some generation ∧ ∃ tree, s.stagingDir generation = some tree := by
  have hperm : generation ∈ s.discoverStaged ↔ generation ∈ s.staged.keys.filterMap generationOf :=
    (List.mergeSort_perm _ _).mem_iff
  rw [hperm, List.mem_filterMap]
  constructor
  · rintro ⟨key, hkey, hgen⟩
    obtain ⟨tree, htree⟩ := OrdMap.mem_keys.1 hkey
    obtain ⟨g, hg, rfl, -⟩ := h.named key tree htree
    obtain rfl : g = generation := Option.some.inj (hg.symm.trans hgen)
    exact ⟨hg, tree, htree⟩
  · rintro ⟨hgen, tree, htree⟩
    exact ⟨_, OrdMap.mem_keys.2 ⟨tree, htree⟩, hgen⟩

theorem HandStaged.moved (h : HandStaged lib served s)
    (hnewest : s.discoverStaged.getLast? = some generation)
    (hmoves : r.moves) :
    HandStaged lib served (r.after lib served s) ∧
      ∀ g, g ∈ (r.after lib served s).discoverStaged ↔ g ∈ s.discoverStaged ∧ g ≠ generation := by
  obtain ⟨hstaged, hbundles, -⟩ := (h.after hnewest r).2 hmoves
  have hafter : HandStaged lib served (r.after lib served s) := by
    refine ⟨fun key tree hkey ↦ ?_⟩
    rw [hstaged, OrdMap.get_erase] at hkey
    split at hkey
    · cases hkey
    · next hne =>
      obtain ⟨g, hg, rfl, hfree, hpasses⟩ := h.named key tree hkey
      exact ⟨g, hg, rfl, (hbundles g fun heq ↦ hne (heq ▸ rfl)).trans hfree, hpasses⟩
  refine ⟨hafter, fun g ↦ ?_⟩
  rw [hafter.mem_discoverStaged, h.mem_discoverStaged, and_assoc]
  refine and_congr_right fun _ ↦ ?_
  rw [Store.stagingDir, Store.stagingDir, hstaged, OrdMap.get_erase]
  by_cases hg : g = generation
  · simp [hg]
  · simp [hg, numeral_injective.ne hg]

end Once

section Runs

variable {lib : Readers} {served : List Text} {s : Store} {generation : ℕ}

theorem getLast?_discoverStaged (hmem : generation ∈ s.discoverStaged)
    (hmax : ∀ g ∈ s.discoverStaged, g ≤ generation) :
    s.discoverStaged.getLast? = some generation := by
  have hsorted : s.discoverStaged.Pairwise fun a b ↦ decide (a ≤ b) = true :=
    List.pairwise_mergeSort (fun a b c hab hbc ↦ by simp only [decide_eq_true_eq] at *; omega)
      (fun a b ↦ by simp only [Bool.or_eq_true, decide_eq_true_eq]; omega) _
  obtain ⟨last, hlast⟩ := Option.isSome_iff_exists.1 (List.getLast?_isSome.2 (List.ne_nil_of_mem hmem))
  obtain ⟨others, hlist⟩ := List.getLast?_eq_some_iff.1 hlast
  have hle : last ≤ generation := hmax last (List.mem_of_getLast? hlast)
  rw [hlist] at hmem hsorted
  rcases List.mem_append.1 hmem with hmem | hmem
  · have hge := (List.pairwise_append.1 hsorted).2.2 generation hmem last List.mem_cons_self
    rw [hlast, le_antisymm hle (of_decide_eq_true hge)]
  · rw [hlast, List.mem_singleton.1 hmem]

theorem afterRestarts_nothing (h : s.discoverStaged = []) (rs : List Restart) :
    afterRestarts lib served s rs = s := by
  induction rs with
  | nil => rfl
  | cons r rs ih => rwa [afterRestarts, List.foldl_cons, after_nothing h, ← afterRestarts]

section

variable (h : HandStaged lib served s) (hnewest : s.discoverStaged.getLast? = some generation)
  (honly : ∀ g ∈ s.discoverStaged, g = generation)

include h hnewest honly

theorem HandStaged.nothing_left {r : Restart} (hmoves : r.moves) :
    (r.after lib served s).discoverStaged = [] := by
  refine List.eq_nil_iff_forall_not_mem.2 fun g hg ↦ ?_
  obtain ⟨hmem, hne⟩ := ((h.moved hnewest hmoves).2 g).1 hg
  exact hne (honly g hmem)

theorem current_of_clean {rs : List Restart} (hclean : ∀ r ∈ rs, r.Clean)
    (hcompleted : CompletedIn lib served s rs) :
    (afterRestarts lib served s rs).current = some generation := by
  induction rs with
  | nil => exact hcompleted.elim
  | cons r rs ih =>
    obtain ⟨hr, hrs⟩ := List.forall_mem_cons.1 hclean
    obtain ⟨hstays, hmoved⟩ := h.after hnewest r
    rw [afterRestarts, List.foldl_cons, ← afterRestarts]
    by_cases hmoves : r.moves
    · rw [afterRestarts_nothing (h.nothing_left hnewest honly hmoves)]
      exact (hmoved hmoves).2.2.1 (hr hmoves)
    · obtain ⟨hsame, hincomplete⟩ := hstays hmoves
      rw [CompletedIn, hsame] at hcompleted
      rw [hsame]
      exact ih hrs (hcompleted.resolve_left hincomplete)

end

def smooth : Restart := ⟨smoothMachine, none⟩

theorem smooth_moves : smooth.moves := ⟨fun _ _ ↦ rfl, by decide⟩

theorem smooth_points : smooth.points := ⟨⟨rfl, rfl⟩, fun _ hcut ↦ by cases hcut⟩

theorem HandStaged.overtaken (h : HandStaged lib served s)
    (hnewest : s.discoverStaged.getLast? = some generation) {g : ℕ} (hg : g ∈ s.discoverStaged)
    (hne : g ≠ generation) :
    CompletedIn lib served s [smooth, smooth] ∧
      (afterRestarts lib served s [smooth, smooth]).current ≠ some generation := by
  obtain ⟨hstaged, hmem⟩ := h.moved hnewest smooth_moves
  obtain ⟨second, hsecond⟩ := Option.isSome_iff_exists.1
    (List.getLast?_isSome.2 (List.ne_nil_of_mem ((hmem g).2 ⟨hg, hne⟩)))
  have hcompletes := ((h.after hnewest smooth).2 smooth_moves).2.2.2.2
  have hpointed := ((hstaged.after hsecond smooth).2 smooth_moves).2.2.1 smooth_points
  refine ⟨.inl (hcompletes.2 ⟨rfl, smooth_points.1⟩), fun hcurrent ↦ ?_⟩
  have hsame : second = generation := Option.some.inj (hpointed.symm.trans hcurrent)
  exact ((hmem second).1 (List.mem_of_getLast? hsecond)).2 hsame

/-- Without such stops the highest staged tree ends up active exactly when it is alone. -/
theorem settles_iff (h : HandStaged lib served s) (hmem : generation ∈ s.discoverStaged)
    (hmax : ∀ g ∈ s.discoverStaged, g ≤ generation) :
    ((∀ rs : List Restart, (∀ r ∈ rs, r.Clean) → CompletedIn lib served s rs →
      (afterRestarts lib served s rs).current = some generation) ↔ ∀ g ∈ s.discoverStaged, g = generation) ∧
    ((∀ g ∈ s.discoverStaged, g = generation) → ∀ r r' : Restart, ¬ r.Clean → r'.cut = none →
      CompletedIn lib served s [r, r'] ∧ (afterRestarts lib served s [r, r']).current = s.current) := by
  have hnewest := getLast?_discoverStaged hmem hmax
  refine ⟨⟨fun hsettles ↦ ?_, fun honly rs hclean ↦ current_of_clean h hnewest honly hclean⟩, ?_⟩
  · by_contra! hother
    obtain ⟨g, hg, hne⟩ := hother
    obtain ⟨hcompleted, hcurrent⟩ := h.overtaken hnewest hg hne
    refine hcurrent (hsettles _ (fun r hr ↦ ?_) hcompleted)
    rw [List.mem_pair.1 hr |>.elim id id]
    exact fun _ ↦ smooth_points
  · intro honly r r' hclean hcut
    obtain ⟨hmoves, hpoints⟩ := Classical.not_imp.1 hclean
    have hnothing := h.nothing_left hnewest honly hmoves
    refine ⟨.inr (.inl ⟨hcut, none, ?_⟩), ?_⟩
    · rw [pickUpStaged_nothing _ hnothing]
    · rw [afterRestarts, List.foldl_cons, ← afterRestarts, afterRestarts_nothing hnothing]
      exact ((h.after hnewest r).2 hmoves).2.2.2.1 hpoints

end Runs

def stagedTree : Tree := OrdMap.empty.insert (rootPath indexName) (.file [60] 1)

def handStore : Store :=
  { shippedStore with staged := (OrdMap.empty.insert (numeral 3) stagedTree).insert (numeral 5) stagedTree }

theorem handStaged_handStore : HandStaged plainReaders [] handStore := by
  have hpasses : Passes plainReaders [] stagedTree :=
    ⟨by decide +kernel, none, .notRun, by decide +kernel, rfl⟩
  refine ⟨fun key tree hkey ↦ ?_⟩
  rw [handStore, OrdMap.get_insert, OrdMap.get_insert, OrdMap.get_empty] at hkey
  split at hkey
  · next h =>
    cases hkey
    exact ⟨5, by rw [h]; decide +kernel, h, by decide +kernel, hpasses⟩
  · split at hkey
    · next h =>
      cases hkey
      exact ⟨3, by rw [h]; decide +kernel, h, by decide +kernel, hpasses⟩
    · cases hkey

theorem discoverStaged_handStore : handStore.discoverStaged = [3, 5] := by
  have hfound : handStore.staged.keys.filterMap generationOf = [3, 5] := by decide +kernel
  rw [Store.discoverStaged, hfound]
  exact List.mergeSort_of_pairwise (by decide)

theorem settles_iff_handStore :
    ((∀ rs : List Restart, (∀ r ∈ rs, r.Clean) → CompletedIn plainReaders [] handStore rs →
      (afterRestarts plainReaders [] handStore rs).current = some 5) ↔ ∀ g ∈ handStore.discoverStaged, g = 5) ∧
    ((∀ g ∈ handStore.discoverStaged, g = 5) → ∀ r r' : Restart, ¬ r.Clean → r'.cut = none →
      CompletedIn plainReaders [] handStore [r, r'] ∧
        (afterRestarts plainReaders [] handStore [r, r']).current = handStore.current) :=
  settles_iff handStaged_handStore (by rw [discoverStaged_handStore]; decide)
    (by rw [discoverStaged_handStore]; decide)

/-- A lower staged generation is taken up at the restart after the highest. -/
theorem not_forall_settles :
    ¬ ∀ (lib : Readers) (served : List Text) (s : Store) (generation : ℕ), HandStaged lib served s →
      generation ∈ s.discoverStaged → (∀ g ∈ s.discoverStaged, g ≤ generation) →
        ∀ rs : List Restart, CompletedIn lib served s rs →
          (afterRestarts lib served s rs).current = some generation := by
  intro h
  have hmem : 5 ∈ handStore.discoverStaged ∧ 3 ∈ handStore.discoverStaged ∧
      ∀ g ∈ handStore.discoverStaged, g ≤ 5 := by
    rw [discoverStaged_handStore]
    decide
  obtain ⟨hfive, hthree, hmax⟩ := hmem
  obtain ⟨hcompleted, hcurrent⟩ :=
    handStaged_handStore.overtaken (getLast?_discoverStaged hfive hmax) hthree (by decide)
  exact hcurrent (h _ _ _ _ handStaged_handStore hfive hmax _ hcompleted)

end MicaCore.Ui
