import MicaCore.Boot.Release
import MicaCore.Data.Each

namespace MicaCore.Boot.Shutdown

open Data Concurrent
open Talk (Ensures)

def lastScan (calls : List Call) : Option Snapshot :=
  calls.foldl (fun last call ↦ match call with
    | .scanned (.ok state) => some state
    | .scanned (.error _) => none
    | .executed _ _ => last) none

def Snapshot.Names (state : Snapshot) (owner : Ownership) : Operation → Prop
  | .unmount m | .moveBacking m => m ∈ state.mounts ∧ isProtected m = false ∧
      (∀ child ∈ state.mounts, child.parent ≠ m.id) ∧ m.id ∈ state.ownedMounts owner
  | .removeMapping mapping => mapping ∈ owner.mappings ∧
      ∃ b ∈ state.blocks, b.mapping = some mapping ∧
      b.holders = ∅ ∧ ∀ m ∈ state.mounts, m.device ≠ b.device
  | .detachLoop l => (l.backing ∈ owner.backings ∨ ∃ known ∈ owner.loops, known.sameAssociation l = true) ∧
      ∃ b ∈ state.blocks, b.association = some l ∧ b.holders = ∅ ∧
      ∀ m ∈ state.mounts, m.device ≠ b.device
  | _ => False

def Operation.releases : Operation → Bool
  | .unmount _ | .moveBacking _ | .removeMapping _ | .detachLoop _ => true
  | _ => false

/-- Every operation that takes something away is backed by the scan before it. -/
def Justified (owner : Ownership) (calls : List Call) : Prop :=
  ∀ before op result after, calls = before ++ .executed op result :: after → op.releases = true →
    ∃ state, lastScan before = some state ∧ state.validate owner = .ok () ∧ state.Names owner op

structure Snapshot.Cleared (state : Snapshot) (owner : Ownership) : Prop where
  processes : state.processes = []
  swaps : state.swaps = []
  dirty : state.dirtyKib = 0
  mounts : ∀ m ∈ state.mounts, isProtected m = true
  loops : ∀ b ∈ state.blocks, ∀ l, b.association = some l →
    l.backing ∉ owner.backings ∧ ∀ known ∈ owner.loops, known.sameAssociation l = false
  mappings : ∀ b ∈ state.blocks, ∀ m, b.mapping = some m → m ∉ owner.mappings
  holders : ∀ b ∈ state.blocks, b.device ∈ owner.backings ∨
    (∃ l ∈ owner.loops, l.device = b.device) →
    b.holders = ∅

/-- The last two scans, a sync between them, are valid and show nothing left. -/
def Released (owner : Ownership) (calls : List Call) : Prop :=
  ∃ before first second,
    calls = before ++ [.scanned (.ok first), .executed .sync (.ok ()), .scanned (.ok second)] ∧
    first.validate owner = .ok () ∧ first.Cleared owner ∧ second.validate owner = .ok () ∧
    second.Cleared owner

section Snapshots

variable {state : Snapshot} {owner : Ownership} {op : Operation}

theorem ownsLoop_iff {l : LoopIdentity} : Snapshot.ownsLoop owner l = true ↔
    l.backing ∈ owner.backings ∨ ∃ known ∈ owner.loops, known.sameAssociation l = true := by
  simp [Snapshot.ownsLoop]

theorem owned_of_validate (h : state.validate owner = .ok ()) {m : Mount} (hm : m ∈ state.mounts)
    (hprotected : isProtected m = false) : m.id ∈ state.ownedMounts owner := by
  simp only [Snapshot.validate, bind_eq_ok, ensure_eq_ok] at h
  obtain ⟨_, -, _, -, _, -, _, -, _, -, _, -, _, -, _, -, _, -, _, -, hmounts⟩ := h
  have hor := List.all_eq_true.1 hmounts m hm
  simpa [hprotected] using hor

theorem names_of_mountCandidate (h : state.validate owner = .ok ())
    {m : Mount} (hm : m ∈ state.mounts)
    (hop : op ∈ state.mountCandidate owner m) : op.releases = true ∧ state.Names owner op := by
  unfold Snapshot.mountCandidate at hop
  split at hop
  · simp at hop
  · next hleaf =>
    simp only [Bool.or_eq_true, not_or, Bool.not_eq_true, List.any_eq_false, beq_iff_eq] at hleaf
    have hnames : m ∈ state.mounts ∧ isProtected m = false ∧
        (∀ child ∈ state.mounts, child.parent ≠ m.id) ∧ m.id ∈ state.ownedMounts owner :=
      ⟨hm, hleaf.1, hleaf.2, owned_of_validate h hm hleaf.1⟩
    split at hop
    · split at hop
      · simp at hop
      · obtain rfl := List.mem_singleton.1 hop
        exact ⟨rfl, hnames⟩
    · obtain rfl := List.mem_singleton.1 hop
      exact ⟨rfl, hnames⟩

theorem names_of_blockCandidates {b : Block} (hb : b ∈ state.blocks)
    (hop : op ∈ state.blockCandidates owner b) : op.releases = true ∧ state.Names owner op := by
  unfold Snapshot.blockCandidates at hop
  split at hop
  · simp at hop
  · next hfree =>
    simp only [Bool.or_eq_true, not_or, Bool.not_eq_true, Bool.not_eq_false', decide_eq_true_eq,
      List.any_eq_false, beq_iff_eq] at hfree
    obtain ⟨hholders, hmounts⟩ := hfree
    rcases List.mem_append.1 hop with hop | hop
    · obtain ⟨mapping, hmapping, rfl⟩ := List.mem_map.1 hop
      rw [Option.mem_toList, Option.filter_eq_some_iff, List.contains_iff_mem] at hmapping
      exact ⟨rfl, hmapping.2, b, hb, hmapping.1, hholders, hmounts⟩
    · obtain ⟨l, hl, rfl⟩ := List.mem_map.1 hop
      rw [Option.mem_toList, Option.filter_eq_some_iff, List.contains_iff_mem] at hl
      have howned := ownsLoop_iff.1 (List.mem_filter.1 hl.2).2
      exact ⟨rfl, howned, b, hb, hl.1, hholders, hmounts⟩

theorem names_of_candidates (h : state.validate owner = .ok ())
    (hop : op ∈ state.candidates owner) :
    op.releases = true ∧ state.Names owner op := by
  rcases List.mem_append.1 hop with hop | hop
  · obtain ⟨m, hm, hop⟩ := List.mem_flatMap.1 hop
    exact names_of_mountCandidate h hm hop
  · obtain ⟨b, hb, hop⟩ := List.mem_flatMap.1 hop
    exact names_of_blockCandidates hb hop

theorem cleared_of_empty (h : state.empty owner = true) : state.Cleared owner := by
  simp only [Snapshot.empty, Bool.and_eq_true, List.isEmpty_iff, beq_iff_eq, List.all_eq_true,
    Bool.not_eq_true', List.any_eq_false] at h
  obtain ⟨⟨⟨⟨⟨⟨hprocesses, hswaps⟩, hdirty⟩, hmounts⟩, hloops⟩, hmappings⟩, hholders⟩ := h
  refine ⟨hprocesses, hswaps, hdirty, hmounts, ?_, ?_, ?_⟩
  · intro b hb l hl
    have hnot : Snapshot.ownsLoop owner l ≠ true := by
      intro howned
      have hmem : l ∈ state.ownedLoops owner :=
        List.mem_filter.2 ⟨List.mem_filterMap.2 ⟨b, hb, hl⟩, howned⟩
      rw [hloops] at hmem
      cases hmem
    rw [ne_eq, ownsLoop_iff, not_or] at hnot
    exact ⟨hnot.1, fun known hknown ↦ by simpa using fun hsame ↦ hnot.2 ⟨known, hknown, hsame⟩⟩
  · intro b hb m hm hmem
    exact hmappings b hb (by simp [hm, hmem])
  · intro b hb hor
    by_contra hne
    refine hholders b hb ⟨?_, by simpa using hne⟩
    rcases hor with hor | ⟨l, hl, hdevice⟩
    · simp [hor]
    · simp only [Bool.or_eq_true, List.any_eq_true, beq_iff_eq]
      exact .inr ⟨l, hl, hdevice⟩

end Snapshots

section Transcripts

variable {owner : Ownership} {past : List Call}

theorem lastScan_append_scanned (result : Except String Snapshot) :
    lastScan (past ++ [.scanned result]) = result.toOption := by
  unfold lastScan
  rw [List.foldl_append]
  cases result <;> rfl

theorem lastScan_append_executed (op : Operation) (result : Except String Unit) :
    lastScan (past ++ [.executed op result]) = lastScan past := by
  unfold lastScan
  rw [List.foldl_append]
  rfl

theorem justified_append {call : Call} (h : Justified owner past)
    (hcall : ∀ op result, call = .executed op result → op.releases = true →
      ∃ state, lastScan past = some state ∧ state.validate owner = .ok () ∧ state.Names owner op) :
    Justified owner (past ++ [call]) := by
  intro before op result after hsplit hreleases
  rcases append_singleton_eq_split hsplit with ⟨rfl, heq⟩ | ⟨rest, hrest⟩
  · exact hcall op result heq hreleases
  · exact h before op result rest hrest hreleases

theorem justified_append_scanned (h : Justified owner past) (result : Except String Snapshot) :
    Justified owner (past ++ [.scanned result]) :=
  justified_append h fun _ _ hcall _ ↦ by cases hcall

theorem justified_append_executed (h : Justified owner past)
    {op : Operation} {result : Except String Unit}
    (hop : op.releases = true →
      ∃ state, lastScan past = some state ∧ state.validate owner = .ok () ∧ state.Names owner op) :
    Justified owner (past ++ [.executed op result]) :=
  justified_append h fun _ _ hcall hreleases ↦ by
    cases hcall
    exact hop hreleases

end Transcripts

def EndsValid (owner : Ownership) (state : Snapshot) (past : List Call) : Prop :=
  (∃ before, past = before ++ [.scanned (.ok state)]) ∧ state.validate owner = .ok ()

theorem EndsValid.lastScan_eq {owner : Ownership} {state : Snapshot} {past : List Call}
    (h : EndsValid owner state past) : lastScan past = some state := by
  obtain ⟨⟨before, rfl⟩, -⟩ := h
  rw [lastScan_append_scanned]
  rfl

section Programs

variable {σ : Type} {io : LifecycleIo σ}
    {budget : Budget} {owner : Ownership} {P : List Call → Prop}

theorem deadline_ensures : Ensures (Justified owner) P (deadline io budget) fun _ past ↦
    P past := by
  unfold deadline
  refine (Ensures.quiet fun _ past hpre ↦ hpre).bind fun _ ↦ ?_
  exact Ensures.ofExcept fun _ past _ hpre ↦ hpre

theorem event_ensures (e : Event) : Ensures (Justified owner) P (event io e) fun _ past ↦ P past :=
  Ensures.quiet fun _ _ hpre ↦ hpre

theorem check_ensures {condition : Bool} {message : String} :
    Ensures (Justified owner) P (Talk.ofExcept (ensure condition message) : Lifecycle σ Unit)
      fun _ past ↦ condition = true ∧ P past :=
  Ensures.ofExcept fun _ _ hok hpre ↦ ⟨ensure_eq_ok.1 hok, hpre⟩

theorem execute_ensures {op : Operation} (hop : op.releases = false) :
    Ensures (Justified owner) P (execute io budget op) fun _ past ↦
      ∃ before, past = before ++ [.executed op (.ok ())] ∧ P before := by
  unfold execute
  refine deadline_ensures.bind fun _ ↦ Ensures.call ?_ ?_
  · intro past result hI _
    refine justified_append_executed hI fun hreleases ↦ ?_
    rw [hop] at hreleases
    cases hreleases
  · exact fun past _ _ hpre ↦ ⟨past, rfl, hpre⟩

theorem validated_ensures : Ensures (Justified owner) P (validated io budget owner) fun state past ↦
    EndsValid owner state past ∧ ∃ before, past = before ++ [.scanned (.ok state)] ∧ P before := by
  have hscan : Ensures (Justified owner) P (scan io budget) fun state past ↦
      ∃ before, past = before ++ [.scanned (.ok state)] ∧ P before := by
    unfold scan
    refine deadline_ensures.bind fun _ ↦ Ensures.call ?_ ?_
    · exact fun past result hI _ ↦ justified_append_scanned hI result
    · exact fun past state _ hpre ↦ ⟨past, rfl, hpre⟩
  unfold validated
  refine hscan.bind fun state ↦ ?_
  refine Ensures.bind (Q := fun _ past ↦ EndsValid owner state past ∧
    ∃ before, past = before ++ [.scanned (.ok state)] ∧ P before) ?_ fun _ ↦ ?_
  · refine Ensures.ofExcept fun _ past hvalid hpre ↦ ?_
    obtain ⟨before, hpast, hbefore⟩ := hpre
    exact ⟨⟨⟨before, hpast⟩, hvalid⟩, before, hpast, hbefore⟩
  · exact Ensures.pure fun _ hpre ↦ hpre

theorem confirmEmpty_ensures {state : Snapshot} (hempty : state.empty owner = true) :
    Ensures (Justified owner) (EndsValid owner state) (confirmEmpty io budget owner)
      fun _ past ↦ Released owner past := by
  unfold confirmEmpty
  refine (event_ensures _).bind fun _ ↦ ?_
  refine (execute_ensures rfl).bind fun _ ↦ ?_
  refine validated_ensures.bind fun final ↦ ?_
  refine check_ensures.bind fun _ ↦ ?_
  refine (event_ensures _).mono (fun past h ↦ ?_) fun _ _ h ↦ h
  obtain ⟨hfinal, hvalid, _, rfl, _, rfl, ⟨before, rfl⟩, hfirst⟩ := h
  refine ⟨before, state, final, by simp, hfirst, cleared_of_empty hempty, hvalid.2, cleared_of_empty hfinal⟩

/-- The scan before is valid, with only syncs after it. -/
def Backed (owner : Ownership) (state : Snapshot) (past : List Call) : Prop :=
  lastScan past = some state ∧ state.validate owner = .ok ()

theorem EndsValid.backed {state : Snapshot} {past : List Call} (h : EndsValid owner state past) :
    Backed owner state past := ⟨h.lastScan_eq, h.2⟩

theorem syncBefore_ensures {state : Snapshot} (op : Operation) :
    Ensures (Justified owner) (EndsValid owner state) (syncBefore io budget op)
      fun _ past ↦ Backed owner state past := by
  unfold syncBefore
  split
  · refine (execute_ensures rfl).mono (fun _ h ↦ h) fun _ past h ↦ ?_
    obtain ⟨before, rfl, hbefore⟩ := h
    exact ⟨(lastScan_append_executed _ _).trans hbefore.lastScan_eq, hbefore.2⟩
  · exact Ensures.pure fun past h ↦ h.backed

theorem tryOperation_ensures {state : Snapshot} {pass : ℕ} {op : Operation}
    (hop : op ∈ state.candidates owner) :
    Ensures (Justified owner) (EndsValid owner state) (tryOperation io budget pass op)
      fun _ _ ↦ True := by
  unfold tryOperation
  refine (syncBefore_ensures op).bind fun _ ↦ ?_
  refine deadline_ensures.bind fun limit ↦ ?_
  have hcall : Ensures (Justified owner) (Backed owner state)
      (Talk.call (io.execute op limit) (.executed op) : Lifecycle σ Unit) fun _ _ ↦ True := by
    refine Ensures.call (fun past result hI hbacked ↦ ?_) fun _ _ _ _ ↦ trivial
    exact justified_append_executed hI fun _ ↦
      ⟨state, hbacked.1, hbacked.2, (names_of_candidates hbacked.2 hop).2⟩
  refine (Ensures.attempt hcall (R := fun _ _ ↦ True) fun _ _ _ ↦ trivial).bind ?_
  intro result
  cases result with
  | ok | error => exact event_ensures _

theorem syncDirty_ensures (state : Snapshot) :
    Ensures (Justified owner) P (syncDirty io budget state) fun _ _ ↦ True := by
  unfold syncDirty
  split
  · exact (execute_ensures rfl).mono (fun _ h ↦ h) fun _ _ _ ↦ trivial
  · exact Ensures.pure fun _ _ ↦ trivial

theorem reportObserved_ensures {state : Snapshot} (previous : Option Operation) :
    Ensures (Justified owner) P (reportObserved io state previous) fun _ past ↦ P past := by
  cases previous with
  | none => exact Ensures.pure fun _ h ↦ h
  | some op =>
    simp only [reportObserved]
    split
    · exact event_ensures _
    · exact Ensures.pure fun _ h ↦ h

theorem rounds_ensures {pass n : ℕ} : ∀ {tried : List Operation} {previous : Option Operation},
    Ensures (Justified owner) (fun _ ↦ True) (rounds io budget owner pass n tried previous)
      fun answer past ↦ answer.1 = true → Released owner past := by
  induction n with
  | zero => exact Ensures.pure fun _ _ hfalse ↦ by cases hfalse
  | succ n ih =>
    intro tried previous
    rw [rounds]
    refine validated_ensures.bind fun state ↦ ?_
    refine (reportObserved_ensures previous).bind fun _ ↦ ?_
    refine check_ensures.bind fun _ ↦ ?_
    split
    · next hempty =>
      refine ((confirmEmpty_ensures hempty).mono (fun _ h ↦ h.2.1) fun _ _ h ↦ h).bind ?_
      exact fun _ ↦ Ensures.pure fun _ h _ ↦ h
    · split
      · refine (event_ensures _).bind fun _ ↦ ?_
        refine (syncDirty_ensures state).bind fun _ ↦ ?_
        exact Ensures.pure fun _ _ hfalse ↦ by cases hfalse
      · next op hfind =>
        refine ((tryOperation_ensures (List.mem_of_find?_eq_some hfind)).mono
          (fun _ h ↦ h.2.1) fun _ _ h ↦ h).bind fun _ ↦ ih

theorem passes_ensures {n : ℕ} : ∀ {previous : Option Operation},
    Ensures (Justified owner) (fun _ ↦ True) (passes io budget owner n previous)
      fun _ past ↦ Released owner past := by
  induction n with
  | zero => exact Ensures.ofExcept fun _ _ hok ↦ by cases hok
  | succ n ih =>
    intro previous
    rw [passes]
    refine rounds_ensures.bind fun answer ↦ ?_
    obtain ⟨released, last⟩ := answer
    cases released with
    | true => exact Ensures.pure fun _ h ↦ h rfl
    | false => exact ih.mono (fun _ _ ↦ trivial) fun _ _ h ↦ h

theorem release_ensures : Ensures (Justified owner) (fun _ ↦ True) (release io budget owner)
    fun _ past ↦ Released owner past := by
  unfold release
  refine (Ensures.ofExcept (Q := fun _ _ ↦ True) fun _ _ _ _ ↦ trivial).bind fun _ ↦ ?_
  refine (execute_ensures rfl).bind fun _ ↦ ?_
  refine (execute_ensures rfl).bind fun _ ↦ ?_
  refine validated_ensures.bind fun _ ↦ ?_
  refine check_ensures.bind fun _ ↦ ?_
  refine (event_ensures _).bind fun _ ↦ ?_
  exact passes_ensures.mono (fun _ _ ↦ trivial) fun _ _ h ↦ h

end Programs

/-- Only what the deployment owns is taken away, and release means it was seen empty twice. -/
theorem release_sound {σ : Type} (io : LifecycleIo σ)
    (budget : Budget) (owner : Ownership) (s : σ) :
    Justified owner (release io budget owner s).1 ∧
      ((release io budget owner s).2.1 = .ok () → Released owner (release io budget owner s).1) := by
  have hnil : Justified owner [] := fun before op result after hsplit _ ↦ by
    cases before <;> cases hsplit
  have hensures : Ensures (Justified owner) (fun _ ↦ True) (release io budget owner)
    fun _ past ↦ Released owner past := release_ensures
  obtain ⟨hjustified, hreleased⟩ := hensures [] s hnil trivial
  exact ⟨hjustified, hreleased ()⟩

def restingIo : LifecycleIo Unit where
  nowMs s := (0, s)
  scan _ s := (.ok { mounts := [⟨1, 0, ⟨0, 1⟩, ['/'], ['/'], "tmpfs".toList, []⟩], blocks := [], processes := [],
                     swaps := [], dirtyKib := 0 }, s)
  execute _ _ s := (.ok (), s)
  event _ s := s

example : (release restingIo ⟨1, 1⟩ ⟨∅, [], [], [], [], false⟩ ()).2.1 = .ok () := by decide

end MicaCore.Boot.Shutdown
