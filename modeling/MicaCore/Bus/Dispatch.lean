import MicaCore.Bus.ApplyQueue

namespace MicaCore.Bus

open Data Concurrent Settings

structure Reconciler where
  name : Text
  subtree : Text
  reads : List Text := []
  deriving DecidableEq

def Reconciler.watched (r : Reconciler) : List Text := r.subtree :: r.reads

structure DocumentRefusal where
  document : Text
  subtrees : List Text
  message : Text
  deriving DecidableEq

def refusalCovers (refusal : DocumentRefusal) (path : Text) : Bool :=
  refusal.subtrees.any (pathsOverlap path ·)

/-- The reconcilers a path reaches, in order, with the refusal of each if there is one. -/
def reconcileMatching (reconcilers : List Reconciler) (refusals : List DocumentRefusal)
    (path : Text)
    (keep : Text → Bool) : List (Reconciler × Option DocumentRefusal) :=
  (reconcilers.filter fun r ↦ r.watched.any (pathsOverlap path ·) && keep r.name).map fun r ↦
    (r, refusals.find? (refusalCovers · r.subtree))

def reconcileSubtree (reconcilers : List Reconciler) (refusals : List DocumentRefusal)
    (path : Text) :
    List (Reconciler × Option DocumentRefusal) :=
  reconcileMatching reconcilers refusals path fun _ ↦ true

def shareSegments (shared : Option (List Text)) (path : Text) : Option (List Text) :=
  let segs := (splitPath path).toOption.getD []
  some <| match shared with
    | none => segs
    | some begun => ((begun.zip segs).takeWhile fun x ↦ x.1 = x.2).map Prod.fst

def sharedSegments (paths : List Text) : List Text := (paths.foldl shareSegments none).getD []

def sharedPath (paths : List Text) : Text :=
  ['.'].intercalate ((sharedSegments paths).map quotePathSegment)

inductive Request where
  | set (path : Text)
  | setMany (paths : List Text)

def Request.paths : Request → List Text
  | .set path => [path]
  | .setMany paths => paths

def Request.jobPath : Request → Text
  | .set path => path
  | .setMany paths => sharedPath paths

theorem map_fst_takeWhile_zip {α : Type} [DecidableEq α] (xs ys : List α) :
    ((xs.zip ys).takeWhile fun x ↦ x.1 = x.2).map Prod.fst <+: xs ∧
      ((xs.zip ys).takeWhile fun x ↦ x.1 = x.2).map Prod.fst <+: ys := by
  induction xs generalizing ys with
  | nil => simp
  | cons x xs ih =>
    cases ys with
    | nil => simp
    | cons y ys =>
      rw [List.zip_cons_cons, List.takeWhile_cons]
      by_cases h : x = y
      · subst h
        simpa using ih ys
      · simp [h]

theorem foldl_shareSegments (paths : List Text) (shared : Option (List Text)) :
    (∀ begun, shared = some begun → (paths.foldl shareSegments shared).getD [] <+: begun) ∧
      ∀ p ∈ paths, (paths.foldl shareSegments shared).getD [] <+: (splitPath p).toOption.getD [] := by
  induction paths generalizing shared with
  | nil => exact ⟨fun begun h ↦ by rw [h]; exact List.prefix_rfl, by simp⟩
  | cons p paths ih =>
    have hstep : ∃ segs, shareSegments shared p = some segs ∧ segs <+: (splitPath p).toOption.getD [] ∧
        ∀ begun, shared = some begun → segs <+: begun := by
      cases shared with
      | none => exact ⟨_, rfl, List.prefix_rfl, by simp⟩
      | some begun =>
        have htake := map_fst_takeWhile_zip begun ((splitPath p).toOption.getD [])
        exact ⟨_, rfl, htake.2, fun begun' h ↦ by cases h; exact htake.1⟩
    obtain ⟨segs, hsegs, hp, hbegun⟩ := hstep
    obtain ⟨ihbegun, ihmem⟩ := ih (some segs)
    rw [List.foldl_cons, hsegs]
    refine ⟨fun begun h ↦ (ihbegun segs rfl).trans (hbegun begun h), fun p' hp' ↦ ?_⟩
    rcases List.mem_cons.1 hp' with rfl | hp'
    · exact (ihbegun segs rfl).trans hp
    · exact ihmem p' hp'

variable {ss : List Text}

theorem forall₂_segment_map_quote (h : ∀ s ∈ ss, s ≠ [] ∧ '"' ∉ s) :
    List.Forall₂ Segment (ss.map quotePathSegment) ss := by
  induction ss with
  | nil => exact .nil
  | cons s ss ih =>
    obtain ⟨hs, hss⟩ := List.forall_mem_cons.1 h
    exact .cons (segment_quotePathSegment hs.1 hs.2) (ih hss)

variable {p : Text}

theorem segment_of_mem_splitPath {s : Text} (h : s ∈ (splitPath p).toOption.getD []) :
    s ≠ [] ∧ '"' ∉ s := by
  cases hp : splitPath p with
  | error e => simp [hp, Except.toOption] at h
  | ok ss =>
    obtain ⟨ws, hws⟩ := spelling_iff.1 (splitPath_eq_ok.1 hp)
    rw [hp] at h
    obtain ⟨i, hi, rfl⟩ := List.getElem_of_mem h
    have hlen := hws.spell.length_eq
    exact (List.Forall₂.get hws.spell (hlen ▸ hi) hi).ne_nil

theorem segments_sharedPath {paths : List Text} (hp : p ∈ paths) :
    segments (sharedPath paths) = some (sharedSegments paths) := by
  have hsub : sharedSegments paths <+: (splitPath p).toOption.getD [] :=
    (foldl_shareSegments paths none).2 p hp
  by_cases hnil : sharedSegments paths = []
  · rw [sharedPath, hnil]
    rfl
  · refine Words.segments_eq ⟨forall₂_segment_map_quote fun s hs ↦ ?_, rfl, by simpa using hnil⟩
    exact segment_of_mem_splitPath (hsub.subset hs)

theorem segments_eq_of_splitPath (h : segments p = some ss) :
    (splitPath p).toOption.getD [] = ss := by
  rcases segments_eq_some.1 h with ⟨hroot, rfl⟩ | h
  · cases hp : splitPath p with
    | error e => rfl
    | ok ss =>
      rw [isRoot_eq_false hp] at hroot
      cases hroot
  · rw [h]
    rfl

theorem Request.pathSubsumes_jobPath {request : Request}
    (hp : p ∈ request.paths) (hss : segments p = some ss) :
    pathSubsumes request.jobPath p = true := by
  cases request with
  | set path =>
    obtain rfl : p = path := by simpa [Request.paths] using hp
    exact pathSubsumes_self hss
  | setMany paths =>
    refine pathSubsumes_iff.2 ⟨_, ss, segments_sharedPath hp, hss, ?_⟩
    have hsub := (foldl_shareSegments paths none).2 p hp
    rwa [segments_eq_of_splitPath hss] at hsub

theorem mem_reconcileSubtree {reconcilers : List Reconciler} {refusals : List DocumentRefusal}
    {q w : Text} {ts : List Text} {r : Reconciler} (hr : r ∈ reconcilers) (hw : w ∈ r.watched)
    (hqp : pathSubsumes q p = true) (hp : segments p = some ss) (hts : segments w = some ts)
    (hcomp : Comparable ss ts) (halike : SpelledAlike q w) :
    (r, refusals.find? (refusalCovers · r.subtree)) ∈ reconcileSubtree reconcilers refusals q := by
  obtain ⟨qs, ps, hqs, hps, hsub⟩ := pathSubsumes_iff.1 hqp
  obtain rfl : ps = ss := by simpa [hps] using hp
  have hover : pathsOverlap q w = true :=
    ((pathsOverlap_iff_comparable hqs hts).2 fun _ ↦ halike).2 (hcomp.of_prefix hsub)
  refine List.mem_map.2 ⟨r, List.mem_filter.2 ⟨hr, ?_⟩, rfl⟩
  rw [Bool.and_true, List.any_eq_true]
  exact ⟨w, hw, hover⟩

/-- Paths spelled alike overlap as texts just when they do by segments, and folded jobs reach
all they should. -/
theorem dispatch_of_spelledAlike (p : Text) (ss : List Text) (hss : segments p = some ss) :
    (∀ q ts, segments q = some ts →
      ((pathsOverlap p q = true ↔ Comparable ss ts) ↔ (Comparable ss ts → SpelledAlike p q))) ∧
    ∀ (request : Request), p ∈ request.paths →
      ∀ (ls ls' : List QueueStep) (q q₁ q₂ q₃ : ApplyQueue) (operation source : Text) (e : Enqueued)
        (job : ApplyJob), ApplyQueue.Runs {} ls q →
        q.enqueue operation request.jobPath source = some (q₁, e) → ApplyQueue.Runs q₁ ls' q₂ →
        q₂.next = some (job, q₃) → job.id = e.record.id →
        ∀ (reconcilers : List Reconciler) (refusals : List DocumentRefusal), ∀ r ∈ reconcilers,
          ∀ w ∈ r.watched, ∀ ts, segments w = some ts → Comparable ss ts →
            SpelledAlike job.dotPath w →
            (r, refusals.find? (refusalCovers · r.subtree)) ∈
              reconcileSubtree reconcilers refusals job.dotPath := by
  refine ⟨fun q ts hts ↦ pathsOverlap_iff_comparable hss hts, ?_⟩
  intro request hp ls ls' q q₁ q₂ q₃ operation source e job hq henq hrun hnext hid
    reconcilers refusals r hr w hw ts hts hcomp halike
  have hjob := request.pathSubsumes_jobPath hp hss
  obtain ⟨js, _, hjs, _, _⟩ := pathSubsumes_iff.1 hjob
  have hsub := ApplyQueue.subsumes_of_runs hq henq hrun hnext hid (by simp [hjs])
  exact mem_reconcileSubtree hr hw (pathSubsumes_trans hsub hjob) hss hts hcomp halike

namespace Sample

def hostnameReconciler : Reconciler := ⟨"hostname".toList, "hostname".toList, []⟩

theorem spelledAlike_hostname : SpelledAlike "hostname".toList "hostname".toList := by
  have hsegs : segments "hostname".toList = some ["hostname".toList] := by decide
  exact (pathsOverlap_iff_comparable hsegs hsegs).1
    (iff_of_true (by decide) (.inl List.prefix_rfl)) (.inl List.prefix_rfl)

end Sample

theorem dispatch_of_spelledAlike_hostname :
    (Sample.hostnameReconciler, none) ∈
      reconcileSubtree [Sample.hostnameReconciler] [] "hostname".toList :=
  (dispatch_of_spelledAlike "hostname".toList ["hostname".toList] (by decide)).2
    (.set "hostname".toList) (by decide) [] [] {} _ _ _ "settings-write".toList ":1.7".toList _ ⟨1, "hostname".toList⟩ (.nil _)
    rfl (.nil _) rfl rfl [Sample.hostnameReconciler] [] _ (List.mem_singleton_self _)
      "hostname".toList
    (by decide) ["hostname".toList] (by decide) (.inl List.prefix_rfl) Sample.spelledAlike_hostname

/-- A quoted spelling of the hostname does not reach what it names. -/
theorem not_forall_dispatch :
    (¬ ∀ p q ss ts, segments p = some ss → segments q = some ts →
      (pathsOverlap p q = true ↔ Comparable ss ts)) ∧
    ¬ ∀ (request : Request) (p : Text) (ss : List Text), p ∈ request.paths → segments p = some ss →
      ∀ (ls ls' : List QueueStep) (q q₁ q₂ q₃ : ApplyQueue) (operation source : Text) (e : Enqueued)
        (job : ApplyJob), ApplyQueue.Runs {} ls q →
        q.enqueue operation request.jobPath source = some (q₁, e) → ApplyQueue.Runs q₁ ls' q₂ →
        q₂.next = some (job, q₃) → job.id = e.record.id →
        ∀ (reconcilers : List Reconciler) (refusals : List DocumentRefusal), ∀ r ∈ reconcilers,
          ∀ w ∈ r.watched, ∀ ts, segments w = some ts → Comparable ss ts →
            (r, refusals.find? (refusalCovers · r.subtree)) ∈
              reconcileSubtree reconcilers refusals job.dotPath := by
  constructor
  · intro h
    have hover := (h "\"hostname\"".toList "hostname".toList ["hostname".toList] ["hostname".toList]
      (by decide) (by decide)).2 (.inl List.prefix_rfl)
    revert hover
    decide
  · intro h
    have hmem := h (.set "\"hostname\"".toList) "\"hostname\"".toList
      ["hostname".toList] (by decide)
      (by decide) [] [] {} _ _ _ "settings-write".toList ":1.7".toList _ ⟨1, "\"hostname\"".toList⟩
      (.nil _) rfl (.nil _) rfl rfl [Sample.hostnameReconciler] [] _ (List.mem_singleton_self _)
      "hostname".toList (by decide) ["hostname".toList] (by decide) (.inl List.prefix_rfl)
    revert hmem
    decide

end MicaCore.Bus
