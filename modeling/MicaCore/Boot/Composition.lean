import MicaCore.Data.Each
import MicaCore.Files.Walking
import Mathlib.Data.Set.Card

namespace MicaCore.Boot.Composition

open Data Files

structure Volume extends Disk where
  names : Path → List Bytes
  mem_names : ∀ p n, n ∈ names p ↔ entry (p ++ [n]) ≠ none
  nodup_names : ∀ p, (names p).Nodup

inductive Refusal
  | outside (component : Path) (name : Bytes)
  | entryBound
  | unreadable (path : Path) (failure : Failure)
  | shadows (component path : Path)
  | shippedTwice (path : Path)

def maxEntries : ℕ := 200000

def symlinkMetadata (d : Disk) (p : Path) : Except Failure Entry :=
  match p.getLast? with
  | none => .ok .dir
  | some n =>
    match d.resolve p.dropLast with
    | .error e => .error e
    | .ok q =>
      if d.entry q = some .dir then orError .notFound (d.entry (q ++ [n])) else .error .notDirectory

def inRoot (v : Volume) (root path : Path) : Except Refusal (Option Bool) :=
  match symlinkMetadata v.toDisk (root ++ path) with
  | .ok e => .ok (some (e = .dir))
  | .error .notFound => .ok none
  | .error e => .error (.unreadable path e)

@[ext]
structure Claims where
  claimed : Path → Option Bool
  entries : ℕ

section

variable (v : Volume) (root component : Path)

def isDirectory (path : Path) : Bool := v.entry (component ++ path) = some .dir

def visit (st : Claims) (path : Path) : Except Refusal Claims := do
  ensure (st.entries + 1 ≤ maxEntries) .entryBound
  let directory := isDirectory v component path
  let rooted ← inRoot v root path
  ensure (rooted.all fun rootDirectory ↦ directory && rootDirectory) (.shadows component path)
  match st.claimed path with
  | some other => do
    ensure (directory && other) (.shippedTwice path)
    pure ⟨st.claimed, st.entries + 1⟩
  | none => pure ⟨Function.update st.claimed path (some directory), st.entries + 1⟩

def visitName (relative : Path) (st : Claims × List Path) (name : Bytes) :
    Except Refusal (Claims × List Path) := do
  let claims ← visit v root component st.1 (relative ++ [name])
  pure (claims, if isDirectory v component (relative ++ [name]) then (relative ++ [name]) :: st.2
    else st.2)

theorem visit_entries {v : Volume} {root component : Path} {st st' : Claims} {path : Path}
    (h : visit v root component st path = .ok st') :
    st'.entries = st.entries + 1 ∧ st'.entries ≤ maxEntries := by
  simp only [visit, bind_eq_ok, ensure_eq_ok, decide_eq_true_eq] at h
  obtain ⟨_, hbound, rooted, _, _, _, h⟩ := h
  split at h
  · simp only [bind_eq_ok, pure_eq_ok] at h
    obtain ⟨_, _, rfl⟩ := h
    exact ⟨rfl, hbound⟩
  · obtain rfl := pure_eq_ok.mp h
    exact ⟨rfl, hbound⟩

theorem visitNames_measure {v : Volume} {root component relative : Path} {names : List Bytes}
    {st st' : Claims} {pending pending' : List Path}
    (h : names.foldlM (visitName v root component relative) (st, pending) = .ok (st', pending')) :
    maxEntries - st'.entries + pending'.length ≤ maxEntries - st.entries + pending.length := by
  induction names generalizing st pending with
  | nil =>
    obtain ⟨rfl, rfl⟩ := Prod.mk.inj (pure_eq_ok.mp h)
    exact le_rfl
  | cons name names ih =>
    obtain ⟨⟨mid, pending₁⟩, hvisit, hrest⟩ := bind_eq_ok.mp h
    simp only [visitName, bind_eq_ok, pure_eq_ok] at hvisit
    obtain ⟨_, hvisit, hpair⟩ := hvisit
    obtain ⟨rfl, rfl⟩ := Prod.mk.inj hpair
    obtain ⟨hnext, hbound⟩ := visit_entries hvisit
    have hlater := ih hrest
    split at hlater
    · simp only [List.length_cons] at hlater
      omega
    · omega

def walk (st : Claims) : List Path → Except Refusal Claims
  | [] => .ok st
  | relative :: pending =>
    match _hread : (v.names (component ++ relative)).foldlM (visitName v root component relative)
        (st, pending) with
    | .error e => .error e
    | .ok (st', pending') => walk st' pending'
termination_by pending => maxEntries - st.entries + pending.length
decreasing_by
  have hmeasure := visitNames_measure _hread
  simp only [List.length_cons]
  omega

def usr : Bytes := "usr".toUTF8.toList
def etc : Bytes := "etc".toUTF8.toList

def checkComponent (st : Claims) : Except Refusal Claims := do
  forM (v.names component) fun name ↦
    ensure (name = usr || name = etc) (Refusal.outside component name)
  walk v root component st [[]]

end

def checkComposition (v : Volume) (root : Path) (components : List Path) : Except Refusal Unit := do
  let _ ← components.foldlM (fun st component ↦ checkComponent v root component st)
    ⟨fun _ ↦ none, 0⟩
  pure ()

structure Layer (v : Volume) where
  path : Path
  directory : v.entry path = some .dir

namespace Layer

variable {v : Volume}

def entry (l : Layer v) (p : Path) : Option Entry := v.entry (l.path ++ p)

def paths (l : Layer v) : Set Path := {p | p ≠ [] ∧ l.entry p ≠ none}

def Agree (l l' : Layer v) : Prop :=
  ∀ p, p ≠ [] → l.entry p ≠ none → l'.entry p ≠ none → l.entry p = some .dir ∧
    l'.entry p = some .dir

theorem entry_nil (l : Layer v) : l.entry [] = some .dir := by
  rw [entry, List.append_nil]
  exact l.directory

theorem entry_of_child {l : Layer v} {p : Path} {n : Bytes} (h : l.entry (p ++ [n]) ≠ none) :
    l.entry p = some .dir := by
  rw [entry, ← List.append_assoc] at h
  exact v.closed _ _ h

theorem mem_names {l : Layer v} {p : Path} {n : Bytes} :
    n ∈ v.names (l.path ++ p) ↔ l.entry (p ++ [n]) ≠ none := by
  rw [v.mem_names, entry, List.append_assoc]

theorem isDirectory_eq (l : Layer v) (p : Path) :
    isDirectory v l.path p = true ↔ l.entry p = some .dir := decide_eq_true_iff

end Layer

def Plain (d : Disk) (p : Path) : Prop := ∀ q, q <+: p → d.entry q = none ∨ d.entry q = some .dir

theorem resolve_plain {d : Disk} {p : Path} (h : Plain d p) :
    d.resolve p = if d.entry p = some .dir then .ok p else .error .notFound := by
  induction p using List.reverseRecOn with
  | nil => simp [Disk.resolve, Disk.walk_eq, Disk.walkWith, d.root]
  | append_singleton p n ih =>
    have hprefix := ih fun q hq ↦ h q (hq.trans (List.prefix_append p [n]))
    unfold Disk.resolve at hprefix ⊢
    rw [List.map_append, Disk.walk_append]
    by_cases hdir : d.entry p = some .dir
    · rw [if_pos hdir] at hprefix
      rw [Walk.andThen_ok hprefix, Walk.after_found, List.map_cons, List.map_nil, Disk.walk_eq]
      rcases h (p ++ [n]) (List.prefix_rfl) with hn | hn
      · rw [Disk.walkWith_missing hdir hn, hn]
        rfl
      · rw [Disk.walkWith_name hdir hn (by simp), if_pos hn]
        rfl
    · rw [if_neg hdir] at hprefix
      have hnone : d.entry (p ++ [n]) ≠ some .dir := by
        intro hsome
        exact hdir (d.closed p n (by simp [hsome]))
      rw [Walk.andThen_error hprefix, hprefix, if_neg hnone]

theorem symlinkMetadata_plain {d : Disk} {p : Path} {n : Bytes} (h : Plain d p) :
    symlinkMetadata d (p ++ [n]) = orError .notFound (d.entry (p ++ [n])) := by
  simp only [symlinkMetadata, List.getLast?_append, List.getLast?_singleton, Option.some_or,
    List.dropLast_concat, resolve_plain h]
  by_cases hdir : d.entry p = some .dir
  · simp [hdir]
  · have hnone : d.entry (p ++ [n]) = none := by
      by_contra hsome
      exact hdir (d.closed p n hsome)
    simp [hdir, hnone, orError]

section Root

variable {v : Volume} {root c : Layer v}

def RootAgrees (root c : Layer v) (p : Path) : Prop :=
  root.entry p ≠ none → root.entry p = some .dir ∧ c.entry p = some .dir

theorem plain_root {p : Path} (h : ∀ q, q ≠ [] → q <+: p → RootAgrees root c q) :
    Plain v.toDisk (root.path ++ p) := by
  intro q hq
  rcases List.prefix_or_prefix_of_prefix hq (List.prefix_append root.path p) with hq' | ⟨r, rfl⟩
  · by_cases heq : q = root.path
    · exact .inr (heq ▸ root.directory)
    · exact .inr (Disk.entry_of_isPrefix hq' heq (by simp [root.directory]))
  · rcases eq_or_ne r [] with rfl | hne
    · exact .inr root.entry_nil
    · by_cases hnone : root.entry r = none
      · exact .inl hnone
      · exact .inr (h r hne ((List.prefix_append_right_inj _).mp hq) hnone).1

theorem inRoot_eq {p : Path} {n : Bytes} (h : ∀ q, q ≠ [] → q <+: p → RootAgrees root c q) :
    inRoot v root.path (p ++ [n]) =
      .ok ((root.entry (p ++ [n])).map fun e ↦ decide (e = .dir)) := by
  rw [inRoot, ← List.append_assoc, symlinkMetadata_plain (plain_root h), List.append_assoc]
  change (match orError Failure.notFound (root.entry (p ++ [n])) with
    | .ok e => _
    | .error .notFound => _
    | .error e => _) = _
  cases root.entry (p ++ [n]) <;> rfl

end Root

/-- The root agrees on a path, and so does who claimed it before. -/
def Passes {v : Volume} (root c : Layer v) (claimed : Path → Option Bool) (p : Path) : Prop :=
  RootAgrees root c p ∧ ∀ other, claimed p = some other → other = true ∧ c.entry p = some .dir

def Claims.add {v : Volume} (st : Claims) (c : Layer v) (done : List Path) : Claims where
  claimed p := (st.claimed p).or (if p ∈ done then some (isDirectory v c.path p) else none)
  entries := st.entries + done.length

section Visits

variable {v : Volume} {root c : Layer v} {st : Claims} {done : List Path} {p : Path} {n : Bytes}

theorem shadows_iff :
    (((root.entry p).map fun e ↦ decide (e = .dir)).all
      fun rootDirectory ↦ isDirectory v c.path p && rootDirectory) = true ↔ RootAgrees root c p := by
  rw [RootAgrees, ← c.isDirectory_eq]
  cases root.entry p with
  | none => simp
  | some e => simp [and_comm]

theorem Claims.add_of_claimed {other : Bool} (h : st.claimed p = some other) :
    st.add c [p] = ⟨st.claimed, st.entries + 1⟩ := by
  refine Claims.ext (funext fun q ↦ ?_) rfl
  by_cases hq : q = p
  · simp [add, hq, h]
  · simp [add, hq]

theorem Claims.add_of_new (h : st.claimed p = none) :
    st.add c [p] = ⟨Function.update st.claimed p (some (isDirectory v c.path p)), st.entries + 1⟩ := by
  refine Claims.ext (funext fun q ↦ ?_) rfl
  by_cases hq : q = p
  · simp [add, hq, h]
  · simp [add, hq]

theorem visit_eq_ok {st' : Claims} (hbefore : ∀ q, q ≠ [] → q <+: p → RootAgrees root c q) :
    visit v root.path c.path st (p ++ [n]) = .ok st' ↔
      st.entries + 1 ≤ maxEntries ∧ Passes root c st.claimed (p ++ [n]) ∧
        st.add c [p ++ [n]] = st' := by
  simp only [visit, inRoot_eq hbefore, bind_eq_ok, ensure_eq_ok, decide_eq_true_eq, Except.ok.injEq,
    exists_const, exists_eq_left', shadows_iff, Passes, and_assoc]
  refine and_congr_right fun _ ↦ and_congr_right fun _ ↦ ?_
  cases hclaimed : st.claimed (p ++ [n]) with
  | none =>
    simp [Claims.add_of_new hclaimed]
  | some other =>
    simp only [Claims.add_of_claimed hclaimed, bind_eq_ok, ensure_eq_ok, Bool.and_eq_true,
      Layer.isDirectory_eq, pure_eq_ok, exists_const, Option.some.injEq, forall_eq']
    tauto

/-- Paths of a component, each once and after the paths it lies under. -/
structure Ordered (c : Layer v) (l : List Path) : Prop where
  nodup : l.Nodup
  mem : ∀ p ∈ l, p ∈ c.paths
  above : Each (fun before p ↦ ∀ q, q ≠ [] → q <+: p → q ≠ p → q ∈ before) l

variable {l : List Path}

theorem Ordered.of_append {more : List Path} (h : Ordered c (l ++ more)) : Ordered c l where
  nodup := h.nodup.of_append_left
  mem p hp := h.mem p (List.mem_append_left _ hp)
  above := h.above.of_append

theorem Claims.add_nil : st.add c [] = st := by
  simp [add]

theorem Claims.add_append (l more : List Path) :
    (st.add c l).add c more = st.add c (l ++ more) := by
  simp only [add, List.mem_append, List.length_append, Claims.mk.injEq, Nat.add_assoc, and_true]
  funext q
  by_cases hl : q ∈ l <;> cases st.claimed q <;> simp [hl]

theorem passes_add (h : p ∉ l) :
    Passes root c (st.add c l).claimed p ↔ Passes root c st.claimed p := by
  simp [Passes, Claims.add, h]

theorem visits_eq_ok {st' : Claims} (hl : Ordered c l) :
    l.foldlM (visit v root.path c.path) st = .ok st' ↔
      (l ≠ [] → st.entries + l.length ≤ maxEntries) ∧ (∀ p ∈ l, Passes root c st.claimed p) ∧
        st.add c l = st' := by
  induction l using List.reverseRecOn generalizing st' with
  | nil => simp [Claims.add_nil]
  | append_singleton l x ih =>
    obtain ⟨hne, hx⟩ := hl.mem x (by simp)
    obtain ⟨q, n, rfl⟩ := (List.eq_nil_or_concat' x).resolve_left hne
    have hnew : q ++ [n] ∉ l := fun hmem ↦
      (List.nodup_append.mp hl.nodup).2.2 _ hmem _ (List.mem_singleton_self _) rfl
    have habove : ∀ r, r ≠ [] → r <+: q → r ∈ l := fun r hr hrq ↦ by
      refine hl.above l (q ++ [n]) [] rfl r hr (hrq.trans (List.prefix_append q [n])) ?_
      rintro rfl
      simpa using hrq.length_le
    rw [List.foldlM_append]
    simp only [List.foldlM_cons, List.foldlM_nil, bind_pure, bind_eq_ok, ih hl.of_append]
    constructor
    · rintro ⟨mid, ⟨hbound, hpasses, rfl⟩, hvisit⟩
      have hroot : ∀ r, r ≠ [] → r <+: q → RootAgrees root c r := fun r hr hrq ↦
        (hpasses r (habove r hr hrq)).1
      obtain ⟨hnext, hpass, rfl⟩ := (visit_eq_ok hroot).mp hvisit
      refine ⟨fun _ ↦ ?_, ?_, (Claims.add_append l _).symm⟩
      · simpa [Claims.add, Nat.add_assoc] using hnext
      · intro p hp
        rcases List.mem_append.mp hp with hp | hp
        · exact hpasses p hp
        · rw [List.mem_singleton.mp hp]
          exact (passes_add hnew).mp hpass
    · rintro ⟨hbound, hpasses, rfl⟩
      have hlength := hbound (by simp)
      simp only [List.length_append, List.length_singleton] at hlength
      have hearlier : ∀ p ∈ l, Passes root c st.claimed p := fun p hp ↦
        hpasses p (List.mem_append_left _ hp)
      have hroot : ∀ r, r ≠ [] → r <+: q → RootAgrees root c r := fun r hr hrq ↦
        (hearlier r (habove r hr hrq)).1
      refine ⟨st.add c l, ⟨fun _ ↦ by omega, hearlier, rfl⟩, (visit_eq_ok hroot).mpr ⟨?_, ?_, ?_⟩⟩
      · simpa [Claims.add, Nat.add_assoc] using hlength
      · exact (passes_add hnew).mpr (hpasses _ (by simp))
      · exact Claims.add_append l _

end Visits

section Walks

variable {v : Volume} {root c : Layer v} {st : Claims} {done pending : List Path} {q : Path}

def children (c : Layer v) (q : Path) : List Path := (v.names (c.path ++ q)).map (q ++ [·])

theorem mem_children {p : Path} : p ∈ children c q ↔ ∃ n, p = q ++ [n] ∧ c.entry p ≠ none := by
  simp only [children, List.mem_map, Layer.mem_names]
  constructor
  · rintro ⟨n, hn, rfl⟩
    exact ⟨n, rfl, hn⟩
  · rintro ⟨n, rfl, hn⟩
    exact ⟨n, hn, rfl⟩

theorem nodup_children : (children c q).Nodup :=
  (v.nodup_names _).map fun _ _ h ↦ List.singleton_inj.mp (List.append_cancel_left h)

theorem visitNames_eq (names : List Bytes) :
    names.foldlM (visitName v root.path c.path q) (st, pending) =
      (names.map (q ++ [·])).foldlM (visit v root.path c.path) st >>= fun st' ↦
        pure (st', ((names.map (q ++ [·])).filter (isDirectory v c.path)).reverse ++ pending) := by
  induction names generalizing st pending with
  | nil => rfl
  | cons name names ih =>
    simp only [List.foldlM_cons, List.map_cons, visitName, bind_assoc, pure_bind, ih]
    by_cases hdir : isDirectory v c.path (q ++ [name]) = true
    · simp [hdir]
    · simp [hdir]

structure Traversal (c : Layer v) (done pending : List Path) : Prop extends Ordered c done where
  pending_nodup : pending.Nodup
  pending_dir : ∀ q ∈ pending, c.entry q = some .dir ∧ (q = [] ∨ q ∈ done)
  read : ∀ q, c.entry q = some .dir → q = [] ∨ q ∈ done → q ∉ pending →
    ∀ p ∈ children c q, p ∈ done
  unread : ∀ q ∈ pending, ∀ p ∈ children c q, p ∉ done

theorem Traversal.start (c : Layer v) : Traversal c [] [[]] where
  nodup := List.nodup_nil
  mem := nofun
  above := Each.nil
  pending_nodup := List.nodup_singleton _
  pending_dir := by simp [c.entry_nil]
  read q _ hq hunread := absurd (by simpa using hq) hunread
  unread := nofun

theorem Traversal.ordered_step (h : Traversal c done (q :: pending)) :
    Ordered c (done ++ children c q) where
  nodup := List.nodup_append.mpr ⟨h.nodup, nodup_children, fun p hp p' hp' heq ↦
    h.unread q List.mem_cons_self p (heq ▸ hp') hp⟩
  mem p hp := by
    rcases List.mem_append.mp hp with hp | hp
    · exact h.mem p hp
    · obtain ⟨n, rfl, hentry⟩ := mem_children.mp hp
      exact ⟨by simp, hentry⟩
  above := by
    refine h.above.append fun before hbefore p hp r hr hrp hne ↦ hbefore.subset ?_
    obtain ⟨n, rfl, -⟩ := mem_children.mp hp
    have hrq : r <+: q := (List.prefix_concat_iff.mp hrp).resolve_left hne
    -- A beginning of the entry's path is the directory that is read, or lies above it.
    rcases (h.pending_dir q List.mem_cons_self).2 with rfl | hq
    · exact absurd (List.prefix_nil.mp hrq) hr
    · by_cases heq : r = q
      · exact heq ▸ hq
      · obtain ⟨before, after, hsplit⟩ := List.append_of_mem hq
        rw [hsplit]
        exact List.mem_append_left _ (h.above before q after hsplit r hr hrq heq)

theorem Traversal.step (h : Traversal c done (q :: pending)) :
    Traversal c (done ++ children c q)
      (((children c q).filter (isDirectory v c.path)).reverse ++ pending) where
  toOrdered := h.ordered_step
  pending_nodup := by
    refine List.nodup_append.mpr ⟨?_, h.pending_nodup.of_cons, ?_⟩
    · exact List.nodup_reverse.mpr (nodup_children.filter _)
    · rintro p hp p' hp' rfl
      obtain ⟨hchild, -⟩ := List.mem_filter.mp (List.mem_reverse.mp hp)
      rcases (h.pending_dir p (List.mem_cons_of_mem _ hp')).2 with rfl | hdone
      · obtain ⟨n, hn, -⟩ := mem_children.mp hchild
        simp at hn
      · exact h.unread q List.mem_cons_self p hchild hdone
  pending_dir p hp := by
    rcases List.mem_append.mp hp with hp | hp
    · obtain ⟨hchild, hdir⟩ := List.mem_filter.mp (List.mem_reverse.mp hp)
      exact ⟨(c.isDirectory_eq p).mp hdir, .inr (List.mem_append_right _ hchild)⟩
    · obtain ⟨hdir, hp⟩ := h.pending_dir p (List.mem_cons_of_mem _ hp)
      exact ⟨hdir, hp.imp id (List.mem_append_left _)⟩
  read p hdir hp hunread x hx := by
    rw [List.mem_append, not_or] at hunread
    by_cases heq : p = q
    · exact List.mem_append_right _ (heq ▸ hx)
    · refine List.mem_append_left _ (h.read p hdir ?_ (by simp [heq, hunread.2]) x hx)
      refine hp.imp id fun hmem ↦ (List.mem_append.mp hmem).resolve_right fun hchild ↦ ?_
      exact hunread.1 (List.mem_reverse.mpr (List.mem_filter.mpr ⟨hchild, (c.isDirectory_eq p).mpr hdir⟩))
  unread p hp x hx hmem := by
    obtain ⟨n, rfl, -⟩ := mem_children.mp hx
    rcases List.mem_append.mp hp with hnew | hold
    · obtain ⟨hchild, -⟩ := List.mem_filter.mp (List.mem_reverse.mp hnew)
      obtain ⟨m, rfl, -⟩ := mem_children.mp hchild
      rcases List.mem_append.mp hmem with hmem | hmem
      · obtain ⟨before, after, hsplit⟩ := List.append_of_mem hmem
        have habove := h.above before _ after hsplit (q ++ [m]) (by simp) (List.prefix_append _ _) (by simp)
        exact h.unread q List.mem_cons_self _ hchild (hsplit ▸ List.mem_append_left _ habove)
      · obtain ⟨k, hk, -⟩ := mem_children.mp hmem
        simpa using congrArg List.length hk
    · rcases List.mem_append.mp hmem with hmem | hmem
      · exact h.unread p (List.mem_cons_of_mem _ hold) _ hx hmem
      · obtain ⟨k, hk, -⟩ := mem_children.mp hmem
        obtain ⟨rfl, -⟩ := List.append_inj' hk rfl
        exact (List.nodup_cons.mp h.pending_nodup).1 hold

theorem Traversal.complete (h : Traversal c done []) {p : Path} (hp : p ∈ c.paths) : p ∈ done := by
  induction p using List.reverseRecOn with
  | nil => exact absurd rfl hp.1
  | append_singleton p n ih =>
    have hdir := Layer.entry_of_child hp.2
    refine h.read p hdir ?_ (by simp) _ (mem_children.mpr ⟨n, rfl, hp.2⟩)
    rcases eq_or_ne p [] with rfl | hne
    · exact .inl rfl
    · exact .inr (ih ⟨hne, by simp [hdir]⟩)

theorem walk_eq (root : Layer v) (st : Claims) (h : Traversal c done pending) :
    ∃ more, Ordered c (done ++ more) ∧
    walk v root.path c.path st pending = more.foldlM (visit v root.path c.path) st ∧
    ∀ st', walk v root.path c.path st pending = .ok st' → ∀ p ∈ c.paths, p ∈ done ++ more := by
  fun_induction walk v root.path c.path st pending generalizing done with
  | case1 st => exact ⟨[], by simpa using h.toOrdered, rfl, fun _ _ p hp ↦ by simpa using h.complete hp⟩
  | case2 st q pending e hread =>
    rw [visitNames_eq] at hread
    refine ⟨children c q, h.ordered_step, ?_, nofun⟩
    rw [children]
    cases hvisits : ((v.names (c.path ++ q)).map (q ++ [·])).foldlM
      (visit v root.path c.path) st with
    | ok st' => simp [hvisits, bind, Except.bind, pure, Except.pure] at hread
    | error e' => simpa [hvisits, bind, Except.bind] using hread.symm
  | case3 st q pending st' pending' hread ih =>
    rw [visitNames_eq] at hread
    simp only [bind_eq_ok, pure_eq_ok, Prod.mk.injEq] at hread
    obtain ⟨_, hvisits, rfl, rfl⟩ := hread
    obtain ⟨more, hordered, hwalk, hall⟩ := ih h.step
    rw [List.append_assoc] at hordered hall
    refine ⟨children c q ++ more, hordered, ?_, hall⟩
    rw [List.foldlM_append, children, hvisits]
    exact hwalk

theorem encard_paths {l : List Path} (hl : Ordered c l) (h : ∀ p ∈ c.paths, p ∈ l) :
    c.paths.encard = l.length := by
  have heq : c.paths = {p | p ∈ l} := Set.ext fun p ↦ ⟨h p, hl.mem p⟩
  rw [heq, ← List.coe_toFinset, Set.encard_coe_eq_coe_finsetCard,
    List.toFinset_card_of_nodup hl.nodup]

theorem length_le_encard {l : List Path} (hl : Ordered c l) : (l.length : ℕ∞) ≤ c.paths.encard := by
  rw [← List.toFinset_card_of_nodup hl.nodup, ← Set.encard_coe_eq_coe_finsetCard, List.coe_toFinset]
  exact Set.encard_le_encard hl.mem

end Walks

section Components

variable {v : Volume} {root c : Layer v} {st st' : Claims}

/-- A component holds only the two directories, and all its paths pass. -/
def Fits (root c : Layer v) (claimed : Path → Option Bool) : Prop :=
  (∀ n, c.entry [n] ≠ none → n = usr ∨ n = etc) ∧ ∀ p ∈ c.paths, Passes root c claimed p

def claim (claimed : Path → Option Bool) (c : Layer v) (p : Path) : Option Bool :=
  (claimed p).or (if p = [] then none else (c.entry p).map fun e ↦ decide (e = .dir))

theorem claimed_add {l : List Path} (hl : Ordered c l) (h : ∀ p ∈ c.paths, p ∈ l) :
    (st.add c l).claimed = claim st.claimed c := by
  funext p
  have hmem : p ∈ l ↔ p ≠ [] ∧ c.entry p ≠ none := ⟨hl.mem p, h p⟩
  simp only [Claims.add, claim, hmem]
  rcases eq_or_ne p [] with rfl | hne
  · simp
  · cases hentry : c.entry p with
    | none => simp [hne]
    | some e =>
      have hdir : isDirectory v c.path p = decide (e = .dir) := by
        rw [Bool.eq_iff_iff, c.isDirectory_eq, hentry]
        simp
      simp [hne, hdir]

theorem checkComponent_eq : checkComponent v root.path c.path st = .ok st' ↔
    (∀ n, c.entry [n] ≠ none → n = usr ∨ n = etc) ∧ walk v root.path c.path st [[]] = .ok st' := by
  have hnames : ∀ n, n ∈ v.names c.path ↔ c.entry [n] ≠ none := fun n ↦ v.mem_names c.path n
  simp only [checkComponent, bind_eq_ok, forM_eq_ok, ensure_eq_ok, hnames, Bool.or_eq_true,
    decide_eq_true_eq, exists_const]

theorem of_checkComponent (hst : st.entries ≤ maxEntries)
    (h : checkComponent v root.path c.path st = .ok st') :
    Fits root c st.claimed ∧ st'.claimed = claim st.claimed c ∧ st'.entries ≤ maxEntries ∧
      (st'.entries : ℕ∞) = st.entries + c.paths.encard := by
  obtain ⟨htop, hwalk⟩ := checkComponent_eq.mp h
  obtain ⟨l, hl, heq, hall⟩ := walk_eq root st (Traversal.start c)
  rw [List.nil_append] at hl hall
  have hpaths := hall st' hwalk
  rw [heq] at hwalk
  obtain ⟨hbound, hpasses, rfl⟩ := (visits_eq_ok hl).mp hwalk
  refine ⟨⟨htop, fun p hp ↦ hpasses p (hpaths p hp)⟩, claimed_add hl hpaths, ?_, ?_⟩
  · rcases eq_or_ne l [] with rfl | hne
    · simpa [Claims.add] using hst
    · exact hbound hne
  · rw [encard_paths hl hpaths]
    simp [Claims.add]

theorem checkComponent_of_fits (h : Fits root c st.claimed)
    (hbound : st.entries + c.paths.encard ≤ maxEntries) :
    ∃ st', checkComponent v root.path c.path st = .ok st' := by
  obtain ⟨l, hl, heq, -⟩ := walk_eq root st (Traversal.start c)
  rw [List.nil_append] at hl
  have hlength : ((st.entries + l.length : ℕ) : ℕ∞) ≤ maxEntries := by
    rw [Nat.cast_add]
    exact (add_le_add_right (length_le_encard hl) _).trans hbound
  have hvisits := (visits_eq_ok hl).mpr ⟨fun _ ↦ by exact_mod_cast hlength,
    fun p hp ↦ h.2 p (hl.mem p hp), rfl⟩
  exact ⟨_, checkComponent_eq.mpr ⟨h.1, heq.trans hvisits⟩⟩

end Components

section Compositions

variable {v : Volume} {root : Layer v}

def AllFit (root : Layer v) (claimed : Path → Option Bool) : List (Layer v) → Prop
  | [] => True
  | c :: cs => Fits root c claimed ∧ AllFit root (claim claimed c) cs

theorem checkComponents_eq_ok {cs : List (Layer v)} {st : Claims} (hst : st.entries ≤ maxEntries) :
    (∃ st', (cs.map Layer.path).foldlM (fun st c ↦ checkComponent v root.path c st) st = .ok st') ↔
      AllFit root st.claimed cs ∧
        st.entries + (cs.map fun c ↦ c.paths.encard).sum ≤ maxEntries := by
  induction cs generalizing st with
  | nil =>
    simp only [List.map_nil, List.foldlM_nil, pure_eq_ok, exists_eq', AllFit, List.sum_nil, add_zero,
      true_and, true_iff]
    exact_mod_cast hst
  | cons c cs ih =>
    simp only [List.map_cons, List.foldlM_cons, bind_eq_ok, List.sum_cons, AllFit]
    constructor
    · rintro ⟨last, mid, hmid, hrest⟩
      obtain ⟨hfits, hclaimed, hbound, hentries⟩ := of_checkComponent hst hmid
      obtain ⟨hall, hsum⟩ := (ih hbound).mp ⟨last, hrest⟩
      rw [hclaimed] at hall
      rw [hentries, add_assoc] at hsum
      exact ⟨⟨hfits, hall⟩, hsum⟩
    · rintro ⟨⟨hfits, hall⟩, hsum⟩
      rw [← add_assoc] at hsum
      obtain ⟨mid, hmid⟩ := checkComponent_of_fits hfits (le_self_add.trans hsum)
      obtain ⟨-, hclaimed, hbound, hentries⟩ := of_checkComponent hst hmid
      obtain ⟨last, hrest⟩ := (ih hbound).mpr ⟨hclaimed ▸ hall, hentries ▸ hsum⟩
      exact ⟨last, mid, hmid, hrest⟩

/-- What a layer has is claimed as what it is, and what is claimed a layer has. -/
structure Represents (claimed : Path → Option Bool) (before : List (Layer v)) : Prop where
  claims : ∀ c ∈ before, ∀ p e, p ≠ [] → c.entry p = some e → claimed p = some (decide (e = .dir))
  claimed : ∀ p other, claimed p = some other → p ≠ [] ∧ ∃ c ∈ before, c.entry p ≠ none

variable {claimed : Path → Option Bool} {before : List (Layer v)} {c : Layer v}

theorem fits_iff (h : Represents claimed before) :
    Fits root c claimed ↔ (∀ n, c.entry [n] ≠ none → n = usr ∨ n = etc) ∧ root.Agree c ∧
      ∀ c' ∈ before, c'.Agree c := by
  refine and_congr_right fun _ ↦ ⟨fun hpasses ↦ ⟨?_, ?_⟩, ?_⟩
  · exact fun p hne hroot hc ↦ (hpasses p ⟨hne, hc⟩).1 hroot
  · intro c' hc' p hne hbefore hc
    obtain ⟨e, he⟩ := Option.ne_none_iff_exists'.mp hbefore
    obtain ⟨hdir', hdir⟩ := (hpasses p ⟨hne, hc⟩).2 _ (h.claims c' hc' p e hne he)
    exact ⟨by rw [he, of_decide_eq_true hdir'], hdir⟩
  · rintro ⟨hroot, hbefore⟩ p ⟨hne, hc⟩
    refine ⟨fun hr ↦ hroot p hne hr hc, fun other hother ↦ ?_⟩
    obtain ⟨-, c', hc', hentry⟩ := h.claimed p other hother
    obtain ⟨hdir', hdir⟩ := hbefore c' hc' p hne hentry hc
    have hclaim := h.claims c' hc' p .dir hne hdir'
    rw [hother] at hclaim
    exact ⟨by simpa using hclaim, hdir⟩

theorem Represents.claim (h : Represents claimed before) (hagree : ∀ c' ∈ before, c'.Agree c) :
    Represents (claim claimed c) (before ++ [c]) where
  claims c' hc' p e hne he := by
    rw [Composition.claim, if_neg hne]
    rcases List.mem_append.mp hc' with hc' | hc'
    · rw [h.claims c' hc' p e hne he, Option.some_or]
    · obtain rfl := List.mem_singleton.mp hc'
      cases hold : claimed p with
      | none => rw [he, Option.none_or, Option.map_some]
      | some old =>
        obtain ⟨-, c₀, hc₀, hentry⟩ := h.claimed p old hold
        obtain ⟨hdir₀, hdir⟩ := hagree c₀ hc₀ p hne hentry (by simp [he])
        obtain rfl := Option.some.inj (he.symm.trans hdir)
        rw [← hold, h.claims c₀ hc₀ p .dir hne hdir₀, Option.some_or]
  claimed p other hother := by
    rcases Option.or_eq_some_iff.mp hother with hold | ⟨-, hnew⟩
    · obtain ⟨hne, c', hc', hentry⟩ := h.claimed p other hold
      exact ⟨hne, c', List.mem_append_left _ hc', hentry⟩
    · split at hnew
      · cases hnew
      · next hne =>
        obtain ⟨e, he, -⟩ := Option.map_eq_some_iff.mp hnew
        exact ⟨hne, c, by simp, by simp [he]⟩

theorem allFit_iff {cs : List (Layer v)} (h : Represents claimed before) :
    AllFit root claimed cs ↔
      (∀ c ∈ cs, ∀ n, c.entry [n] ≠ none → n = usr ∨ n = etc) ∧ (∀ c ∈ cs, root.Agree c) ∧
      (∀ c ∈ cs, ∀ c' ∈ before, c'.Agree c) ∧ cs.Pairwise Layer.Agree := by
  induction cs generalizing claimed before with
  | nil => simp [AllFit]
  | cons c cs ih =>
    rw [AllFit, fits_iff h]
    constructor
    · rintro ⟨⟨htop, hroot, hbefore⟩, hrest⟩
      have hnext := (ih (h.claim hbefore)).mp hrest
      simp only [List.forall_mem_append, List.forall_mem_singleton] at hnext
      simp only [List.forall_mem_cons, List.pairwise_cons]
      exact ⟨⟨htop, hnext.1⟩, ⟨hroot, hnext.2.1⟩, ⟨hbefore, fun c' hc' ↦ (hnext.2.2.1 c' hc').1⟩,
        fun c' hc' ↦ (hnext.2.2.1 c' hc').2, hnext.2.2.2⟩
    · simp only [List.forall_mem_cons, List.pairwise_cons]
      rintro ⟨⟨htop, htops⟩, ⟨hroot, hroots⟩, ⟨hbefore, hbefores⟩, hpair, hpairs⟩
      refine ⟨⟨htop, hroot, hbefore⟩, (ih (h.claim hbefore)).mpr ?_⟩
      simp only [List.forall_mem_append, List.forall_mem_singleton]
      exact ⟨htops, hroots, fun c' hc' ↦ ⟨hbefores c' hc', hpair c' hc'⟩, hpairs⟩

theorem Layer.Agree.symm {l l' : Layer v} (h : l.Agree l') : l'.Agree l := fun p hne hl' hl ↦
  (h p hne hl hl').symm

theorem pairwise_agree_iff {layers : List (Layer v)} :
    layers.Pairwise Layer.Agree ↔ ∀ (i j : ℕ) (l l' : Layer v), i ≠ j → layers[i]? = some l →
    layers[j]? = some l' →
      l.Agree l' := by
  rw [List.pairwise_iff_getElem]
  constructor
  · intro h i j l l' hne hl hl'
    obtain ⟨hi, rfl⟩ := List.getElem?_eq_some_iff.mp hl
    obtain ⟨hj, rfl⟩ := List.getElem?_eq_some_iff.mp hl'
    rcases Nat.lt_or_gt_of_ne hne with hlt | hlt
    · exact h i j hi hj hlt
    · exact (h j i hj hi hlt).symm
  · exact fun h i j hi hj hlt ↦ h i j _ _ hlt.ne (List.getElem?_eq_getElem hi)
      (List.getElem?_eq_getElem hj)

theorem checkComposition_eq_ok (root : Layer v) (cs : List (Layer v)) :
    checkComposition v root.path (cs.map Layer.path) = .ok () ↔
      (cs.map fun c ↦ c.paths.encard).sum ≤ maxEntries ∧
      (∀ c ∈ cs, ∀ n, c.entry [n] ≠ none → n = usr ∨ n = etc) ∧
      (root :: cs).Pairwise Layer.Agree := by
  have hstart : Represents (fun _ ↦ none) ([] : List (Layer v)) := ⟨nofun, nofun⟩
  have hfold : checkComposition v root.path (cs.map Layer.path) = .ok () ↔
      ∃ st', (cs.map Layer.path).foldlM (fun st c ↦ checkComponent v root.path c st)
        ⟨fun _ ↦ none, 0⟩ = .ok st' := by
    simp only [checkComposition, bind_eq_ok, pure_eq_ok, and_true]
  rw [hfold, checkComponents_eq_ok (Nat.zero_le _), allFit_iff hstart, List.pairwise_cons]
  simp only [Nat.cast_zero, zero_add, List.not_mem_nil, false_imp_iff, implies_true, true_and]
  tauto

/-- Accepted exactly where the layers have only directories in common. -/
theorem composition_is_union (v : Volume) (root : Layer v) (cs : List (Layer v)) :
    (checkComposition v root.path (cs.map Layer.path) = .ok () ↔
      (cs.map fun c ↦ c.paths.encard).sum ≤ maxEntries ∧
      (∀ c ∈ cs, ∀ n, c.entry [n] ≠ none → n = usr ∨ n = etc) ∧
      ∀ (i j : ℕ) (l l' : Layer v), i ≠ j → (root :: cs)[i]? = some l → (root :: cs)[j]? = some l' →
        ∀ p, p ≠ [] → l.entry p ≠ none → l'.entry p ≠ none →
          l.entry p = some .dir ∧ l'.entry p = some .dir) ∧
    (checkComposition v root.path (cs.map Layer.path) = .ok () →
      ∀ p, p ≠ [] → ∀ (i : ℕ) (l : Layer v) (e : Entry), (root :: cs)[i]? = some l →
        l.entry p = some e → e ≠ .dir →
        ∀ (j : ℕ) (l' : Layer v), (root :: cs)[j]? = some l' → l'.entry p ≠ none → j = i) := by
  have hiff := checkComposition_eq_ok root cs
  rw [pairwise_agree_iff] at hiff
  refine ⟨hiff, fun hok p hne i l e hl he hdir j l' hl' hentry ↦ ?_⟩
  by_contra hij
  have hboth := (hiff.mp hok).2.2 i j l l' (Ne.symm hij) hl hl' p hne (by simp [he]) hentry
  rw [he] at hboth
  exact hdir (Option.some.inj hboth.1)

end Compositions

end MicaCore.Boot.Composition
