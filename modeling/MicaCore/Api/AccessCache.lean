import MicaCore.Concurrent.Threads
import MicaCore.Settings.Path

namespace MicaCore.Api

open Data Concurrent Settings

def accessPath : Text := "access".toList

def touchesAccess (path : Text) : Bool :=
  path.isEmpty || path == ['.'] || path == accessPath ||
    (stripPrefix accessPath path).any fun rest ↦ rest.head? == some '.'

structure AccessCache (ν : Type) where
  synchronised : Bool := false
  generation : ℕ := 0
  value : Option ν := none

namespace AccessCache

variable {ν : Type}

def get (c : AccessCache ν) : Option ν := if c.synchronised then c.value else none

def fill (c : AccessCache ν) (generation : ℕ) (value : ν) : AccessCache ν :=
  if c.synchronised && c.generation == generation then { c with value := some value } else c

def invalidate (c : AccessCache ν) : AccessCache ν :=
  { c with generation := c.generation + 1, value := none }

def subscribed (c : AccessCache ν) : AccessCache ν :=
  { synchronised := true, generation := c.generation + 1, value := none }

def lapsed (c : AccessCache ν) : AccessCache ν :=
  { synchronised := false, generation := c.generation + 1, value := none }

@[simp] theorem generation_fill (c : AccessCache ν) (g : ℕ) (v : ν) :
    (c.fill g v).generation = c.generation := by
  unfold fill
  split <;> rfl

theorem value_of_get {c : AccessCache ν} {v : ν} (h : c.get = some v) : c.value = some v := by
  unfold get at h
  split at h
  · exact h
  · cases h

theorem value_fill {c : AccessCache ν} {g : ℕ} {v w : ν} (h : (c.fill g v).value = some w) :
    (g = c.generation ∧ w = v) ∨ c.value = some w := by
  unfold fill at h
  split at h
  · next hc =>
    simp only [Bool.and_eq_true, beq_iff_eq] at hc
    exact .inl ⟨hc.2.symm, (Option.some.inj h).symm⟩
  · exact .inr h

end AccessCache

/-- What one call to micad read, and how many settings writes came before it. -/
structure Reading where
  value : Json
  seen : ℕ

structure Signal where
  path : Text
  write : ℕ

inductive Watch where
  | down
  | established
  | live
  | ended
  deriving DecidableEq

/-- What the requests, the watcher and micad's writers share. -/
structure Gate where
  tree : Json
  writes : ℕ := 0
  watch : Watch := .down
  stream : List Signal := []
  handled : List Signal := []
  cache : AccessCache Reading := {}

namespace Gate

inductive Task where
  | idle
  | missed
  | reading (generation : ℕ)
  | filling (generation : ℕ) (reading : Reading)
  | answered (cached : Bool) (reading : Reading)
  | emitting (signals : List Signal)
  | failed
  | watcher

inductive Act where
  | ask
  | snapshot
  | read
  | fill
  | write (writes : List (Text × Json))
  | emit
  | fail
  | invalidate
  | establish
  | subscribed
  | handle
  | lapse
  | lapsed

section Turn

variable (check : Json → Json → Option Json)

/-- One write of a batch; `check` is what micad makes of a candidate tree, from the tree it
holds: the typed settings read back and validated, or nothing. -/
def setOne (tree : Json) (write : Text × Json) : Option Json :=
  if isRoot write.1 then check tree write.2
  else match splitPath write.1 with
    | .ok segments => (jsonPathSet tree segments write.2).toOption.bind (check tree)
    | .error _ => none

def persist (tree : Json) (writes : List (Text × Json)) : Option Json :=
  writes.foldlM (setOne check) tree

/-- One turn: a lock is held for one turn, and any other task may run in between. -/
def turn (s : Gate) : Task → Act → Option (Gate × Task)
  | .idle, .ask =>
    match s.cache.get with
    | some value => some (s, .answered true value)
    | none => some (s, .missed)
  | .missed, .snapshot => some (s, .reading s.cache.generation)
  | .reading generation, .read =>
    (jsonPathGet s.tree accessPath).map fun value ↦ (s, .filling generation ⟨value, s.writes⟩)
  | .reading _, .fail => some (s, .failed)
  | .filling generation reading, .fill =>
    some ({ s with cache := s.cache.fill generation reading }, .answered false reading)
  | .idle, .write writes =>
    (persist check s.tree writes).map fun tree ↦
      ({ s with tree := tree, writes := s.writes + 1 },
        .emitting (writes.map fun w ↦ ⟨w.1, s.writes⟩))
  | .emitting (x :: xs), .emit =>
    -- Without a subscription nobody hears the signal.
    if s.watch = .established ∨ s.watch = .live then
      some ({ s with stream := s.stream ++ [x] }, .emitting xs)
    else some (s, .emitting xs)
  | .emitting _, .fail => some (s, .failed)
  -- apid drops the cached value after a write of its own.
  | .idle, .invalidate => some ({ s with cache := s.cache.invalidate }, .idle)
  | .watcher, .establish =>
    if s.watch = .down then some ({ s with watch := .established, stream := [] }, .watcher) else none
  | .watcher, .subscribed =>
    if s.watch = .established then
      some ({ s with watch := .live, cache := s.cache.subscribed }, .watcher)
    else none
  | .watcher, .handle =>
    match s.watch, s.stream with
    | .live, x :: xs =>
      some ({ s with
        stream := xs
        handled := x :: s.handled
        cache := if touchesAccess x.path then s.cache.invalidate else s.cache }, .watcher)
    | _, _ => none
  | .watcher, .lapse => some ({ s with watch := .ended, stream := [] }, .watcher)
  | .watcher, .lapsed =>
    if s.watch = .ended then
      some ({ s with watch := .down, cache := s.cache.lapsed }, .watcher)
    else none
  | _, _ => none

end Turn

def start (tree : Json) : Pool Gate Task where
  shared := { tree := tree }
  thread i := if i = 0 then .watcher else .idle

def addressesAccess (path : Text) : Bool :=
  isRoot path || match splitPath path with
    | .ok (first :: _) => first == accessPath
    | _ => false

/-- No signal that was handled tells of a write the cached value missed. -/
def Fresh (s : Gate) : Prop :=
  ∀ x ∈ s.handled, addressesAccess x.path = true → ∀ r ∈ s.cache.get, x.write < r.seen

instance (s : Gate) : Decidable (Fresh s) :=
  inferInstanceAs (Decidable (∀ x ∈ s.handled, _ → ∀ r ∈ s.cache.get, x.write < r.seen))

/-- The writes that address `access` spell its name bare. -/
def SpelledBare (_ : Gate) (_ : Task) : Act → Prop
  | .write writes => ∀ w ∈ writes, addressesAccess w.1 = true → w.1.head? ≠ some '"'
  | _ => True

instance (s : Gate) (r : Task) : ∀ a, Decidable (SpelledBare s r a)
  | .write writes => inferInstanceAs (Decidable (∀ w ∈ writes, _ → w.1.head? ≠ some '"'))
  | .ask | .snapshot | .read | .fill | .emit | .fail | .invalidate | .establish | .subscribed
  | .handle | .lapse | .lapsed => isTrue trivial

theorem touchesAccess_of_spelling {p : Text} {ss : List Text}
    (h : Spelling p (accessPath :: ss)) (hq : p.head? ≠ some '"') : touchesAccess p = true := by
  cases h with
  | last hw =>
    cases hw with
    | bare => simp [touchesAccess]
    | quoted => simp at hq
  | @more w s p ss hw =>
    cases hw with
    | bare => simp [touchesAccess, stripPrefix_append]
    | quoted => simp at hq

theorem touchesAccess_of_addressesAccess {p : Text} (h : addressesAccess p = true)
    (hq : p.head? ≠ some '"') : touchesAccess p = true := by
  rcases Bool.or_eq_true_iff.1 h with hroot | hseg
  · rcases (by simpa [isRoot] using hroot : p = [] ∨ p = ['.']) with rfl | rfl <;> rfl
  · split at hseg
    · next hs =>
      rw [beq_iff_eq.1 hseg] at hs
      exact touchesAccess_of_spelling (splitPath_eq_ok.1 hs) hq
    · cases hseg

/-- A signal of an accepted write that the watcher will know. -/
structure Known (n : ℕ) (x : Signal) : Prop where
  earlier : x.write < n
  touches : addressesAccess x.path = true → touchesAccess x.path = true

/-- The reading came after every write the watcher has been told of. -/
def UpToDate (handled : List Signal) (r : Reading) : Prop :=
  ∀ x ∈ handled, addressesAccess x.path = true → x.write < r.seen

structure Sound (s : Gate) : Prop where
  stream : ∀ x ∈ s.stream, Known s.writes x
  handled : ∀ x ∈ s.handled, Known s.writes x
  value : ∀ r, s.cache.value = some r → UpToDate s.handled r

/-- A reading that missed a handled signal has an older generation. -/
def Task.Sound (s : Gate) : Task → Prop
  | .reading g => g ≤ s.cache.generation
  | .filling g r => g ≤ s.cache.generation ∧ (g = s.cache.generation → UpToDate s.handled r)
  | .emitting xs => ∀ x ∈ xs, Known s.writes x
  | _ => True

structure Keeps (s t : Gate) : Prop where
  writes : s.writes ≤ t.writes
  generation : s.cache.generation ≤ t.cache.generation
  handled : t.cache.generation = s.cache.generation →
    ∀ x ∈ t.handled, addressesAccess x.path = true → x ∈ s.handled

theorem Keeps.of_eq {s t : Gate} (hw : t.writes = s.writes) (hc : t.cache = s.cache)
    (hh : t.handled = s.handled) : Keeps s t :=
  ⟨hw.ge, hc ▸ le_rfl, fun _ _ hx _ ↦ hh ▸ hx⟩

theorem Keeps.refl (s : Gate) : Keeps s s := .of_eq rfl rfl rfl

theorem Known.mono {s t : Gate} {x : Signal} (h : Known s.writes x) (hk : Keeps s t) :
    Known t.writes x := ⟨h.earlier.trans_le hk.writes, h.touches⟩

theorem UpToDate.mono {s t : Gate} {r : Reading} (h : UpToDate s.handled r) (hk : Keeps s t)
    (hg : t.cache.generation = s.cache.generation) : UpToDate t.handled r :=
  fun x hx ha ↦ h x (hk.handled hg x hx ha) ha

theorem Task.Sound.mono {s t : Gate} {r : Task} (h : r.Sound s) (hk : Keeps s t) : r.Sound t := by
  cases r with
  | reading g => exact Nat.le_trans h hk.generation
  | filling g r =>
    refine ⟨h.1.trans hk.generation, fun hg ↦ ?_⟩
    have hsame : t.cache.generation = s.cache.generation :=
      le_antisymm (hg ▸ h.1) hk.generation
    exact (h.2 (hg.trans hsame)).mono hk hsame
  | emitting xs => exact fun x hx ↦ (h x hx).mono hk
  | _ => trivial

variable {check : Json → Json → Option Json} {s t : Gate} {r q : Task} {a : Act}

theorem Sound.renew (hs : Sound s) (hw : t.writes = s.writes) (hstream : t.stream ⊆ s.stream)
    (hhandled : ∀ x ∈ t.handled, x ∈ s.handled ∨ x ∈ s.stream)
    (hg : s.cache.generation < t.cache.generation) (hv : t.cache.value = none) :
    Sound t ∧ Keeps s t := by
  have hk : Keeps s t := ⟨hw.ge, hg.le, fun he ↦ absurd he hg.ne'⟩
  refine ⟨⟨fun x hx ↦ (hs.stream x (hstream hx)).mono hk, fun x hx ↦ ?_, fun r hr ↦ ?_⟩, hk⟩
  · rcases hhandled x hx with hx | hx
    · exact (hs.handled x hx).mono hk
    · exact (hs.stream x hx).mono hk
  · rw [hv] at hr
    cases hr

theorem turn_write {writes : List (Text × Json)} (hs : Sound s)
    (ha : SpelledBare s .idle (.write writes))
    (h : turn check s .idle (.write writes) = some (t, q)) : Sound t ∧ q.Sound t ∧ Keeps s t := by
  obtain ⟨tree, -, he⟩ := Option.map_eq_some_iff.1 h
  cases he
  have hk : Keeps s { s with tree := tree, writes := s.writes + 1 } :=
    ⟨Nat.le_succ _, le_rfl, fun _ _ hx _ ↦ hx⟩
  refine ⟨⟨fun x hx ↦ (hs.stream x hx).mono hk, fun x hx ↦ (hs.handled x hx).mono hk, hs.value⟩,
    fun x hx ↦ ?_, hk⟩
  obtain ⟨w, hw, rfl⟩ := List.mem_map.1 hx
  exact ⟨Nat.lt_succ_self _, fun hadd ↦ touchesAccess_of_addressesAccess hadd (ha w hw hadd)⟩

theorem turn_emit {x : Signal} {xs : List Signal} (hs : Sound s)
    (hr : Task.Sound s (.emitting (x :: xs)))
    (h : turn check s (.emitting (x :: xs)) .emit = some (t, q)) :
    Sound t ∧ q.Sound t ∧ Keeps s t := by
  obtain ⟨hx, hxs⟩ := List.forall_mem_cons.1 hr
  simp only [turn] at h
  split at h <;> cases h
  · refine ⟨⟨fun y hy ↦ ?_, hs.handled, hs.value⟩, hxs, .of_eq rfl rfl rfl⟩
    rcases List.mem_append.1 hy with hy | hy
    · exact hs.stream y hy
    · rwa [List.mem_singleton.1 hy]
  · exact ⟨hs, hxs, Keeps.refl s⟩

theorem turn_fill {g : ℕ} {r : Reading} (hs : Sound s) (hr : Task.Sound s (.filling g r))
    (h : turn check s (.filling g r) .fill = some (t, q)) : Sound t ∧ q.Sound t ∧ Keeps s t := by
  cases h
  have hk : Keeps s { s with cache := s.cache.fill g r } :=
    ⟨le_rfl, by simp, fun _ _ hx _ ↦ hx⟩
  refine ⟨⟨fun x hx ↦ (hs.stream x hx).mono hk, fun x hx ↦ (hs.handled x hx).mono hk, ?_⟩,
    trivial, hk⟩
  intro w hw
  rcases AccessCache.value_fill hw with ⟨hg, rfl⟩ | hw
  · exact hr.2 hg
  · exact hs.value w hw

theorem turn_handle (hs : Sound s) (h : turn check s .watcher .handle = some (t, q)) :
    Sound t ∧ q.Sound t ∧ Keeps s t := by
  simp only [turn] at h
  split at h
  · next x xs _ hstream =>
    cases h
    have hx : Known s.writes x := hs.stream x (by simp [hstream])
    have hxs : xs ⊆ s.stream := by simp [hstream]
    by_cases hta : touchesAccess x.path = true
    · have hrenew := hs.renew (t := { s with
          stream := xs, handled := x :: s.handled, cache := s.cache.invalidate })
        rfl hxs (by simp [hstream]; tauto) (Nat.lt_succ_self _) rfl
      simpa only [hta, if_true, Task.Sound, true_and] using hrenew
    · -- A signal the watcher passes by tells of no `access` write.
      have hnot : ¬ addressesAccess x.path = true := fun ha ↦ hta (hx.touches ha)
      simp only [hta]
      refine ⟨⟨fun y hy ↦ hs.stream y (hxs hy), ?_, fun r hr y hy ha ↦ ?_⟩, trivial,
        ⟨le_rfl, le_rfl, fun _ y hy ha ↦ ?_⟩⟩
      · exact List.forall_mem_cons.2 ⟨hx, hs.handled⟩
      · rcases List.mem_cons.1 hy with rfl | hy
        · exact absurd ha hnot
        · exact hs.value r hr y hy ha
      · rcases List.mem_cons.1 hy with rfl | hy
        · exact absurd ha hnot
        · exact hy
  · cases h

theorem turn_sound (hs : Sound s) (hr : r.Sound s) (ha : SpelledBare s r a)
    (h : turn check s r a = some (t, q)) : Sound t ∧ q.Sound t ∧ Keeps s t := by
  have hturn := h
  unfold turn at h
  split at h
  · split at h <;> cases h <;> exact ⟨hs, trivial, Keeps.refl s⟩
  · cases h
    exact ⟨hs, le_rfl, Keeps.refl s⟩
  · -- The reading has seen every accepted write, and so every one signalled.
    obtain ⟨value, -, he⟩ := Option.map_eq_some_iff.1 h
    cases he
    exact ⟨hs, ⟨hr, fun _ x hx _ ↦ (hs.handled x hx).earlier⟩, Keeps.refl s⟩
  · cases h
    exact ⟨hs, trivial, Keeps.refl s⟩
  · exact turn_fill hs hr hturn
  · exact turn_write hs ha hturn
  · exact turn_emit hs hr hturn
  · cases h
    exact ⟨hs, trivial, Keeps.refl s⟩
  · cases h
    obtain ⟨hs', hk⟩ := hs.renew (t := { s with cache := s.cache.invalidate }) rfl
      (List.Subset.refl _) (fun x hx ↦ .inl hx) (Nat.lt_succ_self _) rfl
    exact ⟨hs', trivial, hk⟩
  · split at h
    · cases h
      exact ⟨⟨by simp, hs.handled, hs.value⟩, trivial, .of_eq rfl rfl rfl⟩
    · cases h
  · split at h
    · cases h
      obtain ⟨hs', hk⟩ := hs.renew (t := { s with watch := .live, cache := s.cache.subscribed }) rfl
        (List.Subset.refl _) (fun x hx ↦ .inl hx) (Nat.lt_succ_self _) rfl
      exact ⟨hs', trivial, hk⟩
    · cases h
  · exact turn_handle hs hturn
  · cases h
    exact ⟨⟨by simp, hs.handled, hs.value⟩, trivial, .of_eq rfl rfl rfl⟩
  · split at h
    · cases h
      obtain ⟨hs', hk⟩ := hs.renew (t := { s with watch := .down, cache := s.cache.lapsed }) rfl
        (List.Subset.refl _) (fun x hx ↦ .inl hx) (Nat.lt_succ_self _) rfl
      exact ⟨hs', trivial, hk⟩
    · cases h
  · cases h

/-- Once the signal of a write of `access`, spelt bare, is handled, nothing read before it is answered. -/
theorem fresh_of_runs {tree : Json} {ls : List (ℕ × Act)} {p : Pool Gate Task}
    (h : Pool.Runs (turn check) SpelledBare (start tree) ls p) : Fresh p.shared := by
  have hstart : Sound (start tree).shared ∧
      ∀ i, ((start tree).thread i).Sound (start tree).shared := by
    refine ⟨⟨by simp [start], by simp [start], by simp [start]⟩, fun i ↦ ?_⟩
    simp only [start]
    split <;> trivial
  have hsound := (Pool.invariant (L := fun _ s r ↦ r.Sound s)
    (fun _ _ _ _ _ _ hs hr ha ht ↦ turn_sound hs hr ha ht)
    (fun _ _ _ _ _ hr hk ↦ hr.mono hk) hstart h).1
  exact fun x hx ha r hr ↦ hsound.value r (AccessCache.value_of_get hr) x hx ha

def sampleTree : Json :=
  .obj [(accessPath, .obj [("hash".toList, .str "old".toList)])]

def replaced (path : Text) : List (ℕ × Act) :=
  [(0, .establish), (0, .subscribed), (1, .ask), (1, .snapshot), (1, .read), (1, .fill),
    (2, .write [(path, .obj [("hash".toList, .str "new".toList)])]), (2, .emit), (0, .handle),
    (3, .ask)]

theorem fresh_of_runs_replaced : ∃ p,
    Pool.Runs (turn fun _ candidate ↦ some candidate) SpelledBare (start sampleTree)
      (replaced accessPath) p ∧ p.shared.handled ≠ [] ∧ Fresh p.shared := by
  obtain ⟨p, hp, hh⟩ : ∃ p, Pool.Runs (turn fun _ candidate ↦ some candidate) SpelledBare
      (start sampleTree) (replaced accessPath) p ∧ p.shared.handled ≠ [] := by decide
  exact ⟨p, hp, hh, fresh_of_runs hp⟩

def answeredOld (i : ℕ) (p : Pool Gate Task) : Bool :=
  match p.thread i with
  | .answered true r => r.seen == 0
  | _ => false

/-- After a write that spells the name in quotes, the old subtree is still answered. -/
theorem answeredOld_of_quoted : ∃ p,
    Pool.Runs (turn fun _ candidate ↦ some candidate) (fun _ _ _ ↦ True) (start sampleTree)
      (replaced "\"access\"".toList) p ∧ ¬ Fresh p.shared ∧ answeredOld 3 p = true := by
  decide

end Gate

end MicaCore.Api
