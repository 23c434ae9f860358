import MicaCore.Concurrent.Threads
import MicaCore.Network.Address
import Mathlib.Algebra.BigOperators.Group.List.Basic
import Mathlib.Algebra.Order.BigOperators.Group.List

namespace MicaCore.Settings.Audit

open Data Concurrent

def auditRotateBytes : ℕ := 256 * 1024

def bytes (lines : List Text) : ℕ := (lines.map fun line ↦ byteLength line + 1).sum

/-- Every file there ever was has a number; `appended` and `failed` account for the lines. -/
structure Ring where
  file : ℕ → List Text
  log : Option ℕ
  previous : Option ℕ
  next : ℕ
  appended : List (ℕ × Text)
  failed : List Text

/-- Before its first step, after its look at the size, after its rename, with the log open. -/
inductive Writer
  | idle
  | looked (line : Text) (size : ℕ)
  | rotated (line : Text)
  | opened (line : Text) (file : ℕ)

inductive Action
  | look (line : Text)
  | rename
  | openLog
  | write

def Writer.pending : Writer → ℕ
  | .idle => 0
  | .looked line _ | .rotated line | .opened line _ => byteLength line + 1

namespace Ring

def size (ring : Ring) : ℕ := (ring.log.map fun f ↦ bytes (ring.file f)).getD 0

def rename (ring : Ring) (line : Text) : Ring × Writer :=
  match ring.log with
  | none => ({ ring with failed := line :: ring.failed }, .idle)
  | some f => ({ ring with log := none, previous := some f }, .rotated line)

def openLog (ring : Ring) (line : Text) : Ring × Writer :=
  match ring.log with
  | some f => (ring, .opened line f)
  | none =>
    ({ ring with file := Function.update ring.file ring.next [], log := some ring.next, next := ring.next + 1 },
      .opened line ring.next)

def write (ring : Ring) (line : Text) (f : ℕ) : Ring × Writer :=
  ({ ring with
      file := Function.update ring.file f (ring.file f ++ [line])
      appended := (f, line) :: ring.appended }, .idle)

end Ring

def turn (ring : Ring) : Writer → Action → Option (Ring × Writer)
  | .idle, .look line => some (ring, .looked line ring.size)
  | .looked line size, .rename =>
    if size + byteLength line + 1 > auditRotateBytes then some (ring.rename line) else none
  | .looked line size, .openLog =>
    if size + byteLength line + 1 > auditRotateBytes then none else some (ring.openLog line)
  | .rotated line, .openLog => some (ring.openLog line)
  | .opened line f, .write => some (ring.write line f)
  | _, _ => none

/-- A line fits in an empty file. -/
def Short (_ : Ring) : Writer → Action → Prop
  | .idle, .look line => byteLength line < auditRotateBytes - 1
  | _, _ => True

/-- A rename moves a log still too full for the line, and a write goes to the log. -/
def Steady (ring : Ring) : Writer → Action → Prop
  | .looked line _, .rename => ring.size + byteLength line + 1 > auditRotateBytes
  | .opened _ f, .write => ring.log = some f
  | _, _ => True

def Ring.Holds (ring : Ring) (f : ℕ) (line : Text) : Prop :=
  (ring.log = some f ∨ ring.previous = some f) ∧ line ∈ ring.file f

def Overtaken (p : Pool Ring Writer) (after : List Text) : Prop :=
  ∃ writers : List ℕ, writers.Nodup ∧
    auditRotateBytes < bytes after + (writers.map fun w ↦ (p.thread w).pending).sum

/-- No append failed, and every line appended is there or overtaken. -/
structure Kept (p : Pool Ring Writer) : Prop where
  failed : p.shared.failed = []
  held : ∀ after f line before, p.shared.appended = after ++ (f, line) :: before →
    p.shared.Holds f line ∨ Overtaken p (after.map Prod.snd)

/-- No writer is at work, and nothing was appended yet. -/
structure Resting (p : Pool Ring Writer) : Prop where
  idle : ∀ w, p.thread w = .idle
  appended : p.shared.appended = []
  failed : p.shared.failed = []
  named : ∀ f, p.shared.log = some f ∨ p.shared.previous = some f → f < p.shared.next

/-- The lines of the log came after every line that is not in it. -/
structure Sound (p : Pool Ring Writer) : Prop where
  failed : p.shared.failed = []
  short : ∀ w, (p.thread w).pending < auditRotateBytes
  named : ∀ f, p.shared.log = some f ∨ p.shared.previous = some f → f < p.shared.next
  entries : ∀ e ∈ p.shared.appended, e.1 < p.shared.next ∧ e.2 ∈ p.shared.file e.1
  order : ∀ after f line before, p.shared.appended = after ++ (f, line) :: before →
    p.shared.log ≠ some f →
    p.shared.size ≤ bytes (after.map Prod.snd) ∧
      (p.shared.previous = some f ∨ Overtaken p (after.map Prod.snd))

section Turns

variable {p : Pool Ring Writer} {ring : Ring} {r : Writer} {w : ℕ} {after : List Text} {line : Text}

@[simp] theorem bytes_cons : bytes (line :: after) = byteLength line + 1 + bytes after := by
  simp [bytes]

@[simp] theorem bytes_append (xs ys : List Text) : bytes (xs ++ ys) = bytes xs + bytes ys := by
  simp [bytes]

theorem Overtaken.mono (h : Overtaken p after) (hpending : (p.thread w).pending ≤ r.pending) :
    Overtaken ⟨ring, Function.update p.thread w r⟩ after := by
  obtain ⟨writers, hnodup, htotal⟩ := h
  refine ⟨writers, hnodup, htotal.trans_le (Nat.add_le_add_left (List.sum_le_sum fun v _ ↦ ?_) _)⟩
  by_cases hv : v = w
  · subst hv
    simpa using hpending
  · simp [hv]

theorem Overtaken.write (h : Overtaken p after)
    (hpending : (p.thread w).pending = byteLength line + 1) :
    Overtaken ⟨ring, Function.update p.thread w .idle⟩ (line :: after) := by
  obtain ⟨writers, hnodup, htotal⟩ := h
  have hsame : ∀ vs : List ℕ, w ∉ vs →
      (vs.map fun v ↦ (Function.update p.thread w .idle v).pending).sum =
        (vs.map fun v ↦ (p.thread v).pending).sum := by
    intro vs hw
    congr 1
    refine List.map_congr_left fun v hv ↦ ?_
    have hne : v ≠ w := fun he ↦ hw (he ▸ hv)
    simp [hne]
  refine ⟨writers.erase w, hnodup.erase w, ?_⟩
  rw [hsame _ hnodup.not_mem_erase, bytes_cons]
  by_cases hw : w ∈ writers
  · have hsum := List.sum_map_erase (fun v ↦ (p.thread v).pending) hw
    simp only [hpending] at hsum
    omega
  · rw [List.erase_of_not_mem hw]
    omega

theorem Sound.short_update (h : Sound p) (hr : r.pending < auditRotateBytes) (v : ℕ) :
    (Function.update p.thread w r v).pending < auditRotateBytes := by
  by_cases hv : v = w
  · subst hv
    simpa using hr
  · simpa [hv] using h.short v

theorem Sound.turn_thread (h : Sound p) (hr : r.pending < auditRotateBytes)
    (hpending : (p.thread w).pending ≤ r.pending) :
    Sound ⟨p.shared, Function.update p.thread w r⟩ where
  failed := h.failed
  short := h.short_update hr
  named := h.named
  entries := h.entries
  order after f line before hsplit hlog := by
    obtain ⟨hsize, hheld⟩ := h.order after f line before hsplit hlog
    exact ⟨hsize, hheld.imp_right fun ho ↦ ho.mono hpending⟩

theorem Sound.rename (h : Sound p) {size : ℕ} (hw : p.thread w = .looked line size)
    (hfull : p.shared.size + byteLength line + 1 > auditRotateBytes) :
    Sound ⟨(p.shared.rename line).1, Function.update p.thread w (p.shared.rename line).2⟩ := by
  have hshort := h.short w
  rw [hw, Writer.pending] at hshort
  cases hlog : p.shared.log with
  | none =>
    rw [Ring.size, hlog] at hfull
    simp only [Option.map_none, Option.getD_none] at hfull
    omega
  | some g =>
    have hrename : p.shared.rename line = ({ p.shared with log := none, previous := some g }, .rotated line) := by
      rw [Ring.rename, hlog]
    have hpending : (p.thread w).pending ≤ (Writer.rotated line).pending := by rw [hw]; exact le_rfl
    rw [hrename]
    refine ⟨h.failed, h.short_update hshort, ?_, h.entries, ?_⟩
    · rintro f (hf | hf)
      · cases hf
      · cases hf
        exact h.named g (.inl hlog)
    · intro after f line' before hsplit _
      refine ⟨Nat.zero_le _, ?_⟩
      by_cases hf : p.shared.log = some f
      · exact .inl (hlog ▸ hf)
      · -- the line goes out of the ring: all of the log came after it, and so does the new line
        obtain ⟨hsize, -⟩ := h.order after f line' before hsplit hf
        refine .inr ⟨[w], by simp, ?_⟩
        simp only [List.map_cons, List.map_nil, List.sum_cons, List.sum_nil, Function.update_self,
          Writer.pending]
        omega

theorem Sound.openLog (h : Sound p) (hpending : (p.thread w).pending = byteLength line + 1) :
    Sound ⟨(p.shared.openLog line).1, Function.update p.thread w (p.shared.openLog line).2⟩ := by
  have hshort := h.short w
  rw [hpending] at hshort
  have hle : ∀ f, (p.thread w).pending ≤ (Writer.opened line f).pending := fun f ↦ hpending.le
  cases hlog : p.shared.log with
  | some f =>
    have hopen : p.shared.openLog line = (p.shared, .opened line f) := by rw [Ring.openLog, hlog]
    rw [hopen]
    exact h.turn_thread hshort (hle f)
  | none =>
    have hopen : p.shared.openLog line = ({ p.shared with
        file := Function.update p.shared.file p.shared.next [], log := some p.shared.next,
        next := p.shared.next + 1 }, .opened line p.shared.next) := by rw [Ring.openLog, hlog]
    rw [hopen]
    refine ⟨h.failed, h.short_update hshort, ?_, fun e he ↦ ?_, ?_⟩
    · rintro f (hf | hf)
      · cases hf
        exact Nat.lt_succ_self _
      · exact (h.named f (.inr hf)).trans (Nat.lt_succ_self _)
    · obtain ⟨hlt, hmem⟩ := h.entries e he
      refine ⟨hlt.trans (Nat.lt_succ_self _), ?_⟩
      show e.2 ∈ Function.update p.shared.file p.shared.next [] e.1
      rwa [Function.update_of_ne hlt.ne]
    · intro after f line' before hsplit _
      obtain ⟨-, hheld⟩ := h.order after f line' before hsplit (by simp [hlog])
      refine ⟨?_, hheld.imp_right fun ho ↦ ho.mono (hle _)⟩
      simp [Ring.size, bytes]

theorem Sound.write (h : Sound p) {g : ℕ} (hw : p.thread w = .opened line g)
    (hlog : p.shared.log = some g) :
    Sound ⟨(p.shared.write line g).1, Function.update p.thread w (p.shared.write line g).2⟩ := by
  have hpending : (p.thread w).pending = byteLength line + 1 := by rw [hw]; rfl
  have hnext := h.named g (.inl hlog)
  have hsize : (p.shared.write line g).1.size = p.shared.size + (byteLength line + 1) := by
    have hline : bytes [line] = byteLength line + 1 := by simp [bytes]
    simp [Ring.size, Ring.write, hlog, hline]
  have hidle : (p.shared.write line g).2.pending < auditRotateBytes := by
    show 0 < auditRotateBytes
    decide
  refine ⟨h.failed, h.short_update hidle, h.named, ?_, ?_⟩
  · intro e he
    rcases List.mem_cons.1 he with rfl | he
    · exact ⟨hnext, by simp [Ring.write]⟩
    · obtain ⟨hlt, hmem⟩ := h.entries e he
      refine ⟨hlt, ?_⟩
      by_cases hg : e.1 = g
      · simp [Ring.write, hg, hg ▸ hmem]
      · simpa [Ring.write, hg] using hmem
  · intro after f line' before hsplit hf
    cases after with
    | nil =>
      cases hsplit
      exact absurd hlog hf
    | cons e after =>
      obtain ⟨rfl, htail⟩ : (g, line) = e ∧ p.shared.appended = after ++ (f, line') :: before :=
        List.cons.inj hsplit
      obtain ⟨hle, hheld⟩ := h.order after f line' before htail hf
      refine ⟨?_, hheld.imp_right fun ho ↦ ho.write hpending⟩
      show (p.shared.write line g).1.size ≤ bytes (line :: after.map Prod.snd)
      rw [hsize, bytes_cons]
      omega

theorem Sound.step {a : ℕ × Action} {q : Pool Ring Writer} (h : Sound p)
    (ha : Short p.shared (p.thread a.1) a.2 ∧ Steady p.shared (p.thread a.1) a.2)
    (hstep : Pool.step turn p a = some q) : Sound q := by
  obtain ⟨ring, r, hturn, rfl⟩ := Pool.step_eq_some hstep
  obtain ⟨w, a⟩ := a
  obtain ⟨hshort, hsteady⟩ := ha
  dsimp only at hturn hshort hsteady ⊢
  have hopen : ∀ line, (p.thread w).pending = byteLength line + 1 →
      Sound ⟨(p.shared.openLog line).1, Function.update p.thread w (p.shared.openLog line).2⟩ :=
    fun line hpending ↦ h.openLog hpending
  cases hw : p.thread w with
  | idle =>
    rw [hw] at hturn hshort
    cases a with
    | look line =>
      cases hturn
      have hlong : byteLength line + 1 < auditRotateBytes := Nat.add_lt_of_lt_sub hshort
      exact h.turn_thread hlong (by rw [hw]; exact Nat.zero_le _)
    | rename | openLog | write => cases hturn
  | looked line size =>
    rw [hw] at hturn hsteady
    cases a with
    | look line' | write => cases hturn
    | rename =>
      simp only [turn, Option.ite_none_right_eq_some, Option.some.injEq] at hturn
      obtain ⟨-, hturn⟩ := hturn
      have hrename := h.rename hw hsteady
      rwa [hturn] at hrename
    | openLog =>
      simp only [turn, Option.ite_none_left_eq_some, Option.some.injEq] at hturn
      obtain ⟨-, hturn⟩ := hturn
      have hsound := hopen line (by rw [hw]; rfl)
      rwa [hturn] at hsound
  | rotated line =>
    rw [hw] at hturn
    cases a with
    | look line' | write | rename => cases hturn
    | openLog =>
      have hsound := hopen line (by rw [hw]; rfl)
      rwa [Option.some.inj hturn] at hsound
  | opened line f =>
    rw [hw] at hturn hsteady
    cases a with
    | look line' | openLog | rename => cases hturn
    | write =>
      cases hturn
      exact h.write hw hsteady

end Turns

section Runs

variable {p q : Pool Ring Writer}

theorem Resting.sound (h : Resting p) : Sound p where
  failed := h.failed
  short w := by
    rw [h.idle w]
    decide
  named := h.named
  entries := by simp [h.appended]
  order after f line before hsplit := by simp [h.appended] at hsplit

theorem Sound.kept (h : Sound p) : Kept p where
  failed := h.failed
  held after f line before hsplit := by
    have hmem : line ∈ p.shared.file f := (h.entries (f, line) (by simp [hsplit])).2
    by_cases hlog : p.shared.log = some f
    · exact .inl ⟨.inl hlog, hmem⟩
    · obtain ⟨-, hheld⟩ := h.order after f line before hsplit hlog
      exact hheld.imp_left fun hprevious ↦ ⟨.inr hprevious, hmem⟩

/-- With steady turns, no append fails and no line is lost early. -/
theorem kept_of_steady {turns : List (ℕ × Action)} (hp : Resting p)
    (h : Pool.Runs turn (fun ring r a ↦ Short ring r a ∧ Steady ring r a) p turns q) : Kept q :=
  (h.invariant (fun _ _ _ hsound ha hstep ↦ hsound.step ha hstep) hp.sound).kept

def sampleLine : Text := "login".toList

theorem renames_collide {ring : Ring} {f : ℕ} {line : Text} (hlog : ring.log = some f)
    (hfull : auditRotateBytes ≤ ring.size) (hshort : byteLength line < auditRotateBytes - 1) :
    ∃ q, Pool.Runs turn Short ⟨ring, fun _ ↦ .idle⟩
      [(0, .look line), (1, .look line), (0, .rename), (1, .rename)] q ∧
      q.shared.failed = line :: ring.failed := by
  have hrotates : ring.size + byteLength line + 1 > auditRotateBytes := by omega
  let both : Pool Ring Writer := ⟨ring, Function.update (Function.update (fun _ ↦ .idle) 0
    (.looked line ring.size)) 1 (.looked line ring.size)⟩
  let moved : Pool Ring Writer := ⟨{ ring with log := none, previous := some f },
    Function.update both.thread 0 (.rotated line)⟩
  have hfirst : Pool.step turn both (0, .rename) = some moved := by
    simp [Pool.step, both, moved, turn, hrotates, Ring.rename, hlog]
  have hsecond : Pool.step turn moved (1, .rename) =
      some ⟨{ moved.shared with failed := line :: ring.failed }, Function.update moved.thread 1 .idle⟩ := by
    simp [Pool.step, both, moved, turn, hrotates, Ring.rename]
  exact ⟨_, .cons hshort rfl (.cons hshort rfl (.cons (t := moved) trivial hfirst
    (.cons trivial hsecond (.nil _)))), rfl⟩

def fullRing : Ring where
  file _ := [List.replicate (auditRotateBytes - 1) 'x']
  log := some 0
  previous := none
  next := 1
  appended := []
  failed := []

theorem bytes_replicate (n : ℕ) : bytes [List.replicate n 'x'] = n + 1 := by
  have hx : Char.utf8Size 'x' = 1 := by decide
  simp [bytes, byteLength, hx]

theorem size_fullRing : fullRing.size = auditRotateBytes - 1 + 1 := by
  have hlog : fullRing.log = some 0 := rfl
  have hfile : fullRing.file 0 = [List.replicate (auditRotateBytes - 1) 'x'] := rfl
  rw [Ring.size, hlog, Option.map_some, Option.getD_some, hfile, bytes_replicate]

/-- One writer rotates the log while another, which saw none, waits to open it. -/
def rotating : List (ℕ × Action) :=
  [(0, .look sampleLine), (0, .rename), (1, .look sampleLine), (0, .openLog), (0, .write),
    (1, .openLog), (1, .write)]

theorem kept_of_steady_rotating :
    ∃ q, Pool.Runs turn (fun ring r a ↦ Short ring r a ∧ Steady ring r a) ⟨fullRing, fun _ ↦ .idle⟩
      rotating q ∧ q.shared.previous = some 0 ∧ q.shared.appended.length = 2 ∧ Kept q := by
  have hresting : Resting ⟨fullRing, fun _ ↦ .idle⟩ := ⟨fun _ ↦ rfl, rfl, rfl, by simp [fullRing]⟩
  have hshort : byteLength sampleLine < auditRotateBytes - 1 := by decide
  have hfull : fullRing.size + byteLength sampleLine + 1 > auditRotateBytes := by
    rw [size_fullRing]
    omega
  let looked : Pool Ring Writer :=
    ⟨fullRing, Function.update (fun _ ↦ .idle) 0 (.looked sampleLine fullRing.size)⟩
  let moved : Pool Ring Writer := ⟨{ fullRing with log := none, previous := some 0 },
    Function.update looked.thread 0 (.rotated sampleLine)⟩
  have hrename : Pool.step turn looked (0, .rename) = some moved := by
    have hlog : fullRing.log = some 0 := rfl
    simp [Pool.step, looked, moved, turn, hfull, Ring.rename, hlog]
  have hsteady : Steady looked.shared (looked.thread 0) .rename := hfull
  obtain ⟨q, hrun, hprevious, hlength⟩ : ∃ q,
      Pool.Runs turn (fun ring r a ↦ Short ring r a ∧ Steady ring r a) moved (rotating.drop 2) q ∧
      q.shared.previous = some 0 ∧ q.shared.appended.length = 2 :=
    ⟨_, .cons ⟨hshort, trivial⟩ rfl (.cons ⟨trivial, trivial⟩ rfl (.cons ⟨trivial, rfl⟩ rfl
      (.cons ⟨trivial, trivial⟩ rfl (.cons ⟨trivial, rfl⟩ rfl (.nil _))))), rfl, rfl⟩
  have hall : Pool.Runs turn (fun ring r a ↦ Short ring r a ∧ Steady ring r a)
      ⟨fullRing, fun _ ↦ .idle⟩ rotating q := .cons (t := looked) ⟨hshort, trivial⟩ rfl (.cons ⟨trivial, hsteady⟩ hrename hrun)
  exact ⟨q, hall, hprevious, hlength, kept_of_steady hresting hall⟩

/-- Two appenders over a full file both rotate, and the second rename fails. -/
theorem not_forall_linesKept :
    ¬∀ (p q : Pool Ring Writer) (turns : List (ℕ × Action)), Resting p →
    Pool.Runs turn Short p turns q →
      Kept q := by
  intro hall
  have hresting : Resting ⟨fullRing, fun _ ↦ .idle⟩ := ⟨fun _ ↦ rfl, rfl, rfl, by simp [fullRing]⟩
  obtain ⟨q, hrun, hfailed⟩ := @renames_collide fullRing 0 sampleLine rfl
    (by rw [size_fullRing]; omega) (by decide)
  have hkept := hall _ q _ hresting hrun
  rw [hkept.failed] at hfailed
  cases hfailed

end Runs

end MicaCore.Settings.Audit
