import MicaCore.Crash.Program

namespace MicaCore.Crash

variable {σ ε α ι : Type}

/-- An operation, the durable states it passed, and whether it ran to a successful end. -/
structure Event (ι σ : Type) where
  before : σ
  op : ι
  visited : List σ
  completed : Bool

namespace Event

def after (e : Event ι σ) : σ := e.visited.getLastD e.before

/-- The states of an interrupted operation are an initial part of the whole one's. -/
structure Valid (exec : ι → Prog σ ε α) (e : Event ι σ) : Prop where
  cut : e.visited <+: (exec e.op e.before).states
  ended : e.completed = true → e.visited = (exec e.op e.before).states ∧
    ∃ a, (exec e.op e.before).result = .ok a

def whole (exec : ι → Prog σ ε α) (s : σ) (op : ι) : Event ι σ where
  before := s
  op := op
  visited := (exec op s).states
  completed := (exec op s).result.toOption.isSome

def cutAfter (exec : ι → Prog σ ε α) (s : σ) (op : ι) (n : ℕ) : Event ι σ where
  before := s
  op := op
  visited := (exec op s).states.take n
  completed := false

variable {exec : ι → Prog σ ε α}

theorem whole_valid (s : σ) (op : ι) : (whole exec s op).Valid exec where
  cut := List.prefix_rfl
  ended h := by
    refine ⟨rfl, ?_⟩
    cases hr : (exec op s).result with
    | error e => simp [whole, hr, Except.toOption] at h
    | ok a => exact ⟨a, hr⟩

theorem cutAfter_valid (s : σ) (op : ι) (n : ℕ) : (cutAfter exec s op n).Valid exec where
  cut := List.take_prefix n _
  ended h := by simp [cutAfter] at h

theorem after_eq_or_mem (e : Event ι σ) : e.after = e.before ∨ e.after ∈ e.visited :=
  Prog.getLastD_eq_or_mem _ _

theorem Valid.after_eq_last {e : Event ι σ} (h : e.Valid exec) (he : e.completed = true) :
    e.after = (exec e.op).last e.before := by
  rw [after, (h.ended he).1, Prog.last]

theorem Valid.isChain {e : Event ι σ} (h : e.Valid exec) {G : σ → σ → Prop}
    {R : Except ε α → σ → Prop} (hw : (exec e.op).wp G R e.before) :
    List.IsChain G (e.before :: e.visited) := by
  obtain ⟨rest, hrest⟩ := h.cut
  have hchain := hw.1
  rw [← hrest, Prog.isChain_append_getLastD] at hchain
  exact hchain.1

end Event

/-- Runs in which every operation is taken in a state `A` allows it in. -/
inductive Run (exec : ι → Prog σ ε α) (A : σ → ι → Prop) : σ → List (Event ι σ) → σ → Prop
  | nil (s : σ) : Run exec A s [] s
  | cons {e : Event ι σ} {es : List (Event ι σ)} {t : σ} :
      e.Valid exec → A e.before e.op → Run exec A e.after es t → Run exec A e.before (e :: es) t

/-- The durable states a run passes, in order, after the one it starts in. -/
def states (es : List (Event ι σ)) : List σ := es.flatMap Event.visited

@[simp] theorem states_cons (e : Event ι σ) (es : List (Event ι σ)) :
    states (e :: es) = e.visited ++ states es := rfl

namespace Run

variable {exec : ι → Prog σ ε α} {A : σ → ι → Prop} {s t u : σ} {es fs : List (Event ι σ)}

theorem one {e : Event ι σ} (h : e.Valid exec) (ha : A e.before e.op) :
    Run exec A e.before [e] e.after := .cons h ha (.nil _)

theorem strengthen {B : σ → ι → Prop} (h : Run exec A s es t) (hB : ∀ e ∈ es, B e.before e.op) :
    Run exec B s es t := by
  induction h with
  | nil => exact .nil _
  | cons hv _ _ ih =>
    exact .cons hv (hB _ (by simp)) (ih fun e he ↦ hB e (by simp [he]))

theorem split (h : Run exec A s (es ++ fs) u) : ∃ t, Run exec A s es t ∧ Run exec A t fs u := by
  induction es generalizing s with
  | nil => exact ⟨s, .nil s, h⟩
  | cons e es ih =>
    cases h with
    | cons hv ha h =>
      obtain ⟨t, h₁, h₂⟩ := ih h
      exact ⟨t, .cons hv ha h₁, h₂⟩

theorem last_eq (h : Run exec A s es t) : t = (states es).getLastD s := by
  induction h with
  | nil => rfl
  | @cons e es t hv ha h ih =>
    rw [ih, states_cons, Event.after, Prog.getLastD_append]

section

variable {G : σ → σ → Prop} {I : σ → Prop} (hG : ∀ s t, I s → G s t → I t)
  (hop : ∀ s op, I s → A s op → ∃ R, (exec op).wp G R s) (hs : I s) (h : Run exec A s es t)

include hG hop hs h

/-- If operations keep to `G` from `I`, and `G` keeps `I`, a run's states are a chain of `G`. -/
theorem isChain : List.IsChain G (s :: states es) := by
  induction h with
  | nil => simp [states]
  | @cons e es t hv ha h ih =>
    obtain ⟨R, hw⟩ := hop e.before e.op hs ha
    have hchain := hv.isChain hw
    have hafter : I e.after := by
      rcases e.after_eq_or_mem with he | he
      · rwa [he]
      · exact Prog.forall_mem_of_isChain I hs hG hchain _ he
    rw [states_cons, Prog.isChain_append_getLastD]
    exact ⟨hchain, ih hafter⟩

theorem invariant : ∀ u ∈ s :: states es, I u := by
  intro u hu
  rcases List.mem_cons.1 hu with rfl | hu
  · exact hs
  · exact Prog.forall_mem_of_isChain I hs hG (h.isChain hG hop hs) u hu

end

theorem end_mem (h : Run exec A s es t) : t ∈ s :: states es := by
  rw [h.last_eq, List.mem_cons]
  exact Prog.getLastD_eq_or_mem _ _

theorem before_mem (h : Run exec A s es t) {e : Event ι σ} (he : e ∈ es) :
    e.Valid exec ∧ A e.before e.op ∧ e.before ∈ s :: states es := by
  obtain ⟨xs, ys, rfl⟩ := List.append_of_mem he
  obtain ⟨u, h₁, h₂⟩ := h.split
  have hu := h₁.end_mem
  cases h₂ with
  | cons hv ha _ =>
    refine ⟨hv, ha, ?_⟩
    rcases List.mem_cons.1 hu with hu | hu
    · simp [hu]
    · exact List.mem_cons_of_mem _ (by simp [states, List.flatMap_append] at hu ⊢; exact .inl hu)

/-- A script's operations in order, each to its end or cut off after so many writes. -/
def play (exec : ι → Prog σ ε α) : σ → List (ι × Option ℕ) → List (Event ι σ)
  | _, [] => []
  | s, (op, none) :: rest =>
    Event.whole exec s op :: play exec (Event.whole exec s op).after rest
  | s, (op, some n) :: rest =>
    Event.cutAfter exec s op n :: play exec (Event.cutAfter exec s op n).after rest

theorem of_play (exec : ι → Prog σ ε α) (A : σ → ι → Prop) (s : σ) (script : List (ι × Option ℕ))
    (h : ∀ e ∈ play exec s script, A e.before e.op) :
    Run exec A s (play exec s script) ((states (play exec s script)).getLastD s) := by
  induction script generalizing s with
  | nil => exact .nil s
  | cons x rest ih =>
    obtain ⟨op, cut⟩ := x
    cases cut with
    | none =>
      rw [play, states_cons, Prog.getLastD_append]
      exact .cons (Event.whole_valid s op) (h _ (by simp [play]))
        (ih _ fun e he ↦ h e (by simp [play, he]))
    | some n =>
      rw [play, states_cons, Prog.getLastD_append]
      exact .cons (Event.cutAfter_valid s op n) (h _ (by simp [play]))
        (ih _ fun e he ↦ h e (by simp [play, he]))

end Run

end MicaCore.Crash
