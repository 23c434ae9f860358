import Mathlib.Algebra.Order.Ring.Nat
import Mathlib.Data.List.Chain

namespace MicaCore.Crash

/-- The durable states a run passed, in order, and its answer; it may be cut off after any. -/
structure Outcome (σ ε α : Type) where
  states : List σ
  result : Except ε α

/-- A program over durable states: every write adds one to the outcome. -/
def Prog (σ ε α : Type) := σ → Outcome σ ε α

namespace Prog

variable {σ ε α β : Type}

def last (p : Prog σ ε α) (s : σ) : σ := (p s).states.getLastD s

instance : Monad (Prog σ ε) where
  pure a := fun _ ↦ ⟨[], .ok a⟩
  bind x f := fun s ↦
    match (x s).result with
    | .ok a => ⟨(x s).states ++ (f a (x.last s)).states, (f a (x.last s)).result⟩
    | .error e => ⟨(x s).states, .error e⟩

def get : Prog σ ε σ := fun s ↦ ⟨[], .ok s⟩

def write (f : σ → σ) : Prog σ ε Unit := fun s ↦ ⟨[f s], .ok ()⟩

def fail (e : ε) : Prog σ ε α := fun _ ↦ ⟨[], .error e⟩

def ofExcept (x : Except ε α) : Prog σ ε α := fun _ ↦ ⟨[], x⟩

def ensure (b : Bool) (e : ε) : Prog σ ε Unit := ofExcept (if b then .ok () else .error e)

def when (b : Bool) (p : Prog σ ε Unit) : Prog σ ε Unit := if b then p else pure ()

def read (f : σ → Except ε α) : Prog σ ε α := fun s ↦ ⟨[], f s⟩

def attempt (p : Prog σ ε α) : Prog σ ε (Except ε α) := fun s ↦ ⟨(p s).states, .ok (p s).result⟩

/-- Every write of a run is in `G`, and the answer and last state meet `R`. -/
def wp (p : Prog σ ε α) (G : σ → σ → Prop) (R : Except ε α → σ → Prop) (s : σ) : Prop :=
  List.IsChain G (s :: (p s).states) ∧ R (p s).result (p.last s)

/-- A postcondition that asks something of successful runs only. -/
def onOk (Q : α → σ → Prop) : Except ε α → σ → Prop
  | .ok a, t => Q a t
  | .error _, _ => True

def andThen (f : α → Prog σ ε β) (G : σ → σ → Prop) (R : Except ε β → σ → Prop) :
    Except ε α → σ → Prop
  | .ok a, t => wp (f a) G R t
  | .error e, t => R (.error e) t

variable {G G' : σ → σ → Prop} {R R' : Except ε α → σ → Prop} {s : σ}

@[simp] theorem onOk_ok (Q : α → σ → Prop) (a : α) (t : σ) :
    onOk Q (.ok a : Except ε α) t = Q a t := rfl

@[simp] theorem andThen_ok (f : α → Prog σ ε β) (R : Except ε β → σ → Prop) (a : α) (t : σ) :
    andThen f G R (.ok a) t = wp (f a) G R t := rfl

@[simp] theorem andThen_error (f : α → Prog σ ε β) (R : Except ε β → σ → Prop) (e : ε) (t : σ) :
    andThen f G R (.error e) t = R (.error e) t := rfl

variable {p : Prog σ ε α}

theorem wp_mono (h : wp p G R s) (hG : ∀ t u, G t u → G' t u)
    (hR : ∀ r t, R r t → R' r t) : wp p G' R' s :=
  ⟨h.1.imp hG, hR _ _ h.2⟩

@[simp] theorem wp_pure (a : α) : wp (pure a : Prog σ ε α) G R s ↔ R (.ok a) s := by
  simp [wp, pure, last]

@[simp] theorem wp_get {R : Except ε σ → σ → Prop} : wp (get : Prog σ ε σ) G R s ↔ R (.ok s) s := by
  simp [wp, get, last]

@[simp] theorem wp_fail (e : ε) : wp (fail e : Prog σ ε α) G R s ↔ R (.error e) s := by
  simp [wp, fail, last]

@[simp] theorem wp_ofExcept (x : Except ε α) : wp (ofExcept x : Prog σ ε α) G R s ↔ R x s := by
  simp [wp, ofExcept, last]

@[simp] theorem wp_read (f : σ → Except ε α) : wp (read f) G R s ↔ R (f s) s := by
  simp [wp, read, last]

@[simp] theorem wp_write (f : σ → σ) {R : Except ε Unit → σ → Prop} :
    wp (write f) G R s ↔ G s (f s) ∧ R (.ok ()) (f s) := by
  simp [wp, write, last]

theorem wp_ensure (b : Bool) (e : ε) {R : Except ε Unit → σ → Prop} :
    wp (ensure b e) G R s ↔ (b = true → R (.ok ()) s) ∧ (b = false → R (.error e) s) := by
  cases b <;> simp [ensure]

theorem wp_when (b : Bool) (p : Prog σ ε Unit) {R : Except ε Unit → σ → Prop} :
    wp (when b p) G R s ↔ (b = true → wp p G R s) ∧ (b = false → R (.ok ()) s) := by
  cases b <;> simp [when]

@[simp] theorem wp_attempt (p : Prog σ ε α) {R : Except ε (Except ε α) → σ → Prop} :
    wp (attempt p) G R s ↔ wp p G (fun r t ↦ R (.ok r) t) s := Iff.rfl

theorem getLastD_append (xs ys : List σ) (s : σ) :
    (xs ++ ys).getLastD s = ys.getLastD (xs.getLastD s) := by
  simp only [List.getLastD_eq_getLast?, List.getLast?_append]
  cases ys.getLast? <;> rfl

theorem getLastD_eq_or_mem (xs : List σ) (s : σ) : xs.getLastD s = s ∨ xs.getLastD s ∈ xs := by
  cases xs with
  | nil => exact .inl rfl
  | cons x xs => exact .inr (by simp [List.getLastD_eq_getLast?, List.getLast?_eq_some_getLast])

theorem last_bind (x : Prog σ ε α) (f : α → Prog σ ε β) (s : σ) :
    (x >>= f).last s = match (x s).result with
      | .ok a => (f a).last (x.last s)
      | .error _ => x.last s := by
  cases h : (x s).result with
  | error | ok => simp [last, bind, h]

theorem isChain_append_getLastD {xs ys : List σ} :
    List.IsChain G (s :: (xs ++ ys)) ↔
      List.IsChain G (s :: xs) ∧ List.IsChain G (xs.getLastD s :: ys) := by
  induction xs generalizing s with
  | nil => simp
  | cons x xs ih =>
    have hlast : (x :: xs).getLastD s = xs.getLastD x := by cases xs <;> rfl
    rw [List.cons_append, List.isChain_cons_cons, ih, List.isChain_cons_cons, hlast, and_assoc]

@[simp] theorem wp_bind (x : Prog σ ε α) (f : α → Prog σ ε β) {R : Except ε β → σ → Prop} :
    wp (x >>= f) G R s ↔ wp x G (andThen f G R) s := by
  unfold wp
  rw [last_bind]
  cases h : (x s).result with
  | error e => simp [bind, h]
  | ok a =>
    simp only [bind, h, isChain_append_getLastD, andThen_ok, wp, and_assoc]
    rfl

section Seq

variable {f : α → Prog σ ε β} {S : Except ε β → σ → Prop}

/-- The rest meets `S` from wherever `p` answers, and an error of `p` already does. -/
theorem wp_seq (h : wp p G R s) (hok : ∀ a t, R (.ok a) t → wp (f a) G' S t)
    (hG : ∀ t u, G t u → G' t u := by intros; assumption)
    (herr : ∀ e t, R (.error e) t → S (.error e) t := by intros; trivial) :
    wp (p >>= f) G' S s := by
  refine (wp_bind p f).2 (wp_mono h hG fun r t ht ↦ ?_)
  cases r with
  | error e => exact herr e t ht
  | ok a => exact hok a t ht

theorem wp_mono_ok (h : wp p G R s) (hok : ∀ a t, R (.ok a) t → R' (.ok a) t)
    (hG : ∀ t u, G t u → G' t u := by intros; assumption)
    (herr : ∀ e t, R (.error e) t → R' (.error e) t := by intros; trivial) : wp p G' R' s := by
  refine wp_mono h hG fun r t ht ↦ ?_
  cases r with
  | error e => exact herr e t ht
  | ok a => exact hok a t ht

theorem wp_read_onOk {g : σ → Except ε α} {Q : α → σ → Prop} (hok : ∀ a, g s = .ok a → Q a s) :
    wp (read g) G (onOk Q) s := by
  rw [wp_read]
  cases h : g s with
  | error e => trivial
  | ok a => exact hok a h

theorem wp_read_seq {g : σ → Except ε α} (hok : ∀ a, g s = .ok a → wp (f a) G S s)
    (herr : ∀ e, S (.error e) s := by intros; trivial) : wp (read g >>= f) G S s := by
  rw [wp_bind, wp_read]
  cases h : g s with
  | error e => exact herr e
  | ok a => exact hok a h

theorem wp_ofExcept_seq {x : Except ε α} (hok : ∀ a, x = .ok a → wp (f a) G S s)
    (herr : ∀ e, S (.error e) s := by intros; trivial) : wp (ofExcept x >>= f) G S s :=
  wp_read_seq hok herr

theorem wp_get_bind {f : σ → Prog σ ε β} : wp (get >>= f) G S s ↔ wp (f s) G S s := by
  rw [wp_bind, wp_get, andThen_ok]

end Seq

theorem wp_forM {f : β → Prog σ ε Unit} {xs : List β} (I : σ → Prop)
    (hround : ∀ x ∈ xs, ∀ s, I s → wp (f x) G (fun _ t ↦ I t) s) (hI : I s) :
    wp (forM xs f) G (fun _ t ↦ I t) s := by
  induction xs generalizing s with
  | nil => simpa using hI
  | cons x xs ih =>
    rw [List.forM_cons]
    exact wp_seq (hround x (by simp) s hI) fun _ _ h ↦ ih (fun y hy ↦ hround y (by simp [hy])) h

section

variable (I : σ → Prop) (hs : I s) (hG : ∀ t u, I t → G t u → I u)

include hs hG

theorem forall_mem_of_isChain {ts : List σ} (hchain : List.IsChain G (s :: ts)) :
    ∀ t ∈ ts, I t := by
  induction ts generalizing s with
  | nil => simp
  | cons t ts ih =>
    obtain ⟨hst, hts⟩ := List.isChain_cons_cons.1 hchain
    have ht : I t := hG s t hs hst
    simpa [ht] using ih ht hts

theorem isChain_and_of_forall {ts : List σ} (hchain : List.IsChain G (s :: ts)) :
    List.IsChain (fun t u ↦ I t ∧ G t u) (s :: ts) := by
  induction ts generalizing s with
  | nil => simp
  | cons t ts ih =>
    obtain ⟨hst, hts⟩ := List.isChain_cons_cons.1 hchain
    exact List.isChain_cons_cons.2 ⟨⟨hs, hst⟩, ih (hG s t hs hst) hts⟩

theorem wp_invariant (h : wp p G R s) : wp p (fun t u ↦ I t ∧ G t u) (fun r t ↦ I t ∧ R r t) s := by
  refine ⟨isChain_and_of_forall I hs hG h.1, ?_, h.2⟩
  rcases getLastD_eq_or_mem (p s).states s with he | he
  · rwa [last, he]
  · exact forall_mem_of_isChain I hs hG h.1 _ he

theorem wp.forall_states (h : wp p G R s) : ∀ t ∈ (p s).states, I t :=
  forall_mem_of_isChain I hs hG h.1

end

end Prog

end MicaCore.Crash
