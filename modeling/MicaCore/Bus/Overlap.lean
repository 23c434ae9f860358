import MicaCore.Settings.Path
import Mathlib.Data.List.Forall2

namespace MicaCore.Bus

open Data Settings

def Comparable {α : Type} (xs ys : List α) : Prop := xs <+: ys ∨ ys <+: xs

def comparable {α : Type} [DecidableEq α] : List α → List α → Bool
  | x :: xs, y :: ys => if x = y then comparable xs ys else false
  | _, _ => true

def pathsOverlap (a b : Text) : Bool :=
  if isRoot a || isRoot b then true else comparable (a.splitOn '.') (b.splitOn '.')

def segments (path : Text) : Option (List Text) :=
  if isRoot path then some [] else (splitPath path).toOption

def pathSubsumes (parent child : Text) : Bool :=
  match segments parent, segments child with
  | some parent, some child => parent.isPrefixOf child
  | _, _ => false

section

variable {α : Type}

variable {xs ys : List α}

theorem Comparable.symm (h : Comparable xs ys) : Comparable ys xs := Or.symm h

theorem Comparable.cons_iff {x y : α} :
    Comparable (x :: xs) (y :: ys) ↔ x = y ∧ Comparable xs ys := by
  simp only [Comparable, List.cons_prefix_cons, eq_comm (a := y)]
  tauto

theorem Comparable.of_append {l l' : List α} (h : Comparable (l ++ xs) (l' ++ ys))
    (hlen : l.length ≤ l'.length) : l <+: l' := by
  rcases h with h | h
  · exact List.prefix_of_prefix_length_le ((List.prefix_append l xs).trans h)
      (List.prefix_append l' ys) hlen
  · exact List.prefix_of_prefix_length_le (List.prefix_append l xs)
      ((List.prefix_append l' ys).trans h) hlen

theorem Comparable.of_prefix {zs : List α} (hxy : xs <+: ys) (h : Comparable ys zs) :
    Comparable xs zs := by
  rcases h with h | h
  · exact .inl (hxy.trans h)
  · exact List.prefix_or_prefix_of_prefix hxy h

variable [DecidableEq α]

theorem comparable_iff : comparable xs ys = true ↔ Comparable xs ys := by
  induction xs generalizing ys with
  | nil => simp [comparable, Comparable]
  | cons x xs ih =>
    cases ys with
    | nil => simp [comparable, Comparable]
    | cons y ys =>
      rw [comparable, Comparable.cons_iff, ← ih]
      split <;> simp [*]

theorem comparable_iff_zip : comparable xs ys = true ↔ ∀ p ∈ xs.zip ys, p.1 = p.2 := by
  induction xs generalizing ys with
  | nil => simp [comparable]
  | cons x xs ih =>
    cases ys with
    | nil => simp [comparable]
    | cons y ys =>
      rw [comparable, List.zip_cons_cons, List.forall_mem_cons, ← ih]
      split <;> simp [*]

theorem comparable_append_left (l xs ys : List α) :
    comparable (l ++ xs) (l ++ ys) = comparable xs ys := by
  induction l with
  | nil => rfl
  | cons x l ih => simp [comparable, ih]

end

/-- The words a path is spelled with, bare or quoted, and their segments. -/
structure Words (path : Text) (words segs : List Text) : Prop where
  spell : List.Forall₂ Segment words segs
  path_eq : path = ['.'].intercalate words
  ne_nil : words ≠ []

variable {p : Text} {ss : List Text}

theorem spelling_iff : Spelling p ss ↔ ∃ ws, Words p ws ss := by
  constructor
  · intro h
    induction h with
    | @last w s hw => exact ⟨[w], .cons hw .nil, by simp, by simp⟩
    | @more w s p ss hw _ ih =>
      obtain ⟨ws, hws⟩ := ih
      refine ⟨w :: ws, .cons hw hws.spell, ?_, by simp⟩
      rw [List.intercalate_cons_of_ne_nil hws.ne_nil, ← hws.path_eq]
      simp
  · rintro ⟨ws, hspell, rfl, hne⟩
    induction hspell with
    | nil => exact absurd rfl hne
    | @cons w s ws ss hw hrest ih =>
      cases hrest with
      | nil =>
        rw [List.intercalate_singleton]
        exact .last hw
      | cons hw' hrest =>
        rw [List.intercalate_cons_of_ne_nil (by simp)]
        simpa using Spelling.more hw (ih (by simp))

theorem Segment.eq_of_prefix {w v s t : Text} (hw : Segment w s) (hv : Segment v t)
    (h : w.splitOn '.' <+: v.splitOn '.') : w = v := by
  obtain ⟨rest, hrest⟩ := h
  have hv' : v = ['.'].intercalate (w.splitOn '.' ++ rest) := by
    rw [hrest, List.intercalate_splitOn]
  by_cases hnil : rest = []
  · rw [hv', hnil, List.append_nil, List.intercalate_splitOn]
  · have happend : ∀ l : List Text, l ≠ [] →
        ['.'].intercalate (l ++ rest) = ['.'].intercalate l ++ '.' :: ['.'].intercalate rest := by
      intro l hl
      induction l with
      | nil => exact absurd rfl hl
      | cons x l ih =>
        by_cases hl' : l = []
        · subst hl'
          rw [List.singleton_append, List.intercalate_cons_of_ne_nil hnil]
          simp
        · rw [List.cons_append, List.intercalate_cons_of_ne_nil (by simp [hl']),
            List.intercalate_cons_of_ne_nil hl', ih hl']
          simp
    rw [happend _ (List.splitOn_ne_nil _ _), List.intercalate_splitOn] at hv'
    exfalso
    cases hv with
    | bare _ hdot _ => exact hdot (by simp [hv'])
    | quoted _ hquote =>
      cases hw with
      | bare hne _ hq =>
        obtain ⟨c, s, rfl⟩ := List.exists_cons_of_ne_nil hne
        have hc : '"' = c := (List.cons_eq_cons.1 hv').1
        exact hq (List.mem_cons.2 (.inl hc))
      | quoted hne hq =>
        -- the closing quote of the shorter word stands inside the longer one
        have htail : t ++ ['"'] = s ++ '"' :: '.' :: ['.'].intercalate rest := by
          simpa using hv'
        have hlen := congrArg List.length htail
        have hmem := congrArg (fun l : Text ↦ l[s.length]?) htail
        simp only [List.length_append, List.length_cons, List.length_nil] at hlen
        rw [List.getElem?_append_left (by omega), List.getElem?_append_right (le_refl _)] at hmem
        exact hquote (List.mem_of_getElem? (by simpa using hmem))

variable {ws vs ts : List Text}

theorem comparable_flatMap_splitOn (hw : List.Forall₂ Segment ws ss)
    (hv : List.Forall₂ Segment vs ts) :
    comparable (ws.flatMap (·.splitOn '.')) (vs.flatMap (·.splitOn '.')) = comparable ws vs := by
  induction hw generalizing vs ts with
  | nil => simp [comparable]
  | @cons w s ws ss hws _ ih =>
    cases hv with
    | nil => cases h : ((w :: ws).flatMap (·.splitOn '.')) <;> simp [comparable]
    | @cons v t vs ts hvt hv =>
      rw [List.flatMap_cons, List.flatMap_cons, comparable]
      split
      · next heq => rw [heq, comparable_append_left, ih hv]
      · next hne =>
        refine Bool.eq_false_iff.2 fun h ↦ hne ?_
        have hcomp := comparable_iff.1 h
        rcases le_total (w.splitOn '.').length (v.splitOn '.').length with hlen | hlen
        · exact Segment.eq_of_prefix hws hvt (hcomp.of_append hlen)
        · exact (Segment.eq_of_prefix hvt hws (hcomp.symm.of_append hlen)).symm

theorem Words.splitOn_eq (h : Words p ws ss) : p.splitOn '.' = ws.flatMap (·.splitOn '.') := by
  obtain ⟨hspell, rfl, hne⟩ := h
  induction hspell with
  | nil => exact absurd rfl hne
  | @cons w s ws ss _ hrest ih =>
    cases hrest with
    | nil => simp
    | cons _ _ =>
      rw [List.intercalate_cons_of_ne_nil (by simp), List.append_assoc, List.singleton_append,
        List.splitOn_append_cons_self, ih (by simp)]
      rfl

theorem segments_eq_some :
    segments p = some ss ↔ isRoot p = true ∧ ss = [] ∨ splitPath p = .ok ss := by
  unfold segments
  cases hroot : isRoot p with
  | true =>
    have hnot : splitPath p ≠ .ok ss := fun h ↦ by simp [isRoot_eq_false h] at hroot
    simp [hnot, eq_comm]
  | false => cases splitPath p <;> simp [Except.toOption]

theorem Words.segments_eq (h : Words p ws ss) : segments p = some ss :=
  segments_eq_some.2 (.inr (splitPath_eq_ok.2 (spelling_iff.2 ⟨ws, h⟩)))

theorem pathsOverlap_eq {q : Text} (hp : Words p ws ss)
    (hq : Words q vs ts) : pathsOverlap p q = comparable ws vs := by
  have hroot {r : Text} {us rs : List Text} (h : Words r us rs) : isRoot r = false :=
    isRoot_eq_false (splitPath_eq_ok.2 (spelling_iff.2 ⟨us, h⟩))
  unfold pathsOverlap
  rw [hroot hp, hroot hq, hp.splitOn_eq, hq.splitOn_eq]
  exact comparable_flatMap_splitOn hp.spell hq.spell

/-- The places both paths have are spelled the same way in both. -/
def SpelledAlike (p q : Text) : Prop :=
  ∀ ws ss vs ts, Words p ws ss → Words q vs ts → ∀ x ∈ ws.zip vs, x.1 = x.2

theorem comparable_of_words (hw : List.Forall₂ Segment ws ss)
    (hv : List.Forall₂ Segment vs ts) (h : comparable ws vs = true) : comparable ss ts = true := by
  induction hw generalizing vs ts with
  | nil => simp [comparable]
  | @cons w s ws ss hws _ ih =>
    cases hv with
    | nil => simp [comparable]
    | @cons v t vs ts hvt hv =>
      rw [comparable] at h ⊢
      split at h
      · next heq =>
        subst heq
        have hst : s = t := by
          have := hws.nextSegment_last.symm.trans hvt.nextSegment_last
          simpa using this
        rw [if_pos hst]
        exact ih hv h
      · cases h

theorem pathsOverlap_iff_comparable {q : Text} (hp : segments p = some ss)
    (hq : segments q = some ts) :
    (pathsOverlap p q = true ↔ Comparable ss ts) ↔ (Comparable ss ts → SpelledAlike p q) := by
  rcases segments_eq_some.1 hp with ⟨hroot, rfl⟩ | hp
  · have hover : pathsOverlap p q = true := by simp [pathsOverlap, hroot]
    refine iff_of_true (iff_of_true hover (.inl List.nil_prefix)) fun _ ws ss vs ts hw ↦ ?_
    rw [isRoot_eq_false (splitPath_eq_ok.2 (spelling_iff.2 ⟨ws, hw⟩))] at hroot
    cases hroot
  rcases segments_eq_some.1 hq with ⟨hroot, rfl⟩ | hq
  · have hover : pathsOverlap p q = true := by simp [pathsOverlap, hroot]
    refine iff_of_true (iff_of_true hover (.inr List.nil_prefix)) fun _ ws ss vs ts _ hv ↦ ?_
    rw [isRoot_eq_false (splitPath_eq_ok.2 (spelling_iff.2 ⟨vs, hv⟩))] at hroot
    cases hroot
  obtain ⟨ws, hw⟩ := spelling_iff.1 (splitPath_eq_ok.1 hp)
  obtain ⟨vs, hv⟩ := spelling_iff.1 (splitPath_eq_ok.1 hq)
  constructor
  · intro h hcomp ws' ss' vs' ts' hw' hv'
    rw [← comparable_iff_zip, ← pathsOverlap_eq hw' hv']
    exact h.2 hcomp
  · intro h
    rw [pathsOverlap_eq hw hv]
    constructor
    · exact fun hover ↦ comparable_iff.1 (comparable_of_words hw.spell hv.spell hover)
    · exact fun hcomp ↦ comparable_iff_zip.2 (h hcomp ws ss vs ts hw hv)

end MicaCore.Bus
