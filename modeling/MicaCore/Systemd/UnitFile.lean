import MicaCore.Deploy.Identity
import Mathlib.Data.List.DropRight

namespace MicaCore.Systemd

open Data

def lineBreak (c : Char) : Bool := c == '\n' || c == '\r' || c == '\x00'

def blank (c : Char) : Bool := c == ' ' || c == '\t' || c == '\n' || c == '\r'

def strip (t : Text) : Text := (t.rdropWhile blank).dropWhile blank

def escaped (t : Text) : Bool := t.foldl (fun e c ↦ !e && c == '\\') false

def isComment (line : Text) : Bool :=
  match line.dropWhile blank with
  | '#' :: _ | ';' :: _ => true
  | _ => false

/-- Lines with continued ones joined, comments among them dropped. -/
def logicalLines : Option Text → List Text → List Text
  | carry, [] => carry.toList
  | carry, line :: lines =>
    if isComment line then logicalLines carry lines
    else
      let whole := carry.getD [] ++ line
      if escaped whole then logicalLines (some (whole.dropLast ++ [' '])) lines
      else whole :: logicalLines none lines

inductive Item where
  | header (name : Text)
  | assignment (key value : Text)
  | malformed (line : Text)
  deriving DecidableEq

def parseLine (line : Text) : Option Item :=
  match strip line with
  | [] => none
  | '[' :: rest =>
    if rest.getLast? = some ']' then some (.header rest.dropLast) else some (.malformed ('[' :: rest))
  | text => match splitOnce '=' text with
    | some (key, value) => some (.assignment (strip key) (strip value))
    | none => some (.malformed text)

def splitLines (t : Text) : List Text := t.splitOnP lineBreak

def parse (t : Text) : List Item := (logicalLines none (splitLines t)).filterMap parseLine

inductive Line where
  | gap
  | header (name : Text)
  | assign (key value : Text)

namespace Line

def text : Line → Text
  | gap => []
  | header name => '[' :: (name ++ [']'])
  | assign key value => key ++ '=' :: value

def item : Line → Option Item
  | gap => none
  | header name => some (.header name)
  | assign key value => some (.assignment key value)

def Tame : Line → Prop
  | gap => True
  | header name | assign name _ => name ≠ [] ∧ ∀ c ∈ name, c.isAlphanum = true

end Line

def file (lines : List Line) : Text := lines.flatMap fun l ↦ l.text ++ ['\n']

def Edges (t : Text) : Prop :=
  (∀ c ∈ t.head?, blank c = false) ∧ ∀ c ∈ t.getLast?, blank c = false

structure Plain (t : Text) : Prop where
  unbroken : ∀ c ∈ t, lineBreak c = false
  edges : Edges t
  unescaped : escaped t = false

theorem edges_strip (t : Text) : Edges (strip t) := by
  constructor
  · intro c hc
    have hne : strip t ≠ [] := by
      intro h
      simp [h] at hc
    have hhead := List.head_dropWhile_not blank hne
    rw [List.head?_eq_some_head hne] at hc
    cases hc
    exact hhead
  · intro c hc
    obtain ⟨front, hfront⟩ : strip t <:+ t.rdropWhile blank := List.dropWhile_suffix _
    have hne : t.rdropWhile blank ≠ [] := by
      intro h
      simp [strip, h] at hc
    have hlast := List.rdropWhile_last_not blank t hne
    have heq : (t.rdropWhile blank).getLast? = some c := by
      rw [← hfront, List.getLast?_append, hc]
      rfl
    rw [List.getLast?_eq_some_getLast hne] at heq
    cases heq
    simpa using hlast

variable {t : Text}

theorem rdropWhile_of_edges (h : ∀ c ∈ t.getLast?, blank c = false) : t.rdropWhile blank = t := by
  rcases List.eq_nil_or_concat' t with rfl | ⟨t, c, rfl⟩
  · rfl
  · exact List.rdropWhile_concat_neg _ _ _ (by simpa using h c (by simp))

theorem dropWhile_of_edges (h : ∀ c ∈ t.head?, blank c = false) : t.dropWhile blank = t := by
  cases t with
  | nil => rfl
  | cons c t => simp [List.dropWhile, h c (by simp)]

theorem strip_of_edges (h : Edges t) : strip t = t := by
  rw [strip, rdropWhile_of_edges h.2, dropWhile_of_edges h.1]

theorem strip_rdropWhile (t : Text) : strip (t.rdropWhile blank) = strip t := by
  rw [strip, List.rdropWhile_idempotent]
  rfl

variable {c : Char}

theorem rdropWhile_append_cons (hc : blank c = false) (s x : Text) :
    (s ++ c :: x).rdropWhile blank = s ++ c :: x.rdropWhile blank := by
  induction x using List.reverseRecOn with
  | nil => exact List.rdropWhile_concat_neg _ _ _ (by simp [hc])
  | append_singleton x d ih =>
    have heq : s ++ c :: (x ++ [d]) = (s ++ c :: x) ++ [d] := by simp
    rw [heq, List.rdropWhile_concat, List.rdropWhile_concat, ih]
    split
    · rfl
    · exact heq.symm

theorem mem_of_mem_strip (h : c ∈ strip t) : c ∈ t :=
  (List.rdropWhile_prefix blank t).subset ((List.dropWhile_suffix blank).subset h)

theorem escaped_concat (t : Text) (c : Char) : escaped (t ++ [c]) = (!escaped t && c == '\\') := by
  simp [escaped]

theorem escaped_append_cons (hc : c ≠ '\\') (s t : Text) : escaped (s ++ c :: t) = escaped t := by
  have hbeq : (c == '\\') = false := by simpa using hc
  simp [escaped, hbeq]

theorem eq_concat_of_escaped (h : escaped t = true) : ∃ u, t = u ++ ['\\'] ∧ escaped u = false := by
  rcases List.eq_nil_or_concat' t with rfl | ⟨u, c, rfl⟩
  · cases h
  · rw [escaped_concat, Bool.and_eq_true, beq_iff_eq] at h
    exact ⟨u, by rw [h.2], by simpa using h.1⟩

theorem unbroken_of_mem_splitLines {l : Text} (h : l ∈ splitLines t) :
    ∀ c ∈ l, lineBreak c = false := by
  induction t generalizing l with
  | nil =>
    obtain rfl : l = [] := by simpa [splitLines] using h
    simp
  | cons x t ih =>
    rw [splitLines, List.splitOnP_cons_eq_if_modifyHead] at h
    split at h
    · rcases List.mem_cons.1 h with rfl | h
      · simp
      · exact ih h
    · next hx =>
      obtain ⟨front, rest, hrest⟩ := List.exists_cons_of_ne_nil (List.splitOnP_ne_nil lineBreak t)
      rw [hrest, List.modifyHead_cons] at h
      have ih' : ∀ l ∈ front :: rest, ∀ c ∈ l, lineBreak c = false := by
        intro l hl
        exact ih (by rwa [splitLines, hrest])
      rcases List.mem_cons.1 h with rfl | h
      · intro c hc
        rcases List.mem_cons.1 hc with rfl | hc
        · simpa using hx
        · exact ih' front (by simp) c hc
      · exact ih' l (by simp [h])

theorem unbroken_of_mem_logicalLines {ls : List Text} {carry : Option Text} {w : Text}
    (hls : ∀ l ∈ ls, ∀ c ∈ l, lineBreak c = false)
    (hcarry : ∀ t, carry = some t → ∀ c ∈ t, lineBreak c = false) (h : w ∈ logicalLines carry ls) :
    ∀ c ∈ w, lineBreak c = false := by
  induction ls generalizing carry with
  | nil => exact hcarry w (by simpa [logicalLines] using h)
  | cons l ls ih =>
    obtain ⟨hl, hls⟩ := List.forall_mem_cons.1 hls
    have hwhole : ∀ c ∈ carry.getD [] ++ l, lineBreak c = false := by
      intro c hc
      rcases List.mem_append.1 hc with hc | hc
      · cases carry with
        | none => simp at hc
        | some t => exact hcarry t rfl c hc
      · exact hl c hc
    simp only [logicalLines] at h
    split at h
    · exact ih hls hcarry h
    · split at h
      · refine ih hls (fun t ht c hc ↦ ?_) h
        cases ht
        rcases List.mem_append.1 hc with hc | hc
        · exact hwhole c (List.dropLast_subset _ hc)
        · rw [List.mem_singleton.1 hc]
          decide
      · rcases List.mem_cons.1 h with rfl | h
        · exact hwhole
        · exact ih hls (by simp) h

theorem of_mem_parse {key value : Text} (h : .assignment key value ∈ parse t) :
    (∀ c ∈ value, lineBreak c = false) ∧ Edges value := by
  obtain ⟨line, hline, hitem⟩ := List.mem_filterMap.1 h
  have hunbroken := unbroken_of_mem_logicalLines
    (fun l hl ↦ unbroken_of_mem_splitLines hl) (by simp) hline
  unfold parseLine at hitem
  split at hitem
  · cases hitem
  · split at hitem <;> cases hitem
  · split at hitem
    · next hsplit =>
      cases hitem
      refine ⟨fun c hc ↦ hunbroken c (mem_of_mem_strip ?_), edges_strip _⟩
      rw [splitOnce_eq_some hsplit]
      simp [mem_of_mem_strip hc]
    · cases hitem

variable {ls : List Line}

theorem splitLines_file (h : ∀ l ∈ ls, ∀ c ∈ l.text, lineBreak c = false) :
    splitLines (file ls) = ls.map Line.text ++ [[]] := by
  induction ls with
  | nil => simp [splitLines, file]
  | cons l ls ih =>
    obtain ⟨hl, hls⟩ := List.forall_mem_cons.1 h
    have heq : file (l :: ls) = l.text ++ '\n' :: file ls := by simp [file]
    rw [heq, splitLines, List.splitOnP_append_cons_of_forall_mem hl _ (by decide), ← splitLines, ih hls]
    simp

theorem blank_of_isAlphanum (h : c.isAlphanum = true) : blank c = false := by
  by_contra hblank
  simp only [Bool.not_eq_false, blank, Bool.or_eq_true, beq_iff_eq] at hblank
  rcases hblank with ((rfl | rfl) | rfl) | rfl <;> revert h <;> decide

theorem lineBreak_of_isAlphanum (h : c.isAlphanum = true) : lineBreak c = false := by
  by_contra hbreak
  simp only [Bool.not_eq_false, lineBreak, Bool.or_eq_true, beq_iff_eq] at hbreak
  rcases hbreak with (rfl | rfl) | rfl <;> revert h <;> decide

namespace Line

variable {l : Line}

theorem Tame.head (h : l.Tame) (hne : l ≠ gap) :
    ∃ c t, l.text = c :: t ∧ blank c = false ∧ c ≠ '\\' ∧ c ≠ '#' ∧ c ≠ ';' := by
  cases l with
  | gap => exact absurd rfl hne
  | header name => exact ⟨'[', _, rfl, by decide⟩
  | assign key value =>
    obtain ⟨hkey, hword⟩ := h
    obtain ⟨c, key, rfl⟩ := List.exists_cons_of_ne_nil hkey
    have hc := hword c (by simp)
    refine ⟨c, _, rfl, blank_of_isAlphanum hc, ?_, ?_, ?_⟩ <;> rintro rfl <;> revert hc <;> decide

theorem Tame.isComment (h : l.Tame) : isComment l.text = false := by
  by_cases hne : l = gap
  · subst hne
    rfl
  · obtain ⟨c, t, ht, hblank, -, hhash, hsemi⟩ := h.head hne
    rw [ht, Systemd.isComment, List.dropWhile_cons_of_neg (by simp [hblank])]
    split
    · next heq => exact absurd (List.cons.inj heq).1 hhash
    · next heq => exact absurd (List.cons.inj heq).1 hsemi
    · rfl

theorem Tame.escaped_assign {key value : Text} : escaped (assign key value).text = escaped value :=
  escaped_append_cons (by decide) _ _

theorem Tame.escaped (h : Systemd.escaped l.text = true) :
    ∃ key value, l = assign key value ∧ Systemd.escaped value = true := by
  cases l with
  | gap => cases h
  | header name =>
    have hlast : Systemd.escaped (header name).text = Systemd.escaped [] :=
      escaped_append_cons (by decide) ('[' :: name) []
    exact absurd (hlast.symm.trans h) (by decide)
  | assign key value => exact ⟨key, value, rfl, by rwa [Tame.escaped_assign] at h⟩

end Line

theorem parseLine_assign {key : Text} (h : key ≠ [] ∧ ∀ c ∈ key, c.isAlphanum = true) (x : Text) :
    parseLine (key ++ '=' :: x) = some (.assignment key (strip x)) := by
  have hkey : strip key = key := strip_of_edges
    ⟨fun c hc ↦ blank_of_isAlphanum (h.2 c (List.mem_of_mem_head? hc)),
      fun c hc ↦ blank_of_isAlphanum (h.2 c (List.mem_of_mem_getLast? hc))⟩
  have hsep : '=' ∉ key := fun hmem ↦ absurd (h.2 _ hmem) (by decide)
  have hstrip : strip (key ++ '=' :: x) = key ++ '=' :: x.rdropWhile blank := by
    rw [strip, rdropWhile_append_cons (by decide)]
    refine dropWhile_of_edges fun c hc ↦ ?_
    obtain ⟨k, key, rfl⟩ := List.exists_cons_of_ne_nil h.1
    cases hc
    exact blank_of_isAlphanum (h.2 _ (by simp))
  obtain ⟨k, ks, rfl⟩ := List.exists_cons_of_ne_nil h.1
  have hbracket : k ≠ '[' := by
    rintro rfl
    exact absurd (h.2 '[' (by simp)) (by decide)
  unfold parseLine
  rw [hstrip]
  simp only [List.cons_append]
  split
  · next heq => cases heq
  · next heq => exact absurd (List.cons.inj heq).1 hbracket
  · next heq =>
    rw [← List.cons_append, splitOnce_append _ hsep]
    simp only
    rw [hkey, strip_rdropWhile]

variable {l : Line}

theorem parseLine_text (h : l.Tame)
    (hvalue : ∀ key value, l = .assign key value → Edges value) : parseLine l.text = l.item := by
  cases l with
  | gap => rfl
  | header name =>
    have hedges : Edges (Line.header name).text := by
      refine ⟨fun c hc ↦ ?_, fun c hc ↦ ?_⟩
      · cases hc
        rfl
      · rw [Line.text, ← List.cons_append, List.getLast?_concat] at hc
        cases hc
        rfl
    rw [parseLine, strip_of_edges hedges]
    simp [Line.text, Line.item]
  | assign key value =>
    rw [Line.text, parseLine_assign h, strip_of_edges (hvalue key value rfl)]
    rfl

theorem logicalLines_cons (h : l.Tame) (hesc : escaped l.text = false) (ls : List Text) :
    logicalLines none (l.text :: ls) = l.text :: logicalLines none ls := by
  simp [logicalLines, h.isComment, hesc]

theorem logicalLines_carry {carry : Text} (h : carry.getLast? = some ' ') (ls : List Text) :
    ∃ r rest, logicalLines (some carry) ls = (carry ++ r) :: rest := by
  induction ls generalizing carry with
  | nil => exact ⟨[], [], by simp [logicalLines]⟩
  | cons l ls ih =>
    simp only [logicalLines, Option.getD_some]
    split
    · exact ih h
    · split
      · next hesc =>
        have hne : l ≠ [] := by
          rintro rfl
          obtain ⟨u, hu, -⟩ := eq_concat_of_escaped hesc
          rw [List.append_nil] at hu
          rw [hu, List.getLast?_concat] at h
          exact absurd h (by decide)
        have hlast : ((carry ++ l).dropLast ++ [' ']).getLast? = some ' ' := by simp
        obtain ⟨r, rest, hr⟩ := ih hlast
        rw [List.dropLast_append_of_ne_nil hne] at hr ⊢
        exact ⟨l.dropLast ++ ' ' :: r, rest, by simpa using hr⟩
      · exact ⟨l, _, rfl⟩

theorem logicalLines_carry_file {carry : Text} (hcarry : carry.getLast? = some ' ')
    (hls : ∀ l ∈ ls, l.Tame) :
    ∃ r rest, logicalLines (some carry) (ls.map Line.text ++ [[]]) = (carry ++ r) :: rest ∧
      ∀ c ∈ r.head?, blank c = false ∧ c ≠ '\\' := by
  have hunescaped : escaped carry = false := by
    by_contra h
    obtain ⟨u, rfl, -⟩ := eq_concat_of_escaped (Bool.not_eq_false _ ▸ h)
    simp at hcarry
  have hempty (rest : List Text) :
      logicalLines (some carry) ([] :: rest) = (carry ++ []) :: logicalLines none rest := by
    simp [logicalLines, isComment, hunescaped]
  cases ls with
  | nil => exact ⟨[], _, hempty [], by simp⟩
  | cons l ls =>
    by_cases hgap : l = .gap
    · subst hgap
      exact ⟨[], _, hempty _, by simp⟩
    · have htame := hls l (by simp)
      obtain ⟨c, t, ht, hblank, hslash, -⟩ := htame.head hgap
      simp only [List.map_cons, List.cons_append, logicalLines, htame.isComment, Option.getD_some,
        Bool.false_eq_true, if_false]
      split
      · next hesc =>
        have hne : l.text ≠ [] := by simp [ht]
        have hlast : ((carry ++ l.text).dropLast ++ [' ']).getLast? = some ' ' := by simp
        obtain ⟨r, rest, hr⟩ := logicalLines_carry hlast (ls.map Line.text ++ [[]])
        rw [List.dropLast_append_of_ne_nil hne] at hr ⊢
        refine ⟨l.text.dropLast ++ ' ' :: r, rest, by simpa using hr, fun d hd ↦ ?_⟩
        have htail : t ≠ [] := by
          rintro rfl
          rw [ht, escaped_concat, Bool.and_eq_true, beq_iff_eq] at hesc
          exact hslash hesc.2
        rw [ht, List.dropLast_cons_of_ne_nil htail] at hd
        cases hd
        exact ⟨hblank, hslash⟩
      · refine ⟨l.text, _, rfl, fun d hd ↦ ?_⟩
        rw [ht] at hd
        cases hd
        exact ⟨hblank, hslash⟩

theorem strip_ne_of_continued {u r : Text} (hedges : Edges (u ++ ['\\']))
    (hr : ∀ c ∈ r.head?, blank c = false ∧ c ≠ '\\') : strip (u ++ ' ' :: r) ≠ u ++ ['\\'] := by
  intro h
  cases u with
  | nil =>
    cases r with
    | nil => exact absurd h (by decide)
    | cons d r =>
      obtain ⟨hblank, hslash⟩ := hr d (by simp)
      have hright : (' ' :: d :: r).rdropWhile blank = ' ' :: d :: r.rdropWhile blank :=
        rdropWhile_append_cons hblank [' '] r
      rw [List.nil_append, strip, hright, List.dropWhile_cons_of_pos (by decide),
        List.dropWhile_cons_of_neg (by simp [hblank])] at h
      exact hslash (List.cons.inj h).1
  | cons a u =>
    have ha : blank a = false := hedges.1 a (by simp)
    have hright : (a :: (u ++ ' ' :: r)).rdropWhile blank = a :: (u ++ ' ' :: r).rdropWhile blank :=
      rdropWhile_append_cons ha [] _
    rw [List.cons_append, strip, hright, List.dropWhile_cons_of_neg (by simp [ha])] at h
    have htail : (u ++ ' ' :: r).rdropWhile blank = u ++ ['\\'] := (List.cons.inj h).2
    have hsub := List.rdropWhile_prefix blank (u ++ ' ' :: r)
    rw [htail, List.prefix_append_right_inj] at hsub
    exact absurd (List.cons_prefix_cons.1 hsub).1 (by decide)

theorem unescaped_of_items (hls : ∀ l ∈ ls, l.Tame)
    (hvalue : ∀ key value, .assign key value ∈ ls → Edges value)
    (h : (logicalLines none (ls.map Line.text ++ [[]])).filterMap parseLine =
      ls.filterMap Line.item) : ∀ key value, .assign key value ∈ ls → escaped value = false := by
  induction ls with
  | nil => simp
  | cons l ls ih =>
    obtain ⟨htame, hrest⟩ := List.forall_mem_cons.1 hls
    have hedges : ∀ key value, l = .assign key value → Edges value :=
      fun key value hl ↦ hvalue key value (by simp [hl])
    rw [List.map_cons, List.cons_append] at h
    cases hesc : escaped l.text with
    | false =>
      rw [logicalLines_cons htame hesc, List.filterMap_cons, List.filterMap_cons,
        parseLine_text htame hedges] at h
      have htail : (logicalLines none (ls.map Line.text ++ [[]])).filterMap parseLine =
          ls.filterMap Line.item := by
        cases hitem : l.item with
        | none | some => simpa [hitem] using h
      intro key value hmem
      rcases List.mem_cons.1 hmem with rfl | hmem
      · rwa [Line.Tame.escaped_assign] at hesc
      · exact ih hrest (fun key value hm ↦ hvalue key value (by simp [hm])) htail key value hmem
    | true =>
      -- The line runs on into the next one, so its own value is not read.
      obtain ⟨key, value, rfl, hvesc⟩ := Line.Tame.escaped hesc
      obtain ⟨u, rfl, -⟩ := eq_concat_of_escaped hvesc
      have hcarry : logicalLines none ((Line.assign key (u ++ ['\\'])).text ::
          (ls.map Line.text ++ [[]])) =
          logicalLines (some (key ++ '=' :: (u ++ [' ']))) (ls.map Line.text ++ [[]]) := by
        have hdrop : (Line.assign key (u ++ ['\\'])).text.dropLast = key ++ '=' :: u := by
          have heq : (Line.assign key (u ++ ['\\'])).text = (key ++ '=' :: u) ++ ['\\'] := by
            simp [Line.text]
          rw [heq, List.dropLast_concat]
        simp [logicalLines, htame.isComment, hesc, hdrop]
      have hlast : (key ++ '=' :: (u ++ [' '])).getLast? = some ' ' := by
        have heq : key ++ '=' :: (u ++ [' ']) = (key ++ '=' :: u) ++ [' '] := by simp
        rw [heq, List.getLast?_concat]
      obtain ⟨r, rest, hr, hhead⟩ := logicalLines_carry_file hlast hrest
      have hread : (key ++ '=' :: (u ++ [' '])) ++ r = key ++ '=' :: (u ++ ' ' :: r) := by simp
      rw [hcarry, hr, hread, List.filterMap_cons, parseLine_assign htame] at h
      simp only [List.filterMap_cons, Line.item, List.cons.injEq, Item.assignment.injEq, true_and] at h
      exact absurd h.1 (strip_ne_of_continued (hedges _ _ rfl) hhead)

theorem unbroken_text (h : l.Tame)
    (hvalue : ∀ key value, l = .assign key value → ∀ c ∈ value, lineBreak c = false) :
    ∀ c ∈ l.text, lineBreak c = false := by
  intro c hc
  cases l with
  | gap => simp [Line.text] at hc
  | header name =>
    simp only [Line.text, List.mem_cons, List.mem_append, List.not_mem_nil, or_false] at hc
    rcases hc with rfl | hc | rfl
    · decide
    · exact lineBreak_of_isAlphanum (h.2 c hc)
    · decide
  | assign key value =>
    rcases List.mem_append.1 hc with hc | hc
    · exact lineBreak_of_isAlphanum (h.2 c hc)
    · rcases List.mem_cons.1 hc with rfl | hc
      · decide
      · exact hvalue key value rfl c hc

theorem logicalLines_file (hls : ∀ l ∈ ls, l.Tame)
    (hesc : ∀ key value, .assign key value ∈ ls → escaped value = false) :
    logicalLines none (ls.map Line.text ++ [[]]) = ls.map Line.text ++ [[]] := by
  induction ls with
  | nil => rfl
  | cons l ls ih =>
    obtain ⟨htame, hls⟩ := List.forall_mem_cons.1 hls
    have hl : escaped l.text = false := by
      by_contra h
      obtain ⟨key, value, rfl, hv⟩ := Line.Tame.escaped (by simpa using h)
      exact absurd (hesc key value (by simp)) (by simp [hv])
    rw [List.map_cons, List.cons_append, logicalLines_cons htame hl,
      ih hls fun key value hm ↦ hesc key value (by simp [hm])]

theorem parse_file (hls : ∀ l ∈ ls, l.Tame) (hvalue : ∀ key value, .assign key value ∈ ls →
    (∀ c ∈ value, lineBreak c = false) ∧ escaped value = false) :
    parse (file ls) = ls.filterMap (parseLine ·.text) := by
  have hsplit := splitLines_file fun l hl ↦ unbroken_text (hls l hl) fun key value heq ↦
    (hvalue key value (heq ▸ hl)).1
  rw [parse, hsplit, logicalLines_file hls fun key value hm ↦ (hvalue key value hm).2,
    List.filterMap_append, List.filterMap_map]
  exact List.append_nil _

theorem parse_file_iff (hls : ∀ l ∈ ls, l.Tame) :
    parse (file ls) = ls.filterMap Line.item ↔
      ∀ key value, .assign key value ∈ ls → Plain value := by
  constructor
  · intro h
    have hread : ∀ key value, .assign key value ∈ ls →
        (∀ c ∈ value, lineBreak c = false) ∧ Edges value := by
      intro key value hmem
      have hitem : .assignment key value ∈ parse (file ls) := by
        rw [h]
        exact List.mem_filterMap.2 ⟨_, hmem, rfl⟩
      exact of_mem_parse hitem
    have hsplit := splitLines_file fun l hl ↦ unbroken_text (hls l hl) fun key value heq ↦
      (hread key value (heq ▸ hl)).1
    rw [parse, hsplit] at h
    intro key value hmem
    exact ⟨(hread key value hmem).1, (hread key value hmem).2,
      unescaped_of_items hls (fun key value hm ↦ (hread key value hm).2) h key value hmem⟩
  · intro h
    rw [parse_file hls fun key value hm ↦ ⟨(h key value hm).unbroken, (h key value hm).unescaped⟩]
    refine List.filterMap_congr fun l hl ↦ ?_
    exact parseLine_text (hls l hl) fun key value heq ↦ (h key value (heq ▸ hl)).edges

structure Section where
  name : Text
  entries : List (Text × Text)
  deriving DecidableEq

namespace Section

def items (s : Section) : List Item :=
  .header s.name :: s.entries.map fun e ↦ .assignment e.1 e.2

def lines (s : Section) : List Line :=
  .header s.name :: s.entries.map fun e ↦ .assign e.1 e.2

def text (s : Section) : Text :=
  '[' :: (s.name ++ [']', '\n']) ++ s.entries.flatMap fun e ↦ e.1 ++ '=' :: (e.2 ++ ['\n'])

def Tame (s : Section) : Prop := ∀ t ∈ s.name :: s.entries.map Prod.fst,
  t ≠ [] ∧ ∀ c ∈ t, c.isAlphanum = true

end Section

def collect : List Item → Option (List (Text × Text) × List Section)
  | [] => some ([], [])
  | .header name :: items => (collect items).map fun x ↦ ([], ⟨name, x.1⟩ :: x.2)
  | .assignment key value :: items => (collect items).map fun x ↦ ((key, value) :: x.1, x.2)
  | .malformed _ :: _ => none

def sections (t : Text) : Option (List Section) :=
  match collect (parse t) with
  | some ([], ss) => some ss
  | _ => none

def unitFile : List Section → Text
  | [] => []
  | s :: ss => s.text ++ ss.flatMap fun s ↦ '\n' :: s.text

def unitLines : List Section → List Line
  | [] => []
  | s :: ss => s.lines ++ ss.flatMap fun s ↦ .gap :: s.lines

variable {ss : List Section}

theorem collect_assignments (es : List (Text × Text)) (items : List Item) :
    collect ((es.map fun e ↦ .assignment e.1 e.2) ++ items) =
      (collect items).map fun x ↦ (es ++ x.1, x.2) := by
  induction es with
  | nil => simp
  | cons e es ih => simp [collect, ih, Function.comp_def]

theorem collect_items (ss : List Section) : collect (ss.flatMap Section.items) = some ([], ss) := by
  induction ss with
  | nil => rfl
  | cons s ss ih => simp [Section.items, collect, collect_assignments, ih]

theorem eq_of_collect {items : List Item} {es : List (Text × Text)}
    (h : collect items = some (es, ss)) :
    items = (es.map fun e ↦ .assignment e.1 e.2) ++ ss.flatMap Section.items := by
  induction items generalizing es ss with
  | nil =>
    cases h
    rfl
  | cons item items ih =>
    cases item with
    | header | assignment =>
      obtain ⟨⟨es', ss'⟩, hrest, heq⟩ := Option.map_eq_some_iff.1 h
      cases heq
      simp [Section.items, ih hrest]
    | malformed line => cases h

theorem sections_eq_some : sections t = some ss ↔ parse t = ss.flatMap Section.items := by
  constructor
  · intro h
    unfold sections at h
    split at h
    · next hcollect =>
      cases h
      exact eq_of_collect hcollect
    · cases h
  · intro h
    rw [sections, h, collect_items]

theorem file_append (ls ls' : List Line) : file (ls ++ ls') = file ls ++ file ls' :=
  List.flatMap_append

theorem file_lines (s : Section) : file s.lines = s.text := by
  simp [file, Section.lines, Section.text, Line.text, List.flatMap_map]

theorem file_unitLines (ss : List Section) : file (unitLines ss) = unitFile ss := by
  cases ss with
  | nil => rfl
  | cons s ss =>
    have htail : file (ss.flatMap fun s ↦ .gap :: s.lines) = ss.flatMap fun s ↦ '\n' :: s.text := by
      simp only [← file_lines]
      rw [file, List.flatMap_assoc]
      rfl
    rw [unitLines, file_append, file_lines, htail]
    rfl

theorem filterMap_unitLines (ss : List Section) :
    (unitLines ss).filterMap Line.item = ss.flatMap Section.items := by
  have hlines (s : Section) : s.lines.filterMap Line.item = s.items := by
    simp [Section.lines, Section.items, Line.item, List.filterMap_map, Function.comp_def]
  cases ss with
  | nil => rfl
  | cons s ss =>
    simp [unitLines, hlines, List.filterMap_flatMap, List.filterMap_cons, Line.item]

theorem mem_unitLines (hl : l ≠ .gap) : l ∈ unitLines ss ↔ ∃ s ∈ ss, l ∈ s.lines := by
  cases ss with
  | nil => simp [unitLines]
  | cons s ss => simp [unitLines, hl]

theorem sections_unitFile (h : ∀ s ∈ ss, s.Tame) :
    sections (unitFile ss) = some ss ↔ ∀ s ∈ ss, ∀ e ∈ s.entries, Plain e.2 := by
  have htame : ∀ l ∈ unitLines ss, l.Tame := by
    intro l hl
    by_cases hgap : l = .gap
    · rw [hgap]
      trivial
    · obtain ⟨s, hs, hl⟩ := (mem_unitLines hgap).1 hl
      rcases List.mem_cons.1 hl with rfl | hl
      · exact h s hs _ (by simp)
      · obtain ⟨e, he, rfl⟩ := List.mem_map.1 hl
        exact h s hs _ (List.mem_cons_of_mem _ (List.mem_map_of_mem he))
  rw [sections_eq_some, ← filterMap_unitLines, ← file_unitLines, parse_file_iff htame]
  constructor
  · intro hplain s hs e he
    refine hplain e.1 e.2 ((mem_unitLines (by simp)).2 ⟨s, hs, ?_⟩)
    exact List.mem_cons_of_mem _ (List.mem_map_of_mem he)
  · intro hplain key value hmem
    obtain ⟨s, hs, hl⟩ := (mem_unitLines (by simp)).1 hmem
    rcases List.mem_cons.1 hl with hheader | hl
    · cases hheader
    · obtain ⟨e, he, heq⟩ := List.mem_map.1 hl
      cases heq
      exact hplain s hs e he

end MicaCore.Systemd
