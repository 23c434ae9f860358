import MicaCore.Data.OrdMap
import MicaCore.Deploy.Identity
import Mathlib.Data.Char
import Mathlib.Data.List.Lex

namespace MicaCore.Settings

open Data

/-- Objects have their fields in the order of names; a number is its literal. -/
inductive Json where
  | null
  | bool (b : Bool)
  | num (literal : Text)
  | str (s : Text)
  | arr (items : List Json)
  | obj (fields : List (Text × Json))

inductive SettingsError where
  | notFound (path : Text)
  | validation (path message : Text)
  deriving DecidableEq

def Json.get : Json → Text → Option Json
  | .obj fields, name => OrdMap.find name fields
  | _, _ => none

/-- The segment at the front and, after a separator, the text left to split. -/
def nextSegment : Text → Option (Text × Option Text)
  | '"' :: quoted =>
    match splitOnce '"' quoted with
    | some (segment, '.' :: tail) => some (segment, some tail)
    | some (segment, []) => some (segment, none)
    | _ => none
  | rest =>
    match splitOnce '.' rest with
    | some (segment, tail) => some (segment, some tail)
    | none => some (rest, none)

def splitFrom : ℕ → Text → Option (List Text)
  | 0, _ => none
  | fuel + 1, rest =>
    match nextSegment rest with
    | none => none
    | some (segment, tail) =>
      if segment.isEmpty || segment.contains '"' then none
      else match tail with
        | some tail => (splitFrom fuel tail).map (segment :: ·)
        | none => some [segment]

def splitPath (path : Text) : Except SettingsError (List Text) :=
  match splitFrom (path.length + 1) path with
  | some segments => .ok segments
  | none => .error (.notFound path)

def isRoot (path : Text) : Bool := path.isEmpty || path == ['.']

def follow : Json → List Text → Option Json
  | node, [] => some node
  | node, segment :: segments => (node.get segment).bind (follow · segments)

def jsonPathGet (root : Json) (path : Text) : Option Json :=
  if isRoot path then some root
  else match splitPath path with
    | .ok segments => follow root segments
    | .error _ => none

def quotePathSegment (segment : Text) : Text :=
  if segment.contains '.' || segment.contains '"' then '"' :: (segment ++ ['"']) else segment

def notATable (path : Text) : SettingsError := .validation path "not a table".toList

def setBelow : Json → Text → List Text → Json → Except SettingsError Json
  | _, _, [], _ => .error (.validation [] "an empty path names no node".toList)
  | .obj fields, _, [last], value => .ok (.obj (OrdMap.insertEntry last value fields))
  | .obj fields, walked, segment :: rest, value =>
    let walked := (if walked.isEmpty then [] else walked ++ ['.']) ++ quotePathSegment segment
    (setBelow ((OrdMap.find segment fields).getD (.obj [])) walked rest value).map fun child ↦
      .obj (OrdMap.insertEntry segment child fields)
  | _, walked, _ :: _, _ => .error (notATable walked)

def jsonPathSet (root : Json) (segments : List Text) (value : Json) : Except SettingsError Json :=
  setBelow root [] segments value

/-- How a path carries one segment: bare, or in double quotes. -/
inductive Segment : Text → Text → Prop
  | bare {s : Text} : s ≠ [] → '.' ∉ s → '"' ∉ s → Segment s s
  | quoted {s : Text} : s ≠ [] → '"' ∉ s → Segment ('"' :: (s ++ ['"'])) s

/-- The grammar of paths: one or more segments with a dot between them. -/
inductive Spelling : Text → List Text → Prop
  | last {w s : Text} : Segment w s → Spelling w [s]
  | more {w s p : Text} {ss : List Text} :
      Segment w s → Spelling p ss → Spelling (w ++ '.' :: p) (s :: ss)

variable {w s : Text}

theorem Segment.ne_nil (h : Segment w s) : s ≠ [] ∧ '"' ∉ s := by
  cases h with
  | bare hne _ hq | quoted hne hq => exact ⟨hne, hq⟩

theorem nextSegment_bare (hne : s ≠ []) (hq : '"' ∉ s) (p : Text) :
    nextSegment (s ++ p) = match splitOnce '.' (s ++ p) with
      | some (segment, tail) => some (segment, some tail)
      | none => some (s ++ p, none) := by
  obtain ⟨c, s, rfl⟩ := List.exists_cons_of_ne_nil hne
  have hc : c ≠ '"' := fun h ↦ hq (by simp [h])
  rw [List.cons_append, nextSegment]
  simpa using hc

theorem Segment.nextSegment_last (h : Segment w s) : nextSegment w = some (s, none) := by
  cases h with
  | bare hne hd hq =>
    have := nextSegment_bare hne hq []
    rwa [List.append_nil, splitOnce_eq_none hd] at this
  | quoted hne hq => simp [nextSegment, splitOnce_append _ hq]

theorem Segment.nextSegment_more (h : Segment w s) (p : Text) :
    nextSegment (w ++ '.' :: p) = some (s, some p) := by
  cases h with
  | bare hne hd hq => rw [nextSegment_bare hne hq, splitOnce_append p hd]
  | quoted hne hq =>
    have := splitOnce_append ('.' :: p) hq
    simp [nextSegment, this]

variable {p : Text}

theorem segment_of_nextSegment {tail : Option Text}
    (h : nextSegment p = some (s, tail)) (hne : s ≠ []) (hq : '"' ∉ s) :
    ∃ w, Segment w s ∧ p = w ++ tail.elim [] ('.' :: ·) := by
  unfold nextSegment at h
  split at h
  · split at h
    · next hab =>
      cases h
      exact ⟨_, .quoted hne hq, by simp [splitOnce_eq_some hab]⟩
    · next hab =>
      cases h
      exact ⟨_, .quoted hne hq, by simp [splitOnce_eq_some hab]⟩
    · cases h
  · split at h
    · next hab =>
      cases h
      exact ⟨s, .bare hne (not_mem_of_splitOnce hab) hq, splitOnce_eq_some hab⟩
    · next hab =>
      cases h
      exact ⟨_, .bare hne (not_mem_of_splitOnce_eq_none hab) hq, by simp⟩

variable {ss : List Text}

theorem Spelling.splitFrom_eq (h : Spelling p ss) {fuel : ℕ}
    (hf : p.length < fuel) : splitFrom fuel p = some ss := by
  induction h generalizing fuel with
  | last hw =>
    obtain ⟨n, rfl⟩ := Nat.exists_eq_add_of_lt hf
    simp [splitFrom, hw.nextSegment_last, hw.ne_nil]
  | @more w s p ss hw _ ih =>
    obtain ⟨n, rfl⟩ := Nat.exists_eq_add_of_lt hf
    have hrest := @ih ((w ++ '.' :: p).length + n) (by simp; omega)
    simp only [splitFrom, hw.nextSegment_more, hrest]
    simp [hw.ne_nil]

theorem spelling_of_splitFrom {fuel : ℕ} (h : splitFrom fuel p = some ss) : Spelling p ss := by
  induction fuel generalizing p ss with
  | zero => simp [splitFrom] at h
  | succ fuel ih =>
    rw [splitFrom] at h
    split at h
    · cases h
    · next s tail hs =>
      split at h
      · cases h
      · next hseg =>
        simp only [Bool.or_eq_true, not_or, List.isEmpty_iff, List.contains_iff_mem] at hseg
        obtain ⟨w, hw, rfl⟩ := segment_of_nextSegment hs hseg.1 hseg.2
        cases tail with
        | none =>
          cases h
          simpa using Spelling.last hw
        | some tail =>
          obtain ⟨ss', hrest, rfl⟩ := Option.map_eq_some_iff.1 h
          exact .more hw (ih hrest)

theorem splitPath_eq_ok : splitPath p = .ok ss ↔ Spelling p ss := by
  unfold splitPath
  constructor
  · intro h
    split at h
    · next hs =>
      cases h
      exact spelling_of_splitFrom hs
    · cases h
  · intro h
    rw [h.splitFrom_eq (Nat.lt_succ_self _)]

theorem isRoot_eq_false (h : splitPath p = .ok ss) : isRoot p = false := by
  rw [isRoot, Bool.or_eq_false_iff, List.isEmpty_eq_false_iff, beq_eq_false_iff_ne]
  constructor
  · rintro rfl
    cases h
  · rintro rfl
    cases h

theorem segment_quotePathSegment (hne : s ≠ []) (hq : '"' ∉ s) :
    Segment (quotePathSegment s) s := by
  unfold quotePathSegment
  have hcontains : s.contains '"' = false := by simpa using hq
  rw [hcontains, Bool.or_false]
  split
  · exact .quoted hne hq
  · next hdot => exact .bare hne (by simpa using hdot) hq

theorem setBelow_obj {fs : List (Text × Json)} {walked : Text} {rest : List Text}
    {value root : Json}
    (h : setBelow (.obj fs) walked (s :: rest) value = .ok root) :
    ∃ child, root = .obj (OrdMap.insertEntry s child fs) ∧ (rest = [] → child = value) ∧
      (rest ≠ [] → ∃ walked', setBelow ((OrdMap.find s fs).getD (.obj [])) walked' rest value = .ok child) := by
  cases rest with
  | nil =>
    rw [setBelow] at h
    cases h
    exact ⟨value, rfl, fun _ ↦ rfl, fun h ↦ absurd rfl h⟩
  | cons k rest =>
    rw [setBelow] at h
    · obtain ⟨child, hchild, rfl⟩ := map_eq_ok.1 h
      exact ⟨child, rfl, (by simp), fun _ ↦ ⟨_, hchild⟩⟩
    · simp

example : splitPath "network.\"eth0.100\".dhcp".toList =
    .ok ["network".toList, "eth0.100".toList, "dhcp".toList] := by decide

end MicaCore.Settings
