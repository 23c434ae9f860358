import MicaCore.Bus.Dispatch

namespace MicaCore.Settings

open Data

def spellPath (ss : List Text) : Text := ['.'].intercalate (ss.map quotePathSegment)

variable {ss : List Text}

theorem splitPath_spellPath (hne : ss ≠ []) (h : ∀ s ∈ ss, s ≠ [] ∧ '"' ∉ s) :
    splitPath (spellPath ss) = .ok ss :=
  splitPath_eq_ok.2 (Bus.spelling_iff.2 ⟨_, Bus.forall₂_segment_map_quote h, rfl, by simpa using hne⟩)

theorem jsonPathGet_eq_follow {path : Text} (h : splitPath path = .ok ss) (root : Json) :
    jsonPathGet root path = follow root ss := by
  rw [jsonPathGet, isRoot_eq_false h, h]
  rfl

theorem follow_obj (fields : List (Text × Json)) (s : Text) (ss : List Text) :
    follow (.obj fields) (s :: ss) = (OrdMap.find s fields).bind (follow · ss) := rfl

theorem follow_empty (h : ss ≠ []) : follow (.obj []) ss = none := by
  obtain ⟨s, ss, rfl⟩ := List.exists_cons_of_ne_nil h
  rfl

theorem follow_getD (node : Option Json) (h : ss ≠ []) :
    follow (node.getD (.obj [])) ss = node.bind (follow · ss) := by
  cases node with
  | none => exact follow_empty h
  | some node => rfl

variable {root root' value : Json} {walked : Text}

section

variable (h : setBelow root walked ss value = .ok root')

include h

theorem obj_of_setBelow : ∃ fields s rest, root = .obj fields ∧ ss = s :: rest := by
  cases ss with
  | nil => simp [setBelow] at h
  | cons s rest =>
    cases root with
    | obj fields => exact ⟨fields, s, rest, rfl, rfl⟩
    | _ => simp [setBelow] at h

theorem follow_setBelow (more : List Text) :
    follow root' (ss ++ more) = follow value more := by
  induction ss generalizing root root' walked with
  | nil => simp [setBelow] at h
  | cons s rest ih =>
    obtain ⟨fields, _, _, rfl, heq⟩ := obj_of_setBelow h
    obtain ⟨child, rfl, hlast, hbelow⟩ := setBelow_obj h
    rw [List.cons_append, follow_obj, OrdMap.find_insertEntry, if_pos rfl, Option.bind_some]
    by_cases hrest : rest = []
    · rw [hrest, hlast hrest, List.nil_append]
    · obtain ⟨walked', hchild⟩ := hbelow hrest
      exact ih hchild

theorem follow_setBelow_apart {rs : List Text} (hrs : ¬ rs <+: ss) (hss : ¬ ss <+: rs) :
    follow root' rs = follow root rs := by
  induction ss generalizing root root' walked rs with
  | nil => simp [setBelow] at h
  | cons s rest ih =>
    obtain ⟨fields, _, _, rfl, heq⟩ := obj_of_setBelow h
    obtain ⟨child, rfl, -, hbelow⟩ := setBelow_obj h
    cases rs with
    | nil => exact absurd List.nil_prefix hrs
    | cons r rs =>
      rw [follow_obj, follow_obj, OrdMap.find_insertEntry]
      split
      · -- The two part further down, so what is left of both is not empty.
        next hr =>
        subst hr
        rw [List.prefix_cons_inj] at hrs hss
        have hrest : rest ≠ [] := fun hnil ↦ hss (hnil ▸ List.nil_prefix)
        have hne : rs ≠ [] := fun hnil ↦ hrs (hnil ▸ List.nil_prefix)
        obtain ⟨walked', hchild⟩ := hbelow hrest
        rw [Option.bind_some, ih hchild hrs hss, follow_getD _ hne]
      · rfl

end

/-- Paths are read as the segments they spell, and a write is seen there and nowhere beside. -/
theorem paths_lawful :
    (∀ ss : List Text, ss ≠ [] → (∀ s ∈ ss, s ≠ [] ∧ '"' ∉ s) → splitPath (spellPath ss) = .ok ss) ∧
    (∀ (path : Text) (ss : List Text), splitPath path = .ok ss → ∀ t, jsonPathGet t path = follow t ss) ∧
    ∀ (t t' v : Json) (s : List Text), jsonPathSet t s v = .ok t' →
      follow t' s = some v ∧ (∀ more, follow t' (s ++ more) = follow v more) ∧
        ∀ r, ¬ r <+: s → ¬ s <+: r → follow t' r = follow t r := by
  refine ⟨fun ss ↦ splitPath_spellPath, fun path ss ↦ jsonPathGet_eq_follow, fun t t' v s h ↦ ?_⟩
  have hmore : ∀ more, follow t' (s ++ more) = follow v more := follow_setBelow h
  refine ⟨?_, hmore, fun r ↦ follow_setBelow_apart h⟩
  have hown := hmore []
  rwa [List.append_nil] at hown

theorem paths_lawful_sample :
    let ss := ["network".toList, "eth0.100".toList]
    splitPath "network.\"eth0.100\"".toList = .ok ss ∧
      jsonPathGet (.obj [("network".toList, .obj [("eth0.100".toList, .bool true)])])
        "network.\"eth0.100\"".toList = some (.bool true) := by
  have hsplit : splitPath "network.\"eth0.100\"".toList =
      .ok ["network".toList, "eth0.100".toList] :=
    paths_lawful.1 ["network".toList, "eth0.100".toList] (by decide) (by decide)
  refine ⟨hsplit, (paths_lawful.2.1 _ _ hsplit _).trans ?_⟩
  exact (paths_lawful.2.2 (.obj []) _ (.bool true) _ rfl).1

end MicaCore.Settings
