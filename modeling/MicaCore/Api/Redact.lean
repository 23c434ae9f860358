import MicaCore.Settings.Path
import Mathlib.Data.List.DropRight

namespace MicaCore.Api

open Data Settings

def redacted : Json := .str "<redacted>".toList

def secretFields : List Text :=
  ["psk".toList, "passwordHash".toList, "password_hash".toList, "hash".toList,
    "privateKey".toList, "presharedKey".toList]

def isSecret (name : Text) : Bool := secretFields.contains name

mutual

def walk : Json → Json
  | .obj fields => .obj (walkFields fields)
  | .arr items => .arr (walkItems items)
  | other => other

def walkFields : List (Text × Json) → List (Text × Json)
  | [] => []
  | (name, child) :: fields =>
    (name, if isSecret name then redacted else walk child) :: walkFields fields

def walkItems : List Json → List Json
  | [] => []
  | item :: items => walk item :: walkItems items

end

def leaf (path : Text) : Text := path.rtakeWhile (· != '.')

def redact (value : Json) (path : Text) : Json :=
  if isSecret (leaf path) then redacted else walk value

def resourceResponse {ε : Type} (value : Except ε Json) (path : Text) : Except ε Json :=
  value.map fun value ↦ redact value path

def isContainer : Json → Bool
  | .obj _ => true
  | .arr _ => true
  | _ => false

mutual

def plain : Json → Bool
  | .obj fields => plainFields fields
  | .arr items => plainItems items
  | _ => true

def plainFields : List (Text × Json) → Bool
  | [] => true
  | (name, child) :: fields =>
    !(isSecret name && isContainer child) && plain child && plainFields fields

def plainItems : List Json → Bool
  | [] => true
  | item :: items => plain item && plainItems items

end

mutual

/-- Every secret-named field holds the placeholder. -/
def Masked : Json → Prop
  | .obj fields => MaskedFields fields
  | .arr items => MaskedItems items
  | _ => True

def MaskedFields : List (Text × Json) → Prop
  | [] => True
  | (name, child) :: fields =>
    (isSecret name → child = redacted) ∧ Masked child ∧ MaskedFields fields

def MaskedItems : List Json → Prop
  | [] => True
  | item :: items => Masked item ∧ MaskedItems items

end

theorem masked_redacted : Masked redacted := by simp [redacted, Masked]

mutual

theorem masked_walk : ∀ v : Json, Masked (walk v)
  | .obj fields => by
    rw [walk, Masked]
    exact maskedFields_walkFields fields
  | .arr items => by
    rw [walk, Masked]
    exact maskedItems_walkItems items
  | .null | .bool _ | .num _ | .str _ => by simp [walk, Masked]

theorem maskedFields_walkFields : ∀ fields, MaskedFields (walkFields fields)
  | [] => by simp [walkFields, MaskedFields]
  | (name, child) :: fields => by
    rw [walkFields, MaskedFields]
    refine ⟨fun h ↦ if_pos h, ?_, maskedFields_walkFields fields⟩
    split
    · exact masked_redacted
    · exact masked_walk child

theorem maskedItems_walkItems : ∀ items, MaskedItems (walkItems items)
  | [] => by simp [walkItems, MaskedItems]
  | item :: items => by
    rw [walkItems, MaskedItems]
    exact ⟨masked_walk item, maskedItems_walkItems items⟩

end

variable {v : Json}

theorem walk_of_scalar (h : isContainer v = false) : walk v = v := by
  cases v <;> simp_all [isContainer, walk]

theorem find_walkFields (name : Text) (fields : List (Text × Json)) :
    OrdMap.find name (walkFields fields) =
      (OrdMap.find name fields).map fun v ↦ if isSecret name then redacted else walk v := by
  induction fields with
  | nil => simp [walkFields, OrdMap.find]
  | cons e fields ih =>
    obtain ⟨n, v⟩ := e
    rw [walkFields, OrdMap.find, OrdMap.find, ih]
    split
    · next h => simp [h]
    · rfl

theorem plain_of_find {name : Text} {fields : List (Text × Json)}
    (h : plainFields fields = true) (hv : OrdMap.find name fields = some v) :
    plain v = true ∧ (isSecret name = true → isContainer v = false) := by
  induction fields with
  | nil => simp [OrdMap.find] at hv
  | cons e fields ih =>
    obtain ⟨n, w⟩ := e
    simp only [plainFields, Bool.and_eq_true, Bool.not_eq_true', Bool.and_eq_false_iff] at h
    rw [OrdMap.find] at hv
    split at hv
    · next hn =>
      cases hv
      subst hn
      exact ⟨h.1.2, fun hs ↦ h.1.1.resolve_left (by simp [hs])⟩
    · exact ih h.2 hv

theorem get_walk (t : Json) (name : Text) :
    (walk t).get name = (t.get name).map fun v ↦ if isSecret name then redacted else walk v := by
  cases t with
  | obj fields => exact find_walkFields name fields
  | _ => rfl

variable {t : Json}

theorem plain_of_get {name : Text} (ht : plain t = true) (hv : t.get name = some v) :
    plain v = true ∧ (isSecret name = true → isContainer v = false) := by
  cases t with
  | obj fields => exact plain_of_find (by simpa [plain] using ht) hv
  | _ => cases hv

variable {s : Text} {ss : List Text}

theorem follow_walk (ht : plain t = true) (hv : follow t (ss ++ [s]) = some v) :
    follow (walk t) (ss ++ [s]) = some (if isSecret s then redacted else walk v) := by
  induction ss generalizing t with
  | nil =>
    obtain ⟨u, hu, rfl⟩ : ∃ u, t.get s = some u ∧ u = v := by simpa [follow] using hv
    simp [follow, get_walk, hu]
  | cons x ss ih =>
    obtain ⟨u, hu, hrest⟩ := Option.bind_eq_some_iff.1 hv
    obtain ⟨hplain, hsecret⟩ := plain_of_get ht hu
    -- A path goes on below `x`, so what stands there is a table and `x` is no secret.
    have hx : ¬ isSecret x = true := by
      intro hx
      have := hsecret hx
      cases u <;> cases ss <;> simp_all [follow, isContainer, Json.get]
    have hget : (walk t).get x = some (walk u) := by simp [get_walk, hu, hx]
    simp [follow, hget, ih hplain hrest]

/-- The path ends in the name of a secret field, in quotes. -/
def QuotedSecret (path : Text) : Prop := ∃ name ∈ secretFields, quoted name <:+ path

instance (path : Text) : Decidable (QuotedSecret path) :=
  inferInstanceAs (Decidable (∃ name ∈ secretFields, quoted name <:+ path))

theorem takeWhile_append_dot (a b : Text) :
    (a ++ '.' :: b).takeWhile (· != '.') = a.takeWhile (· != '.') := by
  induction a with
  | nil => rfl
  | cons c a ih => simp [List.takeWhile_cons, ih]

theorem leaf_of_not_mem (h : '.' ∉ s) : leaf s = s := by
  refine List.rtakeWhile_eq_self_iff.2 fun c hc ↦ ?_
  simp only [bne_iff_ne]
  rintro rfl
  exact h hc

theorem leaf_append (w p : Text) : leaf (w ++ '.' :: p) = leaf p := by
  rw [leaf, leaf, List.rtakeWhile, List.rtakeWhile, List.reverse_append, List.reverse_cons,
    List.append_assoc, List.singleton_append, takeWhile_append_dot]

variable {p : Text}

theorem quote_mem_leaf (h : quoted s <:+ p) : '"' ∈ leaf p := by
  obtain ⟨w, rfl⟩ := h
  have : w ++ quoted s = (w ++ '"' :: s) ++ ['"'] := by simp [quoted]
  rw [leaf, this, List.rtakeWhile_concat_pos _ _ _ (by decide)]
  simp

theorem not_isSecret_of_quote_mem (h : '"' ∈ s) : ¬ isSecret s = true := by
  intro hs
  have hclean : ∀ name ∈ secretFields, '"' ∉ name := by decide
  exact hclean s (by simpa [isSecret] using hs) h

/-- How a path whose last segment is `s` ends: in `s` bare, or in quotes. -/
inductive Ending (p s : Text) : Prop
  | bare : leaf p = s → '"' ∉ s → Ending p s
  | quoted : quoted s <:+ p → '"' ∉ s → Ending p s

theorem ending_of_segment {w : Text} (h : Segment w s) : Ending w s := by
  cases h with
  | bare _ hd hq => exact .bare (leaf_of_not_mem hd) hq
  | quoted _ hq => exact .quoted List.suffix_rfl hq

theorem Ending.append (h : Ending p s) (w : Text) : Ending (w ++ '.' :: p) s := by
  cases h with
  | bare hl hq => exact .bare (by rwa [leaf_append]) hq
  | quoted hs hq => exact .quoted (hs.trans ⟨w ++ ['.'], by simp⟩) hq

theorem ending_of_spelling {segments : List Text} (h : Spelling p segments) :
    ∃ ss s, segments = ss ++ [s] ∧ Ending p s := by
  induction h with
  | last hw => exact ⟨[], _, rfl, ending_of_segment hw⟩
  | @more w s p segments _ _ ih =>
    obtain ⟨ss, last, rfl, he⟩ := ih
    exact ⟨s :: ss, last, rfl, he.append w⟩

theorem eq_of_quoted_suffix {a b : Text} (ha : '"' ∉ a) (hb : '"' ∉ b)
    (h : quoted a <:+ p) (h' : quoted b <:+ p) : a = b := by
  have key : ∀ {x y : Text}, '"' ∉ y → quoted x <:+ quoted y → x = y := by
    intro x y hy hxy
    obtain ⟨w, hw⟩ := hxy
    have hw : (w ++ '"' :: x) ++ ['"'] = ('"' :: y) ++ ['"'] := by simpa [quoted] using hw
    have hw := List.append_cancel_right hw
    cases w with
    | nil => simpa using hw
    | cons c w =>
      obtain ⟨-, rfl⟩ := List.cons.inj hw
      simp at hy
  rcases List.suffix_or_suffix_of_suffix h h' with hab | hba
  · exact key hb hab
  · exact (key ha hba).symm

theorem Ending.isSecret_leaf (h : Ending p s) :
    isSecret (leaf p) = true ↔ isSecret s = true ∧ ¬ QuotedSecret p := by
  cases h with
  | bare hl hq =>
    have hnot : ¬ QuotedSecret p := by
      rintro ⟨name, -, hs⟩
      exact hq (hl ▸ quote_mem_leaf hs)
    simp [hl, hnot]
  | quoted hs hq =>
    have hleaf := not_isSecret_of_quote_mem (quote_mem_leaf hs)
    refine iff_of_false hleaf ?_
    rintro ⟨hsecret, hnot⟩
    exact hnot ⟨s, by simpa [isSecret] using hsecret, hs⟩

theorem Ending.isSecret_of_quotedSecret (h : Ending p s) (hp : QuotedSecret p) :
    isSecret s = true := by
  obtain ⟨name, hname, hs⟩ := hp
  have hclean : ∀ name ∈ secretFields, '"' ∉ name := by decide
  cases h with
  | bare hl hq => exact absurd (hl ▸ quote_mem_leaf hs) hq
  | quoted hs' hq =>
    rw [← eq_of_quoted_suffix (hclean name hname) hq hs hs']
    simpa [isSecret] using hname

theorem masked_redact (v : Json) (p : Text) : Masked (redact v p) := by
  rw [redact]
  split
  · exact masked_redacted
  · exact masked_walk v

theorem jsonPathGet_of_ne_root (hp : isRoot p = false) (hv : jsonPathGet t p = some v) :
    ∃ ss s, splitPath p = .ok (ss ++ [s]) ∧ Ending p s ∧ follow t (ss ++ [s]) = some v := by
  rw [jsonPathGet, hp, if_neg (by decide)] at hv
  split at hv
  · next segments hs =>
    obtain ⟨ss, s, rfl, he⟩ := ending_of_spelling (splitPath_eq_ok.1 hs)
    exact ⟨ss, s, hs, he, hv⟩
  · cases hv

theorem jsonPathGet_walk (ht : plain t = true)
    (hp : isRoot p = false) (hs : splitPath p = .ok (ss ++ [s]))
    (hv : follow t (ss ++ [s]) = some v) :
    jsonPathGet (walk t) p = some (if isSecret s then redacted else walk v) := by
  rw [jsonPathGet, hp, if_neg (by decide), hs]
  exact follow_walk ht hv

theorem walk_eq_of_secret (ht : plain t = true)
    (hv : follow t (ss ++ [s]) = some v) (hs : isSecret s = true) : walk v = v := by
  induction ss generalizing t with
  | nil =>
    obtain ⟨u, hu, rfl⟩ : ∃ u, t.get s = some u ∧ u = v := by simpa [follow] using hv
    exact walk_of_scalar ((plain_of_get ht hu).2 hs)
  | cons x ss ih =>
    obtain ⟨u, hu, hrest⟩ := Option.bind_eq_some_iff.1 hv
    exact ih (plain_of_get ht hu).1 hrest

theorem redact_root (hp : isRoot p = true) (v : Json) : redact v p = walk v ∧ ¬ QuotedSecret p := by
  rcases (by simpa [isRoot] using hp : p = [] ∨ p = ['.']) with rfl | rfl <;>
    exact ⟨rfl, by decide⟩

theorem redact_of_ending (he : Ending p s) :
    redact v p = if isSecret s = true ∧ ¬ QuotedSecret p then redacted else walk v := by
  rw [redact]
  exact if_congr he.isSecret_leaf rfl rfl

/-- What is served is what the redacted tree has, unless the path ends in a quoted secret name. -/
theorem resourceResponse_commutes_iff {t v : Json} {p : Text} (ht : plain t = true)
    (hv : jsonPathGet t p = some v) :
    ∃ served, resourceResponse (.ok v : Except String Json) p = .ok served ∧ Masked served ∧
      (jsonPathGet (walk t) p = some served ↔ ¬ QuotedSecret p ∨ v = redacted) ∧
      ∀ ss s, splitPath p = .ok (ss ++ [s]) → isSecret s = true →
        (served = redacted ↔ ¬ QuotedSecret p ∨ v = redacted) := by
  refine ⟨redact v p, rfl, masked_redact v p, ?_⟩
  cases hp : isRoot p with
  | true =>
    obtain ⟨hredact, hnot⟩ := redact_root hp v
    obtain rfl : t = v := by simpa [jsonPathGet, hp] using hv
    refine ⟨?_, fun ss s hs ↦ ?_⟩
    · simp [jsonPathGet, hp, hredact, hnot]
    · have hnone : splitPath p = .error (.notFound p) := by
        rcases (by simpa [isRoot] using hp : p = [] ∨ p = ['.']) with rfl | rfl <;> rfl
      rw [hnone] at hs
      cases hs
  | false =>
    obtain ⟨ss, s, hs, he, hf⟩ := jsonPathGet_of_ne_root hp hv
    have hserved := redact_of_ending (v := v) he
    have hsecret : isSecret s = true → (redact v p = redacted ↔ ¬ QuotedSecret p ∨ v = redacted) := by
      intro hsec
      rw [hserved, walk_eq_of_secret ht hf hsec]
      by_cases hq : QuotedSecret p <;> simp [hsec, hq]
    refine ⟨?_, fun ss' s' hs' hsec ↦ ?_⟩
    · rw [jsonPathGet_walk ht hp hs hf, Option.some_inj]
      by_cases hsec : isSecret s = true
      · rw [if_pos hsec, eq_comm, hsecret hsec]
      · have hnot : ¬ QuotedSecret p := fun hq ↦ hsec (he.isSecret_of_quotedSecret hq)
        simp [hserved, hsec, hnot]
    · rw [hs, Except.ok.injEq] at hs'
      obtain ⟨-, hlast⟩ := List.append_inj' hs' rfl
      obtain ⟨rfl, -⟩ := List.cons.inj hlast
      exact hsecret hsec

def keyed : Json :=
  .obj [("wifi".toList, .obj [("ap".toList, .obj [("psk".toList, .str "opensesame".toList)])])]

theorem resourceResponse_commutes_bare :
    ∃ served, resourceResponse (.ok (.str "opensesame".toList) : Except String Json)
        "wifi.ap.psk".toList = .ok served ∧ Masked served ∧
      (jsonPathGet (walk keyed) "wifi.ap.psk".toList = some served ↔
        ¬ QuotedSecret "wifi.ap.psk".toList ∨ Json.str "opensesame".toList = redacted) ∧
      ∀ ss s, splitPath "wifi.ap.psk".toList = .ok (ss ++ [s]) → isSecret s = true →
        (served = redacted ↔
          ¬ QuotedSecret "wifi.ap.psk".toList ∨ Json.str "opensesame".toList = redacted) :=
  resourceResponse_commutes_iff (by rfl) (by rfl)

/-- The key asked for in quotes is served as it is. -/
theorem resourceResponse_quoted :
    plain keyed = true ∧
    jsonPathGet keyed "wifi.ap.\"psk\"".toList = some (.str "opensesame".toList) ∧
    resourceResponse (.ok (.str "opensesame".toList) : Except String Json)
      "wifi.ap.\"psk\"".toList = .ok (.str "opensesame".toList) ∧
    jsonPathGet (walk keyed) "wifi.ap.\"psk\"".toList ≠ some (.str "opensesame".toList) := by
  refine ⟨rfl, rfl, rfl, ?_⟩
  have hwalk : jsonPathGet (walk keyed) "wifi.ap.\"psk\"".toList = some redacted := rfl
  rw [hwalk]
  simp [redacted]

end MicaCore.Api
