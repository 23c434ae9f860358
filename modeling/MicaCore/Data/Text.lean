import Mathlib.Data.Nat.Digits.Defs

namespace MicaCore.Data

abbrev Bytes := List UInt8

abbrev Text := List Char

def asciiDigit (c : Char) : Bool := '0' ≤ c && c ≤ '9'

def asciiLower (c : Char) : Bool := 'a' ≤ c && c ≤ 'z'

def asciiAlphabetic (c : Char) : Bool := asciiLower c || ('A' ≤ c && c ≤ 'Z')

def asciiAlphanumeric (c : Char) : Bool := asciiAlphabetic c || asciiDigit c

def byteLength (t : Text) : ℕ := (t.map Char.utf8Size).sum

def isControl (c : Char) : Bool := c.toNat < 0x20 || (0x7f ≤ c.toNat && c.toNat ≤ 0x9f)

/-- The white space of the Unicode standard. -/
def isWhitespace (c : Char) : Bool :=
  (0x9 ≤ c.toNat && c.toNat ≤ 0xd) || (0x2000 ≤ c.toNat && c.toNat ≤ 0x200a) ||
    [0x20, 0x85, 0xa0, 0x1680, 0x2028, 0x2029, 0x202f, 0x205f, 0x3000].contains c.toNat

def isBlank (t : Text) : Bool := t.all isWhitespace

def Text.shown (s : Text) : String := String.ofList s

def base64Char (c : Char) : Bool := c.isAlphanum || c == '+' || c == '/'

def quoted (word : Text) : Text := '"' :: (word ++ ['"'])

def decimal (t : Text) : ℕ := t.foldl (fun n c ↦ 10 * n + (c.toNat - '0'.toNat)) 0

def numeral (n : ℕ) : Text := Nat.toDigits 10 n

theorem isDigit_of_mem_numeral {n : ℕ} {d : Char} (h : d ∈ numeral n) : d.isDigit = true :=
  Nat.isDigit_of_mem_toDigits (by decide) le_rfl h

variable {c : Char}

theorem not_mem_numeral (hc : c.isDigit = false) (n : ℕ) : c ∉ numeral n := fun hmem ↦ by
  rw [isDigit_of_mem_numeral hmem] at hc
  cases hc

theorem numeral_injective : Function.Injective numeral := fun a b h ↦ by
  rw [← Nat.ofDigitChars_toDigits (b := 10) (n := a) (by decide) le_rfl, ← numeral, h, numeral,
    Nat.ofDigitChars_toDigits (by decide) le_rfl]

/-- The bytes of an ASCII text. -/
def asBytes (s : Text) : Bytes := s.map fun c ↦ c.toNat.toUInt8

def utf8Bytes (s : Text) : Bytes := s.flatMap String.utf8EncodeChar

def fromUtf8 (bytes : Bytes) : Option Text :=
  (String.fromUTF8? bytes.toByteArray).map String.toList

variable {s : Text}

theorem fromUtf8_eq_some_iff {bytes : Bytes} :
    fromUtf8 bytes = some s ↔ utf8Bytes s = bytes := by
  rw [fromUtf8, String.fromUTF8?]
  constructor
  · intro h
    split at h
    · next hvalid =>
      obtain rfl : (String.fromUTF8 bytes.toByteArray hvalid).toList = s := by simpa using h
      have hencode := @String.toByteArray_ofList (String.fromUTF8 bytes.toByteArray hvalid).toList
      rw [String.ofList_toList] at hencode
      exact (List.toByteArray_inj.1 hencode).symm
    · cases h
  · rintro rfl
    have hvalid : (utf8Bytes s).toByteArray.IsValidUTF8 := ⟨s, rfl⟩
    have hstring : String.fromUTF8 (utf8Bytes s).toByteArray hvalid = String.ofList s :=
      String.toByteArray_inj.1 String.toByteArray_ofList.symm
    rw [dif_pos hvalid, hstring, Option.map_some, String.toList_ofList]

theorem utf8Bytes_injective {s' : Text} (h : utf8Bytes s = utf8Bytes s') : s = s' :=
  Option.some.inj ((fromUtf8_eq_some_iff.2 h).symm.trans (fromUtf8_eq_some_iff.2 rfl))

theorem toNat_ofNat_of_lt {n : ℕ} (h : n < 128) : (Char.ofNat n).toNat = n := by
  have hvalid : n.isValidChar := .inl (by omega)
  rw [Char.ofNat, dif_pos hvalid]
  rfl

theorem utf8Bytes_eq_map (h : ∀ c ∈ s, c.toNat < 128) :
    utf8Bytes s = s.map fun c ↦ UInt8.ofNat c.toNat := by
  induction s with
  | nil => rfl
  | cons c s ih =>
    obtain ⟨hc, hs⟩ := List.forall_mem_cons.1 h
    have hchar : String.utf8EncodeChar c = [UInt8.ofNat c.toNat] := if_pos (Nat.le_of_lt_succ hc)
    rw [utf8Bytes, List.flatMap_cons, hchar, List.map_cons]
    exact congrArg _ (ih hs)

theorem eq_map_of_utf8Bytes (h : ∀ b ∈ utf8Bytes s, b.toNat < 128) :
    s = (utf8Bytes s).map fun b ↦ Char.ofNat b.toNat := by
  apply utf8Bytes_injective
  rw [utf8Bytes_eq_map (s := (utf8Bytes s).map _), List.map_map]
  · refine (List.map_id _).symm.trans (List.map_congr_left fun b hb ↦ ?_)
    rw [Function.comp_apply, toNat_ofNat_of_lt (h b hb), UInt8.ofNat_toNat]
    rfl
  · intro c hc
    obtain ⟨b, hb, rfl⟩ := List.mem_map.1 hc
    rw [toNat_ofNat_of_lt (h b hb)]
    exact h b hb

section Split

def stripPrefix (p s : Text) : Option Text :=
  if p.isPrefixOf s then some (s.drop p.length) else none

def stripSuffix (p s : Text) : Option Text :=
  if p.isSuffixOf s then some (s.take (s.length - p.length)) else none

def splitOnce (c : Char) : Text → Option (Text × Text)
  | [] => none
  | x :: xs => if x = c then some ([], xs) else (splitOnce c xs).map fun (a, b) ↦ (x :: a, b)

def rsplitOnce (c : Char) (s : Text) : Option (Text × Text) :=
  (splitOnce c s.reverse).map fun (after, before) ↦ (before.reverse, after.reverse)

variable {α : Type}

theorem stripPrefix_append (p s : Text) : stripPrefix p (p ++ s) = some s := by
  simp [stripPrefix]

theorem stripSuffix_append (p s : Text) : stripSuffix p (s ++ p) = some s := by
  simp [stripSuffix]

variable {s : Text}

theorem stripPrefix_eq_some {p t : Text} (h : stripPrefix p s = some t) : s = p ++ t := by
  unfold stripPrefix at h
  split at h
  · next hpre =>
    obtain ⟨tail, rfl⟩ := List.isPrefixOf_iff_prefix.1 hpre
    cases h
    simp
  · cases h

theorem stripSuffix_eq_some {p t : Text} (h : stripSuffix p s = some t) : s = t ++ p := by
  unfold stripSuffix at h
  split at h
  · next hsuf =>
    obtain ⟨init, rfl⟩ := List.isSuffixOf_iff_suffix.1 hsuf
    cases h
    simp
  · cases h

variable {c : Char}

theorem splitOnce_eq_none (h : c ∉ s) : splitOnce c s = none := by
  induction s with
  | nil => rfl
  | cons x xs ih => grind [splitOnce]

variable {a : Text}

theorem splitOnce_eq_some {b : Text} (h : splitOnce c s = some (a, b)) : s = a ++ c :: b := by
  induction s generalizing a with
  | nil => simp [splitOnce] at h
  | cons x xs ih =>
    simp only [splitOnce] at h
    split at h
    · simp_all
    · obtain ⟨⟨a', b'⟩, hab, he⟩ := Option.map_eq_some_iff.1 h
      obtain ⟨rfl, rfl⟩ := Prod.mk.injEq .. ▸ he
      simp [ih hab]

theorem not_mem_of_splitOnce {b : Text} (h : splitOnce c s = some (a, b)) : c ∉ a := by
  induction s generalizing a with
  | nil => simp [splitOnce] at h
  | cons x xs ih => grind [splitOnce, Option.map_eq_some_iff]

theorem not_mem_of_splitOnce_eq_none (h : splitOnce c s = none) : c ∉ s := by
  induction s with
  | nil => simp
  | cons x xs ih => grind [splitOnce, Option.map_eq_none_iff]

theorem splitOnce_append (b : Text) (h : c ∉ a) : splitOnce c (a ++ c :: b) = some (a, b) := by
  induction a with
  | nil => simp [splitOnce]
  | cons x xs ih => grind [splitOnce]

theorem rsplitOnce_append {c : Char} {b : Text} (a : Text) (h : c ∉ b) :
    rsplitOnce c (a ++ c :: b) = some (a, b) := by
  have hsplit := splitOnce_append a.reverse (fun hmem ↦ h (List.mem_reverse.1 hmem))
  have hrev : (a ++ c :: b).reverse = b.reverse ++ c :: a.reverse := by simp
  rw [rsplitOnce, hrev, hsplit]
  simp

theorem splitOnce_of_rsplitOnce {host port : Text}
    (h : rsplitOnce c t = some (host, port)) : t = host ++ c :: port := by
  obtain ⟨⟨after, before⟩, hsplit, heq⟩ := Option.map_eq_some_iff.1 h
  cases heq
  have hrev := congrArg List.reverse (splitOnce_eq_some hsplit)
  simpa using hrev

theorem mem_of_mem_intercalate {x c : α} {ws : List (List α)}
    (h : c ∈ [x].intercalate ws) : (∃ w ∈ ws, c ∈ w) ∨ c = x := by
  induction ws with
  | nil => simp at h
  | cons w ws ih =>
    by_cases hws : ws = []
    · subst hws
      exact .inl ⟨w, by simp, by simpa using h⟩
    · rw [List.intercalate_cons_of_ne_nil hws, List.append_assoc, List.mem_append,
        List.singleton_append, List.mem_cons] at h
      rcases h with h | h | h
      · exact .inl ⟨w, by simp, h⟩
      · exact .inr h
      · obtain ⟨v, hv, hc⟩ | h := ih h
        · exact .inl ⟨v, by simp [hv], hc⟩
        · exact .inr h

theorem of_mem_splitOn {c : Char} {w t : Text} (h : w ∈ t.splitOn c) : c ∉ w ∧ ∀ a ∈ w, a ∈ t := by
  induction t generalizing w with
  | nil =>
    obtain rfl : w = [] := by simpa using h
    simp
  | cons a t ih =>
    have hkeep : ∀ u ∈ t.splitOn c, c ∉ u ∧ ∀ b ∈ u, b ∈ a :: t := fun u hu ↦
      ⟨(ih hu).1, fun b hb ↦ List.mem_cons_of_mem _ ((ih hu).2 b hb)⟩
    rw [List.splitOn_cons_eq_if_modifyHead] at h
    split at h
    · rcases List.mem_cons.1 h with rfl | h
      · simp
      · exact hkeep w h
    · next hne =>
      obtain ⟨v, ws, hsplit⟩ := List.exists_cons_of_ne_nil (List.splitOn_ne_nil c t)
      rw [hsplit] at h hkeep
      rcases List.mem_cons.1 h with rfl | h
      · obtain ⟨hc, hv⟩ := hkeep v List.mem_cons_self
        exact ⟨List.not_mem_cons_of_ne_of_not_mem (fun heq ↦ hne (by simp [heq])) hc,
          List.forall_mem_cons.2 ⟨List.mem_cons_self, hv⟩⟩
      · exact hkeep w (List.mem_cons_of_mem _ h)

end Split

end MicaCore.Data
