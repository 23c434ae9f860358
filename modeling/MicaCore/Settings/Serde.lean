import MicaCore.Settings.Path

namespace MicaCore.Settings

open Data

structure Codec (α : Type) where
  write : α → Json
  read : Json → Option α
  read_write : ∀ a, read (write a) = some a
  write_ne_null : ∀ a, write a ≠ .null

attribute [simp] Codec.read_write

namespace Codec

variable {α : Type}

def readText : Json → Option Text
  | .str s => some s
  | _ => none

def text : Codec Text where
  write := .str
  read := readText
  read_write _ := rfl
  write_ne_null _ := by simp

def readBool : Json → Option Bool
  | .bool b => some b
  | _ => none

def bool : Codec Bool where
  write := .bool
  read := readBool
  read_write _ := rfl
  write_ne_null _ := by simp

def readNat : Json → Option ℕ
  | .num l => if l.all Char.isDigit && !l.isEmpty then some (Nat.ofDigitChars 10 l 0) else none
  | _ => none

def nat : Codec ℕ where
  write n := .num (Nat.toDigits 10 n)
  read := readNat
  read_write n := by
    have hdigits : (Nat.toDigits 10 n).all Char.isDigit = true :=
      List.all_eq_true.2 fun c hc ↦ Nat.isDigit_of_mem_toDigits (by decide) (by decide) hc
    simp [readNat, hdigits, Nat.toDigits_ne_nil, Nat.ofDigitChars_ten_toDigits]
  write_ne_null _ := by simp

def readList (c : Codec α) : Json → Option (List α)
  | .arr items => items.mapM c.read
  | _ => none

def list (c : Codec α) : Codec (List α) where
  write l := .arr (l.map c.write)
  read := c.readList
  read_write l := by
    rw [readList]
    induction l with
    | nil => rfl
    | cons a l ih => simp [ih]
  write_ne_null _ := by simp

def readMap (c : Codec α) : Json → Option (OrdMap Text α)
  | .obj fields => (fields.mapM fun f ↦ (c.read f.2).map (f.1, ·)).map .ofList
  | _ => none

theorem mapM_entries (c : Codec α) (l : List (Text × α)) :
    (l.map fun e ↦ (e.1, c.write e.2)).mapM (fun f ↦ (c.read f.2).map (f.1, ·)) = some l := by
  induction l with
  | nil => rfl
  | cons e l ih => simp [ih]

def map (c : Codec α) : Codec (OrdMap Text α) where
  write m := .obj (m.entries.map fun e ↦ (e.1, c.write e.2))
  read := c.readMap
  read_write m := by
    rw [readMap, mapM_entries, Option.map_some, OrdMap.ofList_entries]
  write_ne_null _ := by simp

end Codec

abbrev Fields := List (Text × Json)

namespace Fields

variable {α : Type} (c : Codec α)

def field (name : String) (value : Json) : Fields := [(name.toList, value)]

def skipNone (name : String) (value : Option α) : Fields :=
  value.elim [] fun a ↦ field name (c.write a)

/-- A field that is not written while it has its default. -/
def skipDefault [DecidableEq α] (name : String) (default value : α) : Fields :=
  if value = default then [] else field name (c.write value)

def lookup (name : String) (fields : Fields) : Option Json := OrdMap.find name.toList fields

def required (name : String) (fields : Fields) : Option α := (fields.lookup name).bind c.read

def defaulted (name : String) (default : α) (fields : Fields) : Option α :=
  (fields.lookup name).elim (some default) c.read

def readOptional : Option Json → Option (Option α)
  | none => some none
  | some .null => some none
  | some value => (c.read value).map some

def mayHave (name : String) (fields : Fields) : Option (Option α) :=
  readOptional c (fields.lookup name)

def only (names : List String) (fields : Fields) : Bool :=
  fields.all fun f ↦ names.contains (String.ofList f.1)

@[simp] theorem lookup_append (name : String) (fs gs : Fields) :
    (fs ++ gs : Fields).lookup name = (fs.lookup name).or (gs.lookup name) := by
  unfold lookup
  induction fs with
  | nil => rfl
  | cons f fs ih =>
    rw [List.cons_append, OrdMap.find, OrdMap.find]
    split
    · rfl
    · exact ih

@[simp] theorem lookup_field (name other : String) (value : Json) :
    (field other value).lookup name = if other = name then some value else none := by
  simp [lookup, field, OrdMap.find, String.toList_inj]

@[simp] theorem lookup_skipNone (name other : String) (value : Option α) :
    (skipNone c other value).lookup name = if other = name then value.map c.write else none := by
  cases value with
  | none => simp [skipNone, lookup, OrdMap.find]
  | some a => simp [skipNone]

@[simp] theorem lookup_skipDefault [DecidableEq α] (name other : String) (default value : α) :
    (skipDefault c other default value).lookup name =
      if other = name ∧ value ≠ default then some (c.write value) else none := by
  unfold skipDefault
  split
  · next h => simp [h, lookup, OrdMap.find]
  · next h => simp [h]

@[simp] theorem only_append (names : List String) (fs gs : Fields) :
    (fs ++ gs : Fields).only names = (fs.only names && gs.only names) := by
  simp [only]

@[simp] theorem only_field (names : List String) (name : String) (value : Json) :
    (field name value).only names = names.contains name := by
  simp [only, field]

@[simp] theorem only_skipNone {names : List String} {name : String} (value : Option α)
    (h : name ∈ names) : (skipNone c name value).only names = true := by
  cases value <;> simp [skipNone, only, field, h]

@[simp] theorem only_skipDefault [DecidableEq α] {names : List String} {name : String}
    (default value : α) (h : name ∈ names) :
    (skipDefault c name default value).only names = true := by
  unfold skipDefault
  split <;> simp [only, field, h]

@[simp] theorem readOptional_map (value : Option α) :
    readOptional c (value.map c.write) = some value := by
  cases value with
  | none => rfl
  | some a =>
    have hne := c.write_ne_null a
    have hread := c.read_write a
    cases hw : c.write a <;> simp_all [readOptional]

@[simp] theorem elim_skipDefault [DecidableEq α] (default value : α) :
    (if value = default then none else some (c.write value)).elim (some default) c.read =
      some value := by
  split
  · next h => simp [h]
  · simp

end Fields

namespace Codec

open Fields

variable {α : Type}

/-- An object with fields of these names only. -/
def object (names : List String) (write : α → Fields) (read : Fields → Option α)
    (h : ∀ a, only names (write a) = true ∧ read (write a) = some a) : Codec α where
  write a := .obj (write a)
  read
    | .obj fs => if only names fs then read fs else none
    | _ => none
  read_write a := by simp [h a]
  write_ne_null _ := by simp

/-- An object of one field. -/
def within (name : String) (default : α) (c : Codec α) : Codec α :=
  object [name] (fun a ↦ field name (c.write a)) (defaulted c name default)
    fun a ↦ by simp [defaulted]

def named (name : α → String) (all : List α)
    (h : ∀ a, all.find? (fun b ↦ (name b).toList == (name a).toList) = some a) : Codec α where
  write a := .str (name a).toList
  read
    | .str s => all.find? fun a ↦ (name a).toList == s
    | _ => none
  read_write := h
  write_ne_null _ := by simp

end Codec

def jsonGet (name : String) : Json → Option Json
  | .obj fields => Fields.lookup name fields
  | _ => none

def jsonIndex (name : String) (value : Json) : Json := (jsonGet name value).getD .null

end MicaCore.Settings
