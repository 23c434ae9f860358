import MicaCore.Deploy.Identity
import Mathlib.Data.List.Lex

namespace MicaCore.Deploy

open Data

def require (ok : Bool) (message : String) : Except String Unit := ensure ok message

/-- How a broken contract is reported outside the contract's own checks. -/
def contract {α : Type} : Except String α → Except String α
  | .ok a => .ok a
  | .error message => .error ("Invalid component contract: " ++ message)

@[simp] theorem contract_eq_ok {α : Type} {x : Except String α} {a : α} :
    contract x = .ok a ↔ x = .ok a := by
  cases x <;> simp [contract]

def versionKey (value : String) : Except String (List ℕ) := do
  let parts := value.toList.splitOn '.'
  forM parts fun part ↦
    require (!part.isEmpty && part.length ≤ 9 && part.all asciiDigit) "invalid version"
  require (1 ≤ parts.length && parts.length ≤ 4) "invalid version"
  pure (parts.map decimal)

namespace DebianVersion

structure Parts where
  epoch : ℕ
  upstream : List Char
  revision : List Char

def upstreamOk (s : List Char) : Bool :=
  s.head?.any asciiDigit && s.all fun c ↦ asciiAlphanumeric c || ".+~-".toList.contains c

def revisionOk (rest revision : List Char) : Bool :=
  (revision.isEmpty && !rest.contains '-') ||
    (!revision.isEmpty && revision.all fun c ↦ asciiAlphanumeric c || ".+~".toList.contains c)

def parts (version : String) : Option Parts := do
  let s := version.toList
  guard (!s.isEmpty && s.length ≤ 64)
  let (epoch, rest) ← match splitOnce ':' s with
    | some (epoch, rest) =>
      if epoch.isEmpty || !epoch.all asciiDigit || 9 < epoch.length then none
      else some (decimal epoch, rest)
    | none => some (0, s)
  let (upstream, revision) := (rsplitOnce '-' rest).getD (rest, [])
  guard (upstreamOk upstream && revisionOk rest revision)
  pure ⟨epoch, upstream, revision⟩

/-- A version is its epoch, if it has one, and what the parts are cut from. -/
theorem parts_eq_some {version : String} {p : Parts} (h : parts version = some p) :
    ∃ before rest, version.toList = before ++ rest ∧
      before.all (fun c ↦ asciiDigit c || c == ':') = true ∧
      (rsplitOnce '-' rest).getD (rest, []) = (p.upstream, p.revision) ∧
      upstreamOk p.upstream = true ∧ revisionOk rest p.revision = true := by
  simp only [parts, Option.bind_eq_bind, Option.bind_eq_some_iff] at h
  obtain ⟨_, -, h⟩ := h
  split at h
  · next digits rest hsplit =>
    split at h
    · cases h
    · next hdigits =>
      rw [Option.bind_some] at h
      obtain ⟨_, hguard, heq⟩ := Option.bind_eq_some_iff.1 h
      cases heq
      simp only [Bool.or_eq_true, not_or, Bool.not_eq_true', Bool.not_eq_false] at hdigits
      refine ⟨digits ++ [':'], rest, by simpa using splitOnce_eq_some hsplit, ?_, rfl,
        Bool.and_eq_true_iff.1 ((Option.guard_eq_some' _).1 hguard)⟩
      simpa using fun c hc ↦ .inl (List.all_eq_true.1 hdigits.1.2 c hc)
  · rw [Option.bind_some] at h
    obtain ⟨_, hguard, heq⟩ := Option.bind_eq_some_iff.1 h
    cases heq
    exact ⟨[], version.toList, rfl, rfl, rfl, Bool.and_eq_true_iff.1 ((Option.guard_eq_some' _).1 hguard)⟩

def valid (version : String) : Bool := (parts version).isSome

def isDigit (b : UInt8) : Bool := 48 ≤ b && b ≤ 57

def isAlphabetic (b : UInt8) : Bool := (97 ≤ b && b ≤ 122) || (65 ≤ b && b ≤ 90)

def weight : Option UInt8 → ℤ
  | none => 0
  | some b => if b = 126 then -1 else if isAlphabetic b then b.toNat else b.toNat + 256

def isText (b : Option UInt8) : Bool := b.any (!isDigit ·)

def compareDigits (a b : Bytes) : Ordering :=
  let da := a.dropWhile (· = 48)
  let db := b.dropWhile (· = 48)
  (compare da.length db.length).then (compare da db)

/-- What is left of both parts, at the head of the outer loop or of the inner one. -/
inductive Scan
  | round (a b : Bytes)
  | text (a b : Bytes)

def Scan.step : Scan → Ordering ⊕ Scan
  | .round a b => if a.isEmpty && b.isEmpty then .inl .eq else .inr (.text a b)
  | .text a b =>
    let x := a.head?
    let y := b.head?
    if !isText x && !isText y then
      match compareDigits (a.takeWhile isDigit) (b.takeWhile isDigit) with
      | .eq => .inr (.round (a.dropWhile isDigit) (b.dropWhile isDigit))
      | order => .inl order
    else
      let wx := weight (x.filter fun _ ↦ isText x)
      let wy := weight (y.filter fun _ ↦ isText y)
      if wx ≠ wy then .inl (compare wx wy)
      else .inr (.text (if isText x then a.tail else a) (if isText y then b.tail else b))

def Scan.run : ℕ → Scan → Option Ordering
  | 0, _ => none
  | n + 1, scan =>
    match scan.step with
    | .inl order => some order
    | .inr scan => scan.run n

/-- No scan takes more steps than this. -/
def Scan.left : Scan → ℕ
  | .round a b => if a.length + b.length = 0 then 0 else 2 * (a.length + b.length) + 1
  | .text a b => if a.length + b.length = 0 then 1 else 2 * (a.length + b.length)

def comparePart (a b : Text) : Ordering :=
  let scan := Scan.round (asBytes a) (asBytes b)
  (scan.run (scan.left + 1)).getD .eq

def compareVersions (a b : String) : Option Ordering := do
  let a ← parts a
  let b ← parts b
  pure <| (compare a.epoch b.epoch).then <|
    (comparePart a.upstream b.upstream).then (comparePart a.revision b.revision)

example : compareVersions "6.1.4~rc1-1" "6.1.4-1" = some .lt := by decide

example : compareVersions "6.1.04-7" "6.1.4-7" = some .eq := by decide

end DebianVersion

end MicaCore.Deploy
