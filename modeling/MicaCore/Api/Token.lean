import MicaCore.Deploy.Identity
import Mathlib.Data.List.Nodup

namespace MicaCore.Api

open Data
open Deploy (hexDigit)

structure ApiToken where
  id : Text
  name : Text
  hash : Text
  created : ℕ
  deriving DecidableEq

def maxTokens : ℕ := 32

def isLowercaseHex (c : Char) : Bool := hexDigit c

def checkId (id : Text) : Except String Unit := do
  ensure (!id.isEmpty) "id is empty"
  ensure (id.length ≤ 64) "id is longer than the maximum of 64 characters"
  ensure (id.all isLowercaseHex) "id is not lowercase hex"

def checkName (name : Text) : Except String Unit := do
  ensure (!name.isEmpty)
    "name is empty; it is the only thing that tells one token from another in a listing"
  ensure (byteLength name ≤ 256) s!"name is {byteLength name} bytes, above the maximum of 256"
  match name.findIdx? (fun c ↦ decide (c.toNat < 32) || decide (c.toNat = 127)) with
  | some i => .error s!"name holds a control character at byte {byteLength (name.take i)}"
  | none => pure ()

def checkHash (hash : Text) : Except String Unit := do
  ensure (byteLength hash == 64) s!"hash is {byteLength hash} characters, not the 64 of a SHA-256 hex digest"
  ensure (hash.all isLowercaseHex) "hash is not lowercase hex"

def atEntry (index : ℕ) (check : Except String Unit) : Except String Unit :=
  check.mapError fun message ↦ s!"entry {index}: {message}"

def noEarlier (seen : List ApiToken) (same : ApiToken → Bool) (message : ℕ → String) :
    Except String Unit :=
  match seen.findIdx? same with
  | some first => .error (message first)
  | none => pure ()

def validateFrom (seen : List ApiToken) : List ApiToken → Except String Unit
  | [] => pure ()
  | entry :: rest => do
    let index := seen.length
    atEntry index (checkId entry.id)
    atEntry index (checkName entry.name)
    atEntry index (checkHash entry.hash)
    noEarlier seen (·.id == entry.id) fun first ↦
      s!"entry {index} carries the id already held by entry {first}, so a lookup by id has two answers"
    noEarlier seen (·.hash == entry.hash) fun first ↦
      s!"entry {index} carries the digest already held by entry {first}, so revoking either leaves the secret working"
    validateFrom (seen ++ [entry]) rest

def validateApiTokens (tokens : List ApiToken) : Except String Unit := do
  ensure (tokens.length ≤ maxTokens)
    s!"list holds {tokens.length} tokens, above the maximum of {maxTokens}"
  validateFrom [] tokens

def isApiTokenId (id : Text) : Bool := (checkId id).toOption.isSome

variable {u : Unit}

theorem noEarlier_eq_ok {seen : List ApiToken} {same : ApiToken → Bool} {message : ℕ → String}
    : noEarlier seen same message = .ok u ↔ ∀ e ∈ seen, same e = false := by
  unfold noEarlier
  cases h : seen.findIdx? same with
  | none => simpa using h
  | some first =>
    obtain ⟨hlt, hsame, -⟩ := List.findIdx?_eq_some_iff_getElem.1 h
    simp only [reduceCtorEq, false_iff, not_forall]
    exact ⟨seen[first], List.getElem_mem hlt, by simp [hsame]⟩

theorem nodup_of_validateFrom {seen rest : List ApiToken}
    (h : validateFrom seen rest = .ok u) (hseen : (seen.map ApiToken.hash).Nodup) :
    ((seen ++ rest).map ApiToken.hash).Nodup := by
  induction rest generalizing seen with
  | nil => simpa using hseen
  | cons entry rest ih =>
    simp only [validateFrom, bind_eq_ok, noEarlier_eq_ok] at h
    obtain ⟨_, -, _, -, _, -, _, -, _, hnew, h⟩ := h
    have hfresh : entry.hash ∉ seen.map ApiToken.hash := by
      rintro hmem
      obtain ⟨e, he, hsame⟩ := List.mem_map.1 hmem
      simpa [hsame] using hnew e he
    have hnext : ((seen ++ [entry]).map ApiToken.hash).Nodup := by
      rw [List.map_append, List.map_singleton, ← List.concat_eq_append]
      exact List.Nodup.concat hfresh hseen
    simpa using ih h hnext

theorem nodup_of_validateApiTokens {tokens : List ApiToken}
    (h : validateApiTokens tokens = .ok u) : (tokens.map ApiToken.hash).Nodup := by
  obtain ⟨_, -, h⟩ := bind_eq_ok.1 h
  simpa using nodup_of_validateFrom h List.nodup_nil

namespace Token

structure Presented where
  id : Text
  secret : Text
  deriving DecidableEq

def parse (token : Text) : Option Presented :=
  match token.splitOn '_' with
  | [scheme, id, secret] =>
    let hex (field : Text) : Bool := !field.isEmpty && field.all isLowercaseHex
    if scheme == "mica".toList && hex id && hex secret then some ⟨id, secret⟩ else none
  | _ => none

section Digest

variable (digest : Text → Text)

def verify (tokens : List ApiToken) (presented : Text) : Bool :=
  match parse presented with
  | none => false
  | some parsed =>
    match tokens.find? (·.id == parsed.id) with
    | none => false
    | some entry => entry.hash == digest parsed.secret

def mintAttempts : ℕ := 8

def freeId (existing : List ApiToken) (draws : List Text) : Option Text :=
  (draws.take mintAttempts).find? fun id ↦ !existing.any (·.id == id)

theorem exists_of_verify {tokens : List ApiToken} {presented : Text}
    (h : verify digest tokens presented = true) :
    ∃ parsed, parse presented = some parsed ∧ digest parsed.secret ∈ tokens.map ApiToken.hash := by
  unfold verify at h
  split at h
  · cases h
  · next parsed hparse =>
    split at h
    · cases h
    · next entry hentry =>
      refine ⟨parsed, hparse, ?_⟩
      rw [← beq_iff_eq.1 h]
      exact List.mem_map_of_mem (List.mem_of_find?_eq_some hentry)

end Digest

end Token

end MicaCore.Api
