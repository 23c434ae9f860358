import MicaCore.Data.Except
import MicaCore.Data.Text

namespace MicaCore.Ble

open Data

def maxMessage : ℕ := 16384

def header : ℕ := 3

def minFragment : ℕ := 20

def maxFragment : ℕ := 512

def lastFlag : UInt8 := 1

structure Reassembly where
  buffer : Bytes := []
  next : BitVec 16 := 0
  deriving DecidableEq

namespace Reassembly

def accept (r : Reassembly) : Bytes → Except String (Option Bytes) × Reassembly
  | high :: low :: flags :: body =>
    let seq := high.toBitVec ++ low.toBitVec
    if flags &&& ~~~lastFlag ≠ 0 then (.error "unknown fragment flags", r)
    else if seq ≠ r.next then (.error s!"fragment {seq.toNat} where {r.next.toNat} was due", r)
    else if maxMessage < r.buffer.length + body.length then (.error "the message is over 16384 bytes", r)
    else if flags &&& lastFlag ≠ 0 then (.ok (some (r.buffer ++ body)), { r with buffer := [] })
    else if r.next = BitVec.allOnes 16 then (.error "too many fragments", { r with buffer := r.buffer ++ body })
    else (.ok none, ⟨r.buffer ++ body, r.next + 1⟩)
  | _ => (.error "a fragment is at least its 3-byte header", r)

def push (r : Reassembly) (fragment : Bytes) : Except String (Option Bytes) × Reassembly :=
  match r.accept fragment with
  | (.ok none, r) => (.ok none, r)
  | (outcome, _) => (outcome, {})

end Reassembly

def chunks (n : ℕ) : Bytes → List Bytes
  | [] => []
  | b :: bytes => (b :: bytes).take (n + 1) :: chunks n ((b :: bytes).drop (n + 1))
termination_by bytes => bytes.length
decreasing_by
  rw [List.length_drop, List.length_cons]
  omega

def fragmentOf (count seq : ℕ) (chunk : Bytes) : Bytes :=
  let number := BitVec.ofNat 16 seq
  ⟨number.extractLsb' 8 8⟩ :: ⟨number.extractLsb' 0 8⟩ :: (if seq + 1 = count then lastFlag else 0) :: chunk

def bodySize (size : ℕ) : ℕ := min (max size minFragment) maxFragment - header

def fragments (message : Bytes) (size : ℕ) : List Bytes :=
  let parts := if message.isEmpty then [[]] else chunks (bodySize size - 1) message
  parts.zipIdx.map fun part ↦ fragmentOf parts.length part.2 part.1

end MicaCore.Ble
