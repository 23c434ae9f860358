import MicaCore.Deploy.Objects

namespace MicaCore.Deploy.Chunks

open Data

def minChunk : ℕ := 4096

def maxChunk : ℕ := 65536

def mask : UInt64 := 0xFFFC000000000000

structure Sha where
  digest : Bytes → Bytes
  length_digest : ∀ bytes, (digest bytes).length = 32

def hexChar (n : ℕ) : Char := Nat.digitChar n

def hex (bytes : Bytes) : Text :=
  bytes.flatMap fun b ↦ [hexChar (b.toNat / 16), hexChar (b.toNat % 16)]

def fromBigEndian (bytes : Bytes) : UInt64 := bytes.foldl (fun n b ↦ n * 256 + b.toUInt64) 0

structure Found where
  offset : ℕ
  length : ℕ
  sha : Text
  deriving DecidableEq

section Cutting

variable (sha : Sha)

def gear (byte : UInt8) : UInt64 :=
  fromBigEndian ((sha.digest (asBytes "mica-chunker/v1".toList ++ [byte])).take 8)

def hexDigest (bytes : Bytes) : Text := hex (sha.digest bytes)

structure Cutter where
  chunk : Bytes
  offset : ℕ
  hash : UInt64
  found : List Found

namespace Cutter

def report (c : Cutter) : Cutter where
  chunk := []
  offset := c.offset + c.chunk.length
  hash := 0
  found := c.found ++ [⟨c.offset, c.chunk.length, hexDigest sha c.chunk⟩]

def push (c : Cutter) (byte : UInt8) : Cutter :=
  let c := { c with chunk := c.chunk ++ [byte], hash := (c.hash <<< 1) + gear sha byte }
  let length := c.chunk.length
  if (minChunk ≤ length && c.hash &&& mask == 0) || length == maxChunk then c.report sha else c

def finish (c : Cutter) : Cutter := if c.chunk.isEmpty then c else c.report sha

end Cutter

def chunkReads : Cutter → List (Except String Bytes) → List Found × Except String ℕ
  | c, [] => ((c.finish sha).found, .ok (c.finish sha).offset)
  | c, .error e :: _ => (c.found, .error e)
  | c, .ok [] :: _ => ((c.finish sha).found, .ok (c.finish sha).offset)
  | c, .ok buffer :: reads => chunkReads (buffer.foldl (Cutter.push sha) c) reads

def chunk (reads : List (Except String Bytes)) : List Found × Except String ℕ :=
  chunkReads sha ⟨[], 0, 0, []⟩ reads

end Cutting

section Pieces

variable (sha : Sha)

def roll (hash : UInt64) (byte : UInt8) : UInt64 := (hash <<< 1) + gear sha byte

def ends (piece : Bytes) : Bool :=
  (minChunk ≤ piece.length && piece.foldl (roll sha) 0 &&& mask == 0) || piece.length == maxChunk

def cut : Bytes → Bytes → List Bytes
  | piece, [] => if piece.isEmpty then [] else [piece]
  | piece, byte :: stream =>
    if ends sha (piece ++ [byte]) then (piece ++ [byte]) :: cut [] stream
    else cut (piece ++ [byte]) stream

def marks : ℕ → List Bytes → List Found
  | _, [] => []
  | offset, piece :: pieces =>
    ⟨offset, piece.length, hexDigest sha piece⟩ :: marks (offset + piece.length) pieces

variable {sha} {piece stream : Bytes}

theorem finish_foldl_push (sha : Sha) (c : Cutter) (hhash : c.hash = c.chunk.foldl (roll sha) 0)
    (stream : Bytes) :
    ((stream.foldl (Cutter.push sha) c).finish sha).found = c.found ++
    marks sha c.offset (cut sha c.chunk stream) ∧
      ((stream.foldl (Cutter.push sha) c).finish sha).offset = c.offset + (c.chunk ++ stream).length := by
  induction stream generalizing c with
  | nil =>
    rw [List.foldl_nil, Cutter.finish, cut]
    cases hempty : c.chunk.isEmpty with
    | true =>
      rw [List.isEmpty_iff.1 hempty]
      simp [marks]
    | false => simp [Cutter.report, marks]
  | cons byte stream ih =>
    have hnext : (c.hash <<< 1) + gear sha byte = (c.chunk ++ [byte]).foldl (roll sha) 0 := by
      rw [List.foldl_append, ← hhash]
      rfl
    rw [List.foldl_cons, cut]
    cases hends : ends sha (c.chunk ++ [byte]) with
    | true =>
      have hpush : c.push sha byte =
          ⟨[], c.offset + (c.chunk ++ [byte]).length, 0,
            c.found ++ [⟨c.offset, (c.chunk ++ [byte]).length, hexDigest sha (c.chunk ++ [byte])⟩]⟩ := by
        unfold ends at hends
        rw [Cutter.push]
        simp only [hnext]
        rw [if_pos hends]
        rfl
      obtain ⟨hfound, hoffset⟩ := ih (c.push sha byte) (by rw [hpush]; rfl)
      rw [hfound, hoffset, hpush]
      refine ⟨?_, ?_⟩
      · simp [marks]
      · simp only [List.nil_append, List.length_append, List.length_cons, List.length_nil]
        omega
    | false =>
      have hpush : c.push sha byte =
          ⟨c.chunk ++ [byte], c.offset, (c.chunk ++ [byte]).foldl (roll sha) 0, c.found⟩ := by
        unfold ends at hends
        rw [Cutter.push]
        simp only [hnext]
        rw [if_neg (by rw [hends]; exact Bool.false_ne_true)]
      obtain ⟨hfound, hoffset⟩ := ih (c.push sha byte) (by rw [hpush])
      rw [hfound, hoffset, hpush]
      refine ⟨rfl, ?_⟩
      simp

theorem chunk_eq {reads : List Bytes} (h : ∀ buffer ∈ reads, buffer ≠ []) :
    chunk sha (reads.map .ok) = (marks sha 0 (cut sha [] reads.flatten), .ok reads.flatten.length) := by
  have hreads : ∀ (reads : List Bytes) (c : Cutter), (∀ buffer ∈ reads, buffer ≠ []) →
      chunkReads sha c (reads.map .ok) =
        (((reads.flatten.foldl (Cutter.push sha) c).finish sha).found,
          .ok ((reads.flatten.foldl (Cutter.push sha) c).finish sha).offset) := by
    intro reads
    induction reads with
    | nil => exact fun c _ ↦ rfl
    | cons buffer reads ih =>
      intro c h
      obtain ⟨hbuffer, hrest⟩ := List.forall_mem_cons.1 h
      cases buffer with
      | nil => exact absurd rfl hbuffer
      | cons byte buffer =>
        rw [List.map_cons, chunkReads, ih _ hrest, List.flatten_cons, List.foldl_append]
        exact fun h ↦ by cases h
  rw [chunk, hreads reads _ h]
  obtain ⟨hfound, hoffset⟩ := finish_foldl_push sha ⟨[], 0, 0, []⟩ rfl reads.flatten
  rw [hfound, hoffset]
  simp

theorem flatten_cut (sha : Sha) (piece stream : Bytes) :
    (cut sha piece stream).flatten = piece ++ stream := by
  induction stream generalizing piece with
  | nil =>
    rw [cut]
    cases hempty : piece.isEmpty with
    | true => simp [List.isEmpty_iff.1 hempty]
    | false => simp
  | cons byte stream ih =>
    rw [cut]
    split
    · rw [List.flatten_cons, ih]
      simp
    · rw [ih]
      simp

theorem length_of_ends (h : ends sha piece = true) (hmax : piece.length ≤ maxChunk) :
    minChunk ≤ piece.length ∧ piece.length ≤ maxChunk := by
  refine ⟨?_, hmax⟩
  rcases Bool.or_eq_true_iff.1 h with h | h
  · exact of_decide_eq_true (Bool.and_eq_true_iff.1 h).1
  · rw [eq_of_beq h]
    decide

theorem length_lt_of_not_ends (hpiece : piece.length < maxChunk) {byte : UInt8}
    (h : ¬ ends sha (piece ++ [byte]) = true) : (piece ++ [byte]).length < maxChunk := by
  have hlength : (piece ++ [byte]).length = piece.length + 1 := List.length_append
  refine Nat.lt_of_le_of_ne (hlength ▸ hpiece) fun hmax ↦ h ?_
  rw [ends, hmax]
  exact Bool.or_true _

theorem length_of_mem_dropLast (hpiece : piece.length < maxChunk) {p : Bytes}
    (h : p ∈ (cut sha piece stream).dropLast) : minChunk ≤ p.length ∧ p.length ≤ maxChunk := by
  induction stream generalizing piece with
  | nil =>
    rw [cut] at h
    split at h <;> cases h
  | cons byte stream ih =>
    have hlength : (piece ++ [byte]).length ≤ maxChunk := by
      rw [List.length_append, List.length_singleton]
      omega
    rw [cut] at h
    split at h
    · next hends =>
      have hmem : p = piece ++ [byte] ∨ p ∈ (cut sha [] stream).dropLast := by
        cases hrest : cut sha [] stream with
        | nil =>
          rw [hrest] at h
          cases h
        | cons q rest =>
          rw [hrest, List.dropLast_cons_of_ne_nil (List.cons_ne_nil _ _)] at h
          exact List.mem_cons.1 h
      rcases hmem with rfl | hmem
      · exact length_of_ends hends hlength
      · exact ih (by decide) hmem
    · next hends => exact ih (length_lt_of_not_ends hpiece hends) h

theorem length_of_mem_cut (hpiece : piece.length < maxChunk)
    {p : Bytes} (h : p ∈ cut sha piece stream) :
    1 ≤ p.length ∧ p.length ≤ maxChunk := by
  induction stream generalizing piece with
  | nil =>
    rw [cut] at h
    split at h
    · cases h
    · next hempty =>
      obtain rfl := List.mem_singleton.1 h
      refine ⟨List.length_pos_of_ne_nil fun hnil ↦ hempty ?_, Nat.le_of_lt hpiece⟩
      rw [hnil]
      rfl
  | cons byte stream ih =>
    have hlength : (piece ++ [byte]).length ≤ maxChunk := by
      rw [List.length_append, List.length_singleton]
      omega
    rw [cut] at h
    split at h
    · next hends =>
      rcases List.mem_cons.1 h with rfl | hmem
      · refine ⟨?_, hlength⟩
        rw [List.length_append, List.length_singleton]
        omega
      · exact ih (by decide) hmem
    · next hends => exact ih (length_lt_of_not_ends hpiece hends) h

end Pieces

section Reset

variable {sha : Sha} {piece : Bytes}

def complete (sha : Sha) : Bytes → Bytes → List Bytes × Bytes
  | piece, [] => ([], piece)
  | piece, byte :: stream =>
    if ends sha (piece ++ [byte]) then
      ((piece ++ [byte]) :: (complete sha [] stream).1, (complete sha [] stream).2)
    else complete sha (piece ++ [byte]) stream

theorem cut_append (sha : Sha) (piece p s : Bytes) :
    cut sha piece (p ++ s) = (complete sha piece p).1 ++ cut sha (complete sha piece p).2 s := by
  induction p generalizing piece with
  | nil => rfl
  | cons byte p ih =>
    rw [List.cons_append, cut, complete]
    split
    · rw [ih, List.cons_append]
    · rw [ih]

theorem length_lt_of_cut (sha : Sha) {stream : Bytes} (hpiece : piece ≠ []) (hstream : stream ≠ [])
    {k : ℕ} (hk : 0 < k) :
    piece.length < (((cut sha piece stream).take k).flatten).length := by
  induction stream generalizing piece with
  | nil => exact absurd rfl hstream
  | cons byte stream ih =>
    rw [cut]
    split
    · obtain ⟨k, rfl⟩ := Nat.exists_eq_succ_of_ne_zero (Nat.pos_iff_ne_zero.1 hk)
      rw [List.take_succ_cons, List.flatten_cons, List.length_append, List.length_append,
        List.length_singleton]
      omega
    · cases stream with
      | nil =>
        rw [cut, if_neg (by simp)]
        obtain ⟨k, rfl⟩ := Nat.exists_eq_succ_of_ne_zero (Nat.pos_iff_ne_zero.1 hk)
        simp
      | cons byte' stream =>
        have hlonger : (piece ++ [byte]).length < _ := ih (by simp) (by simp)
        rw [List.length_append, List.length_singleton] at hlonger
        omega

theorem cut_append_of_boundary {p s : Bytes} {k : ℕ} (h : ((cut sha [] (p ++ s)).take k).flatten = p) :
    cut sha [] (p ++ s) = cut sha [] p ++ cut sha [] s := by
  have hwhole := cut_append sha [] p []
  rw [List.append_nil] at hwhole
  cases s with
  | nil => rw [List.append_nil, cut, List.isEmpty_nil, if_pos rfl, List.append_nil]
  | cons byte s =>
    by_cases hq : (complete sha [] p).2 = []
    · rw [hq, cut, List.isEmpty_nil, if_pos rfl, List.append_nil] at hwhole
      rw [cut_append, hq, hwhole]
    · -- The pieces of `p` leave a piece behind, and no cut falls there.
      exfalso
      have hflat := congrArg List.length (congrArg List.flatten hwhole)
      rw [flatten_cut, List.nil_append, List.flatten_append, flatten_cut, List.append_nil, List.length_append] at hflat
      have hlength := congrArg List.length h
      have hpositive : 0 < (complete sha [] p).2.length := List.length_pos_of_ne_nil hq
      rw [cut_append, List.take_append, List.flatten_append, List.length_append] at hlength
      by_cases hk : k ≤ (complete sha [] p).1.length
      · rw [Nat.sub_eq_zero_of_le hk, List.take_zero, List.flatten_nil, List.length_nil] at hlength
        have hle : ((complete sha [] p).1.take k).flatten.length ≤ (complete sha [] p).1.flatten.length := by
          conv_rhs => rw [← List.take_append_drop k (complete sha [] p).1, List.flatten_append, List.length_append]
          exact Nat.le_add_right _ _
        omega
      · have hlonger := length_lt_of_cut sha hq (List.cons_ne_nil byte s)
          (k := k - (complete sha [] p).1.length) (by omega)
        rw [List.take_of_length_le (by omega)] at hlength
        omega

theorem marks_append (offset : ℕ) (pieces pieces' : List Bytes) :
    marks sha offset (pieces ++ pieces') =
    marks sha offset pieces ++ marks sha (offset + pieces.flatten.length) pieces' := by
  induction pieces generalizing offset with
  | nil => rfl
  | cons piece pieces ih =>
    rw [List.cons_append, marks, marks, ih, List.flatten_cons, List.length_append, Nat.add_assoc,
      List.cons_append]

def Found.shift (distance : ℕ) (f : Found) : Found := { f with offset := distance + f.offset }

theorem marks_add (offset distance : ℕ) (pieces : List Bytes) :
    marks sha (distance + offset) pieces = (marks sha offset pieces).map
      (Found.shift distance) := by
  induction pieces generalizing offset with
  | nil => rfl
  | cons piece pieces ih =>
    rw [marks, marks, Nat.add_assoc, ih, List.map_cons]
    rfl

theorem exists_take_of_mem_marks {offset : ℕ} {pieces : List Bytes} {f : Found}
    (h : f ∈ marks sha offset pieces) :
    ∃ k, f.offset + f.length = offset + (pieces.take k).flatten.length := by
  induction pieces generalizing offset with
  | nil => cases h
  | cons piece pieces ih =>
    rw [marks] at h
    rcases List.mem_cons.1 h with rfl | h
    · exact ⟨1, by simp⟩
    · obtain ⟨k, hk⟩ := ih h
      refine ⟨k + 1, ?_⟩
      rw [hk, List.take_succ_cons, List.flatten_cons, List.length_append, Nat.add_assoc]

end Reset

structure ContentDefined (sha : Sha) : Prop where
  /-- Chunks are contiguous, make up the stream, and have bounded lengths. -/
  partition : ∀ reads : List Bytes, (∀ buffer ∈ reads, buffer ≠ []) →
    ∃ pieces, pieces.flatten = reads.flatten ∧
      chunk sha (reads.map .ok) = (marks sha 0 pieces, .ok reads.flatten.length) ∧
      (∀ piece ∈ pieces.dropLast, minChunk ≤ piece.length ∧ piece.length ≤ maxChunk) ∧
      ∀ piece ∈ pieces, 1 ≤ piece.length ∧ piece.length ≤ maxChunk
  /-- The chunks do not depend on how the stream is read. -/
  reads : ∀ reads reads' : List Bytes, (∀ buffer ∈ reads, buffer ≠ []) →
    (∀ buffer ∈ reads', buffer ≠ []) →
    reads.flatten = reads'.flatten → chunk sha (reads.map .ok) = chunk sha (reads'.map .ok)
  /-- Behind a cut the chunks are those of the rest. -/
  reset : ∀ whole first rest : List Bytes, (∀ buffer ∈ whole, buffer ≠ []) →
    (∀ buffer ∈ first, buffer ≠ []) →
    (∀ buffer ∈ rest, buffer ≠ []) → whole.flatten = first.flatten ++ rest.flatten →
    (∃ f ∈ (chunk sha (whole.map .ok)).1, f.offset + f.length = first.flatten.length) →
    (chunk sha (whole.map .ok)).1 = (chunk sha (first.map .ok)).1 ++
      (chunk sha (rest.map .ok)).1.map (Found.shift first.flatten.length)

/-- `chunk` cuts a stream by its content alone. -/
theorem contentDefined (sha : Sha) : ContentDefined sha where
  partition reads h := by
    refine ⟨cut sha [] reads.flatten, flatten_cut _ _ _, chunk_eq h, ?_, ?_⟩
    · exact fun piece hpiece ↦ length_of_mem_dropLast (by decide) hpiece
    · exact fun piece hpiece ↦ length_of_mem_cut (by decide) hpiece
  reads reads reads' h h' heq := by rw [chunk_eq h, chunk_eq h', heq]
  reset whole first rest hwhole hfirst hrest hflatten hcut := by
    obtain ⟨f, hf, hend⟩ := hcut
    rw [chunk_eq hwhole, hflatten] at hf
    obtain ⟨k, hk⟩ := exists_take_of_mem_marks hf
    rw [hend, Nat.zero_add] at hk
    have hstart : ((cut sha [] (first.flatten ++ rest.flatten)).take k).flatten = first.flatten := by
      have hsplit := flatten_cut sha [] (first.flatten ++ rest.flatten)
      rw [← List.take_append_drop k (cut sha [] (first.flatten ++ rest.flatten)), List.flatten_append,
        List.nil_append] at hsplit
      exact (List.append_inj hsplit hk.symm).1
    rw [chunk_eq hwhole, chunk_eq hfirst, chunk_eq hrest, hflatten]
    dsimp only
    rw [cut_append_of_boundary hstart, marks_append, Nat.zero_add, flatten_cut, List.nil_append, ← marks_add,
      Nat.add_zero]

end MicaCore.Deploy.Chunks
