import MicaCore.Data.Bytes
import MicaCore.Deploy.Identity

namespace MicaCore.Ui.Assets

open Data

inductive Rejection where
  | malformedEscape
  | notUtf8
  | encodedSeparator
  | nul
  | control
  | residualEscape
  | backslash
  | rootOrPrefix
  | emptySegment
  | currentDir
  | parentDir
  | reservedRoot
  | symlink
  | outsideRoot
  | notFound
  deriving DecidableEq

structure LogicalPath where
  key : Text
  relative : List Text
  deriving DecidableEq

def hexNibble (b : UInt8) : Option UInt8 :=
  if 0x30 ≤ b ∧ b ≤ 0x39 then some (b - 0x30)
  else if 0x61 ≤ b ∧ b ≤ 0x66 then some (b - 0x61 + 10)
  else if 0x41 ≤ b ∧ b ≤ 0x46 then some (b - 0x41 + 10)
  else none

def percent : UInt8 := 0x25

def isSeparator (b : UInt8) : Bool := b == 0x2f || b == 0x5c

def decodeBytes : Bytes → Except Rejection (Bytes × Bool)
  | [] => .ok ([], false)
  | b :: rest =>
    if b = percent then
      match rest with
      | hi :: lo :: rest =>
        match hexNibble hi, hexNibble lo with
        | some hi, some lo => do
          let decoded := (hi <<< 4) ||| lo
          let (out, encodedSeparator) ← decodeBytes rest
          pure (decoded :: out, isSeparator decoded || encodedSeparator)
        | _, _ => .error .malformedEscape
      | _ => .error .malformedEscape
    else do
      let (out, encodedSeparator) ← decodeBytes rest
      pure (b :: out, encodedSeparator)

def decodeOnce (raw : Text) : Except Rejection (Text × Bool) := do
  let (out, encodedSeparator) ← decodeBytes (utf8Bytes raw)
  let decoded ← orError .notUtf8 (fromUtf8 out)
  pure (decoded, encodedSeparator)

def asciiControl (c : Char) : Bool := c.toNat < 0x20 || c.toNat == 0x7f

def pushSegment (path : List Text) (segment : Text) : Except Rejection (List Text) := do
  ensure (!segment.isEmpty) .emptySegment
  ensure (segment != ".".toList) .currentDir
  ensure (segment != "..".toList) .parentDir
  pure (path ++ [segment])

def LogicalPath.parse (relative : Text) : Except Rejection LogicalPath := do
  ensure (relative.head? != some '/') .rootOrPrefix
  let (decoded, encodedSeparator) ← decodeOnce relative
  -- Looked for among the bytes: in UTF-8 a byte below 0x80 is a character of its own.
  ensure (!decoded.contains '\x00') .nul
  ensure (!decoded.any asciiControl) .control
  ensure (!decoded.contains '%') .residualEscape
  ensure (!encodedSeparator) .encodedSeparator
  ensure (!decoded.contains '\\') .backslash
  let path ← (decoded.splitOn '/').foldlM pushSegment []
  pure ⟨decoded, path⟩

def LogicalPath.firstSegment (logical : LogicalPath) : Text :=
  (logical.key.splitOn '/').head?.getD []

def reserved (segment : Text) : Bool := segment == "api".toList || segment == "_ui".toList

section Resolve

variable (canonicalize : List Text → Option (List Text))

/-- `canonicalize` is the path without links, if something is there. -/
def resolveLogical (logical : LogicalPath) (root : List Text) : Except Rejection (List Text) := do
  let candidate := root ++ logical.relative
  let canonical ← orError .notFound (canonicalize candidate)
  ensure (root.isPrefixOf canonical) .outsideRoot
  ensure (canonical == candidate) .symlink
  pure canonical

def resolve (request : Text) (root : List Text) : Except Rejection (List Text) := do
  let relative ← orError .rootOrPrefix (stripPrefix ['/'] request)
  let logical ← LogicalPath.parse relative
  ensure (!reserved logical.firstSegment) .reservedRoot
  resolveLogical canonicalize logical root

end Resolve

/-- A name for an entry of its directory, and the same when decoded again. -/
structure Ordinary (part : Text) : Prop where
  ne_nil : part ≠ []
  ne_dot : part ≠ ".".toList
  ne_dotdot : part ≠ "..".toList
  slash : '/' ∉ part
  backslash : '\\' ∉ part
  percent : '%' ∉ part
  nul : '\x00' ∉ part

/-- What a key is once it passed the guards of `parse`. -/
structure Guarded (key : Text) : Prop where
  control : ∀ c ∈ key, asciiControl c = false
  percent : '%' ∉ key
  backslash : '\\' ∉ key
  segments : ∀ part ∈ key.splitOn '/', part ≠ [] ∧ part ≠ ".".toList ∧ part ≠ "..".toList

variable {key relative : Text}

theorem foldlM_pushSegment_eq_ok {segments path path' : List Text} :
    segments.foldlM pushSegment path = .ok path' ↔
      path' = path ++ segments ∧ ∀ part ∈ segments, part ≠ [] ∧ part ≠ ".".toList ∧ part ≠ "..".toList := by
  induction segments generalizing path with
  | nil => simp [pure, Except.pure, eq_comm]
  | cons segment segments ih =>
    rw [List.foldlM_cons, bind_eq_ok]
    simp only [pushSegment, ih, bind_eq_ok, pure_eq_ok, ensure_eq_ok, exists_const, List.forall_mem_cons]
    constructor
    · rintro ⟨_, ⟨hne, hdot, hup, rfl⟩, rfl, hrest⟩
      exact ⟨by simp, ⟨by simpa using hne, by simpa using hdot, by simpa using hup⟩, hrest⟩
    · rintro ⟨rfl, ⟨hne, hdot, hup⟩, hrest⟩
      exact ⟨_, ⟨by simpa using hne, by simpa using hdot, by simpa using hup, rfl⟩, by simp, hrest⟩

theorem Guarded.not_nul (h : Guarded key) : '\x00' ∉ key := fun hmem ↦ by
  cases h.control _ hmem

theorem Guarded.head?_ne (h : Guarded key) : key.head? ≠ some '/' := by
  intro hhead
  obtain ⟨t, rfl⟩ := List.head?_eq_some_iff.1 hhead
  have hsplit : ('/' :: t).splitOn '/' = [] :: t.splitOn '/' :=
    List.splitOn_append_cons_self_of_not_mem (List.not_mem_nil) t
  exact (h.segments [] (by rw [hsplit]; exact List.mem_cons_self)).1 rfl

theorem parse_eq_ok {logical : LogicalPath} :
    LogicalPath.parse relative = .ok logical ↔ relative.head? ≠ some '/' ∧
      ∃ key, decodeOnce relative = .ok (key, false) ∧ Guarded key ∧ logical = ⟨key, key.splitOn '/'⟩ := by
  simp only [LogicalPath.parse, bind_eq_ok, pure_eq_ok, ensure_eq_ok, exists_const,
    foldlM_pushSegment_eq_ok]
  constructor
  · rintro ⟨hhead, ⟨key, sep⟩, hdecode, -, hcontrol, hpercent, hsep, hback, _, ⟨rfl, hsegs⟩, rfl⟩
    obtain rfl : sep = false := by simpa using hsep
    exact ⟨by simpa using hhead, key, hdecode, ⟨by simpa using hcontrol, by simpa using hpercent,
      by simpa using hback, hsegs⟩, by simp⟩
  · rintro ⟨hhead, key, hdecode, hkey, rfl⟩
    exact ⟨by simpa using hhead, (key, false), hdecode, by simpa using hkey.not_nul,
      by simpa using hkey.control, by simpa using hkey.percent, rfl, by simpa using hkey.backslash,
      _, ⟨rfl, hkey.segments⟩, by simp⟩

theorem resolve_eq_ok {canonicalize : List Text → Option (List Text)} {request : Text}
    {root path : List Text} :
    resolve canonicalize request root = .ok path ↔
      ∃ relative key, request = '/' :: relative ∧ relative.head? ≠ some '/' ∧
        decodeOnce relative = .ok (key, false) ∧ Guarded key ∧
        reserved ((key.splitOn '/').head?.getD []) = false ∧
        path = root ++ key.splitOn '/' ∧ canonicalize path = some path := by
  simp only [resolve, resolveLogical, bind_eq_ok, pure_eq_ok, ensure_eq_ok, orError_eq_ok, exists_const,
    parse_eq_ok, LogicalPath.firstSegment]
  constructor
  · rintro ⟨relative, hrequest, _, ⟨hhead, key, hdecode, hkey, rfl⟩, hreserved, path, hcanon, -, heq, rfl⟩
    obtain rfl : path = root ++ key.splitOn '/' := by simpa using heq
    exact ⟨relative, key, stripPrefix_eq_some hrequest, hhead, hdecode, hkey,
      by simpa using hreserved, rfl, hcanon⟩
  · rintro ⟨relative, key, rfl, hhead, hdecode, hkey, hreserved, rfl, hcanon⟩
    exact ⟨relative, stripPrefix_append ['/'] relative, _, ⟨hhead, key, hdecode, hkey, rfl⟩,
      by simpa using hreserved, _, hcanon, by simp, by simp, rfl⟩

section Bytes

variable {c : Char} {b : UInt8} {bytes rest : Bytes}

theorem toNat_of_mem_utf8EncodeChar (h : b ∈ String.utf8EncodeChar c) (hb : b.toNat < 128) :
    b.toNat = c.toNat := by
  change b.toNat = c.val.toNat
  have hnat : ∀ n, b = UInt8.ofNat n ↔ b.toNat = n % 2 ^ 8 := fun n ↦ by
    rw [← UInt8.toNat_inj, UInt8.toNat_ofNat']
  -- Every byte of a sequence of two or more has its top bit set.
  simp only [String.utf8EncodeChar] at h
  split at h
  · simp only [List.mem_singleton, hnat] at h
    omega
  · split at h
    · simp only [List.mem_cons, List.not_mem_nil, or_false, hnat] at h
      omega
    · split at h
      · simp only [List.mem_cons, List.not_mem_nil, or_false, hnat] at h
        omega
      · simp only [List.mem_cons, List.not_mem_nil, or_false, hnat] at h
        omega

theorem percent_notMem_encodeUtf8 (h : '%' ∉ key) : percent ∉ utf8Bytes key := by
  intro hmem
  obtain ⟨c, hc, hb⟩ := List.mem_flatMap.1 hmem
  have hnat : percent.toNat = c.toNat := toNat_of_mem_utf8EncodeChar hb (by decide)
  obtain rfl : '%' = c := Char.toNat_inj.1 hnat
  exact h hc

theorem decodeBytes_append (h : percent ∉ bytes) {out : Bytes} {sep : Bool}
    (hrest : decodeBytes rest = .ok (out, sep)) :
    decodeBytes (bytes ++ rest) = .ok (bytes ++ out, sep) := by
  induction bytes with
  | nil => exact hrest
  | cons b bytes ih =>
    obtain ⟨hb, hbytes⟩ := not_or.1 (List.mem_cons.not.1 h)
    rw [List.cons_append, decodeBytes.eq_def]
    simp only [if_neg (Ne.symm hb), ih hbytes]
    rfl

theorem decodeOnce_eq_ok {raw : Text} {sep : Bool}
    (h : decodeBytes (utf8Bytes raw) = .ok (utf8Bytes key, sep)) :
    decodeOnce raw = .ok (key, sep) := by
  simp only [decodeOnce, bind_eq_ok, pure_eq_ok, orError_eq_ok, fromUtf8_eq_some_iff]
  exact ⟨_, h, key, rfl, rfl⟩

theorem decodeOnce_of_notMem (h : '%' ∉ key) : decodeOnce key = .ok (key, false) :=
  have hnil : decodeBytes [] = .ok ([], false) := rfl
  decodeOnce_eq_ok (by simpa using decodeBytes_append (percent_notMem_encodeUtf8 h) hnil)

end Bytes

theorem Guarded.ordinary (h : Guarded key) {part : Text} (hpart : part ∈ key.splitOn '/') :
    Ordinary part := by
  obtain ⟨hne, hdot, hup⟩ := h.segments part hpart
  obtain ⟨hslash, hsub⟩ := of_mem_splitOn hpart
  exact ⟨hne, hdot, hup, hslash, fun hc ↦ h.backslash (hsub _ hc),
    fun hc ↦ h.percent (hsub _ hc), fun hc ↦ h.not_nul (hsub _ hc)⟩

/-- A resolved path is the root followed by ordinary names, decoded once. -/
theorem resolve_inside {canonicalize : List Text → Option (List Text)} {request : Text}
    {root path : List Text} (h : resolve canonicalize request root = .ok path) :
    ∃ relative key, request = '/' :: relative ∧ decodeOnce relative = .ok (key, false) ∧
      path = root ++ key.splitOn '/' ∧ (∀ part ∈ key.splitOn '/', Ordinary part) ∧
      decodeOnce key = .ok (key, false) ∧ resolve canonicalize ('/' :: key) root = .ok path := by
  obtain ⟨relative, key, hrequest, -, hdecode, hkey, hreserved, hpath, hcanon⟩ := resolve_eq_ok.1 h
  have hagain : decodeOnce key = .ok (key, false) := decodeOnce_of_notMem hkey.percent
  refine ⟨relative, key, hrequest, hdecode, hpath, fun part hpart ↦ hkey.ordinary hpart, hagain, ?_⟩
  exact resolve_eq_ok.2 ⟨key, key, rfl, hkey.head?_ne, hagain, hkey, hreserved, hpath, hcanon⟩

theorem decodeOnce_spaced : decodeOnce "a%20b".toList = .ok ("a b".toList, false) := by
  have hraw : utf8Bytes "a%20b".toList = [0x61, 0x25, 0x32, 0x30, 0x62] := by decide
  have hkey : utf8Bytes "a b".toList = [0x61, 0x20, 0x62] := by decide
  refine decodeOnce_eq_ok ?_
  rw [hraw, hkey]
  decide

theorem guarded_spaced : Guarded "a b".toList := by
  have hany : "a b".toList.any asciiControl = false := by decide
  exact ⟨fun c hc ↦ by simpa using List.any_eq_false.1 hany c hc, by decide, by decide, by decide⟩

theorem resolve_spaced : resolve some "/a%20b".toList ["ui".toList] =
    .ok ["ui".toList, "a b".toList] :=
  resolve_eq_ok.2 ⟨"a%20b".toList, "a b".toList, by decide, by decide, decodeOnce_spaced,
    guarded_spaced, by decide, by decide, rfl⟩

theorem resolve_inside_spaced :
    ∃ relative key, "/a%20b".toList = '/' :: relative ∧ decodeOnce relative = .ok (key, false) ∧
      ["ui".toList, "a b".toList] = ["ui".toList] ++ key.splitOn '/' ∧
      (∀ part ∈ key.splitOn '/', Ordinary part) ∧ decodeOnce key = .ok (key, false) ∧
      resolve some ('/' :: key) ["ui".toList] = .ok ["ui".toList, "a b".toList] :=
  resolve_inside resolve_spaced

end MicaCore.Ui.Assets
