import MicaCore.Ui.Archive
import MicaCore.Ui.Assets

namespace MicaCore.Ui

open Data
open Assets (Guarded resolve reserved decodeBytes decodeOnce)

section Encode

def hexDigit (n : ℕ) : Char := "0123456789ABCDEF".toList.getD n '0'

def escape (b : UInt8) : Text := ['%', hexDigit (b.toNat / 16), hexDigit (b.toNat % 16)]

def percentEncode (safe : Char → Bool) (t : Text) : Text :=
  t.flatMap fun c ↦ if safe c then [c] else (String.utf8EncodeChar c).flatMap escape

variable {rest out : Bytes} {sep : Bool}

theorem hexNibble_hexDigit : ∀ n : Fin 16,
    String.utf8EncodeChar (hexDigit n) = [UInt8.ofNat (hexDigit n).toNat] ∧
      Assets.hexNibble (UInt8.ofNat (hexDigit n).toNat) = some (UInt8.ofNat n) := by
  decide

theorem nibbles_byte (b : UInt8) :
    (UInt8.ofNat (b.toNat / 16) <<< 4) ||| UInt8.ofNat (b.toNat % 16) = b := by
  have hlt : b.toNat < 256 := b.toNat_lt
  rw [← UInt8.toNat_inj, UInt8.toNat_or, UInt8.toNat_shiftLeft, UInt8.toNat_ofNat', UInt8.toNat_ofNat']
  have hor := Nat.shiftLeft_add_eq_or_of_lt (b := b.toNat % 16) (i := 4) (by omega) (b.toNat / 16)
  rw [Nat.shiftLeft_eq] at hor
  have hshift : (b.toNat / 16 % 2 ^ 8) <<< (UInt8.toNat 4 % 8) % 2 ^ 8 = b.toNat / 16 * 2 ^ 4 := by
    rw [show UInt8.toNat 4 % 8 = 4 from rfl, Nat.shiftLeft_eq]
    omega
  rw [hshift, Nat.mod_eq_of_lt (a := b.toNat % 16) (by omega), ← hor]
  omega

theorem decodeBytes_escape (b : UInt8) (h : decodeBytes rest = .ok (out, sep)) :
    decodeBytes (utf8Bytes (escape b) ++ rest) = .ok (b :: out, Assets.isSeparator b || sep) := by
  have hlt : b.toNat < 256 := b.toNat_lt
  obtain ⟨hhi, hhi'⟩ := hexNibble_hexDigit ⟨b.toNat / 16, by omega⟩
  obtain ⟨hlo, hlo'⟩ := hexNibble_hexDigit ⟨b.toNat % 16, by omega⟩
  have hbytes : utf8Bytes (escape b) ++ rest = Assets.percent ::
      UInt8.ofNat (hexDigit (b.toNat / 16)).toNat :: UInt8.ofNat (hexDigit (b.toNat % 16)).toNat :: rest := by
    simp only [utf8Bytes, escape, List.flatMap_cons, List.flatMap_nil, hhi, hlo]
    rfl
  rw [hbytes, decodeBytes]
  simp only [if_pos, hhi', hlo', h, nibbles_byte]
  rfl

theorem decodeBytes_escapes {bytes : Bytes} (hbytes : ∀ b ∈ bytes, Assets.isSeparator b = false)
    (h : decodeBytes rest = .ok (out, sep)) :
    decodeBytes (utf8Bytes (bytes.flatMap escape) ++ rest) = .ok (bytes ++ out, sep) := by
  induction bytes with
  | nil => exact h
  | cons b bytes ih =>
    obtain ⟨hb, hrest⟩ := List.forall_mem_cons.1 hbytes
    have hcons := decodeBytes_escape b (ih hrest)
    rw [hb, Bool.false_or] at hcons
    rw [List.flatMap_cons, utf8Bytes, List.flatMap_append, List.append_assoc]
    exact hcons

variable {safe : Char → Bool} {name : Text}

theorem decodeBytes_percentEncode (hsafe : safe '/' = true) (hpercent : '%' ∉ name)
    (hback : '\\' ∉ name) :
    decodeBytes (utf8Bytes (percentEncode safe name)) = .ok (utf8Bytes name, false) := by
  induction name with
  | nil => rfl
  | cons c name ih =>
    obtain ⟨hc, hname⟩ := not_or.1 (List.mem_cons.not.1 hpercent)
    obtain ⟨hc', hname'⟩ := not_or.1 (List.mem_cons.not.1 hback)
    have hrest := ih hname hname'
    rw [percentEncode, List.flatMap_cons, utf8Bytes, List.flatMap_append]
    split
    · have hchar : Assets.percent ∉ String.utf8EncodeChar c := fun hb ↦
        hc (Char.toNat_inj.1 (Assets.toNat_of_mem_utf8EncodeChar hb (by decide)))
      rw [List.flatMap_singleton]
      exact Assets.decodeBytes_append hchar hrest
    · next hescaped =>
      refine decodeBytes_escapes (fun b hb ↦ ?_) hrest
      by_contra hb'
      rw [Bool.not_eq_false, Assets.isSeparator, Bool.or_eq_true, beq_iff_eq, beq_iff_eq] at hb'
      rcases hb' with rfl | rfl
      · have hnat := Assets.toNat_of_mem_utf8EncodeChar hb (by decide)
        obtain rfl : '/' = c := Char.toNat_inj.1 hnat
        exact hescaped hsafe
      · have hnat := Assets.toNat_of_mem_utf8EncodeChar hb (by decide)
        exact hc' (Char.toNat_inj.1 hnat)

theorem head?_percentEncode (hname : name.head? ≠ some '/') :
    (percentEncode safe name).head? ≠ some '/' := by
  cases name with
  | nil => simp [percentEncode]
  | cons c name =>
    rw [percentEncode, List.flatMap_cons]
    split
    · simpa using hname
    · have hlength : 0 < (String.utf8EncodeChar c).length := by
        rw [String.length_utf8EncodeChar]
        exact c.utf8Size_pos
      obtain ⟨b, bytes, hbytes⟩ := List.exists_cons_of_length_pos hlength
      simp [hbytes, escape]

end Encode

variable {lib : PackageReaders}

theorem guarded_of_validateName {raw : Text} {path : List Text}
    (h : validateName lib raw false = .ok path) : Guarded raw := by
  simp only [validateName, bind_eq_ok, ensure_eq_ok, pure_eq_ok, exists_const, Bool.not_eq_true',
    Bool.or_eq_false_iff, List.any_eq_false, List.contains_eq_mem, decide_eq_false_iff_not] at h
  obtain ⟨⟨⟨⟨⟨_, hback⟩, hpercent⟩, _⟩, hcontrol⟩, ⟨_, hparts⟩, _⟩ := h
  refine ⟨fun c hc ↦ ?_, hpercent, hback, fun part hpart ↦ ?_⟩
  · have hc' := hcontrol c hc
    simp only [isControl, Assets.asciiControl, Bool.or_eq_true, Bool.and_eq_true, decide_eq_true_eq,
      Bool.or_eq_false_iff, decide_eq_false_iff_not, beq_eq_false_iff_ne] at hc' ⊢
    omega
  · simpa [and_assoc] using hparts part hpart

theorem guarded_of_inspectArchive {archive : List (Option ZipFile)} {inspection : Inspection}
    (h : inspectArchive lib archive = .ok inspection) {file : ZipFile} (hfile : some file ∈ archive)
    (hdir : file.isDir = false) {name : Text} (hname : file.nameRaw = some name) :
    Guarded name := by
  simp only [inspectArchive, bind_eq_ok] at h
  obtain ⟨_, -, _, hfold, -⟩ := h
  obtain ⟨_, _, hinspect⟩ := exists_of_foldlM_eq_ok hfold _ hfile
  simp only [inspectFile, bind_eq_ok, orError_eq_ok] at hinspect
  obtain ⟨_, hsome, _, -, raw, hraw, path, hvalid, -⟩ := hinspect
  cases hsome
  obtain rfl : name = raw := Option.some.inj (hname.symm.trans hraw)
  rw [hdir] at hvalid
  exact guarded_of_validateName hvalid

/-- A packaged file is what its encoded name resolves to, unless its root segment is reserved. -/
theorem resolve_packaged {archive : List (Option ZipFile)} {inspection : Inspection}
    (h : inspectArchive lib archive = .ok inspection) {file : ZipFile} (hfile : some file ∈ archive)
    (hdir : file.isDir = false) {name : Text} (hname : file.nameRaw = some name)
    {canonicalize : List Text → Option (List Text)} {root : List Text}
    (hthere : canonicalize (root ++ name.splitOn '/') = some (root ++ name.splitOn '/'))
    {safe : Char → Bool} (hsafe : safe '/' = true) :
    resolve canonicalize ('/' :: percentEncode safe name) root =
      if reserved ((name.splitOn '/').head?.getD []) then .error .reservedRoot
      else .ok (root ++ name.splitOn '/') := by
  have hkey : Guarded name := guarded_of_inspectArchive h hfile hdir hname
  have hdecode : decodeOnce (percentEncode safe name) = .ok (name, false) :=
    Assets.decodeOnce_eq_ok (decodeBytes_percentEncode hsafe hkey.percent hkey.backslash)
  have hhead : (percentEncode safe name).head? ≠ some '/' := head?_percentEncode hkey.head?_ne
  split
  · next hreserved =>
    have hparse := Assets.parse_eq_ok.2 ⟨hhead, name, hdecode, hkey, rfl⟩
    have hstrip := stripPrefix_append ['/'] (percentEncode safe name)
    rw [List.singleton_append] at hstrip
    simp only [resolve, hstrip, orError, bind, Except.bind, hparse, Assets.LogicalPath.firstSegment, hreserved]
    rfl
  · next hreserved =>
    exact Assets.resolve_eq_ok.2 ⟨_, name, rfl, hhead, hdecode, hkey, by simpa using hreserved, rfl, hthere⟩

theorem exists_inspection (name : Text)
    (h : (inspectArchive consoleReaders (consoleArchive name)).isOk = true) :
    ∃ inspection, inspectArchive consoleReaders (consoleArchive name) = .ok inspection := by
  cases hinspect : inspectArchive consoleReaders (consoleArchive name) with
  | error e => rw [hinspect] at h; cases h
  | ok inspection => exact ⟨inspection, rfl⟩

theorem resolve_packaged_spaced :
    resolve some ('/' :: percentEncode (· != ' ') "a b".toList) ["ui".toList] =
      if reserved (("a b".toList.splitOn '/').head?.getD []) then .error .reservedRoot
      else .ok (["ui".toList] ++ "a b".toList.splitOn '/') := by
  obtain ⟨_, hinspect⟩ := exists_inspection "a b".toList (by decide +kernel)
  exact resolve_packaged hinspect (List.mem_cons_of_mem _ List.mem_cons_self) rfl rfl
    rfl (by decide)

/-- A packaged file under a reserved root is never served. -/
theorem not_forall_resolve_packaged :
    ¬ ∀ (lib : PackageReaders) (archive : List (Option ZipFile)) (inspection : Inspection),
      inspectArchive lib archive = .ok inspection → ∀ file : ZipFile, some file ∈ archive →
        file.isDir = false → ∀ name : Text, file.nameRaw = some name →
          ∀ (canonicalize : List Text → Option (List Text)) (root : List Text),
            canonicalize (root ++ name.splitOn '/') = some (root ++ name.splitOn '/') →
              ∀ safe : Char → Bool, safe '/' = true →
                resolve canonicalize ('/' :: percentEncode safe name) root = .ok (root ++ name.splitOn '/') := by
  intro h
  obtain ⟨_, hinspect⟩ := exists_inspection "api/x".toList (by decide +kernel)
  have hapi := h consoleReaders _ _ hinspect _ (List.mem_cons_of_mem _ List.mem_cons_self) rfl _ rfl
    some [] rfl (fun _ ↦ true) rfl
  obtain ⟨relative, key, hrequest, -, hdecode, -, hreserved, -⟩ := Assets.resolve_eq_ok.1 hapi
  obtain rfl : "api/x".toList = relative := (List.cons.inj hrequest).2
  have hkey : "api/x".toList = key := by
    have hplain : '%' ∉ "api/x".toList := by decide
    have hagain := Assets.decodeOnce_of_notMem hplain
    rw [hagain] at hdecode
    exact congrArg Prod.fst (Except.ok.inj hdecode)
  revert hreserved
  rw [← hkey]
  decide

end MicaCore.Ui
