import MicaCore.Data.Bytes
import MicaCore.Settings.KeyLines
import Mathlib.Data.Nat.Digits.Lemmas

namespace MicaCore.Settings

open Data

def sextet (c : Char) : ℕ :=
  if 65 ≤ c.toNat ∧ c.toNat ≤ 90 then c.toNat - 65
  else if 97 ≤ c.toNat ∧ c.toNat ≤ 122 then c.toNat - 71
  else if 48 ≤ c.toNat ∧ c.toNat ≤ 57 then c.toNat + 4
  else if c.toNat = 43 then 62
  else 63

def blobData (blob : Text) : Text := blob.take (blob.length - padding blob)

def unusedBits (blob : Text) : ℕ := 6 * (blobData blob).length % 8

/-- Six bits a symbol, the bits left over at the end dropped. -/
def blobBytes (blob : Text) : Bytes :=
  toBigEndian (6 * (blobData blob).length / 8)
    (Nat.ofDigits 64 ((blobData blob).map sextet).reverse / 2 ^ unusedBits blob)

def lastBits (blob : Text) : ℕ := ((blobData blob).getLast?.elim 0 sextet) / 2 ^ unusedBits blob

/-- The blobs differ in bits that base64 drops, at most. -/
def Alike (blob blob' : Text) : Prop :=
  (blobData blob).dropLast = (blobData blob').dropLast ∧ lastBits blob = lastBits blob'

section Base64

variable {blob blob' : Text} {u : Unit}

theorem sextet_lt (c : Char) : sextet c < 64 := by
  unfold sextet
  split_ifs <;> omega

theorem digit_lt {t : Text} {d : ℕ} (h : d ∈ (t.map sextet).reverse) : d < 64 := by
  obtain ⟨c, -, rfl⟩ := List.mem_map.1 (List.mem_reverse.1 h)
  exact sextet_lt c

variable {c : Char}

theorem toNat_of_base64Char (h : base64Char c = true) : 65 ≤ c.toNat ∧ c.toNat ≤ 90 ∨
    97 ≤ c.toNat ∧ c.toNat ≤ 122 ∨ 48 ≤ c.toNat ∧ c.toNat ≤ 57 ∨ c.toNat = 43 ∨ c.toNat = 47 := by
  change ((65 ≤ c.val ∧ c.val ≤ 90 : Bool) || 97 ≤ c.val && c.val ≤ 122 || 48 ≤ c.val && c.val ≤ 57 || c == '+' ||
    c == '/') = true at h
  simp only [Bool.or_eq_true, Bool.and_eq_true, decide_eq_true_eq, beq_iff_eq,
    UInt32.le_iff_toNat_le] at h
  rcases h with (((h | h) | h) | rfl) | rfl
  · exact .inl h
  · exact .inr (.inl h)
  · exact .inr (.inr (.inl h))
  · decide
  · decide

theorem sextet_injOn {c' : Char} (hc : base64Char c = true) (hc' : base64Char c' = true)
    (h : sextet c = sextet c') : c = c' := by
  have hn := toNat_of_base64Char hc
  have hn' := toNat_of_base64Char hc'
  apply Char.toNat_inj.1
  unfold sextet at h
  split_ifs at h <;> omega

theorem map_sextet_inj {t t' : Text} (ht : ∀ c ∈ t, base64Char c = true) (ht' : ∀ c ∈ t', base64Char c = true)
    (h : t.map sextet = t'.map sextet) : t = t' := by
  induction t generalizing t' with
  | nil => exact (List.map_eq_nil_iff.1 h.symm).symm
  | cons c t ih =>
    cases t' with
    | nil => cases h
    | cons c' t' =>
      obtain ⟨hc, htail⟩ := List.forall_mem_cons.1 ht
      obtain ⟨hc', htail'⟩ := List.forall_mem_cons.1 ht'
      obtain ⟨hhead, hrest⟩ := List.cons.inj h
      rw [sextet_injOn hc hc' hhead, ih htail htail' hrest]

structure CheckedBlob (blob : Text) : Prop where
  init_last : ∃ init last, blobData blob = init ++ [last]
  symbols : ∀ c ∈ blobData blob, base64Char c = true
  length : (blobData blob).length % 4 ≠ 1

theorem utf8Size_of_base64Char (h : base64Char c = true) : c.utf8Size = 1 := by
  have hn := toNat_of_base64Char h
  rw [Char.utf8Size_eq_one_iff, UInt32.le_iff_toNat_le]
  change c.toNat ≤ 127
  omega

theorem blobData_append (blob : Text) :
    blob = blobData blob ++ List.replicate (padding blob) '=' := by
  have hsplit := congrArg List.reverse (List.takeWhile_append_dropWhile (p := (· == '=')) (l := blob.reverse))
  rw [List.reverse_append, List.reverse_reverse] at hsplit
  have hpadding : (blob.reverse.takeWhile (· == '=')).reverse =
      List.replicate (padding blob) '=' := by
    refine List.eq_replicate_iff.2 ⟨List.length_reverse, fun c hc ↦ ?_⟩
    exact beq_iff_eq.1 (List.all_eq_true.1 List.all_takeWhile c (List.mem_reverse.1 hc))
  rw [hpadding] at hsplit
  have hdata : blobData blob = (blob.reverse.dropWhile (· == '=')).reverse := by
    have hlen := congrArg List.length hsplit
    rw [List.length_append, List.length_replicate] at hlen
    have hlength : blob.length - padding blob = (blob.reverse.dropWhile (· == '=')).reverse.length := by omega
    rw [blobData, hlength]
    nth_rewrite 2 [← hsplit]
    exact List.take_left
  rw [hdata, hsplit]

theorem checkedBlob_of_ok (h : checkBlob blob = .ok u) : CheckedBlob blob := by
  simp only [checkBlob, bind_eq_ok, ensure_eq_ok, refuseAt_eq_ok, findAt_eq_none] at h
  obtain ⟨_, hne, _, hmod, _, hpad, hsymbols⟩ := h
  have hchars : ∀ c ∈ blobData blob, base64Char c = true := by
    intro c hc
    have hnone := hsymbols c hc
    unfold outsideBase64 at hnone
    split at hnone
    · assumption
    · cases hnone
  have hbytes : byteLength blob = (blobData blob).length + padding blob := by
    have hdata : (blobData blob).map Char.utf8Size = List.replicate (blobData blob).length 1 :=
      List.eq_replicate_iff.2
        ⟨List.length_map _, List.forall_mem_map.2 fun c hc ↦ utf8Size_of_base64Char (hchars c hc)⟩
    conv_lhs => rw [blobData_append blob]
    rw [byteLength, List.map_append, hdata]
    simp [show Char.utf8Size '=' = 1 from rfl]
  have hlen := congrArg List.length (blobData_append blob)
  have hpos : blob.length ≠ 0 := by simpa using hne
  simp only [beq_iff_eq, decide_eq_true_eq, hbytes, List.length_append,
    List.length_replicate] at hmod hpad hlen
  refine ⟨?_, hchars, by omega⟩
  have hdata : blobData blob ≠ [] := fun hnil ↦ by
    rw [hnil, List.length_nil] at hmod hlen
    omega
  exact (List.eq_nil_or_concat' _).resolve_left hdata

theorem blobValue_lt (blob : Text) :
    Nat.ofDigits 64 ((blobData blob).map sextet).reverse / 2 ^ unusedBits blob <
      256 ^ (6 * (blobData blob).length / 8) := by
  have hlt := Nat.ofDigits_lt_base_pow_length (by decide) fun d ↦ digit_lt (t := blobData blob) (d := d)
  rw [List.length_reverse, List.length_map] at hlt
  rw [Nat.div_lt_iff_lt_mul (by positivity)]
  refine hlt.trans_eq ?_
  rw [show 64 = 2 ^ 6 from rfl, show 256 = 2 ^ 8 from rfl, ← pow_mul, ← pow_mul,
    ← pow_add, unusedBits,
    Nat.div_add_mod]

theorem shifted_eq_iff {r v v' m m' : ℕ} (hr : r = 0 ∨ r = 2 ∨ r = 4) (hv : v < 64)
    (hv' : v' < 64) :
    (v + 64 * m) / 2 ^ r = (v' + 64 * m') / 2 ^ r ↔ m = m' ∧ v / 2 ^ r = v' / 2 ^ r := by
  rcases hr with rfl | rfl | rfl <;> omega

theorem count_eq {n n' : ℕ} (h : n % 4 ≠ 1) (h' : n' % 4 ≠ 1) (heq : 6 * n / 8 = 6 * n' / 8) :
    n = n' := by
  have hn : n % 4 = 0 ∨ n % 4 = 2 ∨ n % 4 = 3 := by omega
  have hn' : n' % 4 = 0 ∨ n' % 4 = 2 ∨ n' % 4 = 3 := by omega
  rcases hn with hn | hn | hn <;> rcases hn' with hn' | hn' | hn' <;> omega

theorem blobBytes_eq_iff (h : CheckedBlob blob) (h' : CheckedBlob blob') :
    blobBytes blob = blobBytes blob' ↔ Alike blob blob' := by
  have hvalue := blobValue_lt blob
  have hvalue' := blobValue_lt blob'
  obtain ⟨⟨init, last, hdata⟩, hsymbols, hlen⟩ := h
  obtain ⟨⟨init', last', hdata'⟩, hsymbols', hlen'⟩ := h'
  simp only [blobBytes, Alike, lastBits, unusedBits, hdata, hdata', List.map_append,
    List.map_singleton,
    List.reverse_append, List.reverse_singleton, List.singleton_append, Nat.ofDigits_cons,
    List.length_append,
    List.length_singleton, List.dropLast_concat, List.getLast?_concat, Option.elim_some] at *
  have hshift := @shifted_eq_iff (6 * (init.length + 1) % 8) (sextet last) (sextet last')
    (Nat.ofDigits 64 (init.map sextet).reverse)
      (Nat.ofDigits 64 (init'.map sextet).reverse) (by omega)
    (sextet_lt last) (sextet_lt last')
  constructor
  · intro heq
    have hcount : init.length = init'.length := by
      have hbytes := congrArg List.length heq
      rw [length_toBigEndian, length_toBigEndian] at hbytes
      exact Nat.succ.inj (count_eq hlen hlen' hbytes)
    rw [← hcount] at heq hvalue' ⊢
    have hbits := congrArg bigEndian heq
    rw [bigEndian_toBigEndian _ _ hvalue, bigEndian_toBigEndian _ _ hvalue'] at hbits
    obtain ⟨hdigits, hlast⟩ := hshift.1 hbits
    refine ⟨map_sextet_inj ?_ ?_ ?_, hlast⟩
    · exact fun c hc ↦ hsymbols c (by simp [hc])
    · exact fun c hc ↦ hsymbols' c (by simp [hc])
    · exact List.reverse_inj.1 (Nat.ofDigits_inj_of_len_eq (by decide) (by simpa using hcount)
        (fun _ ↦ digit_lt) (fun _ ↦ digit_lt) hdigits)
  · rintro ⟨rfl, hlast⟩
    rw [hshift.2 ⟨rfl, hlast⟩]

end Base64

section Entries

variable {φ : Type} (decode : Text → Option Bytes) (print : Bytes → φ)

/-- `print` is the digest of the blob and how it is spelled. -/
def sshFingerprint (key : Text) : Option φ := ((key.splitOn ' ')[1]?.bind decode).map print

def AuthorizedKey.keyType (entry : AuthorizedKey) : Text := (splitFields entry.key).1

def AuthorizedKey.blob (entry : AuthorizedKey) : Text := (splitFields entry.key).2.elim [] Prod.fst

/-- Each key is listed once, and each rendered line is read back. -/
structure ListedOnce (keys : List AuthorizedKey) : Prop where
  distinct : keys.Pairwise fun e e' ↦ (e.keyType, decode e.blob) ≠ (e'.keyType, decode e'.blob)
  fingerprints : keys.Pairwise fun e e' ↦
    sshFingerprint decode print e.key ≠ sshFingerprint decode print e'.key
  reparsed : ∀ e ∈ keys, parseAuthorizedKey decode e.line = .ok e

variable {decode print} {entry entry' : AuthorizedKey}

theorem AuthorizedKey.Accepted.fields (h : entry.Accepted decode) :
    KeyWords decode entry.keyType entry.blob ∧ entry.key = entry.keyType ++ ' ' :: entry.blob ∧
      ' ' ∉ entry.keyType ∧ ' ' ∉ entry.blob := by
  obtain ⟨keyType, blob, hwords, hkey, hblob, -⟩ := h.words
  have htype : ' ' ∉ keyType := fun hmem ↦ by
    simpa [OpenSsh.blank] using List.all_eq_true.1 (words_of_accepted hwords.accepted).2.1 _ hmem
  have hfields := splitFields_of_words htype hblob
  rw [← hkey] at hfields
  simp only [AuthorizedKey.keyType, AuthorizedKey.blob, hfields, Option.elim_some]
  exact ⟨hwords, hkey, htype, hblob⟩

theorem AuthorizedKey.Accepted.sshFingerprint_eq (h : entry.Accepted decode) :
    sshFingerprint decode print entry.key = (decode entry.blob).map print := by
  obtain ⟨-, hkey, htype, hblob⟩ := h.fields
  rw [sshFingerprint, hkey, List.splitOn_append_cons_self_of_not_mem htype,
    List.splitOn_eq_singleton hblob]
  rfl

theorem forbidden_of_control {c : Char} (h : control c = none) : forbidden c = none := by
  have hprintable : ¬ c.toNat < 32 := fun hlt ↦ by simp [control, hlt] at h
  unfold forbidden
  split_ifs with h₀ h₁ h₂ h₃ h₄ h₅
  all_goals first | rfl | exact absurd (by subst c; decide) hprintable

theorem checkComment_eq_ok {comment : Text} {u : Unit} (h : checkComment comment = .ok u) :
    comment ≠ [] ∧ ∀ c ∈ comment, forbidden c = none := by
  simp only [checkComment, bind_eq_ok, ensure_eq_ok, refuseAt_eq_ok, findAt_eq_none] at h
  obtain ⟨_, hne, _, -, hcontrol⟩ := h
  exact ⟨by simpa using hne, fun c hc ↦ forbidden_of_control (hcontrol c hc)⟩

theorem splitFields_line {keyType blob : Text} (htype : ' ' ∉ keyType) (hblob : ' ' ∉ blob)
    (comment : Option Text) :
    splitFields (keyType ++ ' ' :: (blob ++ commentText comment)) =
      (keyType, some (blob, comment)) := by
  cases comment with
  | none => simpa [commentText] using splitFields_of_words htype hblob
  | some c => simp [splitFields, splitOnce_append, htype, hblob, commentText]

theorem AuthorizedKey.Accepted.reparsed_iff (h : entry.Accepted decode) :
    parseAuthorizedKey decode entry.line = .ok entry ↔
    ∀ c ∈ entry.comment, c.getLast? ≠ some ' ' := by
  obtain ⟨hwords, hkey, htype, hblob⟩ := h.fields
  obtain ⟨parsed, hparsed, -⟩ := h.key
  obtain ⟨hne, hforbidden, hhead, hlast⟩ :=
    checkLineShape_eq_ok.1 (parseAuthorizedKey_eq_ok.1 hparsed).1
  have hparse : parseAuthorizedKey decode entry.line = .ok entry ↔
      checkLineShape entry.line = .ok () := by
    rw [parseAuthorizedKey_eq_ok, and_iff_left]
    refine ⟨entry.keyType, entry.blob, entry.comment, ?_, hwords, h.comment, ?_⟩
    · rw [AuthorizedKey.line_eq hkey, splitFields_line htype hblob]
    · rw [← hkey]
  rw [hparse, checkLineShape_eq_ok]
  unfold AuthorizedKey.line
  cases hcomment : entry.comment with
  | none => simpa using ⟨hne, hforbidden, hhead, hlast⟩
  | some c =>
    obtain ⟨hsome, hchars⟩ := checkComment_eq_ok (h.comment c hcomment)
    have hlast' : (entry.key ++ ' ' :: c).getLast? = c.getLast? := by
      rw [List.getLast?_append, List.getLast?_cons_of_ne_nil hsome]
      obtain ⟨x, hx⟩ := Option.ne_none_iff_exists'.1 (mt List.getLast?_eq_none_iff.1 hsome)
      simp [hx]
    have hhead' : (entry.key ++ ' ' :: c).head? = entry.key.head? := by
      obtain ⟨x, w, hxw⟩ := List.exists_cons_of_ne_nil hne
      simp [hxw]
    rw [hlast', hhead']
    constructor
    · rintro ⟨-, -, -, hend⟩ _ ⟨⟩
      exact hend
    · intro hend
      refine ⟨by simp, ?_, hhead, hend c rfl⟩
      refine List.forall_mem_append.2 ⟨hforbidden, List.forall_mem_cons.2 ⟨by decide, hchars⟩⟩

theorem AuthorizedKey.Accepted.same_key_iff
    (hdecode : ∀ blob, checkBlob blob = .ok () → decode blob = some (blobBytes blob))
    (h : entry.Accepted decode) (h' : entry'.Accepted decode) :
    ((entry.keyType, decode entry.blob) = (entry'.keyType, decode entry'.blob) ↔ Alike entry.blob entry'.blob) ∧
      (decode entry.blob = decode entry'.blob ↔ Alike entry.blob entry'.blob) := by
  obtain ⟨hwords, -⟩ := h.fields
  obtain ⟨hwords', -⟩ := h'.fields
  have hbytes : decode entry.blob = decode entry'.blob ↔ Alike entry.blob entry'.blob := by
    rw [hdecode _ hwords.checked, hdecode _ hwords'.checked, Option.some.injEq]
    exact blobBytes_eq_iff (checkedBlob_of_ok hwords.checked) (checkedBlob_of_ok hwords'.checked)
  refine ⟨?_, hbytes⟩
  rw [Prod.mk.injEq, hbytes, and_iff_right_iff_imp]
  -- The blob names its own type, so one blob has one type.
  intro halike
  obtain ⟨decoded, hsome, -, hname⟩ := hwords.declares
  obtain ⟨decoded', hsome', -, hname'⟩ := hwords'.declares
  have heq : decoded = decoded' :=
    Option.some.inj (hsome.symm.trans ((hbytes.2 halike).trans hsome'))
  rw [heq, hname'] at hname
  exact (utf8Bytes_injective (Option.some.inj hname)).symm

/-- A list holds each key once and reads back iff no blobs are alike and no comment ends in a space. -/
theorem listedOnce_iff (decode : Text → Option Bytes) (print : Bytes → φ)
    (hdecode : ∀ blob, checkBlob blob = .ok () → decode blob = some (blobBytes blob))
    (hprint : Function.Injective print) (keys : List AuthorizedKey)
    (h : validateAuthorizedKeys decode keys = .ok ()) :
    ListedOnce decode print keys ↔
      (keys.Pairwise fun e e' ↦ ¬ Alike e.blob e'.blob) ∧ ∀ e ∈ keys, ∀ c ∈ e.comment, c.getLast? ≠ some ' ' := by
  obtain ⟨_, -, hentries⟩ := bind_eq_ok.1 h
  have haccepted := accepted_of_validateEntries hentries
  have hpair {e e' : AuthorizedKey} (he : e ∈ keys) (he' : e' ∈ keys) :=
    (haccepted e he).same_key_iff hdecode (haccepted e' he')
  constructor
  · intro hlisted
    refine ⟨hlisted.distinct.imp_of_mem fun he he' hne ↦ mt (hpair he he').1.2 hne, fun e he ↦ ?_⟩
    exact (haccepted e he).reparsed_iff.1 (hlisted.reparsed e he)
  · rintro ⟨halike, hcomments⟩
    refine ⟨halike.imp_of_mem fun he he' hnot ↦ mt (hpair he he').1.1 hnot,
      halike.imp_of_mem fun he he' hnot heq ↦ hnot ((hpair he he').2.1 ?_),
      fun e he ↦ (haccepted e he).reparsed_iff.2 (hcomments e he)⟩
    rw [(haccepted _ he).sshFingerprint_eq, (haccepted _ he').sshFingerprint_eq] at heq
    exact Option.map_injective hprint heq

end Entries

namespace Sample

def decode (blob : Text) : Option Bytes := some (blobBytes blob)

def twin (last : Char) : AuthorizedKey :=
  ⟨"ssh-rsa AAAAB3NzaC1yc2E".toList ++ List.replicate 27 'A' ++ [last, '='], none⟩

end Sample

theorem listedOnce_iff_sample : ListedOnce Sample.decode id [Sample.twin 'A', Sample.twin 'E'] := by
  have hvalid : validateAuthorizedKeys Sample.decode [Sample.twin 'A', Sample.twin 'E'] =
      .ok () := by
    decide +kernel
  refine (listedOnce_iff Sample.decode id (fun _ _ ↦ rfl) Function.injective_id _ hvalid).2 ⟨?_, ?_⟩
  · refine List.pairwise_pair.2 fun halike ↦ ?_
    exact absurd halike.2 (by decide)
  · rintro e he c hc
    rcases List.mem_pair.1 he with rfl | rfl <;> cases hc

/-- Two spellings of one key, apart in a bit that no byte takes. -/
theorem not_forall_listedOnce : ¬ ∀ keys, validateAuthorizedKeys Sample.decode keys = .ok () →
    ListedOnce Sample.decode id keys := by
  intro h
  have hvalid : validateAuthorizedKeys Sample.decode [Sample.twin 'A', Sample.twin 'B'] =
      .ok () := by
    decide +kernel
  have hsame : blobBytes (Sample.twin 'A').blob = blobBytes (Sample.twin 'B').blob := by
    decide +kernel
  refine List.pairwise_pair.1 (h _ hvalid).distinct ?_
  rw [Sample.decode, Sample.decode, hsame]
  rfl

end MicaCore.Settings
