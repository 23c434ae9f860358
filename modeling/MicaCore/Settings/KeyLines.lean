import MicaCore.Settings.AuthorizedKey

namespace MicaCore.Settings

open Data

namespace OpenSsh

/-- A line as OpenSSH reads it: an options field where the first word is not the name of a key
type, the key type, the base64 word and the comment. -/
structure KeyLine where
  options : Option Text
  keyType : Text
  blob : Text
  after : Text

def fileLines (t : Text) : List Text :=
  let parts := t.splitOn '\n'
  if parts.getLast? = some [] then parts.dropLast else parts

def blank (c : Char) : Bool := c == ' ' || c == '\t'

def skipBlanks (t : Text) : Text := t.dropWhile blank

def word (t : Text) : Text := t.takeWhile (!blank ·)

def pastWord (t : Text) : Text := t.dropWhile (!blank ·)

section

variable (known : Text → Bool) (splitOptions : Text → Option (Text × Text))

def readKey (options : Option Text) (t : Text) : Option KeyLine :=
  if known (word t) then
    let rest := skipBlanks (pastWord t)
    some ⟨options, word t, word rest, pastWord rest⟩
  else none

def readLine (line : Text) : Option KeyLine :=
  let line := skipBlanks line
  if line.isEmpty || line.head? = some '#' then none
  else
    (readKey known none line).or do
      let (options, rest) ← splitOptions line
      readKey known (some options) (skipBlanks rest)

end

variable {known : Text → Bool} {splitOptions : Text → Option (Text × Text)}

def Ends (t : Text) : Prop := ∀ c, t.head? = some c → blank c = true

variable {w t : Text}

theorem word_append (hw : w.all (!blank ·) = true) (ht : Ends t) : word (w ++ t) = w := by
  rw [word, List.takeWhile_append_of_pos (List.all_eq_true.1 hw)]
  cases t with
  | nil => simp
  | cons c t => simp [ht c rfl]

theorem pastWord_append (hw : w.all (!blank ·) = true) (ht : Ends t) : pastWord (w ++ t) = t := by
  rw [pastWord, List.dropWhile_append_of_pos (List.all_eq_true.1 hw)]
  cases t with
  | nil => rfl
  | cons c t => simp [ht c rfl]

theorem skipBlanks_of_word (hne : w ≠ []) (hw : w.all (!blank ·) = true) :
    skipBlanks (w ++ t) = w ++ t := by
  cases w with
  | nil => exact absurd rfl hne
  | cons c w =>
    have hc : blank c = false := by simpa using List.all_eq_true.1 hw c (by simp)
    simp [skipBlanks, hc]

theorem readLine_of_known {keyType blob after : Text} (hknown : known keyType = true)
    (htype : keyType ≠ [] ∧ keyType.all (!blank ·) = true ∧ keyType.head? ≠ some '#')
    (hblob : blob ≠ [] ∧ blob.all (!blank ·) = true) (hafter : Ends after) :
    readLine known splitOptions (keyType ++ ' ' :: (blob ++ after)) =
      some ⟨none, keyType, blob, after⟩ := by
  obtain ⟨hne, hword, hhash⟩ := htype
  have hspace : Ends (' ' :: (blob ++ after)) := by
    rintro c hc
    cases hc
    rfl
  have hskip : skipBlanks (' ' :: (blob ++ after)) = blob ++ after :=
    skipBlanks_of_word hblob.1 hblob.2
  have hkey : readKey known none (keyType ++ ' ' :: (blob ++ after)) =
      some ⟨none, keyType, blob, after⟩ := by
    simp only [readKey, word_append hword hspace, hknown, if_true, pastWord_append hword hspace, hskip,
      word_append hblob.2 hafter, pastWord_append hblob.2 hafter]
  rw [readLine, skipBlanks_of_word hne hword, hkey]
  obtain ⟨c, w, rfl⟩ := List.exists_cons_of_ne_nil hne
  have hc : c ≠ '#' := fun he ↦ hhash (by rw [he]; rfl)
  simp [hc]

theorem fileLines_flatMap {lines : List Text} (h : ∀ l ∈ lines, '\n' ∉ l) :
    fileLines (lines.flatMap (· ++ ['\n'])) = lines := by
  have hsplit : (lines.flatMap (· ++ ['\n'])).splitOn '\n' = lines ++ [[]] := by
    induction lines with
    | nil => rfl
    | cons l lines ih =>
      obtain ⟨hl, hlines⟩ := List.forall_mem_cons.1 h
      rw [List.flatMap_cons, List.append_assoc, List.singleton_append, List.splitOn_append_cons_self_of_not_mem hl, ih hlines,
        List.cons_append]
  rw [fileLines, hsplit]
  simp

end OpenSsh

section Accepted

variable {decode : Text → Option Bytes} {f : Char → Option Text}
    {line keyType blob : Text} {u : Unit}

theorem findAt_eq_none {n : ℕ} {t : Text} : findAt f n t = none ↔ ∀ c ∈ t, f c = none := by
  induction t generalizing n with
  | nil => simp [findAt]
  | cons c t ih =>
    rw [findAt]
    cases hc : f c with
    | none => simp [ih, hc]
    | some name => simp [hc]

theorem refuseAt_eq_ok {message : Text → Text} {found : Option (Text × ℕ)} :
    refuseAt message found = .ok u ↔ found = none := by
  cases found <;> simp [refuseAt]

theorem checkLineShape_eq_ok : checkLineShape line = .ok u ↔
    line ≠ [] ∧ (∀ c ∈ line, forbidden c = none) ∧ line.head? ≠ some ' ' ∧
    line.getLast? ≠ some ' ' := by
  simp only [checkLineShape, bind_eq_ok, ensure_eq_ok, refuseAt_eq_ok, findAt_eq_none, Bool.not_eq_true',
    List.isEmpty_eq_false_iff, bne_iff_ne, exists_const]

def innerName (decoded : Bytes) : Option Bytes :=
  let length := bigEndian (decoded.take 4)
  if 4 ≤ decoded.length ∧ length ≤ (decoded.drop 4).length then
    some ((decoded.drop 4).take length)
  else none

theorem checkBlobDeclares_eq_ok {decoded : Bytes} :
    checkBlobDeclares decoded keyType = .ok u ↔ innerName decoded = some (utf8Bytes keyType) := by
  simp only [checkBlobDeclares, bind_eq_ok, ensure_eq_ok, decide_eq_true_eq, beq_iff_eq, exists_const,
    innerName, Option.ite_none_right_eq_some, Option.some.injEq, and_assoc]

structure KeyWords (decode : Text → Option Bytes) (keyType blob : Text) : Prop where
  accepted : keyType ∈ acceptedTypes
  checked : checkBlob blob = .ok ()
  declares : ∃ decoded, decode blob = some decoded ∧ minBlobBytes ≤ decoded.length ∧
    innerName decoded = some (utf8Bytes keyType)

def commentText : Option Text → Text
  | some comment => ' ' :: comment
  | none => []

theorem splitFields_eq {comment : Option Text}
    (h : splitFields line = (keyType, some (blob, comment))) :
    ' ' ∉ keyType ∧ ' ' ∉ blob ∧ line = keyType ++ ' ' :: (blob ++ commentText comment) := by
  unfold splitFields at h
  split at h
  · cases h
  · next first rest hfirst =>
    split at h
    · next hrest =>
      cases h
      refine ⟨not_mem_of_splitOnce hfirst, not_mem_of_splitOnce_eq_none hrest, ?_⟩
      rw [commentText, List.append_nil]
      exact splitOnce_eq_some hfirst
    · next second rest' hrest =>
      cases h
      refine ⟨not_mem_of_splitOnce hfirst, not_mem_of_splitOnce hrest, ?_⟩
      rw [commentText, ← splitOnce_eq_some hrest]
      exact splitOnce_eq_some hfirst

theorem splitFields_of_words (htype : ' ' ∉ keyType) (hblob : ' ' ∉ blob) :
    splitFields (keyType ++ ' ' :: blob) = (keyType, some (blob, none)) := by
  simp only [splitFields, splitOnce_append blob htype, splitOnce_eq_none hblob]

variable {entry : AuthorizedKey}

theorem parseAuthorizedKey_eq_ok :
    parseAuthorizedKey decode line = .ok entry ↔ checkLineShape line = .ok () ∧
    ∃ keyType blob comment,
      splitFields line = (keyType, some (blob, comment)) ∧ KeyWords decode keyType blob ∧
      (∀ c ∈ comment, checkComment c = .ok ()) ∧ entry = ⟨keyType ++ ' ' :: blob, comment⟩ := by
  simp only [parseAuthorizedKey, bind_eq_ok, ensure_eq_ok, orError_eq_ok, pure_eq_ok, forM_eq_ok,
    checkBlobDeclares_eq_ok, decide_eq_true_eq, List.contains_iff_mem, Option.mem_toList]
  constructor
  · rintro ⟨_, hshape, ⟨blob, comment⟩, hfields, _, haccepted, _, hchecked, decoded, hdecode, _, hmin, _,
      hname, _, hcomment, rfl⟩
    exact ⟨hshape, _, blob, comment, Prod.ext rfl hfields,
      ⟨haccepted, hchecked, decoded, hdecode, hmin, hname⟩, hcomment, rfl⟩
  · rintro ⟨hshape, keyType, blob, comment, hfields, ⟨haccepted, hchecked, decoded, hdecode, hmin, hname⟩,
      hcomment, rfl⟩
    rw [hfields]
    exact ⟨(), hshape, (blob, comment), rfl, (), haccepted, (), hchecked, decoded, hdecode, (), hmin, (),
      hname, (), hcomment, rfl⟩

theorem words_of_accepted (h : keyType ∈ acceptedTypes) :
    keyType ≠ [] ∧ keyType.all (!OpenSsh.blank ·) = true ∧ keyType.head? ≠ some '#' := by
  simp only [acceptedTypes, List.mem_cons, List.not_mem_nil, or_false] at h
  rcases h with rfl | rfl | rfl | rfl | rfl | rfl | rfl <;> decide

theorem ne_nil_of_checkBlob (h : checkBlob blob = .ok u) : blob ≠ [] := by
  obtain ⟨_, hne, -⟩ := bind_eq_ok.1 h
  simpa using hne

theorem atEntry_eq_ok {α : Type} {index : ℕ} {x : Except SettingsError α} {a : α} :
    atEntry index x = .ok a ↔ x = .ok a := by
  cases x with
  | ok b => rfl
  | error e => cases e <;> simp [atEntry]

structure AuthorizedKey.Accepted (decode : Text → Option Bytes) (entry : AuthorizedKey) : Prop where
  key : ∃ parsed, parseAuthorizedKey decode entry.key = .ok parsed ∧ parsed.comment = none
  comment : ∀ c ∈ entry.comment, checkComment c = .ok ()

theorem accepted_of_validateEntries {index : ℕ} {seen : List (Text × ℕ)} {keys : List AuthorizedKey}
    (h : validateEntries decode index seen keys = .ok u) :
    ∀ entry ∈ keys, entry.Accepted decode := by
  induction keys generalizing index seen with
  | nil => simp
  | cons entry keys ih =>
    simp only [validateEntries, bind_eq_ok, ensure_eq_ok, atEntry_eq_ok, forM_eq_ok, Option.mem_toList,
      Option.isNone_iff_eq_none] at h
    obtain ⟨parsed, hparsed, _, hnone, _, hcomment, _, -, h⟩ := h
    exact List.forall_mem_cons.2 ⟨⟨⟨parsed, hparsed, hnone⟩, hcomment⟩, ih h⟩

theorem AuthorizedKey.Accepted.words (h : entry.Accepted decode) :
    ∃ keyType blob, KeyWords decode keyType blob ∧ entry.key = keyType ++ ' ' :: blob ∧ ' ' ∉ blob ∧
      ∀ c ∈ entry.key, forbidden c = none := by
  obtain ⟨parsed, hparsed, hnone⟩ := h.key
  obtain ⟨hshape, keyType, blob, comment, hfields, hwords, -, rfl⟩ :=
    parseAuthorizedKey_eq_ok.1 hparsed
  obtain rfl : comment = none := hnone
  obtain ⟨-, hblob, hline⟩ := splitFields_eq hfields
  rw [commentText, List.append_nil] at hline
  exact ⟨keyType, blob, hwords, hline, hblob, (checkLineShape_eq_ok.1 hshape).2.1⟩

theorem newline_not_mem_comment {comment : Text} (h : checkComment comment = .ok u) :
    '\n' ∉ comment := by
  simp only [checkComment, bind_eq_ok, refuseAt_eq_ok, findAt_eq_none] at h
  obtain ⟨_, -, _, -, hcontrol⟩ := h
  intro hmem
  exact absurd (hcontrol _ hmem) (by decide)

theorem AuthorizedKey.Accepted.newline_not_mem (h : entry.Accepted decode) : '\n' ∉ entry.line := by
  obtain ⟨_, _, -, -, -, hforbidden⟩ := h.words
  have hkey : '\n' ∉ entry.key := fun hmem ↦ absurd (hforbidden _ hmem) (by decide)
  unfold AuthorizedKey.line
  cases hc : entry.comment with
  | none => exact hkey
  | some comment =>
    have hcomment := newline_not_mem_comment (h.comment comment hc)
    simp [hkey, hcomment]

end Accepted

section KeyFile

variable {decode : Text → Option Bytes} {known : Text → Bool} {splitOptions : Text → Option (Text × Text)}

/-- No options, the entry's own type and key, and its comment. -/
def Grants (decode : Text → Option Bytes)
    (known : Text → Bool) (splitOptions : Text → Option (Text × Text))
    (line : Text) (entry : AuthorizedKey) : Prop :=
  ∃ keyType blob decoded,
    OpenSsh.readLine known splitOptions line = some ⟨none, keyType, blob, commentText entry.comment⟩ ∧
    keyType ∈ acceptedTypes ∧ entry.key = keyType ++ ' ' :: blob ∧ decode blob = some decoded ∧
    innerName decoded = some (utf8Bytes keyType)

variable {entry : AuthorizedKey}

theorem AuthorizedKey.line_eq {keyType blob : Text} (h : entry.key = keyType ++ ' ' :: blob) :
    entry.line = keyType ++ ' ' :: (blob ++ commentText entry.comment) := by
  unfold AuthorizedKey.line
  cases entry.comment <;> simp [h, commentText]

theorem AuthorizedKey.Accepted.grants (hknown : ∀ t ∈ acceptedTypes, known t = true)
    (h : entry.Accepted decode) : Grants decode known splitOptions entry.line entry := by
  obtain ⟨keyType, blob, hwords, hkey, hspace, hforbidden⟩ := h.words
  obtain ⟨decoded, hdecode, -, hname⟩ := hwords.declares
  have hblob : blob.all (!OpenSsh.blank ·) = true := by
    rw [List.all_eq_true]
    intro c hc
    have htab : c ≠ '\t' := by
      rintro rfl
      exact absurd (hforbidden '\t' (by simp [hkey, hc])) (by decide)
    have hne : c ≠ ' ' := fun he ↦ hspace (he ▸ hc)
    simp [OpenSsh.blank, htab, hne]
  have hafter : OpenSsh.Ends (commentText entry.comment) := by
    intro c hc
    cases hcomment : entry.comment with
    | none => simp [hcomment, commentText] at hc
    | some comment =>
      obtain rfl : ' ' = c := by simpa [hcomment, commentText] using hc
      rfl
  refine ⟨keyType, blob, decoded, ?_, hwords.accepted, hkey, hdecode, hname⟩
  rw [AuthorizedKey.line_eq hkey]
  exact OpenSsh.readLine_of_known (hknown _ hwords.accepted) (words_of_accepted hwords.accepted)
    ⟨ne_nil_of_checkBlob hwords.checked, hblob⟩ hafter

theorem accepted_of_parse {line : Text}
    (h : parseAuthorizedKey decode line = .ok entry) : entry.Accepted decode := by
  obtain ⟨hshape, keyType, blob, comment, hfields, hwords, hcomment, rfl⟩ :=
    parseAuthorizedKey_eq_ok.1 h
  obtain ⟨htype, hblob, hline⟩ := splitFields_eq hfields
  obtain ⟨-, hforbidden, hhead, -⟩ := checkLineShape_eq_ok.1 hshape
  have hne : blob ≠ [] := ne_nil_of_checkBlob hwords.checked
  refine ⟨⟨⟨keyType ++ ' ' :: blob, none⟩, parseAuthorizedKey_eq_ok.2 ⟨?_, keyType, blob, none,
    splitFields_of_words htype hblob, hwords, by simp, rfl⟩, rfl⟩, hcomment⟩
  refine checkLineShape_eq_ok.2 ⟨by simp, fun c hc ↦ hforbidden c ?_, ?_, ?_⟩
  · rw [hline]
    simp only [List.mem_append, List.mem_cons] at hc ⊢
    tauto
  · obtain ⟨c, w, rfl⟩ := List.exists_cons_of_ne_nil (words_of_accepted hwords.accepted).1
    rw [hline] at hhead
    exact hhead
  · rw [List.getLast?_append, List.getLast?_cons_of_ne_nil hne]
    intro hlast
    cases hb : blob.getLast? with
    | none => exact hne (List.getLast?_eq_none_iff.1 hb)
    | some c =>
      rw [hb] at hlast
      obtain rfl : c = ' ' := by simpa using hlast
      exact hblob (List.mem_of_getLast? hb)

/-- No accepted list smuggles anything in, and no accepted line is refused later. -/
theorem keyFile_sound (hknown : ∀ t ∈ acceptedTypes, known t = true) :
    (∀ keys, validateAuthorizedKeys decode keys = .ok () →
      (OpenSsh.fileLines (renderAuthorizedKeys keys)).length = keys.length ∧
      List.Forall₂ (Grants decode known splitOptions) (OpenSsh.fileLines (renderAuthorizedKeys keys)) keys) ∧
    ∀ line entry, parseAuthorizedKey decode line = .ok entry →
      validateAuthorizedKeys decode [entry] = .ok () := by
  constructor
  · intro keys h
    obtain ⟨_, -, hentries⟩ := bind_eq_ok.1 h
    have haccepted := accepted_of_validateEntries hentries
    have hnewline : ∀ l ∈ keys.map AuthorizedKey.line, '\n' ∉ l := by
      rw [List.forall_mem_map]
      exact fun entry hentry ↦ (haccepted entry hentry).newline_not_mem
    have hlines : OpenSsh.fileLines (renderAuthorizedKeys keys) = keys.map AuthorizedKey.line := by
      rw [← OpenSsh.fileLines_flatMap hnewline, List.flatMap_map]
      rfl
    rw [hlines]
    refine ⟨List.length_map _, ?_⟩
    rw [List.forall₂_map_left_iff, List.forall₂_same]
    exact fun entry hentry ↦ (haccepted entry hentry).grants hknown
  · intro line entry h
    obtain ⟨⟨parsed, hparsed, hnone⟩, hcomment⟩ := accepted_of_parse h
    refine bind_eq_ok.2 ⟨(), ensure_eq_ok.2 (by simp [maxKeys]), ?_⟩
    simp only [validateEntries, bind_eq_ok, ensure_eq_ok, atEntry_eq_ok, forM_eq_ok, Option.mem_toList,
      Option.isNone_iff_eq_none, pure_eq_ok]
    exact ⟨parsed, hparsed, (), hnone, (), hcomment, (), rfl, trivial⟩

def sampleBlob : Text := "AAAAB3NzaC1yc2E".toList ++ List.replicate 28 'A' ++ ['=']

def sampleKey : AuthorizedKey := ⟨"ssh-rsa ".toList ++ sampleBlob, some "work laptop".toList⟩

def sampleDecode (blob : Text) : Option Bytes :=
  if blob = sampleBlob then some ([0, 0, 0, 7] ++ utf8Bytes "ssh-rsa".toList ++ List.replicate 21 0) else none

theorem keyFile_sound_sampleKey :
    List.Forall₂ (Grants sampleDecode acceptedTypes.contains fun _ ↦ none)
      (OpenSsh.fileLines (renderAuthorizedKeys [sampleKey])) [sampleKey] ∧
    validateAuthorizedKeys sampleDecode [⟨sampleKey.key, none⟩] = .ok () := by
  have hsound := @keyFile_sound sampleDecode acceptedTypes.contains (fun _ ↦ none)
    fun t ht ↦ List.contains_iff_mem.2 ht
  exact ⟨(hsound.1 [sampleKey] rfl).2, hsound.2 sampleKey.key ⟨sampleKey.key, none⟩ rfl⟩

end KeyFile

end MicaCore.Settings
