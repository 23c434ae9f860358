import MicaCore.Deploy.Records
import MicaCore.Network.Address

namespace MicaCore.Boot

open Data Deploy
open Network (parseUnsigned)

structure FitRecord where
  id : Text
  kernelId : Text
  generation : ℕ
  triesLeft : Option UInt8
  deriving DecidableEq

def parseTries : Text → Except String (Option UInt8)
  | ['-'] => .ok none
  | ['0'] => .ok (some 0)
  | ['1'] => .ok (some 1)
  | ['2'] => .ok (some 2)
  | ['3'] => .ok (some 3)
  | _ => .error "invalid boot attempt counter"

/-- What `parse::<u64>` answers on a text it refuses: its digits are read until one is wrong or
the value is too large. -/
def parseIntError (t : Text) : String :=
  let digits := match t with
    | '+' :: digits => digits
    | digits => digits
  if t.isEmpty then "cannot parse integer from empty string"
  else if 2 ^ 64 ≤ decimal (digits.takeWhile Char.isDigit) then
    "number too large to fit in target type"
  else "invalid digit found in string"

def parseRow (records : List FitRecord) (row : Text) : Except String FitRecord :=
  match row.splitOn ',' with
  | [id, kernelId, generation, tries] => do
    ensure (records.length < 2) "invalid boot record count or fields"
    validId id
    validId kernelId
    let n ← orError (parseIntError generation) (parseUnsigned (2 ^ 64 - 1) generation)
    ensure (0 < n && n ≤ maxGeneration && numeral n == generation) "invalid boot generation"
    ensure (records.all fun r ↦ r.id != id && n < r.generation) "ambiguous boot record order"
    let triesLeft ← parseTries tries
    pure ⟨id, kernelId, n, triesLeft⟩
  | _ => .error "invalid boot record count or fields"

def parseRows : List FitRecord → List Text → Except String (List FitRecord)
  | records, [] => pure records
  | records, row :: rows => do
    let record ← parseRow records row
    parseRows (records ++ [record]) rows

def version : Text := ['v', '1', '|']

def parseRecords (text : Text) : Except String (List FitRecord) := do
  ensure (byteLength text ≤ 512) "boot records exceed bound"
  let rows ← orError "invalid boot record version" (stripPrefix version text)
  parseRows [] (rows.splitOn ';')

def renderTries : Option UInt8 → Text
  | none => ['-']
  | some tries => numeral tries.toNat

def fieldsOf (r : FitRecord) : List Text :=
  [r.id, r.kernelId, numeral r.generation, renderTries r.triesLeft]

def renderRow (r : FitRecord) : Text := [','].intercalate (fieldsOf r)

def renderText (records : List FitRecord) : Text :=
  version ++ [';'].intercalate (records.map renderRow)

def renderRecords (records : List FitRecord) : Except String Text := do
  let text := renderText records
  let _ ← parseRecords text
  pure text

structure FitRecord.Valid (r : FitRecord) : Prop where
  id : isId r.id = true
  kernelId : isId r.kernelId = true
  generation : 1 ≤ r.generation ∧ r.generation ≤ 2 ^ 53 - 1
  tries : ∀ t ∈ r.triesLeft, t ≤ 3

/-- At most two rows, of distinct deployments, the newest first. -/
structure Listing (records : List FitRecord) : Prop where
  length : records.length ≤ 2
  valid : ∀ r ∈ records, r.Valid
  ordered : records.Pairwise fun r r' ↦ r.id ≠ r'.id ∧ r'.generation < r.generation

section Fields

theorem not_mem_of_isId {id : Text} {c : Char} (h : isId id = true) (hc : hexDigit c = false) :
    c ∉ id :=
  fun hmem ↦ by
    rw [isId, Bool.and_eq_true] at h
    rw [List.all_eq_true.1 h.2 _ hmem] at hc
    cases hc

theorem not_mem_renderTries {c : Char} (hc : c.isDigit = false) (hdash : c ≠ '-')
    (tries : Option UInt8) : c ∉ renderTries tries := by
  cases tries with
  | none => simpa [renderTries] using hdash
  | some t => exact not_mem_numeral hc _

theorem decimal_numeral (n : ℕ) : decimal (numeral n) = n :=
  Nat.ofDigitChars_toDigits (by decide) le_rfl

theorem numeral_ne_nil (n : ℕ) : numeral n ≠ [] := Nat.toDigits_ne_nil

theorem parseUnsigned_numeral {limit n : ℕ} (h : n ≤ limit) :
    parseUnsigned limit (numeral n) = some n := by
  have hdigits : (numeral n).all Char.isDigit = true :=
    List.all_eq_true.2 fun c hc ↦ isDigit_of_mem_numeral hc
  rw [Network.parseUnsigned_of_isDigit hdigits, Network.parseDigits_eq_some]
  exact ⟨⟨numeral_ne_nil n, hdigits⟩, by rwa [decimal_numeral], decimal_numeral n⟩

theorem eq_of_le_three {n : UInt8} (h : n ≤ 3) : n = 0 ∨ n = 1 ∨ n = 2 ∨ n = 3 := by
  have hle : n.toNat ≤ 3 := UInt8.le_iff_toNat_le.1 h
  have hcases : n.toNat = 0 ∨ n.toNat = 1 ∨ n.toNat = 2 ∨ n.toNat = 3 := by omega
  rcases hcases with h | h | h | h
  · exact .inl (UInt8.toNat_inj.1 h)
  · exact .inr (.inl (UInt8.toNat_inj.1 h))
  · exact .inr (.inr (.inl (UInt8.toNat_inj.1 h)))
  · exact .inr (.inr (.inr (UInt8.toNat_inj.1 h)))

theorem parseTries_eq_ok {t : Text} {tries : Option UInt8} :
    parseTries t = .ok tries ↔ t = renderTries tries ∧ ∀ n ∈ tries, n ≤ 3 := by
  constructor
  · intro h
    unfold parseTries at h
    split at h
    all_goals first
      | cases h
        exact ⟨by decide, by simp⟩
      | cases h
  · rintro ⟨rfl, htries⟩
    cases tries with
    | none => rfl
    | some n =>
      rcases eq_of_le_three (htries n rfl) with rfl | rfl | rfl | rfl
      · rfl
      · rfl
      · rfl
      · rfl

theorem renderTries_injective {tries tries' : Option UInt8}
    (h : renderTries tries = renderTries tries') :
    tries = tries' := by
  have hdash : ∀ n : ℕ, numeral n ≠ ['-'] := fun n heq ↦
    absurd (heq ▸ List.mem_singleton_self '-') (not_mem_numeral (by decide) n)
  cases tries with
  | none =>
    cases tries' with
    | none => rfl
    | some n => exact absurd h.symm (hdash _)
  | some n =>
    cases tries' with
    | none => exact absurd h (hdash _)
    | some m => exact congrArg some (UInt8.toNat_inj.1 (numeral_injective h))

end Fields

def FitRecord.Clean (r : FitRecord) : Prop := ∀ c ∈ [',', ';'], c ∉ r.id ∧ c ∉ r.kernelId

section Rows

variable {r r' : FitRecord} {records rs : List FitRecord} {row text : Text}

theorem FitRecord.Valid.clean (h : r.Valid) : r.Clean := by
  have hhex : ∀ c ∈ [',', ';'], hexDigit c = false :=
    List.forall_mem_cons.2 ⟨by decide, List.forall_mem_singleton.2 (by decide)⟩
  exact fun c hc ↦ ⟨not_mem_of_isId h.id (hhex c hc), not_mem_of_isId h.kernelId (hhex c hc)⟩

theorem FitRecord.Clean.not_mem_fields (h : r.Clean) {c : Char} (hc : c ∈ [',', ';']) :
    ∀ f ∈ fieldsOf r, c ∉ f := by
  have hdigit : ∀ c ∈ [',', ';'], c.isDigit = false ∧ c ≠ '-' :=
    List.forall_mem_cons.2 ⟨by decide, List.forall_mem_singleton.2 (by decide)⟩
  simp only [fieldsOf, List.forall_mem_cons]
  exact ⟨(h c hc).1, (h c hc).2, not_mem_numeral (hdigit c hc).1 _,
    not_mem_renderTries (hdigit c hc).1 (hdigit c hc).2 _, by simp⟩

theorem FitRecord.Clean.splitOn_renderRow (h : r.Clean) : (renderRow r).splitOn ',' = fieldsOf r :=
  List.splitOn_intercalate _ (h.not_mem_fields (by simp)) (by simp [fieldsOf])

theorem FitRecord.Clean.not_mem_renderRow (h : r.Clean) : ';' ∉ renderRow r := by
  have hfields := h.not_mem_fields (c := ';') (by simp)
  simp only [fieldsOf, List.forall_mem_cons] at hfields
  obtain ⟨hid, hkernel, hgeneration, htries, -⟩ := hfields
  simp [renderRow, fieldsOf, List.intercalate, hid, hkernel, hgeneration, htries]

theorem FitRecord.Clean.eq_of_renderRow (h : r.Clean) (h' : r'.Clean) (heq : renderRow r = renderRow r') :
    r = r' := by
  have hfields : fieldsOf r = fieldsOf r' := by
    rw [← h.splitOn_renderRow, heq, h'.splitOn_renderRow]
  simp only [fieldsOf, List.cons.injEq, and_true] at hfields
  obtain ⟨hid, hkernel, hgeneration, htries⟩ := hfields
  cases r
  cases r'
  congr
  · exact numeral_injective hgeneration
  · exact renderTries_injective htries

theorem parseRow_eq_ok :
    parseRow records row = .ok r ↔ row = renderRow r ∧ r.Valid ∧ records.length < 2 ∧
      ∀ q ∈ records, q.id ≠ r.id ∧ r.generation < q.generation := by
  constructor
  · intro h
    unfold parseRow at h
    split at h
    · next id kernelId generation tries hsplit =>
      simp only [bind_eq_ok, pure_eq_ok, ensure_eq_ok, orError_eq_ok, validId_eq_ok, Bool.and_eq_true,
        decide_eq_true_eq, beq_iff_eq, List.all_eq_true, bne_iff_ne, ne_eq, parseTries_eq_ok] at h
      obtain ⟨_, hlength, _, hid, _, hkernel, n, -, _, ⟨⟨hpos, hle⟩, hnumeral⟩, _, hordered, t,
        ⟨htries, hbound⟩, rfl⟩ := h
      refine ⟨?_, ⟨hid, hkernel, ⟨hpos, hle⟩, hbound⟩, hlength, hordered⟩
      rw [renderRow, fieldsOf, hnumeral, ← htries, ← hsplit, List.intercalate_splitOn]
    · cases h
  · rintro ⟨rfl, hvalid, hlength, hordered⟩
    obtain ⟨hpos, hle⟩ := hvalid.generation
    have hlimit : r.generation ≤ 2 ^ 64 - 1 := hle.trans (by decide)
    unfold parseRow
    rw [hvalid.clean.splitOn_renderRow, fieldsOf]
    simp only [bind_eq_ok, pure_eq_ok, ensure_eq_ok, orError_eq_ok, validId_eq_ok, Bool.and_eq_true,
      decide_eq_true_eq, beq_iff_eq, List.all_eq_true, bne_iff_ne, ne_eq, parseTries_eq_ok]
    exact ⟨(), hlength, (), hvalid.id, (), hvalid.kernelId, r.generation, parseUnsigned_numeral hlimit,
      (), ⟨⟨hpos, hle⟩, rfl⟩, (), hordered, r.triesLeft, ⟨rfl, hvalid.tries⟩, rfl⟩

theorem Listing.snoc (h : Listing records) (hvalid : r.Valid) (hlength : records.length < 2)
    (hordered : ∀ q ∈ records, q.id ≠ r.id ∧ r.generation < q.generation) :
    Listing (records ++ [r]) where
  length := by
    rw [List.length_append, List.length_singleton]
    omega
  valid := List.forall_mem_append.2 ⟨h.valid, by simpa using hvalid⟩
  ordered := List.pairwise_append.2 ⟨h.ordered, by simp, fun q hq q' hq' ↦ by
    obtain rfl := List.mem_singleton.1 hq'
    exact hordered q hq⟩

theorem parseRows_eq_ok {rows : List Text} (h : Listing records) :
    parseRows records rows = .ok rs ↔
      ∃ more, rs = records ++ more ∧ rows = more.map renderRow ∧ Listing rs := by
  induction rows generalizing records with
  | nil =>
    rw [parseRows, pure_eq_ok]
    constructor
    · rintro rfl
      exact ⟨[], by simp, rfl, h⟩
    · rintro ⟨more, rfl, hmore, -⟩
      simp [List.map_eq_nil_iff.1 hmore.symm]
  | cons row rows ih =>
    simp only [parseRows, bind_eq_ok, parseRow_eq_ok]
    constructor
    · rintro ⟨r, ⟨rfl, hvalid, hlength, hordered⟩, hrows⟩
      obtain ⟨more, rfl, rfl, hlisting⟩ := (ih (h.snoc hvalid hlength hordered)).1 hrows
      exact ⟨r :: more, by simp, rfl, hlisting⟩
    · rintro ⟨more, rfl, hmore, hlisting⟩
      cases more with
      | nil => simp at hmore
      | cons r more =>
        obtain ⟨rfl, rfl⟩ := List.cons.inj hmore
        have hlength : records.length < 2 := by
          have hle := hlisting.length
          simp at hle
          omega
        have hvalid : r.Valid := hlisting.valid r (by simp)
        have hordered : ∀ q ∈ records, q.id ≠ r.id ∧ r.generation < q.generation := fun q hq ↦
          (List.pairwise_append.1 hlisting.ordered).2.2 q hq r (by simp)
        refine ⟨r, ⟨rfl, hvalid, hlength, hordered⟩, (ih (h.snoc hvalid hlength hordered)).2 ?_⟩
        exact ⟨more, by simp, rfl, hlisting⟩

end Rows

section Whole

variable {r : FitRecord} {records rs : List FitRecord} {text : Text}

def plainAscii (c : Char) : Bool := c.toNat < 128 && c != '\x00'

theorem plainAscii_of_hexDigit {c : Char} (h : hexDigit c = true) : plainAscii c = true := by
  simp only [hexDigit, Bool.or_eq_true, Bool.and_eq_true, decide_eq_true_eq, Char.le_def,
    UInt32.le_iff_toNat_le] at h
  have hne : c ≠ '\x00' := by
    rintro rfl
    revert h
    decide
  have hlt : c.toNat < 128 := by
    have hval : c.toNat = c.val.toNat := rfl
    rcases h with ⟨-, h⟩ | ⟨-, h⟩
    · have hbound : ('9' : Char).val.toNat = 57 := rfl
      omega
    · have hbound : ('f' : Char).val.toNat = 102 := rfl
      omega
  simp [plainAscii, hne, hlt]

theorem hexDigit_of_isDigit {c : Char} (h : c.isDigit = true) : hexDigit c = true := by
  simp only [Char.isDigit, Bool.and_eq_true, decide_eq_true_eq] at h
  simp only [hexDigit, Char.le_def, Bool.or_eq_true, Bool.and_eq_true, decide_eq_true_eq]
  exact .inl h

theorem plainAscii_renderTries (tries : Option UInt8) :
    (renderTries tries).all plainAscii = true := by
  cases tries with
  | none => decide
  | some t =>
    exact List.all_eq_true.2 fun c hc ↦ plainAscii_of_hexDigit
      (hexDigit_of_isDigit (isDigit_of_mem_numeral hc))

theorem FitRecord.Valid.plainAscii (h : r.Valid) : (renderRow r).all plainAscii = true := by
  have hid : ∀ {id : Text}, isId id = true → id.all Boot.plainAscii = true := fun {id} hid ↦ by
    rw [isId, Bool.and_eq_true] at hid
    exact List.all_eq_true.2 fun c hc ↦ plainAscii_of_hexDigit (List.all_eq_true.1 hid.2 c hc)
  have hnumeral : (numeral r.generation).all Boot.plainAscii = true :=
    List.all_eq_true.2 fun c hc ↦ plainAscii_of_hexDigit
      (hexDigit_of_isDigit (isDigit_of_mem_numeral hc))
  have hcomma : Boot.plainAscii ',' = true := by decide
  simp only [renderRow, fieldsOf, List.intercalate_cons_cons, List.all_append,
    List.all_cons, hid h.id,
    hid h.kernelId, hnumeral, hcomma, Bool.true_and]
  simpa [List.intercalate] using plainAscii_renderTries r.triesLeft

theorem length_renderTries {tries : Option UInt8} (h : ∀ t ∈ tries, t ≤ 3) :
    (renderTries tries).length = 1 := by
  cases tries with
  | none => rfl
  | some t =>
    rcases eq_of_le_three (h t rfl) with rfl | rfl | rfl | rfl
    · rfl
    · rfl
    · rfl
    · rfl

theorem FitRecord.Valid.length_renderRow (h : r.Valid) : (renderRow r).length ≤ 148 := by
  have hid : ∀ {id : Text}, isId id = true → id.length = 64 := fun {id} hid ↦ by
    rw [isId, Bool.and_eq_true, beq_iff_eq] at hid
    exact hid.1
  have hnumeral : (numeral r.generation).length ≤ 16 :=
    Nat.toDigits_length 10 r.generation 16 (by decide) (lt_of_le_of_lt h.generation.2 (by decide))
  have htries := length_renderTries h.tries
  have hlength : (renderRow r).length = r.id.length + 1 + (r.kernelId.length + 1 +
      ((numeral r.generation).length + 1 + (renderTries r.triesLeft).length)) := by
    simp only [renderRow, fieldsOf, List.intercalate_cons_cons, List.length_append, List.length_cons]
    simp [List.intercalate, Nat.add_assoc]
  rw [hlength, hid h.id, hid h.kernelId, htries]
  omega

theorem byteLength_of_plainAscii (h : text.all plainAscii = true) :
    byteLength text = text.length := by
  induction text with
  | nil => rfl
  | cons c text ih =>
    rw [List.all_cons, Bool.and_eq_true] at h
    have hsize : c.utf8Size = 1 := by
      rw [Char.utf8Size_eq_one_iff, UInt32.le_iff_toNat_le]
      have hlt := h.1
      simp only [plainAscii, Bool.and_eq_true, decide_eq_true_eq] at hlt
      exact Nat.le_of_lt_succ hlt.1
    rw [byteLength, List.map_cons, List.sum_cons, hsize, ← byteLength, ih h.2, List.length_cons]
    omega

theorem Listing.cases (h : Listing rs) (hne : rs ≠ []) :
    (∃ r, rs = [r]) ∨ ∃ r r', rs = [r, r'] := by
  match rs, h.length with
  | [], _ => exact absurd rfl hne
  | [r], _ => exact .inl ⟨r, rfl⟩
  | [r, r'], _ => exact .inr ⟨r, r', rfl⟩

theorem Listing.bounds (h : Listing rs) (hne : rs ≠ []) :
    (renderText rs).all plainAscii = true ∧ (renderText rs).length ≤ 300 := by
  have hversion : version.all plainAscii = true := by decide
  have hsep : plainAscii ';' = true := by decide
  rcases h.cases hne with ⟨r, rfl⟩ | ⟨r, r', rfl⟩
  · have hr := h.valid r (by simp)
    have hlength := hr.length_renderRow
    simp only [renderText, List.map_cons, List.map_nil, List.intercalate_singleton, List.all_append,
      hversion, hr.plainAscii, List.length_append]
    exact ⟨rfl, by simp [version]; omega⟩
  · have hr := h.valid r (by simp)
    have hr' := h.valid r' (by simp)
    have hlength := hr.length_renderRow
    have hlength' := hr'.length_renderRow
    simp only [renderText, List.map_cons, List.map_nil, List.intercalate_cons_cons,
      List.intercalate_singleton, List.all_append, List.all_cons, hversion, hsep, hr.plainAscii,
      hr'.plainAscii, List.length_append, List.length_cons]
    exact ⟨rfl, by simp [version]; omega⟩

theorem parseRecords_eq_ok :
    parseRecords text = .ok rs ↔ rs ≠ [] ∧ Listing rs ∧ text = renderText rs := by
  have hempty : Listing [] := ⟨by simp, by simp, by simp⟩
  simp only [parseRecords, bind_eq_ok, ensure_eq_ok, orError_eq_ok, decide_eq_true_eq,
    parseRows_eq_ok hempty, List.nil_append]
  constructor
  · rintro ⟨_, -, rows, hrows, more, rfl, hsplit, hlisting⟩
    refine ⟨?_, hlisting, ?_⟩
    · rintro rfl
      exact List.splitOn_ne_nil _ _ hsplit
    · rw [stripPrefix_eq_some hrows, renderText, ← hsplit, List.intercalate_splitOn]
  · rintro ⟨hne, hlisting, rfl⟩
    obtain ⟨hascii, hlength⟩ := hlisting.bounds hne
    have hsplit : ([';'].intercalate (rs.map renderRow)).splitOn ';' = rs.map renderRow := by
      refine List.splitOn_intercalate _ (fun row hrow ↦ ?_) (by simpa using hne)
      obtain ⟨r, hr, rfl⟩ := List.mem_map.1 hrow
      exact (hlisting.valid r hr).clean.not_mem_renderRow
    refine ⟨(), ?_, _, stripPrefix_append _ _, rs, rfl, hsplit, hlisting⟩
    rw [byteLength_of_plainAscii hascii]
    omega

theorem renderRecords_eq_ok :
    renderRecords records = .ok text ↔ text = renderText records ∧
    ∃ rs, parseRecords text = .ok rs := by
  simp only [renderRecords, bind_eq_ok, pure_eq_ok]
  constructor
  · rintro ⟨rs, hparse, rfl⟩
    exact ⟨rfl, rs, hparse⟩
  · rintro ⟨rfl, rs, hparse⟩
    exact ⟨rs, hparse, rfl⟩

theorem eq_of_map_renderRow (h : ∀ r ∈ rs, r.Clean) (h' : ∀ r ∈ records, r.Clean)
    (hmap : rs.map renderRow = records.map renderRow) : rs = records := by
  induction rs generalizing records with
  | nil => exact (List.map_eq_nil_iff.1 hmap.symm).symm
  | cons r rs ih =>
    cases records with
    | nil => simp at hmap
    | cons q records =>
      obtain ⟨hr, hrs⟩ := List.forall_mem_cons.1 h
      obtain ⟨hq, hrecords⟩ := List.forall_mem_cons.1 h'
      obtain ⟨hrow, hrows⟩ := List.cons.inj hmap
      rw [hr.eq_of_renderRow hq hrow, ih hrs hrecords hrows]

theorem eq_iff_clean (h : parseRecords (renderText records) = .ok rs) :
    rs = records ↔ ∀ r ∈ records, r.Clean := by
  obtain ⟨hne, hlisting, htext⟩ := parseRecords_eq_ok.1 h
  constructor
  · rintro rfl r hr
    exact (hlisting.valid r hr).clean
  · intro hclean
    have hrows : [';'].intercalate (records.map renderRow) = [';'].intercalate (rs.map renderRow) :=
      List.append_cancel_left htext
    have hsplit : ∀ l : List FitRecord, l ≠ [] → (∀ r ∈ l, r.Clean) →
        ([';'].intercalate (l.map renderRow)).splitOn ';' = l.map renderRow := fun l hl hl' ↦ by
      refine List.splitOn_intercalate _ (fun row hrow ↦ ?_) (by simpa using hl)
      obtain ⟨r, hr, rfl⟩ := List.mem_map.1 hrow
      exact (hl' r hr).not_mem_renderRow
    have hclean' : ∀ r ∈ rs, r.Clean := fun r hr ↦ (hlisting.valid r hr).clean
    have hne' : records ≠ [] := by
      rintro rfl
      have hsplit' := hsplit rs hne hclean'
      rw [← hrows] at hsplit'
      have hnil : rs.map renderRow = [[]] := hsplit'.symm
      obtain ⟨r, rfl, hr⟩ := List.map_eq_singleton_iff.1 hnil
      simp [renderRow, fieldsOf, List.intercalate] at hr
    have hmap : rs.map renderRow = records.map renderRow := by
      rw [← hsplit rs hne hclean', ← hrows, hsplit records hne' hclean]
    exact eq_of_map_renderRow hclean' hclean hmap

end Whole

end MicaCore.Boot
