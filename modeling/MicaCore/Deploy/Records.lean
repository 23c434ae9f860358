import MicaCore.Deploy.Identity
import Mathlib.Data.List.Sort

namespace MicaCore.Deploy

open Data

instance neZeroTries : NeZero (4 : ℕ) := ⟨by decide⟩

instance neZeroFlag : NeZero (256 : ℕ) := ⟨by decide⟩

/-- `triesLeft` is none once confirmed, and counts down from three before. -/
structure Record where
  id : Text
  kernelId : Text
  generation : ℕ
  triesLeft : Option (Fin 4)
  deriving DecidableEq

def maxGeneration : ℕ := maxInteger

def checkRows : List Record → List Record → Except String Unit
  | _, [] => pure ()
  | records, row :: rows => do
    ensure (records.length < 2) "invalid boot record count or fields"
    validId row.id
    validId row.kernelId
    ensure (0 < row.generation && row.generation ≤ maxGeneration) "invalid boot generation"
    ensure (records.all fun r ↦ r.id != row.id && row.generation < r.generation)
      "ambiguous boot record order"
    checkRows (records ++ [row]) rows

def checkRecords (records : List Record) : Except String Unit := do
  ensure (!records.isEmpty) "invalid boot record count or fields"
  checkRows [] records

structure Copy where
  flag : Fin 256
  records : List Record
  valid : checkRecords records = .ok ()

def Copy.encode (records : List Record) (flag : Fin 256) : Except String Copy :=
  match h : checkRecords records with
  | .ok () => .ok ⟨flag, records, h⟩
  | .error e => .error e

inductive Slot
  | a
  | b
  deriving DecidableEq

def Slot.other : Slot → Slot
  | .a => .b
  | .b => .a

def active : Option Copy → Option Copy → Except String (Slot × Copy)
  | some a, none => .ok (.a, a)
  | none, some b => .ok (.b, b)
  | none, none => .error "no valid redundant boot environment"
  | some a, some b =>
    if (a.flag == 255 && b.flag == 0) || (a.flag < b.flag && !(b.flag == 255 && a.flag == 0)) then
      .ok (.b, b)
    else .ok (.a, a)

/-- A file for each entry on the ESP, or two copies in a partition or in UBI. -/
inductive BootRecords
  | uefi (files : List Record)
  | fit (ubi : Bool) (a b : Option Copy)

namespace BootRecords

def isFit : BootRecords → Bool
  | .uefi _ => false
  | .fit .. => true

def isUbi : BootRecords → Bool
  | .uefi _ => false
  | .fit ubi _ _ => ubi

def load : BootRecords → Except String (Slot × Copy)
  | .uefi _ => .error "a UEFI board has no FIT boot records"
  | .fit _ a b => active a b

def put (slot : Slot) (copy : Option Copy) : BootRecords → BootRecords
  | .uefi files => .uefi files
  | .fit ubi a b => match slot with
    | .a => .fit ubi copy b
    | .b => .fit ubi a copy

def scanEntries : List Record → List Record → Except String (List Record)
  | entries, [] => pure entries
  | entries, file :: files => do
    validId file.id
    ensure (!entries.any (·.id == file.id)) ("ambiguous boot entries for " ++ file.id.shown)
    ensure (0 < file.generation) "invalid entry generation"
    ensure ((entries ++ [file]).length ≤ 2) "too many deployment entries"
    scanEntries (entries ++ [file]) files

def newestFirst (entries : List Record) : List Record :=
  entries.insertionSort fun a b ↦ b.generation ≤ a.generation

def entries : BootRecords → Except String (List Record)
  | .uefi files => do
    let entries ← scanEntries [] files
    pure (newestFirst entries)
  | .fit _ a b => do
    let (_, copy) ← active a b
    pure copy.records

def view : BootRecords → List Record
  | .uefi files => files
  | .fit _ a b => match active a b with
    | .ok (_, copy) => copy.records
    | .error _ => []

def Copy.recordsOf : Option Copy → List Record
  | none => []
  | some copy => copy.records

def held : BootRecords → List Record
  | .uefi files => files
  | .fit _ a b => Copy.recordsOf a ++ Copy.recordsOf b

end BootRecords

variable {records : List Record}

theorem Copy.encode_eq_ok {flag : Fin 256} {copy : Copy}
    (h : Copy.encode records flag = .ok copy) : copy.records = records ∧ copy.flag = flag := by
  unfold Copy.encode at h
  split at h
  · cases h; exact ⟨rfl, rfl⟩
  · cases h

/-- Ids and generations in shape, newest first, no deployment twice. -/
structure Rows (records : List Record) : Prop where
  length_le : records.length ≤ 2
  isId : ∀ r ∈ records, Deploy.isId r.id = true
  pos : ∀ r ∈ records, 0 < r.generation
  order : records.Pairwise fun r r' ↦ r.id ≠ r'.id ∧ r'.generation < r.generation

theorem rows_of_checkRows {rows : List Record} {u : Unit} (hr : Rows records)
    (h : checkRows records rows = .ok u) : Rows (records ++ rows) := by
  induction rows generalizing records with
  | nil => simpa using hr
  | cons row rows ih =>
    simp only [checkRows, bind_eq_ok, ensure_eq_ok, validId_eq_ok] at h
    obtain ⟨_, hlen, _, hid, _, -, _, hgen, _, hall, h⟩ := h
    simp only [decide_eq_true_eq, Bool.and_eq_true, List.all_eq_true, bne_iff_ne] at hlen hgen hall
    rw [← List.singleton_append, ← List.append_assoc]
    refine ih ⟨?_, ?_, ?_, ?_⟩ h
    · simp; omega
    · simpa [or_imp, forall_and, hid] using hr.isId
    · simpa [or_imp, forall_and, hgen.1] using hr.pos
    · exact List.pairwise_append.2 ⟨hr.order, by simp, by simpa using hall⟩

theorem Copy.rows (copy : Copy) : Rows copy.records := by
  have h := copy.valid
  simp only [checkRecords, bind_eq_ok] at h
  obtain ⟨_, -, h⟩ := h
  have hnil : Rows [] := ⟨by simp, by simp, by simp, by simp⟩
  simpa using rows_of_checkRows hnil h

structure Listed (records : List Record) : Prop where
  length_le : records.length ≤ 2
  isId : ∀ r ∈ records, Deploy.isId r.id = true
  pos : ∀ r ∈ records, 0 < r.generation
  nodup : (records.map Record.id).Nodup

theorem Listed.perm {records' : List Record} (h : Listed records)
    (hperm : records'.Perm records) : Listed records' where
  length_le := hperm.length_eq ▸ h.length_le
  isId r hr := h.isId r (hperm.mem_iff.1 hr)
  pos r hr := h.pos r (hperm.mem_iff.1 hr)
  nodup := (hperm.map Record.id).nodup_iff.2 h.nodup

theorem Listed.sublist {records' : List Record} (h : Listed records)
    (hsub : records'.Sublist records) : Listed records' where
  length_le := hsub.length_le.trans h.length_le
  isId r hr := h.isId r (hsub.subset hr)
  pos r hr := h.pos r (hsub.subset hr)
  nodup := (hsub.map Record.id).nodup h.nodup

/-- What the list of entries promises its readers on every board. -/
structure EntryList (entries : List Record) : Prop extends Listed entries where
  sorted : entries.Pairwise fun a b ↦ b.generation ≤ a.generation

theorem EntryList.eq_of_id_eq {entries : List Record} (h : EntryList entries) {r r' : Record}
    (hr : r ∈ entries) (hr' : r' ∈ entries) (hid : r.id = r'.id) : r = r' :=
  List.inj_on_of_nodup_map h.nodup hr hr' hid

theorem Rows.entryList (h : Rows records) : EntryList records where
  length_le := h.length_le
  isId := h.isId
  pos := h.pos
  nodup := List.pairwise_map.2 (h.order.imp And.left)
  sorted := h.order.imp fun h ↦ h.2.le

theorem listed_nil : Listed [] := ⟨by simp, by simp, by simp, by simp⟩

namespace BootRecords

variable {es : List Record}

theorem scanEntries_eq_ok {entries files : List Record} (hentries : Listed entries) :
    scanEntries entries files = .ok es ↔ es = entries ++ files ∧ Listed es := by
  induction files generalizing entries with
  | nil =>
    simp only [scanEntries, pure_eq_ok, List.append_nil]
    constructor
    · rintro rfl
      exact ⟨rfl, hentries⟩
    · exact fun h ↦ h.1.symm
  | cons file files ih =>
    simp only [scanEntries, bind_eq_ok, ensure_eq_ok, validId_eq_ok, Bool.not_eq_true',
      List.any_eq_false, beq_iff_eq, decide_eq_true_eq]
    have happend : entries ++ file :: files = (entries ++ [file]) ++ files := by simp
    rw [happend]
    constructor
    · rintro ⟨_, hid, _, hany, _, hgen, _, hlen, h⟩
      refine (ih ⟨hlen, ?_, ?_, ?_⟩).1 h
      · simpa [or_imp, forall_and, hid] using hentries.isId
      · simpa [or_imp, forall_and, hgen] using hentries.pos
      · rw [List.map_append, List.nodup_append]
        refine ⟨hentries.nodup, by simp, ?_⟩
        rintro a ha b hb rfl
        obtain ⟨r, hr, rfl⟩ := List.mem_map.1 ha
        exact hany r hr (by simpa using hb)
    · rintro ⟨rfl, hes⟩
      have hnext : Listed (entries ++ [file]) := hes.sublist (List.sublist_append_left _ _)
      have hfile : file ∈ entries ++ [file] := by simp
      have hnd := hnext.nodup
      rw [List.map_append, List.nodup_append] at hnd
      exact ⟨(), hnext.isId file hfile, (), fun r hr hid ↦ hnd.2.2 _ (List.mem_map_of_mem hr) _
        (by simp) hid, (), hnext.pos file hfile, (), hnext.length_le, (ih hnext).2 ⟨rfl, hes⟩⟩

variable {b : BootRecords}

theorem entries_eq_ok (h : b.entries = .ok es) : es.Perm b.view ∧ EntryList es := by
  cases b with
  | uefi files =>
    simp only [entries, bind_eq_ok, pure_eq_ok] at h
    obtain ⟨scanned, hscan, rfl⟩ := h
    obtain ⟨hes, hlisted⟩ := (scanEntries_eq_ok listed_nil).1 hscan
    obtain rfl : scanned = files := hes
    have hperm : (newestFirst scanned).Perm scanned := List.perm_insertionSort _ _
    refine ⟨hperm, hlisted.perm hperm, ?_⟩
    · have htotal : Std.Total fun a b : Record ↦ b.generation ≤ a.generation :=
        ⟨fun a b ↦ le_total b.generation a.generation⟩
      have htrans : IsTrans Record fun a b ↦ b.generation ≤ a.generation :=
        ⟨fun a b c hab hbc ↦ hbc.trans hab⟩
      exact List.pairwise_insertionSort _ _
  | fit ubi a c =>
    simp only [entries, bind_eq_ok, pure_eq_ok] at h
    obtain ⟨⟨slot, copy⟩, hactive, rfl⟩ := h
    exact ⟨by simp [view, hactive], copy.rows.entryList⟩

theorem entries_of_listed (h : Listed b.view) (hne : b.view ≠ []) : ∃ es, b.entries = .ok es := by
  cases b with
  | uefi files =>
    have hscan : scanEntries [] files = .ok files := (scanEntries_eq_ok listed_nil).2 ⟨rfl, h⟩
    exact ⟨newestFirst files, by simp [entries, hscan]⟩
  | fit ubi a c =>
    cases hactive : active a c with
    | error e => simp [view, hactive] at hne
    | ok sc => exact ⟨sc.2.records, by simp [entries, hactive]⟩

theorem mem_view_of_mem_entries (h : b.entries = .ok es)
    {r : Record} : r ∈ es ↔ r ∈ b.view := (entries_eq_ok h).1.mem_iff

theorem view_subset_held (b : BootRecords) : b.view ⊆ b.held := by
  cases b with
  | uefi files => exact fun _ h ↦ h
  | fit ubi a c =>
    intro r hr
    cases a <;> cases c <;> simp_all [view, held, active, Copy.recordsOf]
    split at hr <;> grind

end BootRecords

end MicaCore.Deploy
