import MicaCore.Boot.FitEnv

namespace MicaCore.Boot

open Data Deploy
open Crash (Prog)

/-- A save ends, or is cut off with a copy half written, or before its first byte. -/
inductive SaveEvent
  | saved (records : List FitRecord)
  | torn (raw : Option Bytes)
  | stopped

/-- The list can be rendered; a torn copy is seen to be torn. -/
def SaveEvent.Admitted : SaveEvent → Prop
  | .saved records => ∃ text, renderRecords records = .ok text
  | .torn raw => raw.filter validCrc = none
  | .stopped => True

def Copies.step (c : Copies) (env : Environment) : SaveEvent → Copies
  | .saved records => ({ env with records } : Environment).save.last c
  | .torn raw => c.put env.slot.other raw
  | .stopped => c

def Environment.after (env : Environment) : SaveEvent → Environment
  | .saved records => ⟨records, env.slot.other, env.flag + 1⟩
  | .torn _ => env
  | .stopped => env

/-- After every save, the environment loaded is the one to be loaded. -/
def Follows : Copies → Environment → List SaveEvent → Prop
  | _, _, [] => True
  | c, env, e :: es => (c.step env e).load = .ok (env.after e) ∧
      Follows (c.step env e) (env.after e) es

section Flags

theorem lt_succ_of_ne {a : UInt8} (h : a ≠ 255) : a < a + 1 := by
  have hlt := a.toNat_lt
  have hne : a.toNat ≠ 255 := fun he ↦ h (UInt8.toNat_inj.1 he)
  rw [UInt8.lt_iff_toNat_lt, UInt8.toNat_add, UInt8.toNat_one]
  omega

theorem not_succ_max_and_zero (a : UInt8) : ¬(a + 1 = 255 ∧ a = 0) := by
  rintro ⟨he, rfl⟩
  exact absurd he (by decide)

theorem second_newer (a : UInt8) :
    ((a == 255 && a + 1 == 0) || (a + 1 > a && !(a + 1 == 255 && a == 0))) = true := by
  by_cases h : a = 255
  · subst h
    rfl
  · have hgt : a + 1 > a := lt_succ_of_ne h
    simp only [Bool.or_eq_true, Bool.and_eq_true, Bool.not_eq_true', Bool.and_eq_false_iff, beq_iff_eq,
      beq_eq_false_iff_ne, decide_eq_true_eq]
    exact .inr ⟨hgt, not_and_or.1 (not_succ_max_and_zero a)⟩

theorem first_newer (b : UInt8) :
    ((b + 1 == 255 && b == 0) || (b > b + 1 && !(b == 255 && b + 1 == 0))) = false := by
  by_cases h : b = 255
  · subst h
    rfl
  · have hle : ¬b > b + 1 := UInt8.lt_asymm (lt_succ_of_ne h)
    simp only [Bool.or_eq_false_iff, Bool.and_eq_false_iff, beq_eq_false_iff_ne, decide_eq_false_iff_not]
    exact ⟨not_and_or.1 (not_succ_max_and_zero b), .inl hle⟩

end Flags

namespace Copies

variable {c : Copies} {env : Environment}

variable (slot : Slot)

@[simp] theorem candidate_put (raw : Option Bytes) :
    (c.put slot raw).candidate slot = raw.filter validCrc := by
  cases slot <;> rfl

@[simp] theorem candidate_put_other (raw : Option Bytes) :
    (c.put slot.other raw).candidate slot = c.candidate slot := by
  cases slot <;> rfl

structure LoadedFrom (c : Copies) (env : Environment) (copy : Bytes) : Prop where
  active : activeSlot (c.candidate .a) (c.candidate .b) = some env.slot
  candidate : c.candidate env.slot = some copy
  decoded : decode copy = .ok env.records
  flag : flagOf copy = env.flag

theorem load_eq_ok : c.load = .ok env ↔ ∃ copy, c.LoadedFrom env copy := by
  constructor
  · intro h
    obtain ⟨slot, hslot, h⟩ := bind_eq_ok.1 h
    obtain ⟨copy, hcopy, h⟩ := bind_eq_ok.1 h
    obtain ⟨records, hrecords, h⟩ := bind_eq_ok.1 h
    cases h
    exact ⟨copy, orError_eq_ok.1 hslot, orError_eq_ok.1 hcopy, hrecords, rfl⟩
  · rintro ⟨copy, hactive, hcopy, hdecoded, hflag⟩
    refine bind_eq_ok.2 ⟨env.slot, orError_eq_ok.2 hactive, bind_eq_ok.2 ⟨copy, orError_eq_ok.2 hcopy, ?_⟩⟩
    exact bind_eq_ok.2 ⟨env.records, hdecoded, by rw [hflag]; rfl⟩

theorem activeSlot_put_none {copy : Bytes} {raw : Option Bytes}
    (hcopy : c.candidate slot = some copy) (hraw : raw.filter validCrc = none) :
    activeSlot ((c.put slot.other raw).candidate .a) ((c.put slot.other raw).candidate .b) =
      some slot := by
  cases slot with
  | a =>
    have hb : (c.put .b raw).candidate .b = none := hraw
    have ha : (c.put .b raw).candidate .a = some copy := hcopy
    rw [Slot.other, ha, hb]
    rfl
  | b =>
    have ha : (c.put .a raw).candidate .a = none := hraw
    have hb : (c.put .a raw).candidate .b = some copy := hcopy
    rw [Slot.other, ha, hb]
    rfl

theorem activeSlot_put_next {copy bytes : Bytes} (hcopy : c.candidate slot = some copy)
    (hcrc : validCrc bytes = true) (hflag : flagOf bytes = flagOf copy + 1) :
    activeSlot ((c.put slot.other (some bytes)).candidate .a)
      ((c.put slot.other (some bytes)).candidate .b) =
      some slot.other := by
  have hnew : (some bytes).filter validCrc = some bytes := Option.filter_some_pos hcrc
  cases slot with
  | a =>
    have hb : (c.put .b (some bytes)).candidate .b = some bytes := hnew
    have ha : (c.put .b (some bytes)).candidate .a = some copy := hcopy
    rw [Slot.other, ha, hb, activeSlot, hflag]
    exact if_pos (second_newer _)
  | b =>
    have ha : (c.put .a (some bytes)).candidate .a = some bytes := hnew
    have hb : (c.put .a (some bytes)).candidate .b = some copy := hcopy
    rw [Slot.other, ha, hb, activeSlot, hflag]
    exact if_neg (by rw [first_newer]; decide)

theorem load_put_torn {raw : Option Bytes} (h : c.load = .ok env)
    (hraw : raw.filter validCrc = none) :
    (c.put env.slot.other raw).load = .ok env := by
  obtain ⟨copy, hloaded⟩ := load_eq_ok.1 h
  refine load_eq_ok.2 ⟨copy, activeSlot_put_none env.slot hloaded.candidate hraw, ?_,
    hloaded.decoded, hloaded.flag⟩
  rw [candidate_put_other, hloaded.candidate]

theorem load_put_encoded {bytes : Bytes} {text : Text} {rs : List FitRecord} (h : c.load = .ok env)
    (hencoded : Encoded bytes (env.flag + 1) text) (hparse : parseRecords text = .ok rs) :
    (c.put env.slot.other (some bytes)).load = .ok ⟨rs, env.slot.other, env.flag + 1⟩ := by
  obtain ⟨copy, hloaded⟩ := load_eq_ok.1 h
  have hflag : flagOf bytes = flagOf copy + 1 := by rw [hencoded.flag, hloaded.flag]
  refine load_eq_ok.2 ⟨bytes, activeSlot_put_next env.slot hloaded.candidate hencoded.crc hflag, ?_,
    hencoded.decoded.trans hparse, hencoded.flag⟩
  rw [candidate_put]
  exact Option.filter_some_pos hencoded.crc

end Copies

section Saves

variable {c : Copies} {env : Environment}

theorem last_save {bytes : Bytes} (h : encode env.records (env.flag + 1) = .ok bytes) :
    env.save.last c = c.put env.slot.other (some bytes) := by
  have hread : ∀ c : Copies, (do
      let saved ← Prog.read Copies.load
      Prog.ensure (saved.slot == env.slot.other && saved.flag == env.flag + 1 && saved.records == env.records)
        "boot environment read-back mismatch" : Prog Copies String Unit).last c = c := by
    intro c
    rw [Prog.last_bind]
    cases hload : c.load with
    | error e => simp [Prog.read, Prog.last, hload]
    | ok saved => simp [Prog.read, Prog.last, hload, Prog.ensure, Prog.ofExcept]
  rw [Environment.save, h, Prog.last_bind]
  exact (Prog.last_bind _ _ _).trans (hread _)

theorem load_saved_iff {records : List FitRecord} {text : Text} (h : c.load = .ok env)
    (hrender : renderRecords records = .ok text) :
    (c.step env (.saved records)).load = .ok (env.after (.saved records)) ↔
    ∀ r ∈ records, r.Clean := by
  obtain ⟨bytes, hencode, hencoded⟩ : ∃ bytes, encode records (env.flag + 1) = .ok bytes ∧
      Encoded bytes (env.flag + 1) text := encoded_of_render hrender
  obtain ⟨rfl, rs, hparse⟩ := renderRecords_eq_ok.1 hrender
  have hstep : c.step env (.saved records) = c.put env.slot.other (some bytes) := last_save hencode
  rw [hstep, Copies.load_put_encoded h hencoded hparse, ← eq_iff_clean hparse]
  simp only [Environment.after, Except.ok.injEq, Environment.mk.injEq, and_true]

/-- The records loaded are those saved last if and only if no saved name holds a separator. -/
theorem follows_iff {events : List SaveEvent} (h : c.load = .ok env)
    (hevents : ∀ e ∈ events, e.Admitted) :
    Follows c env events ↔
      ∀ records, .saved records ∈ events → ∀ r ∈ records, ∀ s ∈ [',', ';'], s ∉ r.id ∧
      s ∉ r.kernelId := by
  induction events generalizing c env with
  | nil => simp [Follows]
  | cons e es ih =>
    obtain ⟨he, hes⟩ := List.forall_mem_cons.1 hevents
    cases e with
    | saved records =>
      obtain ⟨text, hrender⟩ := he
      have hsaved := load_saved_iff h hrender
      constructor
      · rintro ⟨hload, hrest⟩ records' hmem
        rcases List.mem_cons.1 hmem with heq | hmem
        · cases heq
          exact hsaved.1 hload
        · exact (ih hload hes).1 hrest records' hmem
      · intro hclean
        have hload := hsaved.2 (hclean records (by simp))
        exact ⟨hload, (ih hload hes).2 fun records' hmem ↦ hclean records' (by simp [hmem])⟩
    | torn raw =>
      have hload : (c.step env (.torn raw)).load = .ok env := Copies.load_put_torn h he
      simp only [Follows, hload, Environment.after, true_and, ih hload hes, List.mem_cons, reduceCtorEq, false_or]
    | stopped =>
      have hload : (c.step env .stopped).load = .ok env := h
      simp only [Follows, hload, Environment.after, true_and, ih hload hes, List.mem_cons, reduceCtorEq, false_or]

end Saves

section Samples

theorem load_lastFlag : ∃ c : Copies, c.load = .ok ⟨twoRecords, .a, 255⟩ := by
  obtain ⟨bytes, -, hencoded⟩ : ∃ bytes, encode twoRecords 255 = .ok bytes ∧
      Encoded bytes 255 (renderText twoRecords) := encoded_of_render render_twoRecords
  have hcandidate : (⟨some bytes, none⟩ : Copies).candidate .a = some bytes :=
    Option.filter_some_pos hencoded.crc
  refine ⟨⟨some bytes, none⟩, Copies.load_eq_ok.2 ⟨bytes, ?_, hcandidate, ?_, hencoded.flag⟩⟩
  · rw [hcandidate]
    rfl
  · exact hencoded.decoded.trans parseRecords_twoRecords

theorem follows_acrossWrap :
    ∃ c : Copies, Follows c ⟨twoRecords, .a, 255⟩
      [.torn (some []), .saved twoRecords, .stopped, .saved twoRecords] := by
  obtain ⟨c, hload⟩ := load_lastFlag
  refine ⟨c, (follows_iff hload ?_).2 ?_⟩
  · have hsaved : (SaveEvent.saved twoRecords).Admitted := ⟨_, render_twoRecords⟩
    simp only [List.forall_mem_cons, List.not_mem_nil, false_imp_iff, implies_true, and_true]
    exact ⟨rfl, hsaved, trivial, hsaved⟩
  · intro records hmem
    obtain rfl : records = twoRecords := by simpa using hmem
    exact fun r hr ↦ (listing_twoRecords.valid r hr).clean

/-- A record with separators in its identifier is written, and reads back changed. -/
theorem not_forall_follows :
    ¬∀ (c : Copies) (env : Environment) (events : List SaveEvent), c.load = .ok env →
      (∀ e ∈ events, e.Admitted) → Follows c env events := by
  intro hall
  obtain ⟨c, hload⟩ := load_lastFlag
  have hadmitted : (SaveEvent.saved [foldedRecord]).Admitted := ⟨_, render_foldedRecord⟩
  have hfollows := hall c _ [.saved [foldedRecord]] hload (by simpa using hadmitted)
  have hclean := (load_saved_iff hload render_foldedRecord).1 hfollows.1
  exact (hclean foldedRecord (by simp) ',' (by simp)).1 (by simp [foldedRecord])

end Samples

end MicaCore.Boot
