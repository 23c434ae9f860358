import MicaCore.Apps.Manifest
import MicaCore.Concurrent.Threads

namespace MicaCore.Apps.Users

open Data Concurrent

def uidCount : ℕ := 10000

structure AppEntry where
  current : Text
  previous : Option Text := none

structure Record where
  apps : OrdMap Text AppEntry := .empty
  uids : OrdMap Text ℕ := .empty

/-- Who an app runs as: nobody for a root app, else its own uid, given now if it has none. -/
def account (base : ℕ) (system : List ℕ) (name : Text) (user : RunAs) (record : Record) :
    Except String (Option ℕ × Record) :=
  match user with
  | .root => .ok (none, record)
  | .app =>
    match record.uids.get name with
    | some uid => .ok (some uid, record)
    | none =>
      let range := List.range' base (min (base + uidCount) (2 ^ 32 - 1) - base)
      match range.find? fun id ↦ !(record.uids.values ++ system).contains id with
      | some uid => .ok (some uid, { record with uids := record.uids.insert name uid })
      | none => .error "every uid for apps is taken"

abbrev Owner := Option ℕ

structure Store where
  file : Option Record := none
  data : Text → Option Owner := fun _ ↦ none

namespace Store

def readRecord (s : Store) : Record := s.file.getD {}

def writeRecord (s : Store) (record : Record) (written : Bool) : Store :=
  if written then { s with file := some record } else s

def setData (s : Store) (name : Text) (owner : Option Owner) : Store :=
  { s with data := fun n ↦ if n = name then owner else s.data n }

def makeData (s : Store) (name : Text) : Store := s.setData name (some ((s.data name).getD none))

end Store

/-- A switch fails before the data is given to the app, or after, or succeeds. -/
inductive SwitchEnd where
  | early
  | given
  | done
  deriving DecidableEq

def Store.switch (s : Store) (name : Text) (owner : Owner) : SwitchEnd → Store
  | .early => s
  | _ => s.setData name ((s.data name).map fun _ ↦ owner)

/-- An install or upgrade, with what its surroundings do at each of its steps. -/
structure InstallTurn where
  name : Text
  version : Text
  user : RunAs := .app
  prepared : Bool := true
  system : List ℕ := []
  named : Bool := true
  ended : SwitchEnd := .done
  before : Option RunAs := none
  backSystem : List ℕ := []
  back : SwitchEnd := .done
  cleared : Bool := true
  written : Bool := true

def InstallTurn.switchEnd (t : InstallTurn) (owner : Owner) : SwitchEnd :=
  if owner.isNone || t.named then t.ended else .early

def installed (old : Option AppEntry) (version : Text) : AppEntry :=
  match old with
  | none => ⟨version, none⟩
  | some entry => if entry.current ≠ version then ⟨version, some entry.current⟩ else entry

def install (base : ℕ) (s : Store) (t : InstallTurn) : Store :=
  if !t.prepared then s
  else
    match account base t.system t.name t.user s.readRecord with
    | .error _ => s.makeData t.name
    | .ok (owner, record) =>
      let old := s.readRecord.apps.get t.name
      let switched := (s.makeData t.name).switch t.name owner (t.switchEnd owner)
      if t.switchEnd owner = .done then
        switched.writeRecord { record with apps := record.apps.insert t.name (installed old t.version) } t.written
      else
        match old, t.before with
        | some _, some before =>
          match account base t.backSystem t.name before record with
          | .ok (owner, record) => (switched.switch t.name owner t.back).writeRecord record t.written
          | .error _ => switched.writeRecord record t.written
        | some _, none => switched.writeRecord record t.written
        | none, _ => if (s.data t.name).isSome || !t.cleared then switched else switched.setData t.name none

structure RollbackTurn where
  name : Text
  current : Option RunAs
  target : Option RunAs
  system : List ℕ := []
  ended : SwitchEnd := .done
  back : SwitchEnd := .done
  written : Bool := true

def rollback (base : ℕ) (s : Store) (t : RollbackTurn) : Store :=
  match s.readRecord.apps.get t.name, t.current, t.target with
  | some ⟨current, some previous⟩, some currentUser, some targetUser =>
    match account base t.system t.name currentUser s.readRecord with
    | .error _ => s
    | .ok (currentOwner, record) =>
      match account base t.system t.name targetUser record with
      | .error _ => s
      | .ok (owner, record) =>
        let switched := s.switch t.name owner t.ended
        if t.ended = .done then
          switched.writeRecord { record with apps := record.apps.insert t.name ⟨previous, some current⟩ } t.written
        else (switched.switch t.name currentOwner t.back).writeRecord record t.written
  | _, _, _ => s

structure RemoveTurn where
  name : Text
  purge : Bool := false
  removed : Bool := true
  dataRemoved : Bool := true
  written : Bool := true

def remove (s : Store) (t : RemoveTurn) : Store :=
  if (s.readRecord.apps.get t.name).isNone || !t.removed || (t.purge && !t.dataRemoved) then s
  else if t.purge then
    (s.setData t.name none).writeRecord
      ⟨s.readRecord.apps.erase t.name, s.readRecord.uids.erase t.name⟩ t.written
  else s.writeRecord { s.readRecord with apps := s.readRecord.apps.erase t.name } t.written

inductive Turn where
  | install (t : InstallTurn)
  | rollback (t : RollbackTurn)
  | remove (t : RemoveTurn)
  | damage

def step (base : ℕ) (s : Store) : Turn → Option Store
  | .install t => some (install base s t)
  | .rollback t => some (rollback base s t)
  | .remove t => some (remove s t)
  | .damage => some { s with file := none }

/-- No two apps' data belong to one user. -/
def OwnUsers (s : Store) : Prop :=
  ∀ a b uid, a ≠ b → s.data a = some (some uid) → s.data b ≠ some (some uid)

/-- An app whose data belong to a user is given that user again. -/
def KeepsUser (base : ℕ) (s : Store) : Prop :=
  ∀ name uid system, s.data name = some (some uid) →
    ∃ record, account base system name .app s.readRecord = .ok (some uid, record)

/-- A turn that loses no uid: no record is lost, and no new uid's data left behind. -/
def Lossless (s : Store) : Turn → Prop
  | .install t => t.written = true ∧
      (s.readRecord.apps.get t.name = none → s.readRecord.uids.get t.name = none → t.user = .app →
        t.named = true → t.ended = .given → s.data t.name = none ∧ t.cleared = true)
  | .rollback t => t.written = true
  | .remove _ => True
  | .damage => ∀ name uid, s.data name ≠ some (some uid)

def Recorded (record : Record) (data : Text → Option Owner) : Prop :=
  ∀ name uid, data name = some (some uid) → record.uids.get name = some uid

def Distinct (record : Record) : Prop :=
  ∀ a b uid, record.uids.get a = some uid → record.uids.get b = some uid → a = b

/-- The record knows every uid that data belongs to, and gives none twice. -/
structure Held (s : Store) : Prop where
  recorded : Recorded s.readRecord s.data
  distinct : Distinct s.readRecord

section Accounts

variable {base : ℕ} {system : List ℕ} {name : Text} {user : RunAs} {record record' : Record} {owner : Owner}
  {data : Text → Option Owner}

theorem account_eq_ok (h : account base system name user record = .ok (owner, record')) :
    (∀ n uid, record.uids.get n = some uid → record'.uids.get n = some uid) ∧
      (∀ uid, owner = some uid → record'.uids.get name = some uid) ∧
      (Distinct record → Distinct record') := by
  unfold account at h
  cases user with
  | root =>
    cases h
    exact ⟨fun _ _ h ↦ h, nofun, id⟩
  | app =>
    simp only at h
    cases hget : record.uids.get name with
    | some uid =>
      rw [hget] at h
      cases h
      exact ⟨fun _ _ h ↦ h, fun _ huid ↦ hget.trans huid, id⟩
    | none =>
      simp only [hget] at h
      split at h
      · next uid hfind =>
        cases h
        have hfree : ∀ n, record.uids.get n ≠ some uid := by
          intro n hn
          have hmem : uid ∈ record.uids.values := List.mem_map.2 ⟨_, OrdMap.get_eq_some_iff.1 hn, rfl⟩
          simpa [hmem] using List.find?_some hfind
        refine ⟨fun n v hn ↦ ?_, fun v hv ↦ ?_, fun hdistinct a b v ha hb ↦ ?_⟩
        · have hne : n ≠ name := fun heq ↦ by simp [heq, hget] at hn
          simp [OrdMap.get_insert, hne, hn]
        · cases hv
          simp [OrdMap.get_insert]
        · simp only [OrdMap.get_insert] at ha hb
          split at ha <;> split at hb
          · simp_all
          · cases ha
            exact absurd hb (hfree b)
          · cases hb
            exact absurd ha (hfree a)
          · exact hdistinct a b v ha hb
      · cases h

theorem account_of_get {uid : ℕ} (h : record.uids.get name = some uid) :
    account base system name .app record = .ok (some uid, record) := by
  simp [account, h]

theorem account_known {uid : ℕ} (h : account base system name user record = .ok (some uid, record')) :
    record.uids.get name = some uid ∨ record.uids.get name = none ∧ user = .app := by
  cases user with
  | root => cases h
  | app =>
    cases hget : record.uids.get name with
    | none => exact .inr ⟨rfl, rfl⟩
    | some known =>
      rw [account_of_get hget] at h
      cases h
      exact .inl rfl

end Accounts

section Stores

variable {s : Store} {name : Text} {record record' : Record} {owner : Owner} {e : SwitchEnd}

theorem readRecord_switch : (s.switch name owner e).readRecord = s.readRecord := by
  cases e <;> rfl

theorem Recorded.extends {data : Text → Option Owner} (h : Recorded record data)
    (hext : ∀ n uid, record.uids.get n = some uid → record'.uids.get n = some uid) :
    Recorded record' data :=
  fun n uid hn ↦ hext n uid (h n uid hn)

theorem Recorded.setData {owner : Option Owner} (h : Recorded record s.data)
    (howner : ∀ uid, owner = some (some uid) → record.uids.get name = some uid) :
    Recorded record (s.setData name owner).data := by
  intro n uid hn
  simp only [Store.setData] at hn
  split at hn
  · next heq => exact heq ▸ howner uid hn
  · exact h n uid hn

theorem Recorded.makeData (h : Recorded record s.data) :
    Recorded record (s.makeData name).data := by
  refine h.setData fun uid huid ↦ h name uid ?_
  cases hdata : s.data name with
  | none => simp [hdata] at huid
  | some owner => simpa [hdata] using huid

theorem Recorded.switch (h : Recorded record s.data)
    (howner : ∀ uid, owner = some uid → record.uids.get name = some uid) :
    Recorded record (s.switch name owner e).data := by
  have hgiven : Recorded record (s.setData name ((s.data name).map fun _ ↦ owner)).data := by
    refine h.setData fun uid huid ↦ howner uid ?_
    obtain ⟨_, -, rfl⟩ := Option.map_eq_some_iff.1 huid
    rfl
  cases e with
  | early => exact h
  | given | done => exact hgiven

theorem held_writeRecord (h : Recorded record s.data) (hdistinct : Distinct record) :
    Held (s.writeRecord record true) := ⟨h, hdistinct⟩

namespace Held

theorem makeData (h : Held s) : Held (s.makeData name) := ⟨h.recorded.makeData, h.distinct⟩

theorem switch (h : Held s) (howner : ∀ uid, owner = some uid → s.readRecord.uids.get name = some uid) :
    Held (s.switch name owner e) :=
  ⟨readRecord_switch.symm ▸ h.recorded.switch howner, readRecord_switch.symm ▸ h.distinct⟩

theorem cleared (h : Held s) :
    Held (((s.makeData name).switch name owner e).setData name none) := by
  have hrecord := @readRecord_switch (s.makeData name) name owner e
  refine ⟨fun n uid hn ↦ hrecord ▸ h.recorded n uid ?_, hrecord ▸ h.distinct⟩
  by_cases hname : n = name
  · simp [Store.setData, hname] at hn
  · rw [← hn]
    cases e <;> simp [Store.setData, Store.switch, Store.makeData, hname]

end Held

end Stores

section Turns

variable {base : ℕ} {s t : Store}

theorem InstallTurn.given_of_switchEnd (t : InstallTurn) {uid : ℕ} (h : t.switchEnd (some uid) = .given) :
    t.named = true ∧ t.ended = .given := by
  unfold switchEnd at h
  split at h
  · next hnamed => exact ⟨by simpa using hnamed, h⟩
  · cases h

theorem held_install (h : Held s) {turn : InstallTurn} (hlossless : Lossless s (.install turn)) :
    Held (install base s turn) := by
  obtain ⟨hwritten, hfirst⟩ := hlossless
  unfold install
  split
  · exact h
  · cases haccount : account base turn.system turn.name turn.user s.readRecord with
    | error e => exact ⟨h.recorded.makeData, h.distinct⟩
    | ok given =>
      obtain ⟨owner, record⟩ := given
      obtain ⟨hext, hown, hdistinct⟩ := account_eq_ok haccount
      have hswitched : Recorded record
          ((s.makeData turn.name).switch turn.name owner (turn.switchEnd owner)).data :=
        (h.recorded.makeData.extends hext).switch hown
      simp only [hwritten]
      split
      · exact held_writeRecord hswitched (hdistinct h.distinct)
      · next hfailed =>
        split
        · split
          · next hback =>
            obtain ⟨hext', hown', hdistinct'⟩ := account_eq_ok hback
            exact held_writeRecord ((hswitched.extends hext').switch hown') (hdistinct' (hdistinct h.distinct))
          · exact held_writeRecord hswitched (hdistinct h.distinct)
        · exact held_writeRecord hswitched (hdistinct h.distinct)
        · next hold =>
          split
          · -- The data stays, so it was given to nobody or to a uid the record file has.
            next hkept =>
            cases hend : turn.switchEnd owner with
            | early => exact h.makeData
            | done => exact absurd hend hfailed
            | given =>
              refine h.makeData.switch fun uid huid ↦ ?_
              subst huid
              rcases account_known haccount with hknown | ⟨hnone, happ⟩
              · exact hknown
              · obtain ⟨hnamed, hended⟩ := turn.given_of_switchEnd hend
                obtain ⟨hdata, hcleared⟩ := hfirst hold hnone happ hnamed hended
                simp [hdata, hcleared] at hkept
          · exact h.cleared

theorem held_rollback (h : Held s) {turn : RollbackTurn} (hwritten : turn.written = true) :
    Held (rollback base s turn) := by
  unfold rollback
  split
  · split
    · exact h
    · next haccount =>
      obtain ⟨hext, hown, hdistinct⟩ := account_eq_ok haccount
      split
      · exact h
      · next haccount' =>
        obtain ⟨hext', hown', hdistinct'⟩ := account_eq_ok haccount'
        have hrecorded := (h.recorded.extends hext).extends hext'
        simp only [hwritten]
        split
        · exact held_writeRecord (hrecorded.switch hown') (hdistinct' (hdistinct h.distinct))
        · refine held_writeRecord ((hrecorded.switch hown').switch fun uid huid ↦ hext' _ _ (hown uid huid)) ?_
          exact hdistinct' (hdistinct h.distinct)
  · exact h

theorem held_remove (h : Held s) (turn : RemoveTurn) : Held (remove s turn) := by
  have hdropped : Recorded s.readRecord (s.setData turn.name none).data := h.recorded.setData nofun
  unfold remove Store.writeRecord
  split
  · exact h
  · split
    · split
      · refine ⟨fun n uid hn ↦ ?_, fun a b uid ha hb ↦ ?_⟩
        · have hne : n ≠ turn.name := fun heq ↦ by simp [Store.setData, heq] at hn
          simpa [Store.readRecord, OrdMap.get_erase, hne] using hdropped n uid hn
        · simp only [Store.readRecord, Option.getD_some, OrdMap.get_erase, Option.ite_none_left_eq_some] at ha hb
          exact h.distinct a b uid ha.2 hb.2
      · exact ⟨hdropped, h.distinct⟩
    · split
      · exact ⟨h.recorded, h.distinct⟩
      · exact h

theorem held_step {turn : Turn} (h : Held s) (hlossless : Lossless s turn)
    (hstep : step base s turn = some t) :
    Held t := by
  cases turn with
  | install turn =>
    cases hstep
    exact held_install h hlossless
  | rollback turn =>
    cases hstep
    exact held_rollback h hlossless
  | remove turn =>
    cases hstep
    exact held_remove h turn
  | damage =>
    cases hstep
    exact ⟨fun name uid hdata ↦ absurd hdata (hlossless name uid), nofun⟩

end Turns

/-- Where no uid is lost, apps share no user and keep their data. -/
theorem own_users (base : ℕ) (turns : List Turn)
    (s : Store) (h : Trace (step base) Lossless {} turns s) :
    OwnUsers s ∧ KeepsUser base s := by
  have hheld : Held s := by
    refine h.invariant (fun _ _ _ hs hlossless hstep ↦ held_step hs hlossless hstep) ⟨?_, ?_⟩
    · intro name uid hdata
      cases hdata
    · intro a b uid ha
      cases ha
  refine ⟨fun a b uid hne ha hb ↦ hne ?_, fun name uid system hdata ↦ ?_⟩
  · exact hheld.distinct a b uid (hheld.recorded a uid ha) (hheld.recorded b uid hb)
  · exact ⟨_, account_of_get (hheld.recorded name uid hdata)⟩

namespace Sample

def uidBase : ℕ := 30000

def final (turns : List Turn) : Store := turns.foldl (fun s turn ↦ (step uidBase s turn).getD s) {}

def installs (name : String) (user : RunAs) (ended : SwitchEnd) : Turn :=
  .install { name := name.toList, version := "1".toList, user := user, ended := ended }

/-- A root app's data is kept, and its install with a user of its own fails. -/
def lost : List Turn :=
  [installs "a" .root .done, .remove { name := "a".toList }, installs "a" .app .given,
    installs "b" .app .done]

end Sample

open Sample in
theorem own_users_sample :
    let s := final [installs "a" .app .done, installs "b" .app .done]
    s.data "a".toList = some (some 30000) ∧ s.data "b".toList = some (some 30001) ∧ OwnUsers s ∧
    KeepsUser uidBase s := by
  refine ⟨rfl, rfl, own_users uidBase [installs "a" .app .done, installs "b" .app .done] _ ?_⟩
  exact .cons ⟨rfl, nofun⟩ rfl (.cons ⟨rfl, nofun⟩ rfl (.nil _))

open Sample in
/-- The data is left to a uid that the next app is given. -/
theorem not_forall_own_users :
    ¬ ∀ base turns s, Trace (step base) (fun _ _ ↦ True) {} turns s → OwnUsers s ∧
    KeepsUser base s := by
  intro h
  have hrun : Trace (step uidBase) (fun _ _ ↦ True) {} lost (final lost) :=
    .cons trivial rfl (.cons trivial rfl (.cons trivial rfl (.cons trivial rfl (.nil _))))
  exact (h uidBase lost _ hrun).1 "a".toList "b".toList 30000 (by decide) rfl rfl

end MicaCore.Apps.Users
