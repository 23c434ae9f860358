import MicaCore.Apps.Manifest
import Mathlib.Logic.Function.Basic

namespace MicaCore.Apps.Seeds

open Data
open Deploy.DebianVersion (compareVersions)

def seedTries : ℕ := 2

/-- A version as its record names it, with its manifest's seed policy. -/
structure Installed where
  version : Text
  sha256 : Text
  policy : Option SeedPolicy
  deriving DecidableEq

structure AppEntry where
  current : Installed
  previous : Option Installed := none
  deriving DecidableEq

def AppEntry.take (installed : Installed) : Option AppEntry → AppEntry
  | none => { current := installed }
  | some entry =>
    if entry.current.version ≠ installed.version then
      { current := installed, previous := some entry.current }
    else { entry with current := installed }

def AppEntry.rollback (entry : AppEntry) : AppEntry :=
  match entry.previous with
  | none => entry
  | some previous => { current := previous, previous := some entry.current }

inductive Result where
  | installed
  | upgraded
  | skipped
  | failed
  deriving DecidableEq

structure Seeded where
  version : Text
  sha256 : Text
  result : Result
  error : Option Text := none
  failedSha256 : Option Text := none
  tries : ℕ := 0
  deriving DecidableEq

structure Device where
  apps : Text → Option AppEntry
  seeds : Text → Option Seeded

structure Seed where
  name : Text
  sha256 : Text
  manifest : Except Text Manifest

def Seed.version (seed : Seed) : Text :=
  match seed.manifest with
  | .ok manifest => manifest.version
  | .error _ => []

def Seed.policy (seed : Seed) : SeedPolicy :=
  match seed.manifest with
  | .ok manifest => manifest.seedPolicy
  | .error _ => .followImage

/-- A seed met at a boot, and what `install` would answer for it. -/
structure Take where
  seed : Seed
  install : Except Text Unit

inductive Did where
  | skipped
  | unchanged
  | notInstalled
  | once
  | changedByTheUser
  | notNewer
  | installed
  | upgraded
  | failed (error : Text)
  deriving DecidableEq

def Did.tried : Did → Bool
  | .installed | .upgraded | .failed _ => true
  | _ => false

def newer (version installed : Text) : Bool :=
  compareVersions version.shown installed.shown == some .gt

/-- What is answered without an install, or whether that is an upgrade. -/
def rule (seed : Seed) (installed : Option Installed) : Option Seeded → Did ⊕ Bool
  | none => if installed.isSome then .inl .skipped else .inr false
  | some had =>
    if had.sha256 = seed.sha256 then
      if had.result ≠ .failed ∨ seedTries ≤ had.tries then .inl .unchanged
      else if installed.isSome then .inl .unchanged
      else .inr false
    -- A seed that never took: the image's new one is tried.
    else if had.result = .failed ∧ installed.isNone then .inr false
    else if had.failedSha256 = some seed.sha256 ∧ seedTries ≤ had.tries then .inl .unchanged
    else match installed with
      | none => .inl .notInstalled
      | some installed =>
        if installed.policy.getD seed.policy = .once then .inl .once
        else if installed.version ≠ had.version ∨ installed.sha256 ≠ had.sha256 then
          .inl .changedByTheUser
        else if newer seed.version installed.version then .inr true
        else .inl .notNewer

def Take.outcome (take : Take) : Except Text Manifest := do
  let manifest ← take.seed.manifest
  if manifest.name ≠ take.seed.name then
    .error ("the seed ".toList ++ take.seed.name ++ ".tar.gz holds app ".toList ++ manifest.name)
  take.install
  return manifest

def seeded (seed : Seed) (result : Result) : Seeded :=
  { version := seed.version, sha256 := seed.sha256, result }

def missed (seed : Seed) (error : Text) (upgrade : Bool) (had : Option Seeded) : Seeded :=
  match had, upgrade with
  | some had, true =>
    { had with
      tries := (if had.failedSha256 = some seed.sha256 then had.tries else 0) + 1
      failedSha256 := some seed.sha256
      error := some error }
  | had, _ =>
    { seeded seed .failed with
      error := some error
      tries := ((had.filter (·.sha256 = seed.sha256)).map (·.tries)).getD 0 + 1 }

namespace Device

variable (device : Device)

def current (name : Text) : Option Installed := (device.apps name).map (·.current)

def rule (seed : Seed) : Did ⊕ Bool :=
  Seeds.rule seed (device.current seed.name) (device.seeds seed.name)

def record (name : Text) (entry : Seeded) : Device :=
  { device with seeds := Function.update device.seeds name (some entry) }

def install (name : Text) (installed : Installed) : Device :=
  { device with
    apps := Function.update device.apps name (some (.take installed (device.apps name))) }

def remove (name : Text) : Device :=
  { device with apps := Function.update device.apps name none }

def rollback (name : Text) : Device :=
  { device with apps := Function.update device.apps name ((device.apps name).map (·.rollback)) }

end Device

def Seed.taken (seed : Seed) (manifest : Manifest) : Installed :=
  { version := manifest.version, sha256 := seed.sha256, policy := some manifest.seedPolicy }

def seedOne (take : Take) (device : Device) : Did × Device :=
  let seed := take.seed
  match device.rule seed with
  | .inl .skipped => (.skipped, device.record seed.name (seeded seed .skipped))
  | .inl did => (did, device)
  | .inr upgrade =>
    match take.outcome with
    | .ok manifest =>
      let device := device.install seed.name (seed.taken manifest)
      if upgrade then (.upgraded, device.record seed.name (seeded seed .upgraded))
      else (.installed, device.record seed.name (seeded seed .installed))
    | .error error =>
      (.failed error, device.record seed.name (missed seed error upgrade (device.seeds seed.name)))

/-- What a cut right before the seed record's write leaves. -/
def cutOff (take : Take) (device : Device) : Device :=
  { (seedOne take device).2 with seeds := device.seeds }

section Rule

variable {seed : Seed} {installed : Option Installed} {had : Option Seeded}

theorem rule_eq_false (h : rule seed installed had = .inr false) :
    installed = none ∧ ∀ entry, had = some entry → entry.result = .failed := by
  cases had with
  | none =>
    simp only [rule] at h
    split at h <;> simp_all
  | some had =>
    cases installed <;> simp only [rule] at h <;> split_ifs at h <;> simp_all

theorem rule_eq_true (h : rule seed installed had = .inr true) :
    ∃ now entry, installed = some now ∧ had = some entry ∧ entry.sha256 ≠ seed.sha256 ∧
      ¬ (entry.failedSha256 = some seed.sha256 ∧ seedTries ≤ entry.tries) ∧
      now.version = entry.version ∧ now.sha256 = entry.sha256 ∧
      newer seed.version now.version = true := by
  cases had with
  | none =>
    simp only [rule] at h
    split at h <;> simp_all
  | some had =>
    cases installed <;> simp only [rule] at h <;> split_ifs at h <;> simp_all

theorem rule_eq_skipped (h : rule seed installed had = .inl .skipped) : had = none := by
  cases had with
  | none => rfl
  | some had =>
    cases installed <;> simp only [rule] at h <;> split_ifs at h <;> simp_all

theorem rule_eq_inl {did : Did} (h : rule seed installed had = .inl did) : did.tried = false := by
  cases had with
  | none =>
    simp only [rule] at h
    split at h
    · cases h
      rfl
    · simp at h
  | some had =>
    cases installed <;> simp only [rule] at h <;> split_ifs at h <;> cases h <;> rfl

end Rule

section SeedOne

variable {take : Take} {device : Device}

theorem seedOne_cases (take : Take) (device : Device) :
    (∃ did, device.rule take.seed = .inl did ∧ did ≠ .skipped ∧ seedOne take device = (did, device)) ∨
    (device.rule take.seed = .inl .skipped ∧
      seedOne take device =
        (.skipped, device.record take.seed.name (seeded take.seed .skipped))) ∨
    (∃ upgrade manifest did result, device.rule take.seed = .inr upgrade ∧
      take.outcome = .ok manifest ∧ did.tried = true ∧ result ≠ Result.failed ∧
      seedOne take device =
        (did, (device.install take.seed.name (take.seed.taken manifest)).record take.seed.name
          (seeded take.seed result))) ∨
    (∃ upgrade error, device.rule take.seed = .inr upgrade ∧ take.outcome = .error error ∧
      seedOne take device = (.failed error, device.record take.seed.name
        (missed take.seed error upgrade (device.seeds take.seed.name)))) := by
  cases hrule : device.rule take.seed with
  | inl did =>
    by_cases hskip : did = .skipped
    · subst hskip
      exact .inr (.inl ⟨rfl, by simp only [seedOne, hrule]⟩)
    · refine .inl ⟨did, rfl, hskip, ?_⟩
      simp only [seedOne, hrule]
  | inr upgrade =>
    cases hout : take.outcome with
    | error error => exact .inr (.inr (.inr ⟨upgrade, error, rfl, rfl, by simp only [seedOne, hrule, hout]⟩))
    | ok manifest =>
      refine .inr (.inr (.inl ⟨upgrade, manifest, if upgrade then .upgraded else .installed,
        if upgrade then .upgraded else .installed, rfl, rfl, ?_⟩))
      cases upgrade <;> simp [seedOne, hrule, hout, Did.tried]

theorem apps_seedOne (take : Take) (device : Device) : (seedOne take device).2.apps = device.apps ∨
    ∃ upgrade manifest, device.rule take.seed = .inr upgrade ∧
      (seedOne take device).2.apps = (device.install take.seed.name (take.seed.taken manifest)).apps := by
  rcases seedOne_cases take device with ⟨_, -, -, heq⟩ | ⟨-, heq⟩ |
    ⟨upgrade, manifest, _, _, hrule, -, -, -, heq⟩ | ⟨_, _, -, -, heq⟩ <;> rw [heq]
  · exact .inl rfl
  · exact .inl rfl
  · exact .inr ⟨upgrade, manifest, hrule, rfl⟩
  · exact .inl rfl

theorem seedOne_of_ne {app : Text} (h : app ≠ take.seed.name) :
    (seedOne take device).2.apps app = device.apps app ∧
      (seedOne take device).2.seeds app = device.seeds app := by
  rcases seedOne_cases take device with ⟨_, -, -, heq⟩ | ⟨-, heq⟩ | ⟨_, _, _, _, -, -, -, -, heq⟩ |
    ⟨_, _, -, -, heq⟩ <;>
  simp [heq, Device.record, Device.install, h]

theorem tried_of_rule {upgrade : Bool} (h : device.rule take.seed = .inr upgrade) :
    (seedOne take device).1.tried = true := by
  rcases seedOne_cases take device with ⟨_, hrule, -⟩ | ⟨hrule, -⟩ | ⟨_, _, _, _, -, -,
    htried, -, heq⟩ |
    ⟨_, _, -, -, heq⟩
  · simp [h] at hrule
  · simp [h] at hrule
  · rwa [heq]
  · rw [heq]
    rfl

theorem untried_of_rule {did : Did} (h : device.rule take.seed = .inl did) :
    (seedOne take device).1.tried = false := by
  rcases seedOne_cases take device with ⟨_, hrule, -, heq⟩ | ⟨-, heq⟩ | ⟨_, _, _, _, hrule, -⟩ |
    ⟨_, _, hrule, -⟩
  · rw [heq]
    exact rule_eq_inl hrule
  · rw [heq]
    rfl
  all_goals simp [h] at hrule

end SeedOne

/-- Seeds taken at boots, one of them cut off, and what the user does. -/
inductive Event where
  | seed (take : Take)
  | cut (take : Take)
  | install (name : Text) (installed : Installed)
  | rollback (name : Text)
  | remove (name : Text)

def Event.act (device : Device) : Event → Device
  | .seed take => (seedOne take device).2
  | .cut take => cutOff take device
  | .install name installed => device.install name installed
  | .rollback name => device.rollback name
  | .remove name => device.remove name

def run (events : List Event) (device : Device) : Device := events.foldl Event.act device

def Did.settled : Did → Bool
  | .skipped | .installed | .upgraded => true
  | _ => false

def Device.Settled (device : Device) (app : Text) : Prop :=
  ∃ had, device.seeds app = some had ∧ had.result ≠ .failed

theorem settled_of_seedOne {take : Take} {device : Device} (h : (seedOne take device).1.settled = true) :
    (seedOne take device).2.Settled take.seed.name := by
  rcases seedOne_cases take device with ⟨did, hrule, hskip, heq⟩ | ⟨-, heq⟩ |
    ⟨_, _, _, result, -, -, -, hresult, heq⟩ | ⟨_, _, -, -, heq⟩
  · have htried := rule_eq_inl hrule
    cases did <;> simp_all [Did.settled, Did.tried]
  · exact ⟨seeded take.seed .skipped, by simp [heq, Device.record], by simp [seeded]⟩
  · exact ⟨seeded take.seed result, by simp [heq, Device.record], hresult⟩
  · simp [heq, Did.settled] at h

theorem Device.Settled.seedOne {take : Take} {device : Device} {app : Text} (h : device.Settled app) :
    (seedOne take device).2.Settled app := by
  by_cases happ : app = take.seed.name
  swap
  · obtain ⟨had, hhad, hresult⟩ := h
    exact ⟨had, (seedOne_of_ne happ).2.trans hhad, hresult⟩
  subst happ
  have ⟨had, hhad, hresult⟩ := h
  rcases seedOne_cases take device with ⟨_, -, -, heq⟩ | ⟨-, heq⟩ |
    ⟨_, _, _, result, -, -, -, hres, heq⟩ | ⟨upgrade, error, hrule, -, heq⟩
  · rwa [heq]
  · exact settled_of_seedOne (by rw [heq]; rfl)
  · exact ⟨seeded take.seed result, by simp [heq, Device.record], hres⟩
  · cases upgrade with
    | false => exact absurd ((rule_eq_false hrule).2 had hhad) hresult
    | true =>
      exact ⟨missed take.seed error true (some had), by simp [heq, Device.record, hhad], by simpa [missed]⟩

theorem Device.Settled.act {event : Event} {device : Device} {app : Text} (h : device.Settled app) :
    (event.act device).Settled app := by
  cases event with
  | seed take => exact h.seedOne
  | cut | install | rollback | remove => exact h

theorem Device.Settled.run {device : Device} {app : Text} (events : List Event)
    (h : device.Settled app) :
    (run events device).Settled app := by
  induction events generalizing device with
  | nil => exact h
  | cons event events ih => exact ih h.act

theorem Device.Settled.apps_eq_none {take : Take} {device : Device} {app : Text} (h : device.Settled app)
    (hnone : device.apps app = none) : (Seeds.seedOne take device).2.apps app = none := by
  rcases apps_seedOne take device with heq | ⟨upgrade, manifest, hrule, heq⟩
  · rw [heq, hnone]
  by_cases happ : app = take.seed.name
  swap
  · rw [(seedOne_of_ne happ).1, hnone]
  subst happ
  obtain ⟨had, hhad, hresult⟩ := h
  cases upgrade with
  | false => exact absurd ((rule_eq_false hrule).2 had hhad) hresult
  | true =>
    obtain ⟨now, _, hnow, -⟩ := rule_eq_true hrule
    simp [Device.current, hnone] at hnow

/-- An installed app changes only from the recorded seed to a newer version. -/
def FollowsRecord (take : Take) (device : Device) (app : Text) : Prop :=
  ∀ entry, device.apps app = some entry → (seedOne take device).2.apps app ≠ some entry →
    app = take.seed.name ∧ ∃ had, device.seeds app = some had ∧
    entry.current.version = had.version ∧
      entry.current.sha256 = had.sha256 ∧ newer take.seed.version entry.current.version = true

theorem followsRecord (take : Take) (device : Device) (app : Text) :
    FollowsRecord take device app := by
  intro entry hentry h
  by_cases happ : app = take.seed.name
  swap
  · exact absurd ((seedOne_of_ne happ).1.trans hentry) h
  subst happ
  have hcurrent : device.current take.seed.name = some entry.current := by
    simp [Device.current, hentry]
  rcases apps_seedOne take device with heq | ⟨upgrade, manifest, hrule, -⟩
  · exact absurd (heq ▸ hentry) h
  · cases upgrade with
    | false => cases hcurrent.symm.trans (rule_eq_false hrule).1
    | true =>
      obtain ⟨now, had, hnow, hhad, -, -, hversion, hsha, hnewer⟩ := rule_eq_true hrule
      obtain rfl : entry.current = now := Option.some.inj (hcurrent.symm.trans hnow)
      exact ⟨rfl, had, hhad, hversion, hsha, hnewer⟩

/-- Seeding changes an app only from its recorded seed, and never brings a settled one back. -/
theorem seeding_respects_user (events : List Event) (start : Device) (take : Take) (app : Text) :
    FollowsRecord take (run events start) app ∧
    (∀ before earlier after, events = before ++ .seed earlier :: after → earlier.seed.name = app →
      (seedOne earlier (run before start)).1.settled = true → (run events start).apps app = none →
      (seedOne take (run events start)).2.apps app = none) := by
  refine ⟨followsRecord take _ app, ?_⟩
  rintro before earlier after rfl rfl hdid hnone
  refine Device.Settled.apps_eq_none ?_ hnone
  simp only [run, List.foldl_append, List.foldl_cons]
  exact (settled_of_seedOne hdid).run after

def demo : Text := "demo".toList

def demoManifest (version : String) : Manifest :=
  { schemaVersion := 1, name := demo, version := version.toList, arch := ["all".toList] }

def demoSeed (version sha256 : String) : Seed := ⟨demo, sha256.toList, .ok (demoManifest version)⟩

def blank : Device := ⟨fun _ ↦ none, fun _ ↦ none⟩

theorem seeding_respects_user_demo :
    ((run [.seed ⟨demoSeed "1.0" "a", .ok ()⟩, .seed ⟨demoSeed "2.0" "b", .ok ()⟩] blank).current
      demo).map (·.sha256) = some "b".toList ∧
    (seedOne ⟨demoSeed "3.0" "c", .ok ()⟩ (run [.seed ⟨demoSeed "1.0" "a", .ok ()⟩,
      .seed ⟨demoSeed "2.0" "b", .ok ()⟩, .remove demo] blank)).2.apps demo = none :=
  ⟨by decide, (seeding_respects_user _ blank _ demo).2 [] ⟨demoSeed "1.0" "a", .ok ()⟩
    [.seed ⟨demoSeed "2.0" "b", .ok ()⟩, .remove demo] rfl rfl (by decide) (by decide)⟩

/-- An app removed before any seed of it was met is installed by the first one. -/
theorem not_forall_seeding_leaves_removed :
    ¬ ∀ (events : List Event) (start : Device) (take : Take) (app : Text),
    FollowsRecord take (run events start) app ∧
    (∀ before after, events = before ++ after → (run before start).apps app ≠ none →
      (run events start).apps app = none →
      (seedOne take (run events start)).2.apps app = none) := by
  intro h
  have hnone := (h [.install demo ⟨"1.0".toList, "u".toList, none⟩, .remove demo] blank
    ⟨demoSeed "1.0" "a", .ok ()⟩ demo).2 [.install demo ⟨"1.0".toList, "u".toList, none⟩]
    [.remove demo] rfl (by decide) (by decide)
  exact absurd hnone (by decide)

end MicaCore.Apps.Seeds
