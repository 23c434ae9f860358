import MicaCore.Apps.Seed

namespace MicaCore.Apps.Seeds

open Data

/-- Later boots in turn: whether each seed was tried, and the records after them. -/
def boots : List Take → Device → List Bool × Device
  | [], device => ([], device)
  | take :: takes, device =>
    let rest := boots takes (seedOne take device).2
    ((seedOne take device).1.tried :: rest.1, rest.2)

section Tries

variable (app sha256 : Text)

def Take.Of (take : Take) : Prop := take.seed.name = app ∧ take.seed.sha256 = sha256

instance (take : Take) : Decidable (take.Of app sha256) := inferInstanceAs (Decidable (_ ∧ _))

/-- How often the image is tried. -/
def triedAt : List Take → Device → ℕ
  | [], _ => 0
  | take :: takes, device =>
    (if take.Of app sha256 ∧ (seedOne take device).1.tried = true then 1 else 0) +
      triedAt takes (seedOne take device).2

/-- Every take of the image fails. -/
def AlwaysFails (takes : List Take) : Prop :=
  ∀ take ∈ takes, take.Of app sha256 → ∃ error, take.outcome = .error error

/-- No other image of the app is tried. -/
def Alone : List Take → Device → Prop
  | [], _ => True
  | take :: takes, device =>
    (take.seed.name = app → take.seed.sha256 ≠ sha256 → ∃ did, device.rule take.seed = .inl did) ∧
      Alone takes (seedOne take device).2

def spent (device : Device) : ℕ :=
  match device.seeds app with
  | none => 0
  | some had =>
    if had.sha256 = sha256 then if had.result = .failed then had.tries else seedTries
    -- an entry of another seed that never took gives way to this one's
    else if had.result = .failed ∧ (device.apps app).isNone then 0
    else if had.failedSha256 = some sha256 then had.tries else 0

variable {app sha256} {take : Take} {device : Device}

theorem spent_of_untried (h : ∃ did, device.rule take.seed = .inl did) :
    spent app sha256 device ≤ spent app sha256 (seedOne take device).2 := by
  by_cases happ : app = take.seed.name
  swap
  · simp [spent, seedOne_of_ne happ]
  obtain ⟨_, hdid⟩ := h
  rcases seedOne_cases take device with ⟨_, -, -, heq⟩ | ⟨hskip, -⟩ | ⟨_, _, _, _, hrule, -⟩ |
    ⟨_, _, hrule, -⟩
  · rw [heq]
  · have hnone : device.seeds app = none := happ ▸ rule_eq_skipped hskip
    simp [spent, hnone]
  all_goals simp [hdid] at hrule

theorem spent_of_failed {upgrade : Bool} {error : Text} (hof : take.Of app sha256)
    (hrule : device.rule take.seed = .inr upgrade) (hout : take.outcome = .error error) :
    spent app sha256 device < seedTries ∧
      spent app sha256 (seedOne take device).2 = spent app sha256 device + 1 := by
  obtain ⟨rfl, rfl⟩ := hof
  have heq : (seedOne take device).2 = device.record take.seed.name
      (missed take.seed error upgrade (device.seeds take.seed.name)) := by
    simp only [seedOne, hrule, hout]
  rw [heq]
  cases upgrade with
  | true =>
    obtain ⟨now, had, hnow, hhad, hsha, htries, -⟩ := rule_eq_true hrule
    have hsome : device.apps take.seed.name ≠ none := by
      intro hnone
      simp [Device.current, hnone] at hnow
    by_cases hfailed : had.failedSha256 = some take.seed.sha256
    · simp_all [spent, Device.record, missed]
    · simp_all [spent, Device.record, missed, seedTries]
  | false =>
    obtain ⟨hnone, hfailed⟩ := rule_eq_false hrule
    have happ : device.apps take.seed.name = none := by simpa [Device.current] using hnone
    cases hhad : device.seeds take.seed.name with
    | none => simp [spent, Device.record, missed, seeded, hhad, seedTries]
    | some had =>
      have hresult := hfailed had hhad
      by_cases hsha : had.sha256 = take.seed.sha256
      · have htries : had.tries < seedTries := by
          by_contra hle
          simp_all [Device.rule, rule]
        simp [spent, Device.record, missed, seeded, hhad, hsha, hresult, htries, Option.filter]
      · simp [spent, Device.record, missed, seeded, hhad, hsha, hresult, happ, seedTries, Option.filter]

theorem triedAt_add_spent_le (app sha256 : Text) (takes : List Take) (device : Device)
    (hfails : AlwaysFails app sha256 takes) (halone : Alone app sha256 takes device) :
    triedAt app sha256 takes device + min (spent app sha256 device) seedTries ≤ seedTries := by
  induction takes generalizing device with
  | nil => simp [triedAt]
  | cons take takes ih =>
    have hrest := ih _ (fun t ht ↦ hfails t (.tail _ ht)) halone.2
    cases hrule : device.rule take.seed with
    | inl did =>
      have hle : spent app sha256 device ≤ spent app sha256 (seedOne take device).2 :=
        spent_of_untried ⟨did, hrule⟩
      simp only [triedAt, untried_of_rule hrule]
      grind
    | inr upgrade =>
      by_cases hof : take.Of app sha256
      · obtain ⟨error, hout⟩ := hfails take (.head _) hof
        have ⟨hlt, hsucc⟩ := spent_of_failed hof hrule hout
        simp only [triedAt]
        grind
      · -- another archive of the app is not tried, so this seed is another app's
        have happ : app ≠ take.seed.name := by
          intro happ
          obtain ⟨did, hdid⟩ := halone.1 happ.symm fun hsha ↦ hof ⟨happ.symm, hsha⟩
          simp [hrule] at hdid
        have hspent : spent app sha256 (seedOne take device).2 = spent app sha256 device := by
          simp [spent, seedOne_of_ne happ]
        simp only [triedAt, hof, false_and, if_false]
        omega

end Tries

section Alternating

variable {take other : Take} {device : Device}

/-- The app is not there, and its entry is at most another archive's that never took. -/
def Untaken (take : Take) (device : Device) : Prop :=
  device.apps take.seed.name = none ∧ ∀ had, device.seeds take.seed.name = some had →
    had.result = .failed ∧ had.sha256 ≠ take.seed.sha256

section

variable {error : Text} (h : Untaken take device) (hout : take.outcome = .error error)

include h hout

theorem seedOne_of_untaken : (seedOne take device).1.tried = true ∧
    (seedOne take device).2.apps = device.apps ∧
      ∃ had, (seedOne take device).2.seeds take.seed.name = some had ∧ had.result = .failed ∧
        had.sha256 = take.seed.sha256 := by
  obtain ⟨happ, hseeds⟩ := h
  have hrule : device.rule take.seed = .inr false := by
    cases hhad : device.seeds take.seed.name with
    | none => simp [Device.rule, Device.current, rule, happ, hhad]
    | some had => simp [Device.rule, Device.current, rule, happ, hhad, hseeds had hhad]
  simp only [seedOne, hrule, hout]
  refine ⟨rfl, rfl, missed take.seed error false (device.seeds take.seed.name), ?_⟩
  simp [Device.record, missed, seeded]

theorem Untaken.next (hname : other.seed.name = take.seed.name) (hsha : other.seed.sha256 ≠ take.seed.sha256) :
    Untaken other (seedOne take device).2 := by
  obtain ⟨-, happs, had, hhad, hfailed, hof⟩ := seedOne_of_untaken h hout
  refine ⟨by rw [happs, hname]; exact h.1, fun entry hentry ↦ ?_⟩
  obtain rfl : had = entry := by simpa [hname, hhad] using hentry
  exact ⟨hfailed, fun heq ↦ hsha (heq.symm.trans hof)⟩

theorem triedAt_alternating {app sha256 error' : Text} (hof : take.Of app sha256)
    (hother : other.seed.name = app) (hsha : other.seed.sha256 ≠ sha256)
    (hout' : other.outcome = .error error') (n : ℕ) :
    triedAt app sha256 (List.replicate n [take, other]).flatten device = n := by
  obtain ⟨rfl, rfl⟩ := hof
  induction n generalizing device with
  | zero => rfl
  | succ n ih =>
    have hnext := h.next hout hother hsha
    have hback := hnext.next hout' hother.symm hsha.symm
    have hfirst : take.Of take.seed.name take.seed.sha256 := ⟨rfl, rfl⟩
    have hsecond : ¬ other.Of take.seed.name take.seed.sha256 := fun hof ↦ hsha hof.2
    simp only [List.replicate_succ, List.flatten_cons, List.cons_append, List.nil_append, triedAt,
      ih hback, hfirst, hsecond, (seedOne_of_untaken h hout).1, true_and, false_and,
      if_true, if_false]
    omega

end

end Alternating

/-- Alone, a failing archive is tried at most `seedTries` times; two in turn, without end. -/
theorem triedAt_le_of_alone (app sha256 : Text) :
    (∀ takes device, AlwaysFails app sha256 takes → Alone app sha256 takes device →
      triedAt app sha256 takes device ≤ seedTries) ∧
    ∀ (take other : Take) (error error' : Text), take.Of app sha256 → other.seed.name = app →
      other.seed.sha256 ≠ sha256 → take.outcome = .error error → other.outcome = .error error' →
      ∀ device n, Untaken take device →
        triedAt app sha256 (List.replicate n [take, other]).flatten device = n := by
  refine ⟨fun takes device hfails halone ↦ ?_, ?_⟩
  · have hle := triedAt_add_spent_le app sha256 takes device hfails halone
    omega
  · intro take other error error' hof hother hsha hout hout' device n h
    exact triedAt_alternating h hout hof hother hsha hout' n

theorem triedAt_le_of_alone_demo :
    triedAt demo "a".toList (List.replicate 3 ⟨demoSeed "1.0" "a", .error []⟩) blank ≤ seedTries :=
  (triedAt_le_of_alone demo "a".toList).1 _ blank
    (fun _ htake _ ↦ List.eq_of_mem_replicate htake ▸ ⟨[], rfl⟩)
    ⟨fun _ hsha ↦ absurd rfl hsha, fun _ hsha ↦ absurd rfl hsha, fun _ hsha ↦ absurd rfl hsha, trivial⟩

/-- Two images taken in turn reset each other's count. -/
theorem not_forall_triedAt_le : ¬ ∀ (app sha256 : Text) (takes : List Take) (device : Device),
    AlwaysFails app sha256 takes → triedAt app sha256 takes device ≤ seedTries := by
  intro h
  have hle := h demo "a".toList (List.replicate 3
    [⟨demoSeed "1.0" "a", .error []⟩, ⟨demoSeed "2.0" "b", .error []⟩]).flatten blank
      fun take htake _ ↦ by
      obtain ⟨images, himages, hmem⟩ := List.mem_flatten.1 htake
      rw [List.eq_of_mem_replicate himages, List.mem_pair] at hmem
      rcases hmem with rfl | rfl <;> exact ⟨[], rfl⟩
  exact absurd hle (by decide)

section Interrupted

def Seeded.triesOf (had : Seeded) (sha256 : Text) : ℕ :=
  if had.failedSha256 = some sha256 then had.tries else 0

theorem Seeded.le_triesOf {had : Seeded} {sha256 : Text} :
    had.failedSha256 = some sha256 ∧ seedTries ≤ had.tries ↔ seedTries ≤ had.triesOf sha256 := by
  by_cases h : had.failedSha256 = some sha256 <;> simp [Seeded.triesOf, h, seedTries]

/-- Entries the rule does not tell apart while the app is installed. -/
structure Seeded.Alike (a b : Seeded) : Prop where
  version : a.version = b.version
  sha256 : a.sha256 = b.sha256
  triesOf : ∀ sha256 ≠ a.sha256, a.triesOf sha256 = b.triesOf sha256

def EntriesAlike (now : Option Installed) (x y : Option Seeded) : Prop :=
  x = y ∨ ∃ installed had had', now = some installed ∧ x = some had ∧ y = some had' ∧
    (installed.policy = some .once ∨ had.Alike had')

structure Device.Alike (a b : Device) : Prop where
  apps : a.apps = b.apps
  entries : ∀ app, EntriesAlike (a.current app) (a.seeds app) (b.seeds app)

variable {app : Text} {a b : Device} {take : Take}

theorem rule_of_alike {seed : Seed} {now : Installed} {had had' : Seeded} (h : had.Alike had') :
    rule seed (some now) (some had) = rule seed (some now) (some had') := by
  by_cases hsha : had.sha256 = seed.sha256
  · simp [rule, hsha, ← h.sha256]
  · have htries := h.triesOf seed.sha256 fun heq ↦ hsha heq.symm
    simp [rule, Seeded.le_triesOf, htries, ← h.sha256, ← h.version]

theorem Seeded.Alike.missed {seed : Seed} {error : Text} {had had' : Seeded} (h : had.Alike had')
    (hsha : seed.sha256 ≠ had.sha256) :
    (missed seed error true (some had)).Alike (missed seed error true (some had')) where
  version := h.version
  sha256 := h.sha256
  triesOf sha256 _ := by
    by_cases heq : seed.sha256 = sha256
    · subst heq
      simpa [Seeds.missed, Seeded.triesOf] using h.triesOf seed.sha256 hsha
    · simp [Seeds.missed, Seeded.triesOf, heq]

theorem seedOne_of_rule_eq (happs : a.apps = b.apps) (hrule : a.rule take.seed = b.rule take.seed)
    (hentries : EntriesAlike (a.current take.seed.name) (a.seeds take.seed.name) (b.seeds take.seed.name))
    (hmissed : ∀ upgrade error, a.rule take.seed = .inr upgrade →
    EntriesAlike (a.current take.seed.name)
      (some (missed take.seed error upgrade (a.seeds take.seed.name)))
      (some (missed take.seed error upgrade (b.seeds take.seed.name)))) :
    (seedOne take a).1.tried = (seedOne take b).1.tried ∧
      (seedOne take a).2.apps = (seedOne take b).2.apps ∧
      EntriesAlike ((seedOne take a).2.current take.seed.name) ((seedOne take a).2.seeds take.seed.name)
        ((seedOne take b).2.seeds take.seed.name) := by
  cases hb : b.rule take.seed with
  | inl did =>
    rw [hb] at hrule
    by_cases hskip : did = .skipped
    · subst hskip
      simp only [seedOne, hrule, hb]
      exact ⟨trivial, happs, .inl (by simp [Device.record])⟩
    · have heq : ∀ device : Device, device.rule take.seed = .inl did → seedOne take device = (did, device) :=
        fun device h ↦ by simp only [seedOne, h]
      rw [heq a hrule, heq b hb]
      exact ⟨rfl, happs, hentries⟩
  | inr upgrade =>
    rw [hb] at hrule
    cases hout : take.outcome with
    | error error =>
      simp only [seedOne, hrule, hb, hout]
      refine ⟨trivial, happs, ?_⟩
      simpa [Device.record, Device.current] using hmissed upgrade error hrule
    | ok manifest =>
      cases upgrade <;> simp only [seedOne, hrule, hb, hout] <;>
        exact ⟨rfl, by simp [Device.install, Device.record, happs], .inl (by simp [Device.record])⟩

theorem seedOne_of_once {device : Device} {now : Installed} {had : Seeded} (h : now.policy = some .once)
    (hnow : device.current take.seed.name = some now)
    (hhad : device.seeds take.seed.name = some had) :
    (seedOne take device).1.tried = false ∧ (seedOne take device).2 = device := by
  obtain ⟨did, hskip, hrule⟩ : ∃ did, did ≠ .skipped ∧ device.rule take.seed = .inl did := by
    simp only [Device.rule, rule, hnow, hhad, h, Option.isSome_some, Option.isNone_some]
    split_ifs <;> simp_all
  have heq : seedOne take device = (did, device) := by simp only [seedOne, hrule]
  exact ⟨untried_of_rule hrule, by rw [heq]⟩

theorem Device.Alike.seedOne (take : Take) (h : a.Alike b) :
    (seedOne take a).1.tried = (seedOne take b).1.tried ∧
      (Seeds.seedOne take a).2.Alike (Seeds.seedOne take b).2 := by
  have hcurrent : ∀ app, b.current app = a.current app :=
    fun app ↦ by rw [Device.current, ← h.apps]; rfl
  -- the seed's own app decides; the others' entries stay
  suffices hown : (Seeds.seedOne take a).1.tried = (Seeds.seedOne take b).1.tried ∧
      (Seeds.seedOne take a).2.apps = (Seeds.seedOne take b).2.apps ∧
      EntriesAlike ((Seeds.seedOne take a).2.current take.seed.name) ((Seeds.seedOne take a).2.seeds take.seed.name)
        ((Seeds.seedOne take b).2.seeds take.seed.name) by
    refine ⟨hown.1, hown.2.1, fun app ↦ ?_⟩
    by_cases happ : app = take.seed.name
    · exact happ ▸ hown.2.2
    · simpa [Device.current, seedOne_of_ne happ] using h.entries app
  rcases h.entries take.seed.name with heq | ⟨now, had, had', hnow, hhad, hhad', honce | halike⟩
  · exact seedOne_of_rule_eq h.apps (by rw [Device.rule, Device.rule, hcurrent, heq]) (h.entries _)
      fun _ _ _ ↦ .inl (by rw [heq])
  · obtain ⟨htried, hstay⟩ := seedOne_of_once honce hnow hhad
    obtain ⟨htried', hstay'⟩ := seedOne_of_once honce ((hcurrent _).trans hnow) hhad'
    rw [htried, htried', hstay, hstay']
    exact ⟨rfl, h.apps, h.entries take.seed.name⟩
  · have hrule : a.rule take.seed = b.rule take.seed := by
      rw [Device.rule, Device.rule, hcurrent, hnow, hhad, hhad', rule_of_alike halike]
    refine seedOne_of_rule_eq h.apps hrule (h.entries _) fun upgrade error hupgrade ↦ ?_
    cases upgrade with
    | false => cases hnow.symm.trans (rule_eq_false hupgrade).1
    | true =>
      obtain ⟨_, entry, -, hentry, hsha, -⟩ := rule_eq_true hupgrade
      obtain rfl : had = entry := Option.some.inj (hhad.symm.trans hentry)
      rw [hhad, hhad']
      exact .inr ⟨now, _, _, hnow, rfl, rfl, .inr (halike.missed (Ne.symm hsha))⟩

theorem current_install {device : Device} {now : Installed} :
    (device.install app now).current app = some now := by
  cases h : device.apps app with
  | none => simp [Device.current, Device.install, AppEntry.take, h]
  | some entry =>
    by_cases hversion : entry.current.version = now.version <;>
      simp [Device.current, Device.install, AppEntry.take, h, hversion]

theorem Device.Alike.boots (takes : List Take) (h : a.Alike b) :
    (boots takes a).1 = (boots takes b).1 ∧ (Seeds.boots takes a).2.apps =
      (Seeds.boots takes b).2.apps := by
  induction takes generalizing a b with
  | nil => exact ⟨rfl, h.apps⟩
  | cons take takes ih =>
    obtain ⟨htried, hnext⟩ := h.seedOne take
    exact ⟨by simp only [Seeds.boots, htried, (ih hnext).1], (ih hnext).2⟩

variable (device : Device) (seed : Seed)

/-- After the next boot, every later history goes as if nothing had been cut off. -/
def Converges (again : Except Text Unit) : Prop :=
  ∀ later,
    let cut := (seedOne ⟨seed, again⟩ (cutOff ⟨seed, .ok ()⟩ device)).2
    let whole := (seedOne ⟨seed, again⟩ (seedOne ⟨seed, .ok ()⟩ device).2).2
    (boots later cut).1 = (boots later whole).1 ∧
    (boots later cut).2.apps = (boots later whole).2.apps

/-- The entry that was there reads as the seed's own would. -/
def Harmless : Prop :=
  device.seeds seed.name = none ∨ seed.policy = .once ∨ ∃ had, device.seeds seed.name = some had ∧
    had.sha256 = seed.sha256 ∧ had.version = seed.version ∧
    ∀ sha256 ≠ seed.sha256, had.triesOf sha256 = 0

variable {device seed} {now : Installed} {had : Seeded}

structure Following (device : Device) (take : Take) (now : Installed) (had : Seeded) : Prop where
  current : device.current take.seed.name = some now
  seeds : device.seeds take.seed.name = some had
  policy : now.policy = some .followImage
  newer : newer take.seed.version now.version = true
  other : had.sha256 ≠ take.seed.sha256

theorem Following.rule_eq (h : Following device take now had) :
    device.rule take.seed =
      if seedTries ≤ had.triesOf take.seed.sha256 then .inl .unchanged
      else if now.version ≠ had.version ∨ now.sha256 ≠ had.sha256 then .inl .changedByTheUser
      else .inr true := by
  simp [Device.rule, rule, h.current, h.seeds, h.policy, h.newer, h.other, Seeded.le_triesOf]

theorem Following.tried (h : Following device take now had) {error : Text}
    (hout : take.outcome = .error error)
    (hversion : now.version = had.version) (hsha : now.sha256 = had.sha256)
    (hfresh : had.triesOf take.seed.sha256 = 0) :
    (seedOne take device).1.tried = true ∧
    (seedOne take (seedOne take device).2).1.tried = true := by
  have hrule := h.rule_eq
  rw [hfresh, if_neg (by decide), if_neg (by simp [hversion, hsha])] at hrule
  have hnext : (seedOne take device).2 =
      device.record take.seed.name (missed take.seed error true (some had)) := by
    simp only [seedOne, hrule, hout, h.seeds]
  have hfollow : Following (seedOne take device).2 take now (missed take.seed error true (some had)) :=
    ⟨by rw [hnext]; exact h.current, by simp [hnext, Device.record], h.policy, h.newer, h.other⟩
  have hrule' := hfollow.rule_eq
  rw [if_neg, if_neg (by simp [missed, hversion, hsha])] at hrule'
  · exact ⟨tried_of_rule hrule, tried_of_rule hrule'⟩
  · by_cases hfailed : had.failedSha256 = some take.seed.sha256
    · have hzero : had.tries = 0 := by simpa [Seeded.triesOf, hfailed] using hfresh
      simp [missed, Seeded.triesOf, hfailed, hzero, seedTries]
    · simp [missed, Seeded.triesOf, hfailed, seedTries]

def later (seed : Seed) (manifest : Manifest) (version sha256 : Text) : Take :=
  ⟨⟨seed.name, sha256, .ok { manifest with version }⟩, .error []⟩

theorem outcome_later (seed : Seed) (manifest : Manifest) (version sha256 : Text) :
    ∃ error, (later seed manifest version sha256).outcome = .error error := by
  by_cases h : manifest.name = seed.name <;> simp [Take.outcome, later, h, bind, Except.bind]

theorem exists_boots_ne (manifest : Manifest) {version : Text} {had' : Seeded} {a b : Device}
    (ha : a.current seed.name = some now) (hb : b.current seed.name = some now)
    (hhad : a.seeds seed.name = some had) (hhad' : b.seeds seed.name = some had')
    (hpolicy : now.policy = some .followImage) (hnewer : newer version now.version = true)
    (hversion : now.version = had'.version) (hsha : now.sha256 = had'.sha256)
    (hfresh : ∀ sha256, had'.triesOf sha256 = 0) (hne : ¬ had.Alike had') :
    ∃ takes, (boots takes a).1 ≠ (boots takes b).1 := by
  have hfollows : ∀ sha256, had'.sha256 ≠ sha256 →
      Following b (later seed manifest version sha256) now had' :=
    fun _ hother ↦ ⟨hb, hhad', hpolicy, hnewer, hother⟩
  by_cases hsame : had.version = had'.version ∧ had.sha256 = had'.sha256
  · -- the entry counts tries of some later archive already
    obtain ⟨sha256, hother, htries⟩ : ∃ sha256, sha256 ≠ had.sha256 ∧
        had.triesOf sha256 ≠ had'.triesOf sha256 := by
      by_contra hall
      push Not at hall
      exact hne ⟨hsame.1, hsame.2, hall⟩
    refine ⟨List.replicate 2 (later seed manifest version sha256), fun heq ↦ ?_⟩
    have hle := triedAt_add_spent_le seed.name sha256
      (List.replicate 2 (later seed manifest version sha256)) a
      (fun take htake _ ↦ List.eq_of_mem_replicate htake ▸ outcome_later seed manifest version sha256)
      ⟨fun _ hsha ↦ absurd rfl hsha, fun _ hsha ↦ absurd rfl hsha, trivial⟩
    have hspent : spent seed.name sha256 a = had.triesOf sha256 := by
      obtain ⟨entry, hentry, -⟩ := Option.map_eq_some_iff.1 ha
      simp [spent, hhad, Ne.symm hother, hentry, Seeded.triesOf]
    have hof : (later seed manifest version sha256).Of seed.name sha256 := ⟨rfl, rfl⟩
    rw [hfresh] at htries
    obtain ⟨_, hout⟩ := outcome_later seed manifest version sha256
    have htried := (hfollows sha256 fun heq ↦ hother (heq.symm.trans hsame.2.symm)).tried hout
      hversion hsha
      (hfresh sha256)
    simp only [List.replicate, boots, htried, List.cons.injEq, and_true] at heq
    simp only [List.replicate, triedAt, heq, hof, hspent, and_true, if_true, seedTries] at hle
    omega
  · -- the app reads as changed by the user
    obtain ⟨fresh, hfirst, hsecond⟩ : ∃ fresh : Text, had.sha256 ≠ fresh ∧ had'.sha256 ≠ fresh := by
      refine ⟨'x' :: (had.sha256 ++ had'.sha256), fun heq ↦ ?_, fun heq ↦ ?_⟩ <;>
      · have hlength := congrArg List.length heq
        simp only [List.length_cons, List.length_append] at hlength
        omega
    refine ⟨[later seed manifest version fresh], ?_⟩
    have hcut : (seedOne (later seed manifest version fresh) a).1.tried = false := by
      have hchanged : now.version ≠ had.version ∨ now.sha256 ≠ had.sha256 := by
        rw [hversion, hsha]
        by_contra hall
        push Not at hall
        exact hsame ⟨hall.1.symm, hall.2.symm⟩
      have hfollow : Following a (later seed manifest version fresh) now had := ⟨ha, hhad, hpolicy, hnewer, hfirst⟩
      have hrule := hfollow.rule_eq
      rw [if_pos hchanged] at hrule
      split at hrule <;> exact untried_of_rule hrule
    obtain ⟨_, hout⟩ := outcome_later seed manifest version fresh
    simp [boots, hcut, (hfollows fresh hsecond).tried hout hversion hsha (hfresh fresh)]

theorem seedOne_of_installs {manifest : Manifest} {upgrade : Bool}
    (hmanifest : seed.manifest = .ok manifest)
    (hname : manifest.name = seed.name) (hrule : device.rule seed = .inr upgrade) :
    cutOff ⟨seed, .ok ()⟩ device = device.install seed.name (seed.taken manifest) ∧
      ∃ result, result ≠ Result.failed ∧ (seedOne ⟨seed, .ok ()⟩ device).2 =
        (device.install seed.name (seed.taken manifest)).record seed.name (seeded seed result) := by
  have hout : (⟨seed, .ok ()⟩ : Take).outcome = .ok manifest := by
    simp [Take.outcome, hmanifest, hname, bind, Except.bind, pure, Except.pure]
  cases upgrade <;> simp only [cutOff, seedOne, hrule, hout]
  · exact ⟨rfl, .installed, by decide, rfl⟩
  · exact ⟨rfl, .upgraded, by decide, rfl⟩

variable {again : Except Text Unit} {cut : Device} {manifest : Manifest}

theorem again_of_recorded {result : Result} (hresult : result ≠ .failed) :
    (seedOne ⟨seed, again⟩ (cut.record seed.name (seeded seed result))).2 =
      cut.record seed.name (seeded seed result) := by
  have hrule : (cut.record seed.name (seeded seed result)).rule seed = .inl .unchanged := by
    simp [Device.rule, rule, Device.record, seeded, hresult]
  simp only [seedOne, hrule]

theorem again_of_absent (hnow : cut.current seed.name = some (seed.taken manifest))
    (hnone : cut.seeds seed.name = none) :
    (seedOne ⟨seed, again⟩ cut).2 = cut.record seed.name (seeded seed .skipped) := by
  have hrule : cut.rule seed = .inl .skipped := by simp [Device.rule, rule, hnow, hnone]
  simp only [seedOne, hrule]

theorem again_of_present {had : Seeded} (hnow : cut.current seed.name = some (seed.taken manifest))
    (hhad : cut.seeds seed.name = some had) : (seedOne ⟨seed, again⟩ cut).2 = cut := by
  obtain ⟨did, hskip, hrule⟩ : ∃ did, did ≠ .skipped ∧ cut.rule seed = .inl did := by
    simp only [Device.rule, rule, hnow, hhad, Seed.taken, Option.isSome_some, Option.isNone_some]
    split_ifs <;> simp_all
  simp only [seedOne, hrule]

theorem alike_record {now : Installed} {had : Seeded} (had' : Seeded)
    (hhad : cut.seeds seed.name = some had) (hnow : cut.current seed.name = some now)
    (h : now.policy = some .once ∨ had.Alike had') : cut.Alike (cut.record seed.name had') := by
  refine ⟨rfl, fun app ↦ ?_⟩
  by_cases happ : app = seed.name
  · subst happ
    exact .inr ⟨now, had, had', hnow, hhad, by simp [Device.record], h⟩
  · exact .inl (by simp [Device.record, happ])

/-- A cut seeding converges exactly where the entry that was there is harmless. -/
theorem converges_iff (device : Device) (seed : Seed) (manifest : Manifest) (upgrade : Bool)
    (version : Text) (again : Except Text Unit) (hmanifest : seed.manifest = .ok manifest)
    (hname : manifest.name = seed.name) (hrule : device.rule seed = .inr upgrade)
    (hnewer : newer version manifest.version = true) :
    Converges device seed again ↔ Harmless device seed := by
  have hversion : seed.version = manifest.version := by simp [Seed.version, hmanifest]
  have hpolicy : seed.policy = manifest.seedPolicy := by simp [Seed.policy, hmanifest]
  obtain ⟨hcut, result, hresult, hwhole⟩ := seedOne_of_installs hmanifest hname hrule
  have hnow : (device.install seed.name (seed.taken manifest)).current seed.name =
      some (seed.taken manifest) :=
    current_install
  have hseeds : (device.install seed.name (seed.taken manifest)).seeds = device.seeds := rfl
  generalize device.install seed.name (seed.taken manifest) = cut at hwhole hcut hnow hseeds
  simp only [Converges, hcut, hwhole, again_of_recorded hresult]
  have hzero : ∀ sha256, (seeded seed result).triesOf sha256 = 0 :=
    fun _ ↦ by simp [seeded, Seeded.triesOf]
  cases hhad : device.seeds seed.name with
  | none =>
    rw [again_of_absent hnow (hseeds ▸ hhad)]
    have hskipped : (cut.record seed.name (seeded seed .skipped)).seeds seed.name = some (seeded seed .skipped) := by
      simp [Device.record]
    have halike := alike_record (seeded seed result) hskipped hnow (.inr ⟨rfl, rfl, fun _ _ ↦ rfl⟩)
    refine ⟨fun _ ↦ .inl hhad, fun _ later ↦ ?_⟩
    simpa [Device.record] using halike.boots later
  | some had =>
    rw [again_of_present hnow (hseeds ▸ hhad)]
    constructor
    · intro h
      by_contra hharm
      simp only [Harmless, hhad, Option.some.injEq, exists_eq_left', reduceCtorEq, false_or, not_or] at hharm
      have hfollow : manifest.seedPolicy = .followImage := by
        cases hp : manifest.seedPolicy <;> simp_all
      have hrecord : (cut.record seed.name (seeded seed result)).seeds seed.name = some (seeded seed result) := by
        simp [Device.record]
      obtain ⟨takes, hne⟩ := exists_boots_ne manifest hnow (b := cut.record seed.name (seeded seed result)) hnow
        (hseeds ▸ hhad) hrecord (by simp [Seed.taken, hfollow]) hnewer hversion.symm rfl hzero fun halike ↦
          hharm.2 ⟨halike.sha256, halike.version, fun sha256 hsha ↦
            (halike.triesOf sha256 (halike.sha256 ▸ hsha)).trans (hzero sha256)⟩
      exact hne (h takes).1
    · intro hharm later
      refine (alike_record (seeded seed result) (hseeds ▸ hhad) hnow ?_).boots later
      rcases hharm with hnone | honce | ⟨had', hhad', hsha, hver, htries⟩
      · simp [hhad] at hnone
      · exact .inl (by simp [Seed.taken, ← hpolicy, honce])
      · obtain rfl : had = had' := by simpa [hhad] using hhad'
        exact .inr ⟨hver, hsha, fun sha256 hne ↦ (htries sha256 (hsha ▸ hne)).trans (hzero sha256).symm⟩

end Interrupted

theorem converges_iff_blank :
    newer "2.0".toList "1.0".toList = true ∧ Converges blank (demoSeed "1.0" "a") (.ok ()) :=
  ⟨by decide, (converges_iff blank (demoSeed "1.0" "a") (demoManifest "1.0") false "2.0".toList (.ok ()) rfl rfl
    rfl (by decide)).2 (.inl rfl)⟩

/-- After a cut upgrade the app reads as the user's, and the next seed is not taken. -/
theorem not_forall_converges :
    ¬ ∀ (device : Device) (seed : Seed) (manifest : Manifest) (upgrade : Bool)
    (again : Except Text Unit), seed.manifest = .ok manifest → manifest.name = seed.name →
      device.rule seed = .inr upgrade → Converges device seed again := by
  intro h
  have hboots := (h (seedOne ⟨demoSeed "1.0" "a", .ok ()⟩ blank).2 (demoSeed "2.0" "b") (demoManifest "2.0")
    true (.ok ()) rfl rfl (by decide) [⟨demoSeed "3.0" "c", .ok ()⟩]).1
  exact absurd hboots (by decide)

end MicaCore.Apps.Seeds
