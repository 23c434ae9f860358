import MicaCore.Network.ApplySpec

namespace MicaCore.Network

open Crash Crash.Prog Data

variable {α : Type} {dev : Device} {o : Outcomes} {w : World} {network : NetworkMap}

def Broken (o : Outcomes) : Prop :=
  ∃ stage ∈ [Stage.replace, .reload, .restore, .retain], ∃ n, o.fails stage n = true

structure Settled (dev : Device) (o : Outcomes) (network : NetworkMap) (w : World)
    (r : Except ApplyError α) (t : World) : Prop where
  ok : ∀ a, r = .ok a → t.applied = true ∧
    t.managed = renderFiles dev.board dev.keystore network (undeclaredPorts dev o network)
  rolledBack : ∀ reason, r = .error (.rolledBack reason) → w.applied = true ∧ t.applied = true ∧
    t.units = w.units ∧ Synced (presharedKeys network) t.psks ∧
      (∀ name key, w.keys.get name = some key → t.keys.get name = some key) ∧
        ∃ changed, o.settles changed = .error reason
  denied : ∀ e, r = .error e → Denied e → Broken o ∨ t.units = w.units ∧ t.applied = w.applied

variable {t : World}

theorem Settled.of_denied {e : ApplyError} (he : Denied e)
    (h : Broken o ∨ t.units = w.units ∧ t.applied = w.applied) :
    Settled dev o network w (.error e : Except ApplyError α) t where
  ok _ ha := by cases ha
  rolledBack reason hr := absurd (Except.error.inj hr) (he reason)
  denied _ _ _ := h

/-- What the steps before the unit files are replaced leave as it was. -/
structure Prepares (w t : World) : Prop where
  units : t.units = w.units
  applied : t.applied = w.applied
  keys : ∀ name key, w.keys.get name = some key → t.keys.get name = some key

theorem Prepares.settled {e : ApplyError} (h : Prepares w t) (he : Denied e) :
    Settled dev o network w (.error e : Except ApplyError α) t :=
  .of_denied he (.inr ⟨h.units, h.applied⟩)

theorem Prepares.putKey {name key : Text} {op : ℕ} (hnone : t.keys.get name = none) (h : Prepares w t) :
    Prepares w { t.putKey name key with op } := by
  refine ⟨h.units, h.applied, fun n k hkey ↦ ?_⟩
  have hheld := h.keys n k hkey
  simp only [World.putKey, OrdMap.get_insert]
  split
  · next heq => simp [heq, hnone] at hheld
  · exact hheld

/-- What the steps that replace the unit files leave as it was. -/
structure Keyed (network : NetworkMap) (w t : World) : Prop where
  psks : Synced (presharedKeys network) t.psks
  keys : ∀ name key, w.keys.get name = some key → t.keys.get name = some key

def Replaced (files : OrdMap Text Text) (w t : World) : Prop :=
  ∀ n, t.units.get n = if isMicaManaged n = true then files.get n else w.units.get n

variable {files : OrdMap Text Text}

theorem Replaced.managed (h : Replaced files w t) (hfiles : AllManaged files) :
    t.managed = files := by
  refine OrdMap.ext_get fun n ↦ ?_
  rw [get_managed, h n]
  cases hm : isMicaManaged n with
  | true => simp
  | false =>
    have hnone : files.get n = none := Option.eq_none_iff_forall_ne_some.2 fun text htext ↦ by
      simp [hfiles n text htext] at hm
    simp [hnone]

theorem Replaced.restored {u : World} (h : Replaced files w t) (hback : Replaced w.managed t u) :
    u.units = w.units := by
  refine OrdMap.ext_get fun n ↦ ?_
  rw [hback n, h n, get_managed]
  cases isMicaManaged n <;> simp

theorem settled_ok {state : α} (happlied : t.applied = true)
    (hfiles : t.managed = renderFiles dev.board dev.keystore network (undeclaredPorts dev o network)) :
    Settled dev o network w (.ok state) t :=
  ⟨fun _ _ ↦ ⟨happlied, hfiles⟩, fun _ hr ↦ (by cases hr), fun _ hr ↦ (by cases hr)⟩

theorem settle_settled {state : List (Text × IfaceState)} (hkeyed : Keyed network w t)
    (h : Replaced (renderFiles dev.board dev.keystore network (undeclaredPorts dev o network)) w t)
    (hbefore : w.applied = true) (happlied : t.applied = true) :
    wp (settle o network (renderFiles dev.board dev.keystore network (undeclaredPorts dev o network))
      w.managed state) (fun _ _ ↦ True) (Settled dev o network w) t := by
  have hfiles := h.managed (allManaged_renderFiles _ _ _ _)
  unfold settle
  dsimp only
  split
  · exact (wp_pure state).2 (settled_ok happlied hfiles)
  · split
    · exact (wp_pure state).2 (settled_ok happlied hfiles)
    · next reason hreason =>
      refine (replaceFiles_ensures (I := fun t ↦ Keyed network w t ∧ t.applied = true)
        (fun _ _ _ h ↦ ⟨⟨h.1.psks, h.1.keys⟩, h.2⟩) hfiles (allManaged_managed w)).wp_bind ⟨hkeyed, happlied⟩
          (fun _ u hu hback ↦ ?_) fun e u _ he ↦ .of_denied he.denied (.inl ⟨.restore, by simp, he.2⟩)
      refine (Ensures.probe (I := fun t ↦ (Keyed network w t ∧ t.applied = true) ∧ t.units = w.units)
        fun h ↦ ⟨⟨⟨h.1.1.psks, h.1.1.keys⟩, h.1.2⟩, h.2⟩).wp_bind ⟨hu, h.restored hback⟩
          (fun _ v hv _ ↦ ?_) fun e v hv he ↦
            .of_denied he.denied (.inr ⟨hv.2, hv.1.2.trans hbefore.symm⟩)
      obtain ⟨⟨hkeyed, happlied⟩, hunits⟩ := hv
      rw [wp_fail]
      refine ⟨fun _ hr ↦ (by cases hr), fun _ hr ↦ ?_, fun e he hdenied ↦ ?_⟩
      · cases hr
        exact ⟨hbefore, happlied, hunits, hkeyed.psks, hkeyed.keys, _, hreason⟩
      · exact absurd (Except.error.inj he).symm (hdenied reason)

theorem writeAndSettle_settled :
    wp (writeAndSettle dev o network) (fun _ _ ↦ True) (Settled dev o network w) w := by
  have hrefused : ∀ {x : Except String Unit}, Ensures (Prepares w)
      (Prog.ofExcept (x.mapError .refused))
      (fun _ t ↦ t = w) Denied w := by
    intro x
    refine Ensures.ofExcept (fun _ _ ↦ rfl) fun e he reason heq ↦ ?_
    cases x <;> simp_all [Except.mapError]
  have hstart : Prepares w w := ⟨rfl, rfl, fun _ _ h ↦ h⟩
  unfold writeAndSettle
  refine hrefused.wp_bind hstart (fun _ t₁ _ h₁ ↦ ?_) fun _ _ h he ↦ h.settled he
  subst h₁
  refine hrefused.wp_bind hstart (fun _ t₂ _ h₂ ↦ ?_) fun _ _ h he ↦ h.settled he
  subst h₂
  refine (syncPsks_ensures (fun _ _ _ h ↦ ⟨h.units, h.applied, h.keys⟩) (nodup_pskFiles network)).wp_bind
    hstart (fun _ t₃ h₃ hsynced ↦ ?_) fun _ _ h he ↦ h.settled he.denied
  -- From here to the first unit file, only keys are added.
  let I : World → Prop := fun t ↦ Prepares t₂ t ∧ Synced (presharedKeys network) t.psks
  have hop (v : World) (op : ℕ) (h : I v) :
      I { v with op } := ⟨⟨h.1.units, h.1.applied, h.1.keys⟩, h.2⟩
  refine (Ensures.probe (hop _ _)).wp_bind ⟨h₃, hsynced⟩ (fun _ t₄ h₄ _ ↦ ?_) fun _ _ h he ↦
    h.1.settled he.denied
  have hmanaged : Ensures I (managedFiles o)
      (fun previous t ↦ previous = t.managed) (Failed o .prepare) t₄ :=
    (Ensures.probe (hop _ _)).bind fun _ _ _ ↦ Ensures.get_bind (Ensures.pure rfl)
  refine hmanaged.wp_bind h₄ (fun previous t₅ h₅ hprevious ↦ ?_) fun _ _ h he ↦
    h.1.settled he.denied
  obtain rfl : previous = t₂.managed := hprevious.trans (managed_of_units h₅.1.units)
  refine (ensureKeys_ensures hop (fun _ _ _ _ hnone h ↦ ⟨h.1.putKey hnone, h.2⟩) network.entries).wp_bind h₅
    (fun state t₆ h₆ _ ↦ ?_) fun _ _ h he ↦ h.1.settled he
  refine (replaceFiles_ensures (I := fun t ↦ Keyed network t₂ t ∧ t.applied = t₂.applied)
    (fun _ _ _ h ↦ ⟨⟨h.1.psks, h.1.keys⟩, h.2⟩) (managed_of_units h₆.1.units)
      (allManaged_renderFiles _ _ _ _)).wp_bind ⟨⟨h₆.2, h₆.1.keys⟩, h₆.1.applied⟩ (fun _ t₇ h₇ hput ↦ ?_)
    fun e t _ he ↦ .of_denied he.denied (.inl ⟨.replace, by simp, he.2⟩)
  have hreplaced : Replaced (renderFiles dev.board dev.keystore network (undeclaredPorts dev o network))
      t₂ t₇ := by
    intro n
    rw [hput n, h₆.1.units]
  refine (Ensures.probe (I := fun t ↦ (Keyed network t₂ t ∧ t.applied = t₂.applied) ∧ t.units = t₇.units)
    fun h ↦ ⟨⟨⟨h.1.1.psks, h.1.1.keys⟩, h.1.2⟩, h.2⟩).wp_bind ⟨h₇, rfl⟩ (fun _ t₈ h₈ _ ↦ ?_)
      fun e t _ he ↦ .of_denied he.denied (.inl ⟨.reload, by simp, he.2⟩)
  obtain ⟨⟨hkeyed, happlied⟩, hunits⟩ := h₈
  have hreplaced : Replaced (renderFiles dev.board dev.keystore network (undeclaredPorts dev o network))
      t₂ { t₈ with applied := true } := by
    intro n
    rw [← hreplaced n]
    exact congrArg (OrdMap.get · n) hunits
  rw [Prog.wp_get_bind, Prog.wp_bind, wp_write]
  refine ⟨trivial, ?_⟩
  rw [andThen_ok, happlied]
  cases hbefore : t₂.applied with
  | false => exact (wp_pure state).2 (settled_ok rfl (hreplaced.managed (allManaged_renderFiles _ _ _ _)))
  | true => exact settle_settled ⟨hkeyed.psks, hkeyed.keys⟩ hreplaced hbefore rfl

theorem retainKeys_ensures {I : World → Prop} (hI : ∀ v keys op, I v → I { v with keys, op })
    (keep : List Text) :
    Ensures I (retainKeys o keep) (fun _ _ ↦ True) (Failed o .retain) w := by
  have hloop : ∀ (names : List Text) (w : World), Ensures I
      (forM names fun name ↦ Prog.when ((keyIface name).any (!keep.contains ·))
        (attempted o .retain (World.removeKey name))) (fun _ _ ↦ True) (Failed o .retain) w := by
    intro names
    induction names with
    | nil => exact fun w ↦ Ensures.pure trivial
    | cons name names ih =>
      intro w
      rw [List.forM_cons]
      exact (Ensures.when (fun _ ↦ Ensures.attempted (Q := fun _ _ ↦ True) (hI _ _ _) (hI _ _ _) trivial)
        fun _ ↦ trivial).bind fun _ t _ ↦ ih t
  unfold retainKeys
  exact (Ensures.probe (hI _ _ _)).bind fun _ t _ ↦ Ensures.get_bind (hloop _ _)

theorem apply_settled : wp (apply dev o network) (fun _ _ ↦ True) (Settled dev o network w) w := by
  unfold apply
  rw [Prog.wp_bind]
  refine wp_mono writeAndSettle_settled (fun _ _ h ↦ h) fun r t h ↦ ?_
  cases r with
  | error e =>
    rw [andThen_error]
    exact ⟨fun _ ha ↦ (by cases ha), fun reason hr ↦ h.rolledBack reason (by cases hr; rfl),
      fun e' he' ↦ h.denied e' (by cases he'; rfl)⟩
  | ok state =>
    obtain ⟨happlied, hfiles⟩ := h.ok state rfl
    rw [andThen_ok]
    refine (retainKeys_ensures (I := fun u ↦ u.applied = true ∧ u.units = t.units) (fun _ _ _ h ↦ h)
      (tunnels network)).wp_bind ⟨happlied, rfl⟩ (fun _ u hu _ ↦ ?_) fun e u _ he ↦
        .of_denied he.denied (.inl ⟨.retain, by simp, he.2⟩)
    exact (wp_pure state).2 (settled_ok hu.1 ((managed_of_units hu.2).trans hfiles))

end MicaCore.Network
