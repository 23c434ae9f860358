import MicaCore.Network.FileNames

namespace MicaCore.Network

open Crash Crash.Prog Data

variable {α β : Type} {o : Outcomes} {w : World}

@[simp] theorem tick_units (w : World) : w.tick.units = w.units := rfl
@[simp] theorem tick_keys (w : World) : w.tick.keys = w.keys := rfl
@[simp] theorem tick_psks (w : World) : w.tick.psks = w.psks := rfl
@[simp] theorem tick_applied (w : World) : w.tick.applied = w.applied := rfl

theorem get_putPsk (w : World) (name key n : Text) :
    (w.putPsk name key).tick.psks.get n = if n = name then some key else w.psks.get n := by
  simp [World.putPsk, OrdMap.get_insert]

theorem get_removePsk (w : World) (name n : Text) :
    (w.removePsk name).tick.psks.get n = if n = name then none else w.psks.get n := by
  simp [World.removePsk, OrdMap.get_erase]

theorem get_putUnit (w : World) (name text n : Text) :
    (w.putUnit name text).tick.units.get n = if n = name then some text else w.units.get n := by
  simp [World.putUnit, OrdMap.get_insert]

theorem get_removeUnit (w : World) (name n : Text) :
    (w.removeUnit name).tick.units.get n = if n = name then none else w.units.get n := by
  simp [World.removeUnit, OrdMap.get_erase]

theorem get_managed (w : World) (n : Text) :
    w.managed.get n = if isMicaManaged n = true then w.units.get n else none := by
  refine Option.ext fun text ↦ ?_
  rw [World.managed, OrdMap.get_filter_eq_some]
  cases isMicaManaged n <;> simp

theorem allManaged_managed (w : World) : AllManaged w.managed := by
  intro name text h
  rw [get_managed] at h
  split at h
  · assumption
  · cases h

theorem managed_of_allManaged {w : World} (h : AllManaged w.units) : w.managed = w.units := by
  refine OrdMap.ext_get fun n ↦ ?_
  rw [get_managed]
  cases hn : w.units.get n with
  | none => simp
  | some text => rw [if_pos (h n text hn)]

theorem managed_of_units {w t : World} (h : t.units = w.units) : t.managed = w.managed := by
  rw [World.managed, World.managed, h]

/-- From a state in `I` the part stays in `I`, answers as `Q` says, and fails only as `E` says. -/
def Ensures (I : World → Prop) (p : Apply α) (Q : α → World → Prop) (E : ApplyError → Prop)
    (w : World) : Prop :=
  I w → wp p (fun _ _ ↦ True)
    (fun r t ↦ I t ∧ (∀ a, r = .ok a → Q a t) ∧ ∀ e, r = .error e → E e) w

def Failed (o : Outcomes) (stage : Stage) (e : ApplyError) : Prop :=
  e = .os ∧ ∃ n, o.fails stage n = true

def Denied (e : ApplyError) : Prop := ∀ reason, e ≠ .rolledBack reason

theorem Failed.denied {stage : Stage} {e : ApplyError} (h : Failed o stage e) : Denied e := by
  intro reason heq
  simp [h.1] at heq

theorem denied_of_orError {x : Option α} {e e' : ApplyError} (he : Denied e)
    (h : orError e x = .error e') : Denied e' := by
  cases x with
  | some a => simp [orError] at h
  | none => exact Except.error.inj h ▸ he

namespace Ensures

variable {I : World → Prop} {p : Apply α} {f : α → Apply β} {Q : α → World → Prop}
  {R : β → World → Prop} {E E' : ApplyError → Prop} {stage : Stage}

theorem mono {Q' : α → World → Prop} (h : Ensures I p Q E w) (hQ : ∀ a t, Q a t → Q' a t)
    (hE : ∀ e, E e → E' e) : Ensures I p Q' E' w := fun hw ↦
  wp_mono (h hw) (fun _ _ h ↦ h) fun _ t ht ↦
    ⟨ht.1, fun a ha ↦ hQ a t (ht.2.1 a ha), fun e he ↦ hE e (ht.2.2 e he)⟩

theorem pure {a : α} (h : Q a w) : Ensures I (pure a : Apply α) Q E w := by
  intro hw
  rw [wp_pure]
  exact ⟨hw, fun b hb ↦ by cases hb; exact h, fun e he ↦ by cases he⟩

theorem ofExcept {x : Except ApplyError α} (hok : ∀ a, x = .ok a → Q a w)
    (herr : ∀ e, x = .error e → E e) : Ensures I (Prog.ofExcept x) Q E w := by
  intro hw
  rw [wp_ofExcept]
  exact ⟨hw, hok, herr⟩

theorem wp_bind {R : Except ApplyError β → World → Prop} (h : Ensures I p Q E w) (hw : I w)
    (hok : ∀ a t, I t → Q a t → wp (f a) (fun _ _ ↦ True) R t)
    (herr : ∀ e t, I t → E e → R (.error e) t) : wp (p >>= f) (fun _ _ ↦ True) R w :=
  wp_seq (h hw) (fun a t ht ↦ hok a t ht.1 (ht.2.1 a rfl)) (fun _ _ h ↦ h) fun e t ht ↦
    herr e t ht.1 (ht.2.2 e rfl)

theorem bind (h : Ensures I p Q E w) (hf : ∀ a t, Q a t → Ensures I (f a) R E t) :
    Ensures I (p >>= f) R E w := fun hw ↦
  h.wp_bind hw (fun a t ht ha ↦ hf a t ha ht) fun e t ht he ↦
    ⟨ht, by simp, fun e' he' ↦ by cases he'; exact he⟩

theorem map {g : α → β} (h : Ensures I p (fun a t ↦ R (g a) t) E w) : Ensures I (g <$> p) R E w :=
  h.bind fun _ _ ha ↦ pure ha

theorem get_bind {f : World → Apply β} (h : Ensures I (f w) R E w) :
    Ensures I (Prog.get >>= f) R E w := by
  intro hw
  rw [wp_get_bind]
  exact h hw

theorem when {b : Bool} {p : Apply Unit} {Q : Unit → World → Prop}
    (hdo : b = true → Ensures I p Q E w) (hskip : b = false → Q () w) :
    Ensures I (Prog.when b p) Q E w := by
  unfold Prog.when
  cases b with
  | false => exact pure (hskip rfl)
  | true => exact hdo rfl

theorem attempted {effect : World → World} {Q : Unit → World → Prop} (hfail : I w → I w.tick)
    (hdone : I w → I (effect w).tick) (hok : Q () (effect w).tick) :
    Ensures I (attempted o stage effect) Q (Failed o stage) w := by
  intro hw
  unfold Network.attempted
  rw [wp_get_bind]
  cases hf : o.fails stage w.op with
  | false =>
    rw [if_neg (by decide), wp_write]
    exact ⟨trivial, hdone hw, fun a ha ↦ hok, by simp⟩
  | true =>
    rw [if_pos rfl, Prog.wp_bind, wp_write]
    refine ⟨trivial, ?_⟩
    rw [andThen_ok, wp_fail]
    refine ⟨hfail hw, by simp, fun e he ↦ ?_⟩
    cases he
    exact ⟨rfl, _, hf⟩

theorem probe (hI : I w → I w.tick) :
    Ensures I (Network.attempted o stage id) (fun _ t ↦ t = w.tick) (Failed o stage) w :=
  attempted hI hI rfl

end Ensures

section Loops

variable {I : World → Prop} {dir : World → OrdMap Text Text} {name : β → Text}
  {E : ApplyError → Prop}

theorem Ensures.forM_put (dir : World → OrdMap Text Text) (text : β → Text) {f : β → Apply Unit}
    {xs : List β} (hnodup : (xs.map name).Nodup)
    (hround : ∀ x ∈ xs, ∀ v, (dir v).get (name x) = (dir w).get (name x) →
      Ensures I (f x) (fun _ t ↦ ∀ n, (dir t).get n =
        if n = name x then some (text x) else (dir v).get n) E v) :
    Ensures I (forM xs f) (fun _ t ↦ ∀ n,
      (∀ x ∈ xs, name x = n → (dir t).get n = some (text x)) ∧
        ((∀ x ∈ xs, name x ≠ n) → (dir t).get n = (dir w).get n)) E w := by
  have hloop : ∀ ys : List β, (ys.map name).Nodup → (∀ x ∈ ys, x ∈ xs) → ∀ v,
      (∀ x ∈ ys, (dir v).get (name x) = (dir w).get (name x)) →
      Ensures I (forM ys f) (fun _ t ↦ ∀ n,
        (∀ x ∈ ys, name x = n → (dir t).get n = some (text x)) ∧
          ((∀ x ∈ ys, name x ≠ n) → (dir t).get n = (dir v).get n)) E v := by
    intro ys
    induction ys with
    | nil => exact fun _ _ v _ ↦ Ensures.pure fun n ↦ ⟨by simp, fun _ ↦ rfl⟩
    | cons x ys ih =>
      intro hys hsub v hsame
      obtain ⟨hx, hys⟩ := List.nodup_cons.1 hys
      have hother : ∀ y ∈ ys, name y ≠ name x := fun y hy heq ↦ hx (heq ▸ List.mem_map_of_mem hy)
      rw [List.forM_cons]
      refine (hround x (hsub x (by simp)) v (hsame x (by simp))).bind fun _ t hput ↦ ?_
      refine (ih hys (fun y hy ↦ hsub y (by simp [hy])) t fun y hy ↦ ?_).mono
        (fun _ u hpost n ↦ ⟨fun y hy hn ↦ ?_, fun hnone ↦ ?_⟩) fun _ he ↦ he
      · rw [hput, if_neg (hother y hy)]
        exact hsame y (by simp [hy])
      · rcases List.mem_cons.1 hy with rfl | hy
        · rw [(hpost n).2 fun z hz heq ↦ hother z hz (heq.trans hn.symm), hput, if_pos hn.symm]
        · exact (hpost n).1 y hy hn
      · rw [(hpost n).2 fun z hz ↦ hnone z (by simp [hz]), hput, if_neg fun h ↦ hnone x (by simp) h.symm]
  exact hloop xs hnodup (fun _ h ↦ h) w fun _ _ ↦ rfl

theorem Ensures.forM_remove {f : Text → Apply Unit} {p : Text → Bool} {xs : List Text}
    (hround : ∀ x v, Ensures I (f x) (fun _ t ↦ ∀ n,
      (dir t).get n = if n = x ∧ p x = true then none else (dir v).get n) E v) :
    Ensures I (forM xs f) (fun _ t ↦ ∀ n,
      (dir t).get n = if n ∈ xs ∧ p n = true then none else (dir w).get n) E w := by
  induction xs generalizing w with
  | nil => exact Ensures.pure fun n ↦ by simp
  | cons x xs ih =>
    rw [List.forM_cons]
    refine (hround x w).bind fun _ t hrem ↦ ih.mono (fun _ u hpost n ↦ ?_) fun _ he ↦ he
    rw [hpost n, hrem n]
    by_cases hn : n = x
    · subst hn
      by_cases hp : p n = true <;> simp [hp]
    · simp [hn]

end Loops

section Parts

variable {I : World → Prop} {dev : Device} {stage : Stage}

structure Synced (keys : List ((Text × ℕ) × Text)) (psks : OrdMap Text Text) : Prop where
  held : ∀ k ∈ keys, psks.get (pskFile k.1.1 k.1.2) = some k.2
  gone : ∀ name, (pskIface name).isSome → (∀ k ∈ keys, pskFile k.1.1 k.1.2 ≠ name) →
    psks.get name = none

section Psks

variable (hI : ∀ v psks op, I v → I { v with psks, op })

include hI

theorem putPsk_ensures (name key : Text) :
    Ensures I (do
      let w ← Prog.get
      Prog.when (w.psks.get name != some key) (attempted o .psks (World.putPsk name key)))
      (fun _ t ↦ ∀ n, t.psks.get n = if n = name then some key else w.psks.get n) (Failed o .psks) w := by
  refine Ensures.get_bind (Ensures.when (fun _ ↦ Ensures.attempted (hI _ _ _) (hI _ _ _)
    (get_putPsk w name key)) fun hskip n ↦ ?_)
  have hheld : w.psks.get name = some key := by simpa using hskip
  split
  · next hn => rw [hn, hheld]
  · rfl

theorem removePsks_ensures (names kept : List Text) :
    Ensures I (forM names fun name ↦ Prog.when ((pskIface name).isSome && !kept.contains name)
        (attempted o .psks (World.removePsk name)))
      (fun _ t ↦ ∀ n, t.psks.get n = if n ∈ names ∧ ((pskIface n).isSome && !kept.contains n) = true
        then none else w.psks.get n) (Failed o .psks) w := by
  refine Ensures.forM_remove fun name v ↦ Ensures.when (fun hdo ↦
    Ensures.attempted (hI _ _ _) (hI _ _ _) fun n ↦ ?_) fun hskip n ↦ ?_
  · rw [hdo, get_removePsk]
    simp only [and_true]
  · rw [hskip, if_neg (by simp)]

theorem syncPsks_ensures {keys : List ((Text × ℕ) × Text)}
    (hnodup : (keys.map fun k ↦ pskFile k.1.1 k.1.2).Nodup) :
    Ensures I (syncPsks o keys) (fun _ t ↦ Synced keys t.psks) (Failed o .psks) w := by
  unfold syncPsks
  refine (Ensures.probe (hI _ _ _)).bind fun _ t₁ _ ↦ ?_
  refine (Ensures.forM_put World.psks Prod.snd hnodup fun k _ _ _ ↦ putPsk_ensures hI (pskFile k.1.1 k.1.2) k.2).bind
    fun _ t₂ hput ↦ ?_
  refine (Ensures.probe (hI _ _ _)).bind fun _ t₃ hlisted ↦ Ensures.get_bind ?_
  have hsame : t₃.psks = t₂.psks := by rw [hlisted, tick_psks]
  refine (removePsks_ensures hI _ _).mono (fun _ t hpost ↦ ⟨fun k hk ↦ ?_, fun name hpsk hkept ↦ ?_⟩)
    fun _ he ↦ he
  · have hmem : (keys.map fun k ↦ pskFile k.1.1 k.1.2).contains (pskFile k.1.1 k.1.2) = true :=
      List.contains_iff_mem.2 (List.mem_map.2 ⟨k, hk, rfl⟩)
    rw [hpost, hmem, if_neg (by simp), hsame]
    exact (hput _).1 k hk rfl
  · rw [hpost]
    split
    · rfl
    · next hnot =>
      have hmem : (keys.map fun k ↦ pskFile k.1.1 k.1.2).contains name = false := by
        simpa using fun iface index key hk ↦ hkept _ hk
      have hunlisted : name ∉ t₃.psks.keys := fun h ↦ hnot ⟨h, by rw [hpsk, hmem]; rfl⟩
      exact Option.eq_none_iff_forall_ne_some.2 fun v hv ↦ hunlisted (OrdMap.mem_keys.2 ⟨v, hv⟩)

end Psks

section Keys

variable (hI : ∀ v op, I v → I { v with op })
  (hput : ∀ v name key op, v.keys.get name = none → I v → I { v.putKey name key with op })

include hI hput

/-- A key is only drawn for an interface that has none. -/
theorem ensureKey_ensures (iface : Text) :
    Ensures I (ensureKey dev o iface) (fun _ _ ↦ True) Denied w := by
  unfold ensureKey
  refine ((Ensures.probe (hI _ _)).mono (fun _ _ h ↦ h) fun _ ↦ Failed.denied).bind fun _ t _ ↦
    Ensures.get_bind ?_
  split
  · exact Ensures.ofExcept (fun _ _ ↦ trivial) fun e he ↦ denied_of_orError (fun _ ↦ by simp) he
  · next hnone =>
    refine ((Ensures.attempted (Q := fun _ _ ↦ True) (hI _ _) (hput _ _ _ _ hnone) trivial).mono
      (fun _ _ h ↦ h) fun _ ↦ Failed.denied).bind fun _ u _ ↦ ?_
    exact Ensures.ofExcept (fun _ _ ↦ trivial) fun e he ↦ denied_of_orError (fun _ ↦ by simp) he

theorem ensureKeys_ensures (entries : List (Text × IfaceSettings)) :
    Ensures I (ensureKeys dev o entries) (fun _ _ ↦ True) Denied w := by
  induction entries generalizing w with
  | nil => exact Ensures.pure trivial
  | cons e entries ih =>
    obtain ⟨iface, cfg⟩ := e
    rw [ensureKeys]
    split
    · exact (Ensures.map (R := fun _ _ ↦ True) (ensureKey_ensures hI hput iface)).bind fun _ t _ ↦
        ih.bind fun _ u _ ↦ Ensures.pure trivial
    · exact ih.bind fun _ u _ ↦ Ensures.pure trivial

end Keys

section Units

variable (hI : ∀ v units op, I v → I { v with units, op }) {files : OrdMap Text Text}

include hI

theorem putUnits_ensures (hfiles : AllManaged files) :
    Ensures I (forM files.entries fun e ↦
        Prog.when (w.managed.get e.1 != some e.2) (attempted o stage (World.putUnit e.1 e.2)))
      (fun _ t ↦ ∀ n, t.units.get n = (files.get n).or (w.units.get n)) (Failed o stage) w := by
  have hnodup : (files.entries.map Prod.fst).Nodup :=
    List.pairwise_map.2 (files.sorted.imp fun h ↦ ne_of_lt h)
  refine (Ensures.forM_put World.units Prod.snd hnodup fun e he v hsame ↦
    Ensures.when (fun _ ↦ Ensures.attempted (hI _ _ _) (hI _ _ _) (get_putUnit v e.1 e.2))
      fun hskip n ↦ ?_).mono (fun _ t hput n ↦ ?_) fun _ he ↦ he
  · have hheld : w.managed.get e.1 = some e.2 := by simpa using hskip
    rw [get_managed, if_pos (hfiles e.1 e.2 (OrdMap.get_eq_some_iff.2 he)), ← hsame] at hheld
    split
    · next hn => rw [hn, hheld]
    · rfl
  · cases hfile : files.get n with
    | some text => exact (hput n).1 _ (OrdMap.get_eq_some_iff.1 hfile) rfl
    | none =>
      refine (hput n).2 fun e he heq ↦ ?_
      rw [← heq, OrdMap.get_eq_some_iff.2 he] at hfile
      cases hfile

theorem removeUnits_ensures (names : List Text) :
    Ensures I (forM names fun name ↦
        Prog.when (files.get name).isNone (attempted o stage (World.removeUnit name)))
      (fun _ t ↦ ∀ n, t.units.get n = if n ∈ names ∧ (files.get n).isNone = true then none
        else w.units.get n) (Failed o stage) w := by
  refine Ensures.forM_remove fun name v ↦ Ensures.when (fun hdo ↦
    Ensures.attempted (hI _ _ _) (hI _ _ _) fun n ↦ ?_) fun hskip n ↦ ?_
  · rw [hdo, get_removeUnit]
    simp only [and_true]
  · rw [hskip, if_neg (by simp)]

theorem replaceFiles_ensures {current : OrdMap Text Text} (hcurrent : w.managed = current)
    (hfiles : AllManaged files) :
    Ensures I (replaceFiles o stage files current)
      (fun _ t ↦ ∀ n, t.units.get n = if isMicaManaged n = true then files.get n else w.units.get n)
      (Failed o stage) w := by
  subst hcurrent
  unfold replaceFiles
  refine (putUnits_ensures hI hfiles).bind fun _ t hput ↦ ?_
  refine (removeUnits_ensures hI _).mono (fun _ u hpost n ↦ ?_) fun _ he ↦ he
  rw [hpost, hput]
  cases hfile : files.get n with
  | some text => simp [hfiles n text hfile]
  | none =>
    have hlisted : n ∈ w.managed.keys ↔ isMicaManaged n = true ∧ ∃ text, w.units.get n = some text := by
      rw [OrdMap.mem_keys, get_managed]
      cases isMicaManaged n <;> simp
    cases hget : w.units.get n <;> cases hm : isMicaManaged n <;> simp [hlisted, hget, hm]

end Units

end Parts

end MicaCore.Network
