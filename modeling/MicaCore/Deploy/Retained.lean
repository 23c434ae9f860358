import MicaCore.Deploy.Binding
import MicaCore.Deploy.Candidate

namespace MicaCore.Deploy

open Data Crash Prog

/-- What keeps an entry with a boot left when the running one is confirmed. -/
inductive State.Spares (state : State) (entries : List Record) (running other : Record) : Prop
  | named : other.id ∉ state.failed → state.current = some other.id ∨
      state.fallback = some other.id →
      Spares state entries running other
  | newer : other.id ∉ state.failed → other.triesLeft.isSome →
      running.generation < other.generation →
      Spares state entries running other
  | fallback : state.current = some running.id → state.fallback = some other.id →
      Spares state entries running other
  | confirmed : other.triesLeft = none → other.id ∉ state.failed →
      running.triesLeft.isSome ∨ entries.head? = some other → Spares state entries running other
  | unrecorded : running.triesLeft.isSome → state.current ≠ some running.id →
      Spares state entries running other

structure TwoEntries (es : List Record) (r o : Record) : Prop where
  eq : es = [r, o] ∨ es = [o, r]
  ne : r.id ≠ o.id

theorem EntryList.twoEntries {es : List Record} (h : EntryList es) {r o : Record} (hr : r ∈ es)
    (ho : o ∈ es) (hne : r.id ≠ o.id) : TwoEntries es r o := by
  refine ⟨?_, hne⟩
  match es, h.length_le with
  | [], _ => simp at hr
  | [x], _ =>
    rw [List.mem_singleton] at hr ho
    exact absurd (by rw [hr, ho]) hne
  | [x, y], _ =>
    rcases List.mem_cons.1 hr with rfl | hr
    · rcases List.mem_cons.1 ho with rfl | ho
      · exact absurd rfl hne
      · exact .inl (by rw [List.mem_singleton.1 ho])
    · obtain rfl := List.mem_singleton.1 hr
      rcases List.mem_cons.1 ho with rfl | ho
      · exact .inr rfl
      · exact absurd (by rw [List.mem_singleton.1 ho]) hne

namespace TwoEntries

variable {es : List Record} {r o : Record} {state st : State} (h : TwoEntries es r o)

include h

theorem mem {e : Record} : e ∈ es ↔ e = r ∨ e = o := by
  rcases h.eq with rfl | rfl
  · simp
  · simp [or_comm]

theorem any {p : Record → Bool} : es.any p = (p r || p o) := by
  rcases h.eq with rfl | rfl
  · simp
  · simp [Bool.or_comm]

theorem current_iff (hr : r.id ∉ state.failed) :
    ((state.confirmed es).map Record.id).or state.current = some r.id ↔
      ¬(o.triesLeft = none ∧ o.id ∉ state.failed ∧ (r.triesLeft.isSome ∨ es.head? = some o)) ∧
        (r.triesLeft = none ∨ state.current = some r.id) := by
  have hne := h.ne
  have hro : r ≠ o := fun he ↦ hne (by rw [he])
  unfold State.confirmed
  rcases h.eq with rfl | rfl
  · cases htr : r.triesLeft with
    | none => simp [htr, hr, hro]
    | some n =>
      cases hto : o.triesLeft with
      | none =>
        by_cases ho : o.id ∈ state.failed
        · simp [htr, hto, ho]
        · simp [htr, hto, ho, hne.symm]
      | some m => simp [htr, hto]
  · cases hto : o.triesLeft with
    | none =>
      by_cases ho : o.id ∈ state.failed
      · cases htr : r.triesLeft with
        | none => simp [htr, hto, ho, hr]
        | some n => simp [htr, hto, ho]
      · simp [hto, ho, hne.symm]
    | some m =>
      cases htr : r.triesLeft with
      | none => simp [htr, hto, hr]
      | some n => simp [htr, hto]

theorem find_running : es.find? (·.id == r.id) = some r := by
  have hne := h.ne
  rcases h.eq with rfl | rfl
  · simp
  · simp [hne.symm]

theorem usable_iff {c : Record} (hc : c.id = r.id) (hleft : o.triesLeft ≠ some 0) {id : Text} :
    state.usable es c id = true ↔ id = o.id ∧ o.id ∉ state.failed := by
  have hne := h.ne
  rw [State.usable, h.any, hc]
  simp only [bne_self_eq_false, Bool.and_false, Bool.false_and, Bool.false_or,
    Bool.and_eq_true, beq_iff_eq,
    bne_iff_ne, ne_eq, Bool.not_eq_true', List.contains_eq_mem, decide_eq_false_iff_not]
  constructor
  · rintro ⟨⟨⟨rfl, -⟩, -⟩, hfailed⟩
    exact ⟨rfl, hfailed⟩
  · rintro ⟨rfl, hfailed⟩
    exact ⟨⟨⟨rfl, hne.symm⟩, hleft⟩, hfailed⟩

omit h in
theorem or_filter_eq_some {a b : Option Text} {p : Text → Bool} {x : Text} {P : Prop}
    (hp : ∀ y, p y = true ↔ y = x ∧ P) :
    (a.filter p).or (b.filter p) = some x ↔ P ∧ (a = some x ∨ b = some x) := by
  have hfilter : ∀ c : Option Text, c.filter p = some x ↔ c = some x ∧ P := by
    intro c
    rw [Option.filter_eq_some_iff, hp]
    simp
  have honly : ∀ c : Option Text, ∀ y, c.filter p = some y → y = x := fun c y hy ↦
    ((hp y).1 (Option.filter_eq_some_iff.1 hy).2).1
  rw [Option.or_eq_some_iff, hfilter, hfilter]
  constructor
  · rintro (⟨ha, hP⟩ | ⟨-, hb, hP⟩)
    · exact ⟨hP, .inl ha⟩
    · exact ⟨hP, .inr hb⟩
  · rintro ⟨hP, ha | hb⟩
    · exact .inl ⟨ha, hP⟩
    · cases ha : a.filter p with
      | none => exact .inr ⟨rfl, hb, hP⟩
      | some y =>
        obtain rfl := honly a y ha
        exact .inl ((hfilter a).1 ha)

theorem fallback_iff (hleft : o.triesLeft ≠ some 0) (heff : state.effective es = .ok st)
    (hcur : st.current = some r.id) :
    st.fallback = some o.id ↔ state.current = some r.id ∧ state.fallback = some o.id ∨
      state.current ≠ some r.id ∧ o.id ∉ state.failed ∧
        (state.current = some o.id ∨ state.fallback = some o.id) := by
  have hfallback : st.fallback = ((state.raise es).reconcile es).fallback.filter fun id ↦
      es.any (·.id == id) := by
    rcases State.findCandidate_eq_ok heff with ⟨-, rfl⟩ | ⟨_, _, -, -, -, rfl⟩ <;> rfl
  have hpresent : es.any (·.id == o.id) = true := by simp [h.any]
  have hcurrent := (State.effective_eq_ok heff).2.2
  rw [hcur] at hcurrent
  rw [hfallback, Option.filter_eq_some_iff, and_iff_left hpresent]
  have hconf' : (state.raise es).confirmed es = state.confirmed es := rfl
  unfold State.reconcile
  rw [hconf']
  cases hconf : state.confirmed es with
  | none =>
    have hrec : state.current = some r.id := by simpa [hconf] using hcurrent.symm
    simp [State.raise, hrec]
  | some c =>
    have hc : c.id = r.id := by simpa [hconf] using hcurrent.symm
    simp only [hc]
    by_cases hrec : state.current = some r.id
    · simp [State.raise, hrec]
    · have husable : ∀ id, (state.raise es).usable es c id = true ↔ id = o.id ∧ o.id ∉ state.failed :=
        fun id ↦ h.usable_iff hc hleft
      have hraised : (state.raise es).current ≠ some r.id := hrec
      rw [if_neg hraised]
      exact (or_filter_eq_some husable).trans (by simp [hrec, State.raise])

theorem candidate_iff (hleft : o.triesLeft ≠ some 0) (heff : state.effective es = .ok st)
    (hcur : st.current = some r.id) :
    st.candidate = some o.id ↔ r.generation < o.generation ∧ o.triesLeft.isSome ∧
      o.id ∉ state.failed ∧ st.fallback ≠ some o.id := by
  rcases State.findCandidate_eq_ok heff with ⟨hnone, rfl⟩ | ⟨current, entry, hcurrent,
    hfind, -, rfl⟩
  · rw [hnone] at hcur
    cases hcur
  · obtain rfl : current = r.id := Option.some.inj (hcurrent.symm.trans hcur)
    obtain rfl : r = entry := Option.some.inj (h.find_running.symm.trans hfind)
    have hcounted : o.triesLeft.any (0 < ·) = true ↔ o.triesLeft.isSome = true := by
      cases ho : o.triesLeft with
      | none => simp
      | some n => simpa [Fin.pos_iff_ne_zero] using fun hn ↦ hleft (by rw [ho, hn])
    generalize hbase : ((state.raise es).reconcile es).dropAbsentFallback es = base
    have hfailed : base.failed = state.failed := by
      rw [← hbase]
      simp [State.dropAbsentFallback, State.raise]
    have hcandidates : (base.candidates es r.generation).head?.map Record.id = some o.id ↔
        o ∈ base.candidates es r.generation := by
      have hself : (decide (r.generation < r.generation)) = false := by simp
      unfold State.candidates
      rcases h.eq with rfl | rfl
      · rw [List.filter_cons, hself]
        simp only [Bool.false_and, Bool.false_eq_true, if_false, List.filter_cons, List.filter_nil]
        split <;> simp
      · rw [List.filter_cons, List.filter_cons, hself]
        simp only [Bool.false_and, Bool.false_eq_true, if_false, List.filter_nil]
        split <;> simp
    show (base.candidates es r.generation).head?.map Record.id = some o.id ↔ _
    rw [hcandidates, State.candidates, List.mem_filter]
    simp only [h.mem, or_true, true_and, Bool.and_eq_true, decide_eq_true_eq, hcounted, Bool.not_eq_true',
      List.contains_eq_mem, decide_eq_false_iff_not, hfailed, bne_iff_ne, and_assoc]

theorem recordFailures_eq : st.recordFailures es r.id =
    let st' := if o.triesLeft = some 0 then st.pushFailed o.id else st
    st'.clearCandidate st'.failed.contains := by
  have hne := h.ne
  unfold State.recordFailures
  rcases h.eq with rfl | rfl <;> by_cases hspent : o.triesLeft = some 0 <;> simp [hspent, hne.symm]

omit h in
theorem current_pushFailed (id : Text) : (st.pushFailed id).current = st.current := by
  unfold State.pushFailed
  split <;> rfl

omit h in
theorem mem_failed_pushFailed (id : Text) : id ∈ (st.pushFailed id).failed := by
  unfold State.pushFailed
  split
  · next hmem => simpa using hmem
  · simp

theorem nextFallback_eq (hknown : ∀ id, st.current = some id → id = r.id ∨ id = o.id) :
    st.nextFallback es r = if o.triesLeft = some 0 then none
      else if st.current = some r.id then st.fallback.filter (· == o.id) else some o.id := by
  have hne := h.ne
  have hother : es.find? (fun e ↦ e.id != r.id && e.triesLeft != some 0) =
      if o.triesLeft = some 0 then none else some o := by
    rcases h.eq with rfl | rfl <;> by_cases hspent : o.triesLeft = some 0 <;>
      simp [hspent, hne.symm]
  unfold State.nextFallback
  rw [hother]
  by_cases hspent : o.triesLeft = some 0 <;> by_cases hcur : st.current = some r.id
  · simp [hcur, hspent, h.any]
  · cases hc : st.current with
    | none => simp [hspent]
    | some id =>
      obtain rfl : id = o.id := (hknown id hc).resolve_left fun he ↦ hcur (by rw [hc, he])
      simp [h.any, hspent, hne]
  · have hid : (o.id != r.id) = true := by simpa using hne.symm
    have htries : (o.triesLeft != some 0) = true := by simpa using hspent
    simp [hcur, hspent, h.any, hid, htries, Bool.beq_comm]
  · cases hc : st.current with
    | none => simp [hspent]
    | some id =>
      obtain rfl : id = o.id := (hknown id hc).resolve_left fun he ↦ hcur (by rw [hc, he])
      simp [h.any, hspent, hne.symm, Option.filter_some]

section

variable (heff : state.effective es = .ok st)

include heff

theorem known {id : Text} (hid : st.current = some id) :
    id = r.id ∨ id = o.id := by
  obtain ⟨e, he, rfl⟩ := exists_entry_of_effective heff hid
  exact (h.mem.1 he).imp (congrArg Record.id) (congrArg Record.id)

theorem spares_of_current_ne (hr : r.id ∉ state.failed)
    (hcur : st.current ≠ some r.id) : state.Spares es r o := by
  rw [(State.effective_eq_ok heff).2.2, ne_eq, h.current_iff hr, not_and_or, not_not,
    not_or] at hcur
  rcases hcur with ⟨hnone, hfailed, hfirst⟩ | ⟨hsome, hrec⟩
  · exact .confirmed hnone hfailed hfirst
  · exact .unrecorded (Option.isSome_iff_ne_none.2 hsome) hrec

theorem spares_iff (hr : r.id ∉ state.failed) (hleft : o.triesLeft ≠ some 0)
    (hcur : st.current = some r.id) :
    state.Spares es r o ↔ st.fallback = some o.id ∨ st.candidate = some o.id := by
  have hcurrent := hcur
  rw [(State.effective_eq_ok heff).2.2, h.current_iff hr] at hcurrent
  obtain ⟨hfirst, hrec⟩ := hcurrent
  have hsame : state.current = some r.id → state.current ≠ some o.id := fun he ho ↦
    h.ne (Option.some.inj (he.symm.trans ho))
  rw [h.candidate_iff hleft heff hcur]
  constructor
  · intro hspares
    by_cases hfallback : st.fallback = some o.id
    · exact .inl hfallback
    · have hnot := mt (h.fallback_iff hleft heff hcur).2 hfallback
      cases hspares with
      | named hfailed hnamed =>
        refine absurd ?_ hnot
        by_cases he : state.current = some r.id
        · exact .inl ⟨he, hnamed.resolve_left (hsame he)⟩
        · exact .inr ⟨he, hfailed, hnamed⟩
      | newer hfailed hsome hgen => exact .inr ⟨hgen, hsome, hfailed, hfallback⟩
      | fallback he hf => exact absurd (.inl ⟨he, hf⟩) hnot
      | confirmed hnone hfailed hor => exact absurd ⟨hnone, hfailed, hor⟩ hfirst
      | unrecorded hsome he =>
        rcases hrec with hrec | hrec
        · rw [hrec] at hsome
          cases hsome
        · exact absurd hrec he
  · rintro (hfallback | ⟨hgen, hsome, hfailed, -⟩)
    · rcases (h.fallback_iff hleft heff hcur).1 hfallback with ⟨he, hf⟩ | ⟨-, hfailed, hnamed⟩
      · exact .fallback he hf
      · exact .named hfailed hnamed
    · exact .newer hfailed hsome hgen

theorem kept_iff {next failed : State}
    (hfailures : failed = st.recordFailures es r.id) (hr : r.id ∉ failed.failed)
    (hnext : next = failed.confirm (failed.nextFallback es r) r) :
    some o.id ∈ [next.current, next.fallback, next.candidate] ↔
      o.triesLeft ≠ some 0 ∧ state.Spares es r o := by
  have hne := h.ne
  have hmem : some o.id ∈ [next.current, next.fallback, next.candidate] ↔
      failed.nextFallback es r = some o.id ∨ failed.candidate = some o.id := by
    rw [hnext]
    simp [State.confirm, State.clearCandidate, hne, hne.symm, Option.filter_eq_some_iff,
      @eq_comm _ (some o.id)]
  rw [hmem]
  rw [h.recordFailures_eq] at hfailures
  by_cases hspent : o.triesLeft = some 0
  · simp only [if_pos hspent] at hfailures
    have hcurrent : failed.current = st.current := by rw [hfailures]; exact current_pushFailed o.id
    have hknown : ∀ id, failed.current = some id → id = r.id ∨ id = o.id := fun id hid ↦
      h.known heff (hcurrent ▸ hid)
    rw [h.nextFallback_eq hknown, if_pos hspent, hfailures]
    simp [State.clearCandidate, Option.filter_eq_some_iff, mem_failed_pushFailed, hspent]
  · simp only [if_neg hspent] at hfailures
    have hknown : ∀ id, failed.current = some id → id = r.id ∨ id = o.id := fun id hid ↦
      h.known heff (by rw [← hid, hfailures]; rfl)
    have hfailed : st.failed = state.failed := (State.effective_eq_ok heff).1
    have hr' : r.id ∉ state.failed := by
      rw [hfailures] at hr
      exact hfailed ▸ hr
    rw [h.nextFallback_eq hknown, if_neg hspent, and_iff_right hspent, hfailures]
    have hcurrent : (st.clearCandidate st.failed.contains).current = st.current := rfl
    rw [hcurrent]
    by_cases hcur : st.current = some r.id
    · rw [if_pos hcur, h.spares_iff heff hr' hspent hcur]
      have hcandidate : (st.clearCandidate st.failed.contains).candidate = some o.id ↔
          st.candidate = some o.id := by
        simp only [State.clearCandidate, Option.filter_eq_some_iff, List.contains_eq_mem, hfailed,
          Bool.not_eq_true', decide_eq_false_iff_not, and_iff_left_iff_imp]
        exact fun hc ↦ ((h.candidate_iff hspent heff hcur).1 hc).2.2.1
      rw [hcandidate]
      simp [State.clearCandidate, Option.filter_eq_some_iff]
    · rw [if_neg hcur]
      exact iff_of_true (.inl rfl) (h.spares_of_current_ne heff hr' hcur)

end

end TwoEntries

section Settling

variable {state : SetState} {R R' : List Text} {booted : Text} {s t : Device}

section

variable (h : ∀ x, x ∈ R ↔ x ∈ R')

include h

theorem SetState.makeCurrent_congr (id : Text) :
    state.makeCurrent R booted id = state.makeCurrent R' booted id := by
  have hbound : (state.makeCurrent R booted id).bound = (state.makeCurrent R' booted id).bound :=
    OrdMap.ext_get fun k ↦ by simp only [get_makeCurrent, h]
  unfold makeCurrent at hbound ⊢
  cases hcur : state.current with
  | none => rfl
  | some old =>
    simp only [hcur] at hbound
    simp only [hbound]

theorem contains_congr (x : Text) : R.contains x = R'.contains x := by
  rw [Bool.eq_iff_iff]
  simp [h]

theorem SetState.settle_congr (verdict : SetSettlement) :
    state.settle R booted verdict = state.settle R' booted verdict := by
  have happly : state.applyVerdict R booted verdict = state.applyVerdict R' booted verdict := by
    cases verdict with
    | unchanged | dropped => rfl
    | committed =>
      unfold applyVerdict
      cases state.pending with
      | none => rfl
      | some pending => exact makeCurrent_congr h pending
  have htake : ∀ st : SetState, st.takeOwn R booted = st.takeOwn R' booted := by
    intro st
    unfold takeOwn
    simp only [makeCurrent_congr h]
  have htidy : ∀ st : SetState, st.tidy R = st.tidy R' := by
    intro st
    unfold tidy
    simp only [contains_congr h]
  rw [settle, settle, happly, htake, htidy]

theorem SetState.verdict_congr (id : Text) (ended : Bool) :
    state.verdict R booted id ended = state.verdict R' booted id ended := by
  unfold verdict
  simp only [contains_congr h]

end

theorem Device.settlement_congr (hsets : t.sets = s.sets) (htrial : t.trial = s.trial)
    (hs : s.retainedDeployments (some booted) = .ok R)
    (ht : t.retainedDeployments (some booted) = .ok R') (h : ∀ x, x ∈ R' ↔ x ∈ R)
    (boot : CoreBoot) :
    t.settlement booted boot = s.settlement booted boot := by
  have hread : t.readState = s.readState := by rw [Device.readState, hsets, Device.readState]
  have hover : t.trialIsOver = s.trialIsOver := by
    funext pending
    rw [Device.trialIsOver, Device.readTrial, htrial, Device.trialIsOver, Device.readTrial]
  unfold Device.settlement
  rw [hread, hs, ht, hover]
  cases s.readState with
  | error e => rfl
  | ok held => simp only [bind, Except.bind, SetState.verdict_congr h, SetState.settle_congr h]

end Settling

/-- Exactly the confirmed entry and those with a boot left, and the sets as foreseen. -/
structure Retains (s t : Device) (booted : Text) : Prop where
  left : ∃ es left retained, s.boot.entries = .ok es ∧ t.boot.entries = .ok left ∧
    s.retainedDeployments (some booted) = .ok retained ∧
    (∀ id, id ∈ left.map Record.id ↔ ∃ e ∈ es, e.id = id ∧ (e.id = booted ∨ e.triesLeft ≠ some 0)) ∧
    ∀ id, id ∈ left.map Record.id ↔ id ∈ retained
  foreseen : ∀ boot held verdict state, t.readState = .ok held →
    t.settlement booted boot = .ok (verdict, state) → state ≠ held →
    s.setsNeedSettling booted boot = .ok true

section Confirming

variable {plan : Store.Confirmation} {receipt : BootReceipt} {s t : Device}

def Record.confirmedAs (id : Text) (e : Record) : Record :=
  if e.id = id then { e with triesLeft := none } else e

theorem Record.id_confirmedAs (id : Text) (e : Record) : (e.confirmedAs id).id = e.id := by
  unfold confirmedAs
  split <;> rfl

theorem Store.Confirmation.Seen.keeps_current (hseen : plan.Seen receipt s) :
    keeps plan.keep plan.current = true := by
  obtain ⟨_, -, -, hstate⟩ := hseen.state
  rw [keeps, Store.Confirmation.keep, hstate]
  simp [State.confirm, State.clearCandidate]

theorem Confirmed.entries (hseen : plan.Seen receipt s) (hdone : Confirmed plan s t) :
    ∃ left, t.boot.entries = .ok left ∧ ∀ e', e' ∈ left ↔
      ∃ e ∈ plan.entries, keeps plan.keep e = true ∧ e.confirmedAs plan.current.id = e' := by
  obtain ⟨b₀, b, i, htried, -, hretaining, hheld, rfl⟩ := hdone
  obtain ⟨hperm, hlist⟩ := BootRecords.entries_eq_ok hseen.entries
  have hkeeps : ∀ e : Record, keeps plan.keep (e.confirmedAs plan.current.id) = keeps plan.keep e :=
    fun e ↦ by rw [keeps, keeps, Record.id_confirmedAs]
  have hmem : ∀ e', e' ∈ b.view ↔
      ∃ e ∈ plan.entries, keeps plan.keep e = true ∧ e.confirmedAs plan.current.id = e' := by
    intro e'
    constructor
    · intro he
      have hk := hheld e' (b.view_subset_held he)
      have he₀ := hretaining.sub.subset he
      rw [htried.view] at he₀
      obtain ⟨e, hes, rfl⟩ := List.mem_map.1 he₀
      exact ⟨e, hperm.mem_iff.2 hes, (hkeeps e).symm.trans hk, rfl⟩
    · rintro ⟨e, hes, hk, rfl⟩
      refine hretaining.kept _ ?_ ((hkeeps e).trans hk)
      rw [htried.view]
      exact List.mem_map.2 ⟨e, hperm.mem_iff.1 hes, rfl⟩
  have hview : Listed s.boot.view := hlist.toListed.perm hperm.symm
  have hlisted : Listed b.view := by
    have hwith := hview.withTries plan.current.id none
    rw [← htried.view] at hwith
    exact hwith.sublist hretaining.sub
  have hne : b.view ≠ [] :=
    List.ne_nil_of_mem ((hmem _).2 ⟨plan.current, hseen.current, hseen.keeps_current, rfl⟩)
  obtain ⟨left, hleft⟩ := BootRecords.entries_of_listed hlisted hne
  exact ⟨left, hleft, fun e' ↦ (BootRecords.mem_view_of_mem_entries hleft).trans (hmem e')⟩

theorem Store.Confirmation.Seen.keeps_iff (hseen : plan.Seen receipt s) {other : Record}
    (hother : other ∈ plan.entries) (hne : plan.current.id ≠ other.id) :
    keeps plan.keep other = true ↔
      other.triesLeft ≠ some 0 ∧ s.recorded.Spares plan.entries plan.current other := by
  obtain ⟨-, hlist⟩ := BootRecords.entries_eq_ok hseen.entries
  obtain ⟨effective, heff, hfailed, hnext⟩ := hseen.state
  rw [← hseen.id] at hfailed hnext
  obtain ⟨entries, hentries, heff⟩ := Device.effective_of_effectiveState heff
  obtain rfl : plan.entries = entries := Except.ok.inj (hseen.entries.symm.trans hentries)
  have htwo := hlist.twoEntries hseen.current hother hne
  rw [← htwo.kept_iff heff rfl hfailed hnext, keeps, List.contains_iff_mem]
  rfl

theorem Store.confirmed_of_result {store : Store} {answer : State}
    (h : (store.confirm receipt s).result = .ok answer) :
    ∃ plan, store.planConfirm receipt s = .ok plan ∧
    Confirmed plan s ((store.confirm receipt).last s) := by
  have hpost := (store.wp_confirm receipt s).2
  rw [h] at hpost
  exact hpost

theorem Retains.spares (hseen : plan.Seen receipt s) (hdone : Confirmed plan s t)
    (h : Retains s t receipt.deploymentId) {other : Record} (hother : other ∈ plan.entries)
    (hne : plan.current.id ≠ other.id) (hleft : other.triesLeft ≠ some 0) :
    s.recorded.Spares plan.entries plan.current other := by
  obtain ⟨left, hentries, hmem⟩ := hdone.entries hseen
  obtain ⟨es, left', -, hes, hleft', -, hids, -⟩ := h.left
  obtain rfl : plan.entries = es := Except.ok.inj (hseen.entries.symm.trans hes)
  obtain rfl : left = left' := Except.ok.inj (hentries.symm.trans hleft')
  obtain ⟨e', he', hid'⟩ := List.mem_map.1 ((hids other.id).2 ⟨other, hother, rfl, .inr hleft⟩)
  obtain ⟨e, he, hkeeps, rfl⟩ := (hmem e').1 he'
  rw [Record.id_confirmedAs] at hid'
  obtain rfl := (BootRecords.entries_eq_ok hseen.entries).2.eq_of_id_eq he hother hid'
  exact ((hseen.keeps_iff he hne).1 hkeeps).2

theorem mem_retainedDeployments {d : Device} {es : List Record}
    {booted id : Text} {retained : List Text}
    (hes : d.boot.entries = .ok es) (h : d.retainedDeployments (some booted) = .ok retained) :
    id ∈ retained ↔ ∃ e ∈ es, e.id = id ∧ (e.id = booted ∨ e.triesLeft ≠ some 0) := by
  simp only [Device.retainedDeployments, hes, bind, Except.bind, pure_eq_ok] at h
  subst h
  simp only [List.mem_map, List.mem_filter, Bool.or_eq_true, bne_iff_ne, beq_iff_eq,
    Option.some.injEq]
  constructor
  · rintro ⟨e, ⟨he, hor⟩, rfl⟩
    exact ⟨e, he, rfl, hor.symm⟩
  · rintro ⟨e, he, rfl, hor⟩
    exact ⟨e, ⟨he, hor.symm⟩, rfl⟩

theorem retains_of_spares (hseen : plan.Seen receipt s) (hdone : Confirmed plan s t)
    (h : ∀ other ∈ plan.entries, plan.current.id ≠ other.id → other.triesLeft ≠ some 0 →
      s.recorded.Spares plan.entries plan.current other) : Retains s t receipt.deploymentId := by
  obtain ⟨left, hentries, hmem⟩ := hdone.entries hseen
  have hkeeps : ∀ e ∈ plan.entries, keeps plan.keep e = true ↔
      e.id = receipt.deploymentId ∨ e.triesLeft ≠ some 0 := by
    intro e he
    by_cases hid : plan.current.id = e.id
    · obtain rfl := (BootRecords.entries_eq_ok hseen.entries).2.eq_of_id_eq hseen.current he hid
      exact iff_of_true hseen.keeps_current (.inl hseen.id)
    · rw [hseen.keeps_iff he hid, ← hseen.id, or_iff_right (Ne.symm hid)]
      exact and_iff_left_of_imp (h e he hid)
  have hids : ∀ id, id ∈ left.map Record.id ↔
      ∃ e ∈ plan.entries, e.id = id ∧ (e.id = receipt.deploymentId ∨ e.triesLeft ≠ some 0) := by
    intro id
    simp only [List.mem_map, hmem]
    constructor
    · rintro ⟨_, ⟨e, he, hk, rfl⟩, rfl⟩
      exact ⟨e, he, (Record.id_confirmedAs _ e).symm, (hkeeps e he).1 hk⟩
    · rintro ⟨e, he, rfl, hleft⟩
      exact ⟨_, ⟨e, he, (hkeeps e he).2 hleft, rfl⟩, Record.id_confirmedAs _ e⟩
  obtain ⟨retained, hretained⟩ : ∃ retained, s.retainedDeployments (some receipt.deploymentId) =
      .ok retained :=
    ⟨_, by rw [Device.retainedDeployments, hseen.entries]; rfl⟩
  have hsame : ∀ id, id ∈ left.map Record.id ↔ id ∈ retained := by
    intro id
    rw [hids, mem_retainedDeployments hseen.entries hretained]
  refine ⟨⟨plan.entries, left, retained, hseen.entries, hentries, hretained, hids, hsame⟩, ?_⟩
  intro boot held verdict state hread hsettle hne
  obtain ⟨retained', hretained'⟩ : ∃ retained', t.retainedDeployments (some receipt.deploymentId) =
      .ok retained' :=
    ⟨_, by rw [Device.retainedDeployments, hentries]; rfl⟩
  have hagain : ∀ id, id ∈ retained' ↔ id ∈ retained := by
    intro id
    rw [← hsame, mem_retainedDeployments hentries hretained']
    constructor
    · rintro ⟨e, he, rfl, -⟩
      exact List.mem_map_of_mem he
    · intro hid
      obtain ⟨e', he', rfl⟩ := List.mem_map.1 hid
      obtain ⟨e, he, hk, rfl⟩ := (hmem e').1 he'
      refine ⟨_, he', rfl, ?_⟩
      by_cases hcur : e.id = plan.current.id
      · exact .inl (by rw [Record.id_confirmedAs, hcur, hseen.id])
      · rw [Record.confirmedAs, if_neg hcur]
        exact (hkeeps e he).1 hk
  have hsets : t.sets = s.sets ∧ t.trial = s.trial := by
    obtain ⟨_, _, _, -, -, -, -, rfl⟩ := hdone
    exact ⟨rfl, rfl⟩
  rw [Device.settlement_congr hsets.1 hsets.2 hretained hretained' hagain boot] at hsettle
  have hread' : s.readState = .ok held := by
    rw [← hread, Device.readState, Device.readState, hsets.1]
  simp only [Device.setsNeedSettling, hread', hsettle, bind, Except.bind, pure,
    Except.pure, hne, ne_eq,
    not_false_eq_true, decide_true]

/-- A confirmation leaves the entries that settlement reckons with if and only if all are spared. -/
theorem retains_iff (store : Store) {answer : State} {es : List Record}
    (h : (store.confirm receipt s).result = .ok answer) (hes : s.boot.entries = .ok es) :
    Retains s ((store.confirm receipt).last s) receipt.deploymentId ↔
      ∀ running ∈ es, running.id = receipt.deploymentId → ∀ other ∈ es, running.id ≠ other.id →
        other.triesLeft ≠ some 0 → s.recorded.Spares es running other := by
  obtain ⟨plan, hplan, hdone⟩ := Store.confirmed_of_result h
  have hseen := Store.seen_of_planConfirm hplan
  obtain rfl : plan.entries = es := Except.ok.inj (hseen.entries.symm.trans hes)
  constructor
  · intro hretains running hrunning hid other hother hne hleft
    obtain rfl := (BootRecords.entries_eq_ok hes).2.eq_of_id_eq hrunning hseen.current
      (hid.trans hseen.id.symm)
    exact hretains.spares hseen hdone hother hne hleft
  · exact fun hspares ↦ retains_of_spares hseen hdone (hspares plan.current hseen.current hseen.id)

end Confirming

namespace Sample

def newer : Record := ⟨hexId 2, hexId 12, 2, none⟩

def older : Record := ⟨hexId 1, hexId 12, 1, none⟩

def confirmedTwice (data : Option State) : Device where
  boot := .uefi [newer, older]
  data := data
  sets := none
  trial := none
  items := ∅
  run := none

def recordedTwice : State :=
  { highestGeneration := 2, current := some (hexId 2), fallback := some (hexId 1) }

theorem entries_confirmedTwice (data : Option State) :
    (confirmedTwice data).boot.entries = .ok [newer, older] := rfl

end Sample

open Sample in
theorem retains_recordedTwice :
    Retains (confirmedTwice (some recordedTwice))
      ((store.confirm (receipt 2)).last (confirmedTwice (some recordedTwice))) (hexId 2) := by
  have hresult : (store.confirm (receipt 2) (confirmedTwice (some recordedTwice))).result =
      .ok recordedTwice := rfl
  refine (retains_iff store hresult (entries_confirmedTwice _)).2 ?_
  intro running hrunning hid other hother hne _
  have hids : running = newer := by
    rcases List.mem_cons.1 hrunning with rfl | hrunning
    · rfl
    · obtain rfl := List.mem_singleton.1 hrunning
      exact absurd hid (by decide)
  subst hids
  rcases List.mem_cons.1 hother with rfl | hother
  · exact absurd rfl hne
  · obtain rfl := List.mem_singleton.1 hother
    exact .fallback rfl rfl

/-- DATA is lost: the fallback has a boot left and is not kept. -/
theorem not_forall_retains :
    ¬∀ (store : Store) (receipt : BootReceipt) (s : Device) (answer : State),
      (store.confirm receipt s).result = .ok answer →
      Retains s ((store.confirm receipt).last s) receipt.deploymentId := by
  intro hall
  have hresult : (Sample.store.confirm (Sample.receipt 2) (Sample.confirmedTwice none)).result =
      .ok { highestGeneration := 2, current := some (Sample.hexId 2) } := rfl
  have hleft : ((Sample.store.confirm (Sample.receipt 2)).last (Sample.confirmedTwice none)).boot.entries =
      .ok [Sample.newer] := rfl
  obtain ⟨es, left, -, hes, hentries, -, hids, -⟩ :=
    (hall Sample.store (Sample.receipt 2) (Sample.confirmedTwice none) _ hresult).left
  obtain rfl : [Sample.newer, Sample.older] = es :=
    Except.ok.inj ((Sample.entries_confirmedTwice none).symm.trans hes)
  obtain rfl : [Sample.newer] = left := Except.ok.inj (hleft.symm.trans hentries)
  have hmem := (hids (Sample.hexId 1)).2 ⟨Sample.older, by simp, rfl, .inr (by simp [Sample.older])⟩
  exact absurd hmem (by decide)

end MicaCore.Deploy
