import MicaCore.Ble.Channel

namespace MicaCore.Ble

open Data

namespace Reassembly

def after (r : Reassembly) (past : List Bytes) : Reassembly :=
  past.foldl (fun r fragment ↦ (r.push fragment).2) r

def outcomes (r : Reassembly) : List Bytes → List (Except String (Option Bytes))
  | [] => []
  | fragment :: rest => (r.push fragment).1 :: (r.push fragment).2.outcomes rest

def since (r : Reassembly) (taken : List Bytes) : List Bytes → List Bytes
  | [] => taken
  | fragment :: rest =>
    match r.push fragment with
    | (.ok none, r) => r.since (taken ++ [fragment]) rest
    | (_, r) => r.since [] rest

def parts : Bytes → Option (ℕ × UInt8 × Bytes)
  | high :: low :: flags :: body => some ((high.toBitVec ++ low.toBitVec).toNat, flags, body)
  | _ => none

def numbered (flags : ℕ → UInt8) (first : ℕ) (bodies : List Bytes) : List (Option (ℕ × UInt8 × Bytes)) :=
  (bodies.zipIdx first).map fun b ↦ some (b.2, flags b.2, b.1)

def lastAt (count seq : ℕ) : UInt8 := if seq + 1 = count then lastFlag else 0

/-- Fragments numbered from zero, only the final one flagged, joined to the message. -/
def Carry (fragments : List Bytes) (message : Bytes) : Prop :=
  message.length ≤ maxMessage ∧ ∃ bodies, bodies ≠ [] ∧
    fragments.map parts = numbered (lastAt bodies.length) 0 bodies ∧ message = bodies.flatten

variable {r r' : Reassembly} {f m : Bytes}

theorem flags_cases {flags : UInt8} (h : flags &&& ~~~lastFlag = 0) :
    flags = 0 ∨ flags = lastFlag := by
  have hbits : ∀ b : BitVec 8, b &&& ~~~1#8 = 0#8 → b = 0#8 ∨ b = 1#8 := by decide
  simp only [← UInt8.toBitVec_inj] at h ⊢
  exact hbits flags.toBitVec h

theorem accept_eq_ok {outcome : Option Bytes} : r.accept f = (.ok outcome, r') ↔
    ∃ flags body, parts f = some (r.next.toNat, flags, body) ∧
    r.buffer.length + body.length ≤ maxMessage ∧
      (flags = lastFlag ∧ outcome = some (r.buffer ++ body) ∧ r' = { r with buffer := [] } ∨
        flags = 0 ∧ r.next ≠ BitVec.allOnes 16 ∧ outcome = none ∧ r' = ⟨r.buffer ++ body, r.next + 1⟩) := by
  unfold accept
  split
  · next high low flags body =>
    constructor
    · intro h
      dsimp only at h
      split at h
      · cases h
      · next hflags =>
        split at h
        · cases h
        · next hseq =>
          split at h
          · cases h
          · next hlen =>
            refine ⟨flags, body, by rw [← not_not.1 hseq]; rfl, not_lt.1 hlen, ?_⟩
            rcases flags_cases (not_not.1 hflags) with rfl | rfl
            · rw [if_neg (by decide)] at h
              split at h
              · cases h
              · next hlast =>
                cases h
                exact .inr ⟨rfl, hlast, rfl, rfl⟩
            · cases h
              exact .inl ⟨rfl, rfl, rfl⟩
    · rintro ⟨flags', body', hparts, hlen, hcases⟩
      simp only [parts, Option.some.injEq, Prod.mk.injEq, BitVec.toNat_inj] at hparts
      obtain ⟨hseq, rfl, rfl⟩ := hparts
      simp only [hseq, ne_eq, not_true, if_false, if_neg (not_lt.2 hlen)]
      rcases hcases with ⟨rfl, rfl, rfl⟩ | ⟨rfl, hlast, rfl, rfl⟩
      · rfl
      · rw [if_neg (by decide), if_neg (by decide), if_neg hlast]
  · simp [parts]

theorem push_of_none (h : (r.accept f).1 = .ok none) : r.push f = r.accept f := by
  unfold push
  split
  · next hmore => rw [hmore]
  · next hother hall =>
    rw [hall] at h
    exact absurd h hother

theorem push_of_ne_none (h : (r.accept f).1 ≠ .ok none) : r.push f = ((r.accept f).1, {}) := by
  unfold push
  split
  · next hmore => exact absurd (congrArg Prod.fst hmore) h
  · next hall => rw [hall]

theorem push_fst : (r.push f).1 = (r.accept f).1 := by
  by_cases h : (r.accept f).1 = .ok none
  · rw [push_of_none h]
  · rw [push_of_ne_none h]

theorem push_snd (h : (r.push f).1 ≠ .ok none) : (r.push f).2 = {} := by
  rw [push_fst] at h
  rw [push_of_ne_none h]

theorem push_more : r.push f = (.ok none, r') ↔ ∃ body, parts f = some (r.next.toNat, 0, body) ∧
    r.buffer.length + body.length ≤ maxMessage ∧ r.next ≠ BitVec.allOnes 16 ∧
      r' = ⟨r.buffer ++ body, r.next + 1⟩ := by
  constructor
  · intro h
    have hnone : (r.accept f).1 = .ok none := push_fst.symm.trans (congrArg Prod.fst h)
    obtain ⟨_, body, hparts, hlen, ⟨-, hsome, -⟩ | ⟨rfl, hlast, -, rfl⟩⟩ :=
      accept_eq_ok.1 ((push_of_none hnone).symm.trans h)
    · cases hsome
    · exact ⟨body, hparts, hlen, hlast, rfl⟩
  · rintro ⟨body, hparts, hlen, hlast, rfl⟩
    have haccept := accept_eq_ok.2 ⟨0, body, hparts, hlen, .inr ⟨rfl, hlast, rfl, rfl⟩⟩
    rw [push_of_none (congrArg Prod.fst haccept), haccept]

theorem push_completes : (r.push f).1 = .ok (some m) ↔
    ∃ body, parts f = some (r.next.toNat, lastFlag, body) ∧
    r.buffer.length + body.length ≤ maxMessage ∧ m = r.buffer ++ body := by
  rw [push_fst]
  constructor
  · intro h
    obtain ⟨_, body, hparts, hlen, ⟨rfl, hsome, -⟩ | ⟨-, -, hnone, -⟩⟩ :=
      accept_eq_ok.1 (Prod.ext h rfl : r.accept f = (.ok (some m), (r.accept f).2))
    · exact ⟨body, hparts, hlen, Option.some.inj hsome⟩
    · cases hnone
  · rintro ⟨body, hparts, hlen, rfl⟩
    exact congrArg Prod.fst (accept_eq_ok.2 ⟨lastFlag, body, hparts, hlen, .inl ⟨rfl, rfl, rfl⟩⟩)

theorem numbered_concat (flags : ℕ → UInt8) (bodies : List Bytes) (body : Bytes) :
    numbered flags 0 (bodies ++ [body]) =
      numbered flags 0 bodies ++ [some (bodies.length, flags bodies.length, body)] := by
  simp [numbered, List.zipIdx_append]

variable {bodies : List Bytes}

theorem numbered_congr {flags flags' : ℕ → UInt8}
    (h : ∀ i < bodies.length, flags i = flags' i) :
    numbered flags 0 bodies = numbered flags' 0 bodies := by
  refine List.map_congr_left fun b hb ↦ ?_
  rw [h b.2 (List.snd_lt_of_mem_zipIdx hb)]

theorem numbered_injective {flags flags' : ℕ → UInt8} {first : ℕ} {bodies' : List Bytes}
    (h : numbered flags first bodies = numbered flags' first bodies') : bodies = bodies' := by
  have hpayloads := congrArg (List.map fun part ↦ part.elim [] (·.2.2)) h
  simpa [numbered, Function.comp_def] using hpayloads

def Held (r : Reassembly) (taken : List Bytes) : Prop :=
  ∃ bodies, taken.map parts = numbered (fun _ ↦ 0) 0 bodies ∧ r.buffer = bodies.flatten ∧
    r.next.toNat = bodies.length

theorem held_fresh : Held {} [] := ⟨[], rfl, rfl, rfl⟩

variable {taken : List Bytes}

theorem Held.push (h : Held r taken) (hpush : r.push f = (.ok none, r')) :
    Held r' (taken ++ [f]) := by
  obtain ⟨bodies, htaken, hbuffer, hnext⟩ := h
  obtain ⟨body, hparts, -, hlast, rfl⟩ := push_more.1 hpush
  refine ⟨bodies ++ [body], ?_, by simp [hbuffer], ?_⟩
  · rw [List.map_append, htaken, numbered_concat, List.map_singleton, hparts, hnext]
  · rw [List.length_append, List.length_singleton, ← hnext]
    have hlt : r.next.toNat ≠ 2 ^ 16 - 1 := fun heq ↦
      hlast (BitVec.eq_of_toNat_eq (by simpa using heq))
    have := r.next.isLt
    rw [BitVec.toNat_add]
    simp only [BitVec.ofNat_eq_ofNat, BitVec.toNat_ofNat]
    omega

theorem Held.since (h : Held r taken) (past : List Bytes) :
    Held (r.after past) (r.since taken past) := by
  induction past generalizing r taken with
  | nil => exact h
  | cons f past ih =>
    rw [after, List.foldl_cons, Reassembly.since]
    split
    · next hpush =>
      rw [hpush]
      exact ih (h.push hpush)
    · next outcome state hother hpush =>
      have hfresh : (r.push f).2 = {} := push_snd (by rw [hpush]; exact hother)
      rw [hfresh]
      rw [hpush] at hfresh
      cases hfresh
      exact ih held_fresh

theorem Held.completes_iff (h : Held r taken) :
    (r.push f).1 = .ok (some m) ↔ Carry (taken ++ [f]) m := by
  obtain ⟨bodies, htaken, hbuffer, hnext⟩ := h
  have hflags (body : Bytes) : numbered (lastAt (bodies ++ [body]).length) 0 (bodies ++ [body]) =
      taken.map parts ++ [some (bodies.length, lastFlag, body)] := by
    have hnone : numbered (lastAt (bodies ++ [body]).length) 0 bodies = numbered (fun _ ↦ 0) 0 bodies :=
      numbered_congr fun i hi ↦ if_neg (by simp; omega)
    rw [numbered_concat, htaken, hnone]
    simp [lastAt]
  rw [push_completes, hnext]
  constructor
  · rintro ⟨body, hparts, hlen, rfl⟩
    refine ⟨by simpa using hlen, bodies ++ [body], by simp, ?_, by simp [hbuffer]⟩
    rw [hflags, List.map_append, List.map_singleton, hparts]
  · rintro ⟨hlen, all, hne, hall, rfl⟩
    obtain ⟨init, body, rfl⟩ := (List.eq_nil_or_concat' all).resolve_left hne
    have hinit := hall
    rw [List.map_append, List.map_singleton, numbered_concat] at hinit
    obtain rfl := numbered_injective (htaken.symm.trans (List.append_inj_left' hinit rfl))
    rw [hflags, List.map_append, List.map_singleton] at hall
    refine ⟨body, List.singleton_inj.1 (List.append_cancel_left hall), ?_, by simp [hbuffer]⟩
    simpa [hbuffer] using hlen

theorem lt_of_parts {n : ℕ} {flags : UInt8} {body : Bytes} (h : parts f = some (n, flags, body)) :
    n < 65536 := by
  unfold parts at h
  split at h
  · cases h
    exact BitVec.isLt _
  · cases h

theorem outcomes_numbered {fs : List Bytes} {first count : ℕ} (hne : bodies ≠ [])
    (hnext : r.next.toNat = first) (hcount : first + bodies.length = count)
    (hfs : fs.map parts = numbered (lastAt count) first bodies)
    (hlen : r.buffer.length + bodies.flatten.length ≤ maxMessage) :
    r.outcomes fs = List.replicate (fs.length - 1) (.ok none) ++
    [.ok (some (r.buffer ++ bodies.flatten))] := by
  induction bodies generalizing r fs first with
  | nil => exact absurd rfl hne
  | cons body bodies ih =>
    simp only [List.flatten_cons, List.length_append, List.length_cons] at hlen hcount
    obtain ⟨f, fs, rfl⟩ : ∃ f fs', fs = f :: fs' := by
      refine List.exists_cons_of_ne_nil fun hnil ↦ ?_
      simp [hnil, numbered] at hfs
    simp only [numbered, List.zipIdx_cons, List.map_cons, List.cons.injEq] at hfs
    obtain ⟨hf, hrest⟩ := hfs
    cases bodies with
    | nil =>
      have hcompletes : (r.push f).1 = .ok (some (r.buffer ++ body)) :=
        push_completes.2 ⟨body, by simp [hf, hnext, lastAt, ← hcount], by simpa using hlen, rfl⟩
      obtain rfl : fs = [] := by simpa using hrest
      simp [outcomes, hcompletes]
    | cons next bodies =>
      simp only [List.length_cons] at hcount
      obtain ⟨g, fs, rfl⟩ : ∃ g fs', fs = g :: fs' := by
        refine List.exists_cons_of_ne_nil fun hnil ↦ ?_
        simp [hnil] at hrest
      have hmore : r.next.toNat + 1 < 65536 := by
        simp only [List.zipIdx_cons, List.map_cons, List.cons.injEq] at hrest
        exact hnext ▸ lt_of_parts hrest.1
      have hlast : r.next ≠ BitVec.allOnes 16 := fun h ↦ by simp [h] at hmore
      have hpush := push_more.2
        ⟨body, by rw [hf, hnext, lastAt, if_neg (by omega)], by omega, hlast, rfl⟩
      have hsucc : (r.next + 1).toNat = first + 1 := by
        rw [BitVec.toNat_add]
        simp only [BitVec.ofNat_eq_ofNat, BitVec.toNat_ofNat]
        omega
      rw [outcomes, hpush, ih (by simp) hsucc (by simp; omega) hrest (by simp at hlen ⊢; omega)]
      simp [List.replicate_succ]

theorem Carry.outcomes {fs : List Bytes} (h : Carry fs m) :
    ({} : Reassembly).outcomes fs = List.replicate (fs.length - 1) (.ok none) ++
    [.ok (some m)] := by
  obtain ⟨hlen, bodies, hne, hfs, rfl⟩ := h
  exact outcomes_numbered hne rfl (Nat.zero_add _) hfs (by simpa using hlen)

theorem after_eq_fresh {past : List Bytes}
    (h : (({} : Reassembly).outcomes past).getLast? ≠ some (.ok none)) :
    ({} : Reassembly).after past = {} := by
  have hstep : ∀ (r : Reassembly) (past : List Bytes), past ≠ [] →
      (r.outcomes past).getLast? ≠ some (.ok none) → r.after past = {} := by
    intro r past
    induction past generalizing r with
    | nil => exact fun hne ↦ absurd rfl hne
    | cons f past ih =>
      intro _ hlast
      cases past with
      | nil => exact push_snd fun hnone ↦ hlast (by simp [Reassembly.outcomes, hnone])
      | cons g past =>
        refine ih _ (by simp) fun hnone ↦ hlast ?_
        rw [Reassembly.outcomes, Reassembly.outcomes, List.getLast?_cons_cons]
        exact hnone
  by_cases hpast : past = []
  · rw [hpast]
    rfl
  · exact hstep _ _ hpast h

end Reassembly

section Fragments

open Reassembly

theorem flatten_chunks (n : ℕ) (bytes : Bytes) : (chunks n bytes).flatten = bytes := by
  fun_induction chunks n bytes with
  | case1 => rfl
  | case2 b bytes ih => rw [List.flatten_cons, ih, List.take_append_drop]

theorem length_chunks_le (n : ℕ) (bytes : Bytes) : (chunks n bytes).length ≤ bytes.length := by
  fun_induction chunks n bytes with
  | case1 => simp
  | case2 b bytes ih =>
    simp only [List.length_cons, List.length_drop] at ih ⊢
    omega

theorem length_of_mem_chunks {n : ℕ} {bytes chunk : Bytes} (h : chunk ∈ chunks n bytes) :
    chunk.length ≤ n + 1 := by
  fun_induction chunks n bytes with
  | case1 => cases h
  | case2 b bytes ih =>
    rcases List.mem_cons.1 h with rfl | h
    · simp
    · exact ih h

theorem number_append (seq : BitVec 16) : seq.extractLsb' 8 8 ++ seq.extractLsb' 0 8 = seq := by
  apply BitVec.eq_of_toNat_eq
  have h := seq.isLt
  rw [BitVec.toNat_append, ← Nat.shiftLeft_add_eq_or_of_lt (BitVec.isLt _)]
  simp only [BitVec.extractLsb'_toNat, Nat.shiftLeft_eq, Nat.shiftRight_eq_div_pow]
  omega

def messageParts (message : Bytes) (size : ℕ) : List Bytes :=
  if message.isEmpty then [[]] else chunks (bodySize size - 1) message

theorem messageParts_spec (message : Bytes) (size : ℕ) :
    messageParts message size ≠ [] ∧ (messageParts message size).flatten = message ∧
      (messageParts message size).length ≤ message.length + 1 ∧
      ∀ part ∈ messageParts message size, part.length ≤ bodySize size := by
  have hbody : 17 ≤ bodySize size := by
    simp only [bodySize, minFragment, maxFragment, header]
    omega
  unfold messageParts
  cases message with
  | nil => simp
  | cons b message =>
    have hflat := flatten_chunks (bodySize size - 1) (b :: message)
    refine ⟨?_, hflat, ?_, fun part hpart ↦ ?_⟩
    · intro hnil
      rw [List.isEmpty_cons, if_neg Bool.false_ne_true] at hnil
      rw [hnil] at hflat
      cases hflat
    · exact (length_chunks_le _ _).trans (Nat.le_succ _)
    · have := length_of_mem_chunks hpart
      omega

theorem parts_fragmentOf {count seq : ℕ} (h : seq < 65536) (chunk : Bytes) :
    parts (fragmentOf count seq chunk) = some (seq, lastAt count seq, chunk) := by
  simp [fragmentOf, parts, number_append, Nat.mod_eq_of_lt h, lastAt]

theorem carry_fragments {message : Bytes} (size : ℕ) (h : message.length ≤ maxMessage) :
    Carry (fragments message size) message := by
  obtain ⟨hne, hflat, hcount, -⟩ := messageParts_spec message size
  refine ⟨h, messageParts message size, hne, ?_, hflat.symm⟩
  have hmax : maxMessage = 16384 := rfl
  rw [fragments, numbered, List.map_map]
  refine List.map_congr_left fun part hpart ↦ ?_
  have hlt : part.2 < (messageParts message size).length := List.snd_lt_of_mem_zipIdx hpart
  exact parts_fragmentOf (by omega) part.1

theorem length_of_mem_fragments {message fragment : Bytes} {size : ℕ} (h : fragment ∈ fragments message size) :
    1 ≤ fragment.length ∧ fragment.length ≤ min (max size minFragment) maxFragment := by
  obtain ⟨part, hpart, rfl⟩ := List.mem_map.1 h
  have hbody := (messageParts_spec message size).2.2.2 part.1 (List.fst_mem_of_mem_zipIdx hpart)
  simp only [fragmentOf, List.length_cons, bodySize, minFragment, maxFragment, header] at hbody ⊢
  omega

/-- Fragments fit their size and are joined again, and nothing else ever is. -/
theorem fragments_round_trip :
    (∀ (message : Bytes) (size : ℕ), message.length ≤ maxMessage →
      fragments message size ≠ [] ∧
      (∀ f ∈ fragments message size, 1 ≤ f.length ∧ f.length ≤ min (max size minFragment) maxFragment) ∧
      ∀ past, (({} : Reassembly).outcomes past).getLast? ≠ some (.ok none) →
        (({} : Reassembly).after past).outcomes (fragments message size) =
          List.replicate ((fragments message size).length - 1) (.ok none) ++ [.ok (some message)]) ∧
    ∀ (past : List Bytes) (f m : Bytes),
      ((({} : Reassembly).after past).push f).1 = .ok (some m) ↔
        Carry (({} : Reassembly).since [] past ++ [f]) m := by
  refine ⟨fun message size h ↦ ⟨?_, fun f ↦ length_of_mem_fragments, fun past hpast ↦ ?_⟩,
    fun past f m ↦ ?_⟩
  · have hne := (messageParts_spec message size).1
    simpa [fragments, messageParts] using hne
  · rw [after_eq_fresh hpast]
    exact (carry_fragments size h).outcomes
  · exact (held_fresh.since past).completes_iff

theorem fragments_round_trip_sample : (fragments (List.replicate 40 7) 0).length = 3 ∧
    (({} : Reassembly).after [[0, 7, 1]]).outcomes (fragments (List.replicate 40 7) 0) =
      List.replicate ((fragments (List.replicate 40 7) 0).length - 1) (.ok none) ++
        [.ok (some (List.replicate 40 7))] :=
  ⟨by decide +kernel,
    (fragments_round_trip.1 (List.replicate 40 7) 0 (by decide)).2.2 [[0, 7, 1]] (by decide)⟩

end Fragments

end MicaCore.Ble
