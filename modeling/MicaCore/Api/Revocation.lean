import MicaCore.Api.Console

namespace MicaCore.Api.Console

open Data Concurrent

def upTo (history : List Event) (n : ℕ) : List Event := history.drop (history.length - n)

theorem upTo_cons {history : List Event} {n : ℕ} (e : Event) (hn : n ≤ history.length) :
    upTo (e :: history) n = upTo history n := by
  rw [upTo, upTo, List.length_cons, Nat.succ_sub hn, List.drop_succ_cons]

@[simp] theorem upTo_length (history : List Event) : upTo history history.length = history := by
  simp [upTo]

theorem length_upTo {history : List Event} {n : ℕ} (hn : n ≤ history.length) :
    (upTo history n).length = n := by
  rw [upTo, List.length_drop]
  omega

theorem upTo_upTo {history : List Event} {m n : ℕ} (hm : m ≤ n) (hn : n ≤ history.length) :
    upTo (upTo history n) m = upTo history m := by
  rw [upTo, length_upTo hn, upTo, List.drop_drop, upTo]
  congr 1
  omega

theorem since_upTo_subset {history : List Event} {m n : ℕ} (hm : m ≤ n) (hn : n ≤ history.length) :
    since (upTo history n) m ⊆ since history m := by
  have : since (upTo history n) m = (since history m).drop (history.length - n) := by
    rw [since, length_upTo hn, upTo, since, List.drop_take]
    congr 1
    omega
  rw [this]
  exact List.drop_subset _ _

theorem back_to {P : List Event → Prop} {history : List Event} {n : ℕ} (hn : n ≤ history.length)
    (hbase : P (upTo history n))
    (hstep : ∀ e rest, n ≤ rest.length → since (e :: rest) n = e :: since rest n →
      since (e :: rest) n ⊆ since history n → P rest → P (e :: rest)) : P history := by
  induction history with
  | nil => simpa [upTo] using hbase
  | cons e rest ih =>
    rcases Nat.lt_or_ge rest.length n with hlt | hle
    · have : n = (e :: rest).length := by simp at hn ⊢; omega
      rwa [this, upTo_length] at hbase
    · have hsince := since_cons e hle
      refine hstep e rest hle hsince (List.Subset.refl _) (ih hle (by rwa [upTo_cons e hle] at hbase) ?_)
      intro e' rest' hle' hs hsub hP
      exact hstep e' rest' hle' hs (hsince ▸ List.subset_cons_of_subset e hsub) hP

section Barred

variable (digest : Text → Text)

/-- Some token with this digest was revoked, and none was minted since. -/
def Barred : List Event → Text → Prop
  | [], _ => False
  | .minted secret :: history, hash => digest secret ≠ hash ∧ Barred history hash
  | .revoked revoked :: history, hash => revoked = hash ∨ Barred history hash
  | .rehashed :: history, hash => Barred history hash

variable {digest} {history : List Event} {n : ℕ} {hash : Text}

theorem barred_upTo (hn : n ≤ history.length)
    (hnone : ∀ e ∈ since history n, e.isRevoked = false) (h : Barred digest history hash) :
    Barred digest (upTo history n) hash := by
  revert h
  refine back_to (P := fun rest ↦ Barred digest rest hash → Barred digest (upTo history n) hash)
    hn id ?_
  intro e rest _ hs hsub ih h
  have he := hnone e (hsub (hs ▸ List.mem_cons_self))
  cases e with
  | rehashed => exact ih h
  | minted secret => exact ih h.2
  | revoked revoked => cases he

theorem exists_minted (hn : n ≤ history.length) (h : Barred digest (upTo history n) hash)
    (hnot : ¬ Barred digest history hash) :
    ∃ secret, .minted secret ∈ since history n ∧ digest secret = hash := by
  revert hnot
  refine back_to (P := fun rest ↦ ¬ Barred digest rest hash →
    ∃ secret, .minted secret ∈ since history n ∧ digest secret = hash) hn (absurd h) ?_
  intro e rest _ hs hsub ih hnot
  by_cases hrest : Barred digest rest hash
  · cases e with
    | rehashed => exact absurd hrest hnot
    | minted secret =>
      refine ⟨secret, hsub (hs ▸ List.mem_cons_self), ?_⟩
      by_contra hne
      exact hnot ⟨hne, hrest⟩
    | revoked revoked => exact absurd (.inr hrest) hnot
  · exact ih hrest

end Barred

variable {crypto : Crypto} {s t : Console} {r q : Request} {a : Act}

structure Clean (digest : Text → Text) (tokens : List ApiToken) (history : List Event) : Prop where
  nodup : (tokens.map ApiToken.hash).Nodup
  barred : ∀ hash ∈ tokens.map ApiToken.hash, ¬ Barred digest history hash

structure CleanRead (digest : Text → Text) (s : Console) (read : Snapshot) : Prop where
  seen : read.seen ≤ s.history.length
  clean : Clean digest read.access.apiTokens (upTo s.history read.seen)

structure Revocable (digest : Text → Text) (s : Console) : Prop where
  stored : Clean digest s.access.apiTokens s.history
  dropped : s.droppedAt ≤ s.history.length
  cached : ∀ read, s.cache.value = some read → CleanRead digest s read ∧ s.droppedAt ≤ read.seen

def RevokedAt (s : Console) (wrote : ℕ) (hash : Text) : Prop :=
  wrote < s.history.length ∧ upTo s.history (wrote + 1) = .revoked hash :: upTo s.history wrote

def Request.Tokens (digest : Text → Text) (s : Console) : Request → Prop
  | .changeRead _ _ _ _ read => CleanRead digest s read
  | .changeVerified _ _ _ read => CleanRead digest s read
  | .mintRead _ read => CleanRead digest s read
  | .writing call => CleanRead digest s call.read
  | .late call => CleanRead digest s call.read
  | .written call wrote => ∀ entry, call.purpose = .revoke entry → RevokedAt s wrote entry.hash
  | .invalidated call wrote => ∀ entry, call.purpose = .revoke entry →
      RevokedAt s wrote entry.hash ∧ wrote < s.droppedAt
  | .answered call wrote => ∀ entry, call.purpose = .revoke entry →
      RevokedAt s wrote entry.hash ∧ wrote < s.droppedAt
  | .checkReading _ generation => generation ≤ s.cache.generation
  | .checkFilling _ generation read => generation ≤ s.cache.generation ∧ CleanRead digest s read ∧
      (generation = s.cache.generation → s.droppedAt ≤ read.seen)
  | .checkRead _ read => CleanRead digest s read
  | _ => True

structure KeepsTokens (s t : Console) : Prop where
  history : t.history = s.history ∨ ∃ e, t.history = e :: s.history
  dropped : s.droppedAt ≤ t.droppedAt
  generation : s.cache.generation ≤ t.cache.generation
  same : t.cache.generation = s.cache.generation → t.droppedAt = s.droppedAt

theorem KeepsTokens.of_eq (hh : t.history = s.history) (hd : t.droppedAt = s.droppedAt)
    (hg : t.cache.generation = s.cache.generation) : KeepsTokens s t :=
  ⟨.inl hh, hd.ge, hg.ge, fun _ ↦ hd⟩

theorem KeepsTokens.length_le (h : KeepsTokens s t) : s.history.length ≤ t.history.length := by
  rcases h.history with h | ⟨e, h⟩ <;> simp [h]

theorem KeepsTokens.upTo_eq (h : KeepsTokens s t) {n : ℕ} (hn : n ≤ s.history.length) :
    upTo t.history n = upTo s.history n := by
  rcases h.history with h | ⟨e, h⟩
  · rw [h]
  · rw [h, upTo_cons e hn]

theorem CleanRead.mono {digest : Text → Text} {read : Snapshot} (h : CleanRead digest s read)
    (hk : KeepsTokens s t) : CleanRead digest t read :=
  ⟨h.seen.trans hk.length_le, by rw [hk.upTo_eq h.seen]; exact h.clean⟩

theorem RevokedAt.mono {wrote : ℕ} {hash : Text} (h : RevokedAt s wrote hash)
    (hk : KeepsTokens s t) : RevokedAt t wrote hash :=
  ⟨h.1.trans_le hk.length_le, by rw [hk.upTo_eq h.1, hk.upTo_eq h.1.le]; exact h.2⟩

theorem Request.Tokens.mono {digest : Text → Text} (h : r.Tokens digest s) (hk : KeepsTokens s t) :
    r.Tokens digest t := by
  cases r with
  | changeRead | changeVerified | mintRead | writing | late => exact CleanRead.mono h hk
  | written call wrote => exact fun entry hc ↦ (h entry hc).mono hk
  | invalidated call wrote =>
    exact fun entry hc ↦ ⟨(h entry hc).1.mono hk, (h entry hc).2.trans_le hk.dropped⟩
  | answered call wrote =>
    exact fun entry hc ↦ ⟨(h entry hc).1.mono hk, (h entry hc).2.trans_le hk.dropped⟩
  | checkReading presented generation => exact Nat.le_trans h hk.generation
  | checkFilling presented generation read =>
    refine ⟨h.1.trans hk.generation, h.2.1.mono hk, fun hg ↦ ?_⟩
    have hsame : t.cache.generation = s.cache.generation := le_antisymm (hg ▸ h.1) hk.generation
    rw [hk.same hsame]
    exact h.2.2 (hg.trans hsame)
  | checkRead presented read => exact CleanRead.mono h hk
  | _ => trivial

theorem Revocable.cleanRead_snapshot {digest : Text → Text} (h : Revocable digest s) :
    CleanRead digest s s.snapshot :=
  ⟨le_rfl, by simpa [snapshot] using h.stored⟩

theorem Computed.tokens (h : Computed crypto s r q) (hJ : Revocable crypto.digest s)
    (hr : r.Tokens crypto.digest s) : q.Tokens crypto.digest s := by
  cases h with
  | changeRead | mintRead | revoke => exact hJ.cleanRead_snapshot
  | changeVerified | change | mint | late | answered => exact hr
  | cached hget => exact (hJ.cached _ (AccessCache.value_of_get hget)).1
  | checkReading => exact Nat.le_refl _
  | checkFilling => exact ⟨hr, hJ.cleanRead_snapshot, fun _ ↦ hJ.dropped⟩
  | _ => trivial

theorem hash_not_mem_eraseP {tokens : List ApiToken} {p : ApiToken → Bool} {entry : ApiToken}
    (hnodup : (tokens.map ApiToken.hash).Nodup) (h : tokens.find? p = some entry) :
    entry.hash ∉ (tokens.eraseP p).map ApiToken.hash := by
  induction tokens with
  | nil => cases h
  | cons x tokens ih =>
    obtain ⟨hx, htokens⟩ := List.nodup_cons.1 hnodup
    by_cases hp : p x = true
    · rw [List.find?_cons_of_pos hp, Option.some_inj] at h
      rw [List.eraseP_cons_of_pos hp, ← h]
      exact hx
    · rw [List.find?_cons_of_neg hp] at h
      rw [List.eraseP_cons_of_neg hp, List.map_cons, List.mem_cons, not_or]
      refine ⟨fun he ↦ hx ?_, ih htokens h⟩
      rw [← he]
      exact List.mem_map_of_mem (List.mem_of_find?_eq_some h)

variable {call : Call}

theorem clean_store (hf : Call.Formed crypto call) (hread : CleanRead crypto.digest s call.read)
    (hnone : ∀ e ∈ since s.history call.read.seen, e.isRevoked = false) :
    Clean crypto.digest (s.store call).access.apiTokens (s.store call).history := by
  have hkept : ∀ hash ∈ call.read.access.apiTokens.map ApiToken.hash,
      ¬ Barred crypto.digest s.history hash :=
    fun hash hmem hb ↦ hread.clean.barred hash hmem (barred_upTo hread.seen hnone hb)
  cases hf with
  | change => exact ⟨hread.clean.nodup, hkept⟩
  | @mint secret entry read hhash hnodup =>
    refine ⟨hnodup, fun hash hmem hb ↦ ?_⟩
    rcases List.mem_append.1 (List.map_append ▸ hmem) with hmem | hmem
    · exact hkept hash hmem hb.2
    · have he : hash = entry.hash := by simpa using hmem
      exact hb.1 (he ▸ hhash.symm)
  | @revoke id entry read hentry =>
    have hsub := (List.eraseP_sublist (p := (·.id == id)) (l := read.access.apiTokens)).map ApiToken.hash
    refine ⟨hread.clean.nodup.sublist hsub, fun hash hmem hb ↦ ?_⟩
    rcases hb with rfl | hb
    · exact hash_not_mem_eraseP hread.clean.nodup hentry hmem
    · exact hkept hash (hsub.subset hmem) hb

/-- The step writes only what was read after every revocation. -/
def Unrevoked (s : Console) (r : Request) (a : Act) : Prop :=
  a.isPersist = true → ∀ call ∈ r.outgoing,
    ∀ e ∈ since s.history call.read.seen, e.isRevoked = false

instance (s : Console) (r : Request) (a : Act) : Decidable (Unrevoked s r a) :=
  inferInstanceAs (Decidable (_ → ∀ call ∈ r.outgoing, ∀ e ∈ since s.history call.read.seen, _))

theorem Revocable.of_eq {digest : Text → Text} (h : Revocable digest s) (ha : t.access = s.access)
    (hh : t.history = s.history) (hd : t.droppedAt = s.droppedAt) (hc : t.cache = s.cache) :
    Revocable digest t ∧ KeepsTokens s t := by
  have hk : KeepsTokens s t := .of_eq hh hd (by rw [hc])
  refine ⟨⟨by rw [ha, hh]; exact h.stored, by rw [hd, hh]; exact h.dropped, fun read hr ↦ ?_⟩, hk⟩
  obtain ⟨hclean, hseen⟩ := h.cached read (hc ▸ hr)
  exact ⟨hclean.mono hk, hd ▸ hseen⟩

theorem Revocable.store (h : Revocable crypto.digest s)
    (hf : Call.Formed crypto call) (hread : CleanRead crypto.digest s call.read)
    (hnone : ∀ e ∈ since s.history call.read.seen, e.isRevoked = false) :
    Revocable crypto.digest (s.store call) ∧ KeepsTokens s (s.store call) := by
  have hk : KeepsTokens s (s.store call) := ⟨.inr ⟨_, rfl⟩, le_rfl, le_rfl, fun _ ↦ rfl⟩
  refine ⟨⟨clean_store hf hread hnone, h.dropped.trans (Nat.le_succ _), fun read hr ↦ ?_⟩, hk⟩
  obtain ⟨hclean, hseen⟩ := h.cached read hr
  exact ⟨hclean.mono hk, hseen⟩

theorem Revocable.dropCache {digest : Text → Text} {cache : AccessCache Snapshot}
    (h : Revocable digest s) (hv : cache.value = none)
    (hg : s.cache.generation < cache.generation) :
    Revocable digest (s.dropCache cache) ∧ KeepsTokens s (s.dropCache cache) := by
  refine ⟨⟨h.stored, le_rfl, fun read hr ↦ ?_⟩,
    ⟨.inl rfl, h.dropped, hg.le, fun he ↦ absurd he hg.ne'⟩⟩
  rw [Console.dropCache, hv] at hr
  cases hr

theorem revokedAt_store (s : Console) {entry : ApiToken}
    (hc : call.purpose = .revoke entry) : RevokedAt (s.store call) s.history.length entry.hash := by
  have hhistory : (s.store call).history = .revoked entry.hash :: s.history := by
    simp [Console.store, Call.event, hc]
  refine ⟨by simp [hhistory], ?_⟩
  rw [hhistory, upTo_cons _ le_rfl, upTo_length]
  exact upTo_length (.revoked entry.hash :: s.history)

theorem turn_tokens (hJ : Revocable crypto.digest s) (hf : r.Formed crypto)
    (hr : r.Tokens crypto.digest s) (ha : Unrevoked s r a) (h : turn crypto s r a = some (t, q)) :
    Revocable crypto.digest t ∧ q.Tokens crypto.digest t ∧ KeepsTokens s t := by
  cases turned_of_turn h with
  | compute hq => exact ⟨hJ, (computed_of_compute hq).tokens hJ hr, .of_eq rfl rfl rfl⟩
  | persist =>
    obtain ⟨hJ', hk⟩ := hJ.store hf hr (ha rfl _ rfl)
    exact ⟨hJ', fun entry hc ↦ revokedAt_store s hc, hk⟩
  | persistLate =>
    obtain ⟨hJ', hk⟩ := hJ.store hf hr (ha rfl _ rfl)
    exact ⟨hJ', trivial, hk⟩
  | invalidate =>
    obtain ⟨hJ', hk⟩ := hJ.dropCache (show s.cache.invalidate.value = none from rfl)
      (Nat.lt_succ_self _)
    exact ⟨hJ', fun entry hc ↦ ⟨(hr entry hc).mono hk, (hr entry hc).1⟩, hk⟩
  | clear hpurpose =>
    obtain ⟨hJ', hk⟩ := hJ.of_eq (t := { s with
      sessions := s.sessions.removeAllExcept _, clearedAt := s.history.length }) rfl rfl rfl rfl
    exact ⟨hJ', fun entry hc ↦ (by cases hpurpose.symm.trans hc), hk⟩
  | @fill presented g read =>
    have hk : KeepsTokens s { s with cache := s.cache.fill g read } := .of_eq rfl rfl (by simp)
    refine ⟨⟨hJ.stored, hJ.dropped, fun w hw ↦ ?_⟩, CleanRead.mono hr.2.1 hk, hk⟩
    rcases AccessCache.value_fill hw with ⟨hg, rfl⟩ | hw
    · exact ⟨hr.2.1.mono hk, hr.2.2 hg⟩
    · exact ⟨(hJ.cached w hw).1.mono hk, (hJ.cached w hw).2⟩
  | drop hv hg =>
    obtain ⟨hJ', hk⟩ := hJ.dropCache hv hg
    exact ⟨hJ', trivial, hk⟩
  | outdated => exact ⟨hJ, trivial, .of_eq rfl rfl rfl⟩
  | create =>
    obtain ⟨hJ', hk⟩ := hJ.of_eq (t := { s with sessions := s.sessions.create _ _ }) rfl rfl rfl rfl
    exact ⟨hJ', trivial, hk⟩
  | remove =>
    obtain ⟨hJ', hk⟩ := hJ.of_eq (t := { s with sessions := s.sessions.remove _ }) rfl rfl rfl rfl
    exact ⟨hJ', trivial, hk⟩

section Later

variable {wrote : ℕ} {hash : Text}

/-- A mint issued a secret of this digest after the write `wrote`. -/
def Reissued (digest : Text → Text) (s : Console) (wrote : ℕ) (hash : Text) : Prop :=
  ∃ secret, .minted secret ∈ since s.history (wrote + 1) ∧ digest secret = hash

theorem Reissued.mono {digest : Text → Text} (h : Reissued digest s wrote hash)
    (hw : wrote < s.history.length) (hk : KeepsTokens s t) : Reissued digest t wrote hash := by
  obtain ⟨secret, hmem, hhash⟩ := h
  refine ⟨secret, ?_, hhash⟩
  rcases hk.history with hh | ⟨e, hh⟩
  · rwa [hh]
  · rw [hh, since_cons e hw]
    exact List.mem_cons_of_mem e hmem

theorem reissued_of_mem {digest : Text → Text} {read : Snapshot} (hrev : RevokedAt s wrote hash)
    (hclean : CleanRead digest s read) (hlater : wrote < read.seen)
    (hmem : hash ∈ read.access.apiTokens.map ApiToken.hash) : Reissued digest s wrote hash := by
  have hthen : Barred digest (upTo (upTo s.history read.seen) (wrote + 1)) hash := by
    rw [upTo_upTo hlater hclean.seen, hrev.2]
    exact .inl rfl
  obtain ⟨secret, hsecret, hhash⟩ := exists_minted (by rwa [length_upTo hclean.seen]) hthen
    (hclean.clean.barred hash hmem)
  exact ⟨secret, since_upTo_subset hlater hclean.seen hsecret, hhash⟩

def Request.Later (digest : Text → Text) (s : Console) (wrote : ℕ) (hash : Text) : Request → Prop
  | .checkFilling _ _ read => wrote < read.seen
  | .checkRead _ read => wrote < read.seen
  | .judged presented accepted => accepted = true → ∀ parsed, Token.parse presented = some parsed →
      digest parsed.secret = hash → Reissued digest s wrote hash
  | _ => True

theorem Request.Later.mono {digest : Text → Text} (h : r.Later digest s wrote hash)
    (hw : wrote < s.history.length) (hk : KeepsTokens s t) : r.Later digest t wrote hash := by
  cases r with
  | judged presented accepted =>
    exact fun hacc parsed hp hd ↦ (h hacc parsed hp hd).mono hw hk
  | checkFilling | checkRead => exact h
  | _ => trivial

variable (hJ : Revocable crypto.digest s) (hr : r.Tokens crypto.digest s)
    (hrev : RevokedAt s wrote hash)
  (hdrop : wrote < s.droppedAt) (hl : r.Later crypto.digest s wrote hash)

include hJ hr hrev hdrop hl

theorem Computed.later (h : Computed crypto s r q) : q.Later crypto.digest s wrote hash := by
  cases h with
  | cached hget => exact hdrop.trans_le (hJ.cached _ (AccessCache.value_of_get hget)).2
  | checkFilling => exact hrev.1
  | judged =>
    intro hacc parsed hp hd
    obtain ⟨parsed', hp', hmem⟩ := Token.exists_of_verify crypto.digest hacc
    obtain rfl : parsed' = parsed := Option.some_inj.1 (hp'.symm.trans hp)
    exact reissued_of_mem hrev hr hl (hd ▸ hmem)
  | _ => trivial

theorem turn_later (h : turn crypto s r a = some (t, q)) : q.Later crypto.digest t wrote hash := by
  cases turned_of_turn h with
  | compute hq => exact (computed_of_compute hq).later hJ hr hrev hdrop hl
  | fill => exact hl
  | _ => trivial

end Later

variable {access : Access} {ls ls' : List (ℕ × Act)} {p p' : Pool Console Request}

theorem tokens_of_runs (hstart : validateApiTokens access.apiTokens = .ok ())
    (h : Pool.Runs (turn crypto) Unrevoked (start access) ls p) :
    Revocable crypto.digest p.shared ∧
      ∀ i, (p.thread i).Formed crypto ∧ (p.thread i).Tokens crypto.digest p.shared := by
  refine Pool.invariant (L := fun _ s r ↦ r.Formed crypto ∧ r.Tokens crypto.digest s)
    (fun _ _ _ _ _ _ hJ hr ha ht ↦
      have htokens := turn_tokens hJ hr.1 hr.2 ha ht
      ⟨htokens.1, ⟨turn_formed hr.1 ht, htokens.2.1⟩, htokens.2.2⟩)
    (fun _ _ _ _ _ hr hk ↦ ⟨hr.1, hr.2.mono hk⟩) ⟨?_, fun _ ↦ ⟨trivial, trivial⟩⟩ h
  exact ⟨⟨nodup_of_validateApiTokens hstart, fun _ _ hb ↦ hb⟩, le_rfl, fun _ hr ↦ nomatch hr⟩

/-- A revoked token is accepted later only if minted again, where nothing stale is written back. -/
theorem reissued_of_accepted (hdigest : Function.Injective crypto.digest)
    (hstart : validateApiTokens access.apiTokens = .ok ())
    (h : Pool.Runs (turn crypto) Unrevoked (start access) ls p) {i j wrote : ℕ} {call : Call}
    {entry : ApiToken} (hj : p.thread j = .answered call wrote)
    (hc : call.purpose = .revoke entry) (hi : p.thread i = .idle)
    (h' : Pool.Runs (turn crypto) Unrevoked p ls' p') {presented : Text}
    {parsed : Token.Presented} (hi' : p'.thread i = .judged presented true)
    (hparsed : Token.parse presented = some parsed)
    (hsecret : crypto.digest parsed.secret = entry.hash) :
    .minted parsed.secret ∈ since p'.shared.history (wrote + 1) := by
  obtain ⟨hJ, hL⟩ := tokens_of_runs hstart h
  have hanswered := (hL j).2
  rw [hj] at hanswered
  obtain ⟨hrev, hdrop⟩ := hanswered entry hc
  -- The revocation stays where it is in the history, the cache was dropped after it, and what
  -- request `i` reads it reads later.
  have hinv := Pool.invariant (G := KeepsTokens)
    (J := fun s ↦ Revocable crypto.digest s ∧ RevokedAt s wrote entry.hash ∧ wrote < s.droppedAt)
    (L := fun k s r ↦ (r.Formed crypto ∧ r.Tokens crypto.digest s) ∧
      (k = i → r.Later crypto.digest s wrote entry.hash))
    (fun k s r a t q hJ hr ha ht ↦ by
      obtain ⟨hJ', hq, hk⟩ := turn_tokens hJ.1 hr.1.1 hr.1.2 ha ht
      exact ⟨⟨hJ', hJ.2.1.mono hk, hJ.2.2.trans_le hk.dropped⟩,
        ⟨⟨turn_formed hr.1.1 ht, hq⟩, fun he ↦ turn_later hJ.1 hr.1.2 hJ.2.1 hJ.2.2 (hr.2 he) ht⟩,
        hk⟩)
    (fun k s t r hJ hr hk ↦ ⟨⟨hr.1.1, hr.1.2.mono hk⟩, fun he ↦ (hr.2 he).mono hJ.2.1.1 hk⟩)
    ⟨⟨hJ, hrev, hdrop⟩, fun k ↦ ⟨hL k, fun he ↦ by rw [he, hi]; trivial⟩⟩ h'
  have hjudged := (hinv.2 i).2 rfl
  rw [hi'] at hjudged
  obtain ⟨secret, hmem, hhash⟩ := hjudged rfl parsed hparsed hsecret
  rwa [hdigest (hhash.trans hsecret.symm)] at hmem

def oneToken : Access :=
  { passwordHash := none, apiTokens := [⟨['a', '1'], ['c', 'i'], .replicate 64 'a', 0⟩] }

def wire (id : String) (secret : Char) : Text :=
  "mica_".toList ++ id.toList ++ ['_'] ++ .replicate 64 secret

def revokes : List (ℕ × Act) :=
  [(1, .revoke ['a', '1']), (1, .read), (1, .persist), (1, .invalidate), (1, .answer)]

def mints (secret : Char) : List (ℕ × Act) :=
  [(0, .mint ['n']), (0, .read), (0, .draw (.replicate 64 secret) [['b', '2']] 0)]

def asks (token : Text) : List (ℕ × Act) :=
  [(2, .check token), (2, .snapshot), (2, .read), (2, .fill), (2, .judge)]

def Request.revokedHash : Request → Option (Text × ℕ)
  | .answered call wrote =>
    match call.purpose with
    | .revoke entry => some (entry.hash, wrote)
    | _ => none
  | _ => none

theorem Request.exists_of_revokedHash {hash : Text} {wrote : ℕ}
    (h : r.revokedHash = some (hash, wrote)) :
    ∃ call entry, r = .answered call wrote ∧ call.purpose = .revoke entry ∧ entry.hash = hash := by
  unfold revokedHash at h
  split at h
  · next call wrote' =>
    split at h
    · next entry hp =>
      cases h
      exact ⟨call, entry, rfl, hp, rfl⟩
    · cases h
  · cases h

def Request.isIdle : Request → Bool
  | .idle => true
  | _ => false

theorem Request.eq_of_isIdle (h : r.isIdle = true) : r = .idle := by
  cases r <;> first | rfl | cases h

def Request.accepted : Request → Option Text
  | .judged presented true => some presented
  | _ => none

theorem Request.eq_of_accepted {presented : Text} (h : r.accepted = some presented) :
    r = .judged presented true := by
  unfold accepted at h
  split at h
  · cases h
    rfl
  · cases h

theorem reissued_of_accepted_again : ∃ p p',
    Pool.Runs (turn plainCrypto) Unrevoked (start oneToken) revokes p ∧
    Pool.Runs (turn plainCrypto) Unrevoked p
      (mints 'a' ++ [(0, .persist)] ++ asks (wire "b2" 'a')) p' ∧
    p'.thread 2 = .judged (wire "b2" 'a') true ∧
    .minted (.replicate 64 'a') ∈ since p'.shared.history 1 := by
  obtain ⟨p, hp, hrevoked, hidle, p', hp', haccepted⟩ : ∃ p,
      Pool.Runs (turn plainCrypto) Unrevoked (start oneToken) revokes p ∧
      (p.thread 1).revokedHash = some (.replicate 64 'a', 0) ∧ (p.thread 2).isIdle = true ∧
      ∃ p', Pool.Runs (turn plainCrypto) Unrevoked p
          (mints 'a' ++ [(0, .persist)] ++ asks (wire "b2" 'a')) p' ∧
        (p'.thread 2).accepted = some (wire "b2" 'a') := by
    decide
  obtain ⟨call, entry, hj, hc, hhash⟩ := Request.exists_of_revokedHash hrevoked
  have hi' := Request.eq_of_accepted haccepted
  exact ⟨p, p', hp, hp', hi', reissued_of_accepted (fun _ _ h ↦ h) (by rfl) hp hj hc
    (Request.eq_of_isIdle hidle) hp' hi'
    (show Token.parse (wire "b2" 'a') = some ⟨['b', '2'], .replicate 64 'a'⟩ by rfl) hhash.symm⟩

/-- A mint that read the list before a revocation writes the revoked token back. -/
theorem accepted_of_writtenBack : ∃ p p' call entry wrote,
    validateApiTokens oneToken.apiTokens = .ok () ∧
    Pool.Runs (turn plainCrypto) (fun _ _ _ ↦ True) (start oneToken) (mints 'b' ++ revokes) p ∧
    p.thread 1 = .answered call wrote ∧ call.purpose = .revoke entry ∧
    p.thread 2 = .idle ∧
    Pool.Runs (turn plainCrypto) (fun _ _ _ ↦ True) p ([(0, .persist)] ++ asks (wire "a1" 'a')) p' ∧
    p'.thread 2 = .judged (wire "a1" 'a') true ∧
    Token.parse (wire "a1" 'a') = some ⟨['a', '1'], .replicate 64 'a'⟩ ∧
    plainCrypto.digest (.replicate 64 'a') = entry.hash ∧
    .minted (.replicate 64 'a') ∉ p'.shared.history := by
  obtain ⟨p, hp, hrevoked, hidle, p', hp', haccepted, hnot⟩ : ∃ p,
      Pool.Runs (turn plainCrypto) (fun _ _ _ ↦ True) (start oneToken) (mints 'b' ++ revokes) p ∧
      (p.thread 1).revokedHash = some (.replicate 64 'a', 0) ∧ (p.thread 2).isIdle = true ∧
      ∃ p', Pool.Runs (turn plainCrypto) (fun _ _ _ ↦ True) p
          ([(0, .persist)] ++ asks (wire "a1" 'a')) p' ∧
        (p'.thread 2).accepted = some (wire "a1" 'a') ∧
        .minted (.replicate 64 'a') ∉ p'.shared.history := by
    decide
  obtain ⟨call, entry, hj, hc, hhash⟩ := Request.exists_of_revokedHash hrevoked
  exact ⟨p, p', call, entry, 0, by rfl, hp, hj, hc, Request.eq_of_isIdle hidle, hp',
    Request.eq_of_accepted haccepted, by rfl, hhash.symm, hnot⟩

end MicaCore.Api.Console
