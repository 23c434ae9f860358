import MicaCore.Api.AccessCache
import MicaCore.Api.Token

namespace MicaCore.Api

open Data Concurrent Settings

structure SessionStore (ν : Type) where
  sessions : List (Text × ν) := []
  generation : ℕ := 0

namespace SessionStore

variable {ν : Type}

def create (store : SessionStore ν) (id : Text) (session : ν) : SessionStore ν :=
  { store with sessions := (id, session) :: store.sessions.filter (·.1 != id) }

def createIfCurrent (store : SessionStore ν) (generation : ℕ) (id : Text) (session : ν) :
    Option (SessionStore ν) :=
  if store.generation = generation then some (store.create id session) else none

def removeAllExcept (store : SessionStore ν) (keep : Option Text) : SessionStore ν where
  sessions := store.sessions.filter fun entry ↦ some entry.1 == keep
  generation := store.generation + 1

def remove (store : SessionStore ν) (id : Text) : SessionStore ν :=
  { store with sessions := store.sessions.filter (·.1 != id) }

end SessionStore

inductive ClaimChannel where
  | setup
  | provisioningDocument
  | ble
  deriving DecidableEq

structure ClaimSettings where
  via : ClaimChannel
  time : ℕ
  rotationRequired : Bool
  deriving DecidableEq

/-- The `access` subtree: what the requests read and write of it, and the rest. -/
structure Access where
  passwordHash : Option Text
  claim : Option ClaimSettings := none
  apiTokens : List ApiToken := []
  rest : Json := .null

structure ImportRecord where
  appliedDigest : Option Text
  time : Option ℕ

structure ClaimStatus where
  claimed : Bool
  via : Option ClaimChannel := none
  time : Option ℕ := none
  rotationRequired : Bool := false

def claimStatus (access : Access) (document : Option ImportRecord) : ClaimStatus :=
  if access.passwordHash.isNone then { claimed := false }
  else match access.claim with
    | some claim =>
      { claimed := true, via := some claim.via, time := some claim.time,
        rotationRequired := claim.rotationRequired }
    | none =>
      match document with
      | none => { claimed := true }
      | some document =>
        if document.appliedDigest.isNone then { claimed := true }
        else { claimed := true, via := some .provisioningDocument, time := document.time,
               rotationRequired := true }

def rotated (access : Access) (hash : Text) (claim : ClaimStatus) : Access :=
  { access with
    passwordHash := some hash
    claim := match claim.via with
      | some via => some { via := via, time := claim.time.getD 0, rotationRequired := false }
      | none => access.claim }

def passwordUnderFloor (password : Text) : Bool := byteLength password < 8

structure Crypto where
  verifyPassword (hash password : Text) : Bool
  hashPassword (salt password : Text) : Option Text
  digest (secret : Text) : Text

inductive Event where
  | rehashed
  | minted (secret : Text)
  | revoked (hash : Text)
  deriving DecidableEq

def Event.isRevoked : Event → Bool
  | .revoked _ => true
  | _ => false

structure Snapshot where
  access : Access
  seen : ℕ

inductive Write where
  | subtree (access : Access)
  | tokens (tokens : List ApiToken)

inductive Purpose where
  | change (acting : Option Text) (current : Text)
  | mint (secret : Text)
  | revoke (entry : ApiToken)
  deriving DecidableEq

structure Call where
  write : Write
  purpose : Purpose
  read : Snapshot

def Call.event (call : Call) : Event :=
  match call.purpose with
  | .change _ _ => .rehashed
  | .mint secret => .minted secret
  | .revoke entry => .revoked entry.hash

/-- What the requests share. The history and its lengths only record what happened. -/
structure Console where
  access : Access
  sessions : SessionStore ℕ := {}
  cache : AccessCache Snapshot := {}
  history : List Event := []
  droppedAt : ℕ := 0
  clearedAt : ℕ := 0

namespace Console

def snapshot (s : Console) : Snapshot := ⟨s.access, s.history.length⟩

def store (s : Console) (call : Call) : Console :=
  { s with
    access := match call.write with
      | .subtree access => access
      | .tokens tokens => { s.access with apiTokens := tokens }
    history := call.event :: s.history }

def dropCache (s : Console) (cache : AccessCache Snapshot) : Console :=
  { s with cache := cache, droppedAt := s.history.length }

/-- A request between two steps; `wrote` is the history's length at its own write. -/
inductive Request where
  | idle
  | loginBegun (password : Text) (generation : ℕ)
  | loginRead (password : Text) (generation : ℕ) (hash : Text) (seen : ℕ)
  | loginVerified (generation seen : ℕ)
  | signedIn (id : Text)
  | changeBegun (acting : Option Text) (current new : Text)
  | changeRead (acting : Option Text) (current new hash : Text) (read : Snapshot)
  | changeVerified (acting : Option Text) (current new : Text) (read : Snapshot)
  | mintBegun (name : Text)
  | mintRead (name : Text) (read : Snapshot)
  | revokeBegun (id : Text)
  | writing (call : Call)
  | late (call : Call)
  | written (call : Call) (wrote : ℕ)
  | invalidated (call : Call) (wrote : ℕ)
  | answered (call : Call) (wrote : ℕ)
  | checkMissed (presented : Text)
  | checkReading (presented : Text) (generation : ℕ)
  | checkFilling (presented : Text) (generation : ℕ) (read : Snapshot)
  | checkRead (presented : Text) (read : Snapshot)
  | judged (presented : Text) (accepted : Bool)
  | failed

/-- What a request does next; the last four are not a request's own steps. -/
inductive Act where
  | login (password : Text)
  | change (acting : Option Text) (current new : Text)
  | mint (name : Text)
  | revoke (id : Text)
  | check (presented : Text)
  | read
  | verify
  | hash (salt : Text) (document : Option ImportRecord)
  | create (id : Text)
  | draw (secret : Text) (draws : List Text) (now : ℕ)
  | persist
  | refuse
  | timeout
  | invalidate
  | clear
  | answer
  | snapshot
  | fill
  | judge
  | fail
  | signal
  | subscribed
  | lapsed
  | remove (id : Text)

def Act.isPersist : Act → Bool
  | .persist => true
  | _ => false

def Request.outgoing : Request → Option Call
  | .writing call => some call
  | .late call => some call
  | _ => none

def writeTokens (tokens : List ApiToken) (purpose : Purpose) (read : Snapshot) : Request :=
  match validateApiTokens tokens with
  | .ok _ => .writing ⟨.tokens tokens, purpose, read⟩
  | .error _ => .failed

section Turn

variable (crypto : Crypto)

def minting (name : Text) (read : Snapshot) (secret : Text) (draws : List Text) (now : ℕ) :
    Request :=
  match Token.freeId read.access.apiTokens draws with
  | none => .failed
  | some id =>
    writeTokens (read.access.apiTokens ++ [⟨id, name, crypto.digest secret, now⟩])
      (.mint secret) read

def revoking (id : Text) (read : Snapshot) : Request :=
  match read.access.apiTokens.find? (·.id == id) with
  | none => .failed
  | some entry => writeTokens (read.access.apiTokens.eraseP (·.id == id)) (.revoke entry) read

def compute (s : Console) : Request → Act → Option Request
  | .idle, .login password => some (.loginBegun password s.sessions.generation)
  | .loginBegun password generation, .read =>
    some <| match s.access.passwordHash with
      | none => .failed
      | some hash => .loginRead password generation hash s.history.length
  | .loginRead password generation hash seen, .verify =>
    some (if crypto.verifyPassword hash password then .loginVerified generation seen else .failed)
  | .idle, .change acting current new =>
    some (if passwordUnderFloor new then .failed else .changeBegun acting current new)
  | .changeBegun acting current new, .read =>
    some <| match s.access.passwordHash with
      | none => .failed
      | some hash => .changeRead acting current new hash s.snapshot
  | .changeRead acting current new hash read, .verify =>
    some (if crypto.verifyPassword hash current then .changeVerified acting current new read
      else .failed)
  | .changeVerified acting current new read, .hash salt document =>
    some <| match crypto.hashPassword salt new with
      | none => .failed
      | some hash =>
        .writing ⟨.subtree (rotated read.access hash (claimStatus read.access document)),
          .change acting current, read⟩
  | .idle, .mint name => some (.mintBegun name)
  | .mintBegun name, .read =>
    some (if s.access.apiTokens.length ≥ maxTokens then .failed else .mintRead name s.snapshot)
  | .mintRead name read, .draw secret draws now => some (minting crypto name read secret draws now)
  | .idle, .revoke id => some (if isApiTokenId id then .revokeBegun id else .failed)
  | .revokeBegun id, .read => some (revoking id s.snapshot)
  | .idle, .check presented =>
    some <| match s.cache.get with
      | some read => .checkRead presented read
      | none => .checkMissed presented
  | .checkMissed presented, .snapshot => some (.checkReading presented s.cache.generation)
  | .checkReading presented generation, .read =>
    some (.checkFilling presented generation s.snapshot)
  | .checkRead presented read, .judge =>
    some (.judged presented (Token.verify crypto.digest read.access.apiTokens presented))
  | .writing _, .refuse => some .failed
  -- micad may still be at work when the bounded call gives up.
  | .writing call, .timeout => some (.late call)
  | .written _ _, .timeout => some .failed
  | .invalidated call wrote, .answer =>
    match call.purpose with
    | .change _ _ => none
    | _ => some (.answered call wrote)
  | .loginBegun _ _, .fail | .changeBegun _ _ _, .fail | .mintBegun _, .fail
  | .revokeBegun _, .fail | .checkReading _ _, .fail => some .failed
  | _, _ => none

def turn (s : Console) (r : Request) (a : Act) : Option (Console × Request) :=
  match r, a with
  | .loginVerified generation seen, .create id =>
    match s.sessions.createIfCurrent generation id seen with
    | none => some (s, .failed)
    | some sessions => some ({ s with sessions := sessions }, .signedIn id)
  | .writing call, .persist => some (s.store call, .written call s.history.length)
  | .late call, .persist => some (s.store call, .failed)
  | .written call wrote, .invalidate =>
    some (s.dropCache s.cache.invalidate, .invalidated call wrote)
  | .invalidated call wrote, .clear =>
    match call.purpose with
    | .change acting _ =>
      some ({ s with
        sessions := s.sessions.removeAllExcept acting
        clearedAt := s.history.length }, .answered call wrote)
    | _ => none
  | .checkFilling presented generation read, .fill =>
    some ({ s with cache := s.cache.fill generation read }, .checkRead presented read)
  | .idle, .signal => some (s.dropCache s.cache.invalidate, .idle)
  | .idle, .subscribed => some (s.dropCache s.cache.subscribed, .idle)
  | .idle, .lapsed => some (s.dropCache s.cache.lapsed, .idle)
  | .idle, .remove id => some ({ s with sessions := s.sessions.remove id }, .idle)
  | r, a => (compute crypto s r a).map fun r' ↦ (s, r')

end Turn

variable {crypto : Crypto} {s t : Console} {r q : Request} {a : Act}

/-- What a request comes to by a step that changes nothing shared. -/
inductive Computed (crypto : Crypto) (s : Console) : Request → Request → Prop
  | failed {r : Request} : Computed crypto s r .failed
  | loginBegun {password : Text} :
      Computed crypto s .idle (.loginBegun password s.sessions.generation)
  | loginRead {password hash : Text} {g : ℕ} :
      Computed crypto s (.loginBegun password g) (.loginRead password g hash s.history.length)
  | loginVerified {password hash : Text} {g seen : ℕ} :
      Computed crypto s (.loginRead password g hash seen) (.loginVerified g seen)
  | changeBegun {acting : Option Text} {current new : Text} :
      Computed crypto s .idle (.changeBegun acting current new)
  | changeRead {acting : Option Text} {current new hash : Text} :
      s.access.passwordHash = some hash → Computed crypto s (.changeBegun acting current new)
        (.changeRead acting current new hash s.snapshot)
  | changeVerified {acting : Option Text} {current new hash : Text} {read : Snapshot} :
      crypto.verifyPassword hash current = true →
      Computed crypto s (.changeRead acting current new hash read)
        (.changeVerified acting current new read)
  | change {acting : Option Text} {current new hash : Text} {claim : ClaimStatus}
      {read : Snapshot} : Computed crypto s (.changeVerified acting current new read)
        (.writing ⟨.subtree (rotated read.access hash claim), .change acting current, read⟩)
  | mintBegun {name : Text} : Computed crypto s .idle (.mintBegun name)
  | mintRead {name : Text} : Computed crypto s (.mintBegun name) (.mintRead name s.snapshot)
  | mint {name secret : Text} {read : Snapshot} {entry : ApiToken} :
      entry.hash = crypto.digest secret →
      ((read.access.apiTokens ++ [entry]).map ApiToken.hash).Nodup →
      Computed crypto s (.mintRead name read)
        (.writing ⟨.tokens (read.access.apiTokens ++ [entry]), .mint secret, read⟩)
  | revokeBegun {id : Text} : Computed crypto s .idle (.revokeBegun id)
  | revoke {id : Text} {entry : ApiToken} : s.access.apiTokens.find? (·.id == id) = some entry →
      Computed crypto s (.revokeBegun id)
        (.writing ⟨.tokens (s.access.apiTokens.eraseP (·.id == id)), .revoke entry, s.snapshot⟩)
  | cached {presented : Text} {read : Snapshot} : s.cache.get = some read →
      Computed crypto s .idle (.checkRead presented read)
  | missed {presented : Text} : Computed crypto s .idle (.checkMissed presented)
  | checkReading {presented : Text} :
      Computed crypto s (.checkMissed presented) (.checkReading presented s.cache.generation)
  | checkFilling {presented : Text} {g : ℕ} :
      Computed crypto s (.checkReading presented g) (.checkFilling presented g s.snapshot)
  | judged {presented : Text} {read : Snapshot} : Computed crypto s (.checkRead presented read)
      (.judged presented (Token.verify crypto.digest read.access.apiTokens presented))
  | late {call : Call} : Computed crypto s (.writing call) (.late call)
  | answered {call : Call} {wrote : ℕ} :
      (∀ acting current, call.purpose ≠ .change acting current) →
      Computed crypto s (.invalidated call wrote) (.answered call wrote)

theorem writeTokens_cases (tokens : List ApiToken) (purpose : Purpose) (read : Snapshot) :
    writeTokens tokens purpose read = .failed ∨
      (writeTokens tokens purpose read = .writing ⟨.tokens tokens, purpose, read⟩ ∧
        (tokens.map ApiToken.hash).Nodup) := by
  unfold writeTokens
  split
  · next hok => exact .inr ⟨rfl, nodup_of_validateApiTokens hok⟩
  · exact .inl rfl

theorem computed_minting (name : Text) (read : Snapshot) (secret : Text) (draws : List Text)
    (now : ℕ) : Computed crypto s (.mintRead name read)
      (minting crypto name read secret draws now) := by
  unfold minting
  split
  · exact .failed
  · next id _ =>
    rcases writeTokens_cases (read.access.apiTokens ++ [⟨id, name, crypto.digest secret, now⟩])
      (.mint secret) read with h | ⟨h, hnodup⟩ <;> rw [h]
    · exact .failed
    · exact .mint rfl hnodup

theorem computed_revoking (id : Text) :
    Computed crypto s (.revokeBegun id) (revoking id s.snapshot) := by
  unfold revoking
  split
  · exact .failed
  · next entry hentry =>
    rcases writeTokens_cases (s.access.apiTokens.eraseP (·.id == id)) (.revoke entry) s.snapshot
      with h | ⟨h, -⟩
    · exact h ▸ .failed
    · exact h ▸ .revoke hentry

theorem computed_of_compute (h : compute crypto s r a = some q) : Computed crypto s r q := by
  unfold compute at h
  split at h
  case h_10 name read secret draws now =>
    cases h
    exact computed_minting name read secret draws now
  case h_12 id =>
    cases h
    exact computed_revoking id
  case h_20 =>
    split at h <;> cases h
    exact .answered (by assumption)
  all_goals cases h
  all_goals first
    | constructor
    | split <;> constructor <;> assumption

/-- A turn computes, or changes what the requests share. -/
inductive Turned (crypto : Crypto) (s : Console) : Request → Act → Console → Request → Prop
  | compute {r q : Request} {a : Act} : compute crypto s r a = some q → Turned crypto s r a s q
  | outdated {g seen : ℕ} {id : Text} :
      Turned crypto s (.loginVerified g seen) (.create id) s .failed
  | create {seen : ℕ} {id : Text} :
      Turned crypto s (.loginVerified s.sessions.generation seen) (.create id)
        { s with sessions := s.sessions.create id seen } (.signedIn id)
  | persist {call : Call} :
      Turned crypto s (.writing call) .persist (s.store call) (.written call s.history.length)
  | persistLate {call : Call} : Turned crypto s (.late call) .persist (s.store call) .failed
  | invalidate {call : Call} {wrote : ℕ} :
      Turned crypto s (.written call wrote) .invalidate (s.dropCache s.cache.invalidate)
        (.invalidated call wrote)
  | clear {call : Call} {wrote : ℕ} {acting : Option Text} {current : Text} :
      call.purpose = .change acting current →
      Turned crypto s (.invalidated call wrote) .clear
        { s with sessions := s.sessions.removeAllExcept acting, clearedAt := s.history.length }
        (.answered call wrote)
  | fill {presented : Text} {g : ℕ} {read : Snapshot} :
      Turned crypto s (.checkFilling presented g read) .fill
        { s with cache := s.cache.fill g read } (.checkRead presented read)
  | drop {a : Act} {cache : AccessCache Snapshot} :
      cache.value = none → s.cache.generation < cache.generation →
      Turned crypto s .idle a (s.dropCache cache) .idle
  | remove {id : Text} :
      Turned crypto s .idle (.remove id) { s with sessions := s.sessions.remove id } .idle

theorem turned_of_turn (h : turn crypto s r a = some (t, q)) : Turned crypto s r a t q := by
  unfold turn at h
  split at h
  · next g seen id =>
    rw [SessionStore.createIfCurrent] at h
    split at h
    · cases h
      exact .outdated
    · next hcreate =>
      cases h
      obtain ⟨rfl, hsessions⟩ := Option.ite_none_right_eq_some.1 hcreate
      cases hsessions
      exact .create
  · cases h
    exact .persist
  · cases h
    exact .persistLate
  · cases h
    exact .invalidate
  · split at h
    · next hpurpose =>
      cases h
      exact .clear hpurpose
    · cases h
  · cases h
    exact .fill
  · cases h
    exact .drop rfl (Nat.lt_succ_self _)
  · cases h
    exact .drop rfl (Nat.lt_succ_self _)
  · cases h
    exact .drop rfl (Nat.lt_succ_self _)
  · cases h
    exact .remove
  · obtain ⟨q', hq, he⟩ := Option.map_eq_some_iff.1 h
    cases he
    exact .compute hq

inductive Call.Formed (crypto : Crypto) : Call → Prop
  | change (acting : Option Text) (current hash : Text) (claim : ClaimStatus) (read : Snapshot) :
      Call.Formed crypto ⟨.subtree (rotated read.access hash claim), .change acting current, read⟩
  | mint {secret : Text} {entry : ApiToken} (read : Snapshot) : entry.hash = crypto.digest secret →
      ((read.access.apiTokens ++ [entry]).map ApiToken.hash).Nodup →
      Call.Formed crypto ⟨.tokens (read.access.apiTokens ++ [entry]), .mint secret, read⟩
  | revoke {id : Text} {entry : ApiToken} (read : Snapshot) :
      read.access.apiTokens.find? (·.id == id) = some entry →
      Call.Formed crypto
        ⟨.tokens (read.access.apiTokens.eraseP (·.id == id)), .revoke entry, read⟩

def Request.Formed (crypto : Crypto) : Request → Prop
  | .writing call => Call.Formed crypto call
  | .late call => Call.Formed crypto call
  | _ => True

theorem turn_formed (hr : r.Formed crypto) (h : turn crypto s r a = some (t, q)) :
    q.Formed crypto := by
  cases turned_of_turn h with
  | compute hq =>
    cases computed_of_compute hq with
    | change => exact .change _ _ _ _ _
    | mint hhash hnodup => exact .mint _ hhash hnodup
    | revoke hentry => exact .revoke s.snapshot hentry
    | late => exact hr
    | _ => trivial
  | _ => trivial

def start (access : Access) : Pool Console Request where
  shared := { access := access }
  thread _ := .idle

def since (history : List Event) (n : ℕ) : List Event := history.take (history.length - n)

theorem since_cons {history : List Event} {n : ℕ} (e : Event) (hn : n ≤ history.length) :
    since (e :: history) n = e :: since history n := by
  rw [since, since, List.length_cons, Nat.succ_sub hn, List.take_succ_cons]

def plainCrypto : Crypto where
  verifyPassword hash password := hash == password
  hashPassword _ password := some password
  digest secret := secret

end Console

end MicaCore.Api
