import Askl.Auth.Tokens
import Askl.Library.Exchange
import Askl.Library.Keyed

/-!
# Keys and the requests that need one

Keys are made and revoked by requests that come from the machine of the server while it is in
bootstrap mode, and are rows of a table.  A request that changes the index has to bring the token
of a key.  Its check takes three steps, with other requests in between: the row of the key is
read, the secret is verified and the expiry checked, and the time of use is written.

The hash of a secret, the text of ids and the reading of dates are left to libraries.  Every step
may fail in the storage, also after its transaction has been committed; time does not go back.

## Main definitions

* `AuthEnv` — the libraries and the settings of the server.
* `AuthState` — the tables and the clock.
* `AuthCall`, `AuthJob`, `AuthReply` — requests, what is left to do of them, and answers.
* `AuthState.serveAuth` — one step of a request.
* `authService` — the server.

## Main results

* `AuthState.Grows` — what no request takes away.
* `grows_next` — **every step of the server lets the tables grow only.**
-/

namespace Askl

open Exchange

/-! ### The tables -/

/-- The libraries and the settings of the server.  A secret is verified against its own hash. -/
structure AuthEnv where
  uuid : UuidText
  hashPassword : Text → Text → Text
  verifyPassword : Text → Text → Bool
  verify_hash : ∀ secret salt, verifyPassword (hashPassword secret salt) secret = true
  parseRfc3339 : Text → Option ℤ
  toRfc3339 : ℤ → Text
  bootstrapAllowed : Bool
  insecureTokensAllowed : Bool

/-- A row of `auth.users`. -/
structure UserRow where
  id : Uuid
  email : Text
  createdAt : ℤ
  deriving DecidableEq

/-- A row of `auth.api_keys`. -/
structure ApiKeyRow where
  id : Uuid
  userId : Uuid
  hashedSecret : Text
  name : Option Text
  createdAt : ℤ
  lastUsedAt : Option ℤ
  revokedAt : Option ℤ
  expiresAt : Option ℤ
  deriving DecidableEq

/-- The tables, and the time in nanoseconds. -/
structure AuthState where
  users : List UserRow
  apiKeys : List ApiKeyRow
  now : ℤ
  deriving DecidableEq

/-- A time as a `timestamptz`, which counts microseconds. -/
def timestamptz (time : ℤ) : ℤ := time / 1000 * 1000

/-- `AuthIdentity`. -/
structure AuthIdentity where
  userId : Uuid
  email : Text
  keyId : Uuid
  deriving DecidableEq

/-- `AuthRow`, of a key that is not revoked. -/
structure AuthRow where
  userId : Uuid
  email : Text
  hashedSecret : Text
  expiresAt : Option ℤ
  deriving DecidableEq

/-- What is drawn at random for a new key. -/
structure KeyDraws where
  secret : { bytes : Bytes // bytes.length = 32 }
  salt : Text
  keyId : Uuid
  userId : Uuid

theorem KeyDraws.secret_ne_nil (draws : KeyDraws) : draws.secret.1 ≠ [] := by
  -- a secret has 32 bytes
  intro hnil
  have hlength := draws.secret.2
  rw [hnil] at hlength
  cases hlength

/-! ### Requests -/

/-- A request: one of the local administration, which comes from the loopback interface or not,
or one whose handler asks for an identity. -/
inductive AuthCall where
  | createApiKey (loopback : Bool) (email : Text) (name expiresAt : Option Text)
  | revokeApiKey (loopback : Bool) (tokenId : Text)
  | identify (request : HttpRequest)
  deriving DecidableEq

/-- What is left to do of a request. -/
inductive AuthJob where
  | received (call : AuthCall)
  | inserting (email : Text) (name : Option Text) (expiresAt : Option ℤ) (draws : KeyDraws)
      (hashedSecret : Text) (now : ℤ)
  | revoking (keyId : Uuid)
  | authenticating (keyId : Uuid) (secret : Text)
  | verifying (keyId : Uuid) (secret : Text) (row : AuthRow)
  | touching (identity : AuthIdentity)

/-- What a request is answered with. -/
inductive AuthReply where
  | created (token : Text) (expiresAt : Option Text)
  | revoked
  | identified (identity : AuthIdentity)
  | refused (refusal : Refusal)
  | badRequest (message : String)
  | notFound (message : String)
  deriving DecidableEq

namespace AuthState

variable (E : AuthEnv) (s : AuthState)

/-- The user of an email, who is inserted when there is none. -/
def findOrInsertUser (email : Text) (userId : Uuid) (now : ℤ) : Option (AuthState × Uuid) :=
  match s.users.find? (·.email == email) with
  | some user => some (s, user.id)
  | none =>
    if s.users.any (·.id == userId) then none
    else some ({ s with users := s.users ++ [⟨userId, email, timestamptz now⟩] }, userId)

/-- Insert a key. -/
def insertApiKey (key : ApiKeyRow) : Option AuthState :=
  if s.apiKeys.any (·.id == key.id) then none
  else some { s with apiKeys := s.apiKeys ++ [key] }

/-- The transaction of `create_api_key`; nothing is inserted when an id is in use. -/
def createApiKey (email : Text) (name : Option Text) (expiresAt : Option ℤ) (draws : KeyDraws)
    (hashedSecret : Text) (now : ℤ) : Option AuthState :=
  (s.findOrInsertUser email draws.userId now).bind fun found =>
    found.1.insertApiKey
      { id := draws.keyId
        userId := found.2
        hashedSecret := hashedSecret
        name := name
        createdAt := timestamptz now
        lastUsedAt := none
        revokedAt := none
        expiresAt := expiresAt.map timestamptz }

/-- The row of a key and its user. -/
def findKey (keyId : Uuid) : Option (ApiKeyRow × UserRow) :=
  (s.apiKeys.find? (·.id == keyId)).bind fun key =>
    (s.users.find? (·.id == key.userId)).map fun user => (key, user)

/-- Update the rows of a key. -/
def updateKey (keyId : Uuid) (update : ApiKeyRow → ApiKeyRow) : AuthState :=
  { s with apiKeys := s.apiKeys.map fun key => if key.id = keyId then update key else key }

/-- `revoke_api_key`: whether there was such a key that had not been revoked. -/
def revokeApiKey (keyId : Uuid) : AuthState × Bool :=
  if s.apiKeys.any fun key => key.id == keyId && key.revokedAt.isNone then
    (s.updateKey keyId fun key =>
      if key.revokedAt.isNone then { key with revokedAt := some (timestamptz s.now) } else key, true)
  else (s, false)

/-- The handler of `create-api-key`, up to its transaction. -/
def startCreate (draws : KeyDraws) (loopback : Bool) (email : Text) (name expiresAt : Option Text) :
    AuthJob ⊕ AuthReply :=
  if !loopback then .inr (.notFound "")
  else if !E.bootstrapAllowed then .inr (.refused (.forbidden "Bootstrap mode disabled"))
  else if (trim email).isEmpty then .inr (.badRequest "Email is required")
  else
    let insert (expiresAt : Option ℤ) : AuthJob ⊕ AuthReply :=
      .inl (.inserting (trim (trim email)) name expiresAt draws
        (E.hashPassword (urlSafeNoPad draws.secret.1) draws.salt) s.now)
    match expiresAt with
    | none => insert none
    | some raw => match E.parseRfc3339 raw with
      | none => .inr (.badRequest "Invalid expires_at; use RFC3339 like 2026-01-01T00:00:00Z")
      | some time =>
        if time ≤ s.now then .inr (.badRequest "expires_at must be in the future")
        else insert (some time)

/-- The handler of `revoke-api-key`, up to its update. -/
def startRevoke (loopback : Bool) (tokenId : Text) : AuthJob ⊕ AuthReply :=
  if !loopback then .inr (.notFound "")
  else if !E.bootstrapAllowed then .inr (.refused (.forbidden "Bootstrap mode disabled"))
  else match E.uuid.parseStr (trim tokenId) with
    | none => .inr (.badRequest "Invalid token_id; expected UUID")
    | some keyId => .inl (.revoking keyId)

/-- The extractor of an identity, up to the first query of `authenticate_token`.  The credentials
have been taken out of the request before. -/
def startIdentify (request : HttpRequest) : AuthJob ⊕ AuthReply :=
  match request.redactAuthHeaders.requestToken E.insecureTokensAllowed with
  | .error refusal => .inr (.refused refusal)
  | .ok token => match parseToken E.uuid token with
    | none => .inr (.refused (.unauthorized "Unauthorized"))
    | some (keyId, secret) => .inl (.authenticating keyId secret)

/-- One step of a request. -/
def serveAuth (draws : KeyDraws) : AuthJob → AuthState × (AuthJob ⊕ AuthReply)
  | .received (.createApiKey loopback email name expiresAt) =>
    (s, s.startCreate E draws loopback email name expiresAt)
  | .received (.revokeApiKey loopback tokenId) => (s, startRevoke E loopback tokenId)
  | .received (.identify request) => (s, startIdentify E request)
  | .inserting email name expiresAt draws hashedSecret now =>
    match s.createApiKey email name expiresAt draws hashedSecret now with
    | none => (s, .inr (.refused (.internalServerError "Failed to create API key")))
    | some s' => (s', .inr (.created (apiToken E.uuid draws.keyId (urlSafeNoPad draws.secret.1))
        (expiresAt.map E.toRfc3339)))
  | .revoking keyId =>
    let (s', revoked) := s.revokeApiKey keyId
    (s', .inr (if revoked then .revoked else .notFound "API key not found or already revoked"))
  | .authenticating keyId secret =>
    match s.findKey keyId with
    | none => (s, .inr (.refused (.unauthorized "Unauthorized")))
    | some (key, user) =>
      if key.revokedAt.isSome then (s, .inr (.refused (.unauthorized "Unauthorized")))
      else (s, .inl (.verifying keyId secret
        ⟨user.id, user.email, key.hashedSecret, key.expiresAt⟩))
  | .verifying keyId secret row =>
    if !E.verifyPassword row.hashedSecret secret then
      (s, .inr (.refused (.unauthorized "Unauthorized")))
    else if row.expiresAt.any fun expiresAt => decide (expiresAt ≤ s.now) then
      (s, .inr (.refused (.unauthorized "Unauthorized")))
    else (s, .inl (.touching ⟨row.userId, row.email, keyId⟩))
  | .touching identity =>
    (s.updateKey identity.keyId fun key => { key with lastUsedAt := some (timestamptz s.now) },
      .inr (.identified identity))

end AuthState

/-- What is answered when the storage fails. -/
def AuthJob.storageFailure : AuthJob → AuthReply
  | .received (.createApiKey _ _ _ _) | .inserting _ _ _ _ _ _ =>
    .refused (.internalServerError "Failed to create API key")
  | .received (.revokeApiKey _ _) | .revoking _ =>
    .refused (.internalServerError "Failed to revoke API key")
  | _ => .refused (.internalServerError "Internal error")

/-- The server: a step is done, and its outcome may be lost to a failure of the storage, or the
failure keeps it from being done. -/
def authService (E : AuthEnv) : Service AuthState AuthCall AuthJob AuthReply where
  start := .received
  serve s job s' out := ∃ draws, s.serveAuth E draws job = (s', out) ∨
    (s' = s ∨ s' = (s.serveAuth E draws job).1) ∧ out = .inr job.storageFailure
  others s s' := s'.users = s.users ∧ s'.apiKeys = s.apiKeys ∧ s.now ≤ s'.now

/-! ### What the tables keep -/

/-- A later state of the row of a key: only its times of use and of revocation may change, and a
revocation stays. -/
structure ApiKeyRow.Later (key key' : ApiKeyRow) : Prop where
  id : key'.id = key.id
  userId : key'.userId = key.userId
  hashedSecret : key'.hashedSecret = key.hashedSecret
  expiresAt : key'.expiresAt = key.expiresAt
  revokedAt : key.revokedAt.isSome = true → key'.revokedAt.isSome = true

theorem ApiKeyRow.Later.refl (key : ApiKeyRow) : key.Later key :=
  ⟨rfl, rfl, rfl, rfl, fun h => h⟩

namespace AuthState

/-- What no request takes away. -/
structure Grows (s s' : AuthState) : Prop where
  users : ∀ user ∈ s.users, user ∈ s'.users
  keys : ∀ key ∈ s.apiKeys, ∃ key' ∈ s'.apiKeys, key.Later key'
  now : s.now ≤ s'.now

/-- Users have ids and emails of their own, keys have ids of their own and belong to users. -/
structure Tabled (s : AuthState) : Prop where
  userIds : (s.users.map (·.id)).Nodup
  emails : (s.users.map (·.email)).Nodup
  keyIds : (s.apiKeys.map (·.id)).Nodup
  keyUsers : ∀ key ∈ s.apiKeys, ∃ user ∈ s.users, user.id = key.userId

/-- What a step does to the tables. -/
inductive Stepped (s : AuthState) : AuthJob → AuthState → Prop
  | same {job : AuthJob} : Stepped s job s
  | created {email : Text} {name : Option Text} {expiresAt : Option ℤ} {draws : KeyDraws}
      {hashedSecret : Text} {now : ℤ} {s' : AuthState}
      (h : s.createApiKey email name expiresAt draws hashedSecret now = some s') :
      Stepped s (.inserting email name expiresAt draws hashedSecret now) s'
  | updated {job : AuthJob} {keyId : Uuid} {update : ApiKeyRow → ApiKeyRow}
      (hupdate : ∀ key : ApiKeyRow, key.Later (update key)) :
      Stepped s job (s.updateKey keyId update)

variable {E : AuthEnv} {s s' : AuthState}

theorem stepped_serveAuth (draws : KeyDraws) (job : AuthJob) :
    s.Stepped job (s.serveAuth E draws job).1 := by
  cases job with
  | received call => cases call <;> exact .same
  | inserting email name expiresAt draws' hashedSecret now =>
    simp only [serveAuth]
    split
    · exact .same
    · next hcreate => exact .created hcreate
  | revoking keyId =>
    simp only [serveAuth, revokeApiKey]
    split
    · refine .updated fun key => ⟨?_, ?_, ?_, ?_, ?_⟩ <;> split <;> simp
    · exact .same
  | authenticating keyId secret =>
    simp only [serveAuth]
    split
    · exact .same
    · split <;> exact .same
  | verifying keyId secret row =>
    simp only [serveAuth]
    split
    · exact .same
    · split <;> exact .same
  | touching identity => exact .updated fun key => ⟨rfl, rfl, rfl, rfl, id⟩

theorem stepped_of_serve {job : AuthJob} {out : AuthJob ⊕ AuthReply}
    (h : (authService E).serve s job s' out) : s.Stepped job s' := by
  obtain ⟨draws, hdone | ⟨rfl | rfl, -⟩⟩ := h
  · have hstepped := stepped_serveAuth (E := E) (s := s) draws job
    rw [hdone] at hstepped
    exact hstepped
  · exact .same
  · exact stepped_serveAuth draws job

/-- A key that is created is new, and belongs to the one user of the email. -/
theorem createApiKey_eq_some {email : Text} {name : Option Text} {expiresAt : Option ℤ}
    {draws : KeyDraws} {hashedSecret : Text} {now : ℤ}
    (h : s.createApiKey email name expiresAt draws hashedSecret now = some s') :
    ∃ user, user ∈ s'.users ∧ user.email = email ∧
      (s'.users = s.users ∨ s'.users = s.users ++ [user] ∧
        ∀ u ∈ s.users, u.email ≠ user.email ∧ u.id ≠ user.id) ∧
      (∀ key ∈ s.apiKeys, key.id ≠ draws.keyId) ∧
      s'.apiKeys = s.apiKeys ++ [⟨draws.keyId, user.id, hashedSecret, name, timestamptz now, none,
        none, expiresAt.map timestamptz⟩] ∧ s'.now = s.now := by
  obtain ⟨⟨s₁, userId⟩, hfound, hinsert⟩ := Option.bind_eq_some_iff.mp h
  unfold insertApiKey at hinsert
  split at hinsert
  · cases hinsert
  next hunused =>
  obtain rfl := Option.some.inj hinsert
  have hnew : ∀ key ∈ s₁.apiKeys, key.id ≠ draws.keyId := by
    intro key hkey heq
    exact hunused (List.any_eq_true.mpr ⟨key, hkey, beq_iff_eq.mpr heq⟩)
  clear hunused
  unfold findOrInsertUser at hfound
  split at hfound
  · next user hfind =>
    obtain ⟨rfl, rfl⟩ := Prod.mk.inj (Option.some.inj hfound)
    exact ⟨user, List.mem_of_find?_eq_some hfind, by simpa using List.find?_some hfind, Or.inl rfl,
      hnew, rfl, rfl⟩
  · next hnone =>
    split at hfound
    · cases hfound
    next hunused =>
    obtain ⟨rfl, rfl⟩ := Prod.mk.inj (Option.some.inj hfound)
    refine ⟨⟨draws.userId, email, timestamptz now⟩, List.mem_append_right _ List.mem_cons_self, rfl,
      Or.inr ⟨rfl, fun u hu => ⟨?_, fun heq => ?_⟩⟩, hnew, rfl, rfl⟩
    · simpa using List.find?_eq_none.mp hnone u hu
    · exact hunused (List.any_eq_true.mpr ⟨u, hu, beq_iff_eq.mpr heq⟩)

theorem Grows.refl (s : AuthState) : Grows s s :=
  ⟨fun _ hu => hu, fun key hkey => ⟨key, hkey, .refl key⟩, le_rfl⟩

theorem mem_updateKey {keyId : Uuid} {update : ApiKeyRow → ApiKeyRow}
    (hupdate : ∀ key : ApiKeyRow, key.Later (update key)) {key' : ApiKeyRow} :
    key' ∈ (s.updateKey keyId update).apiKeys → ∃ key ∈ s.apiKeys, key.Later key' := by
  intro hkey'
  obtain ⟨key, hkey, rfl⟩ := List.mem_map.mp hkey'
  refine ⟨key, hkey, ?_⟩
  split
  · exact hupdate key
  · exact .refl key

/-- **Every step lets the tables grow only**, and keeps their constraints. -/
theorem Stepped.grows {job : AuthJob} (h : s.Stepped job s') : s.Grows s' := by
  cases h with
  | same => exact .refl s
  | created hcreate =>
    obtain ⟨user, -, -, husers, -, hkeys, hnow⟩ := createApiKey_eq_some hcreate
    refine ⟨fun u hu => ?_, fun key hkey => ⟨key, ?_, .refl key⟩, hnow.ge⟩
    · rcases husers with husers | ⟨husers, -⟩
      · exact husers ▸ hu
      · rw [husers]
        exact List.mem_append_left _ hu
    · rw [hkeys]
      exact List.mem_append_left _ hkey
  | @updated _ keyId update hupdate =>
    refine ⟨fun u hu => hu, fun key hkey => ⟨_, List.mem_map_of_mem hkey, ?_⟩, le_rfl⟩
    split
    · exact hupdate key
    · exact .refl key

theorem Stepped.tabled {job : AuthJob} (h : s.Stepped job s') (hs : s.Tabled) : s'.Tabled := by
  cases h with
  | same => exact hs
  | @created email name expiresAt draws hashedSecret now _ hcreate =>
    obtain ⟨user, huser, -, husers, hnew, hkeys, -⟩ := createApiKey_eq_some hcreate
    have hgrows := (Stepped.created hcreate).grows
    have hkeyIds : (s'.apiKeys.map (·.id)).Nodup := by
      rw [hkeys, List.map_append, List.map_singleton, ← List.concat_eq_append]
      refine hs.keyIds.concat fun hmem => ?_
      obtain ⟨key, hkey, hid⟩ := List.mem_map.mp hmem
      exact hnew key hkey hid
    have hkeyUsers : ∀ key ∈ s'.apiKeys, ∃ u ∈ s'.users, u.id = key.userId := by
      intro key hkey
      rw [hkeys] at hkey
      rcases List.mem_append.mp hkey with hkey | hkey
      · obtain ⟨u, hu, hid⟩ := hs.keyUsers key hkey
        exact ⟨u, hgrows.users u hu, hid⟩
      · obtain rfl := List.mem_singleton.mp hkey
        exact ⟨user, huser, rfl⟩
    rcases husers with husers | ⟨husers, hfresh⟩
    · exact ⟨husers ▸ hs.userIds, husers ▸ hs.emails, hkeyIds, hkeyUsers⟩
    · refine ⟨?_, ?_, hkeyIds, hkeyUsers⟩
      · rw [husers, List.map_append, List.map_singleton, ← List.concat_eq_append]
        refine hs.userIds.concat fun hmem => ?_
        obtain ⟨u, hu, hid⟩ := List.mem_map.mp hmem
        exact (hfresh u hu).2 hid
      · rw [husers, List.map_append, List.map_singleton, ← List.concat_eq_append]
        refine hs.emails.concat fun hmem => ?_
        obtain ⟨u, hu, hemail⟩ := List.mem_map.mp hmem
        exact (hfresh u hu).1 hemail
  | @updated _ keyId update hupdate =>
    refine ⟨hs.userIds, hs.emails, ?_, fun key' hkey' => ?_⟩
    · have hids : (s.updateKey keyId update).apiKeys.map (·.id) = s.apiKeys.map (·.id) := by
        simp only [updateKey, List.map_map]
        refine List.map_congr_left fun key _ => ?_
        show (if key.id = keyId then update key else key).id = key.id
        split
        · exact (hupdate key).id
        · rfl
      rw [hids]
      exact hs.keyIds
    · obtain ⟨key, hkey, hlater⟩ := mem_updateKey hupdate hkey'
      rw [hlater.userId]
      exact hs.keyUsers key hkey

/-- **What happens at the server lets the tables grow only.** -/
theorem grows_next (hs : s.Tabled) (h : (authService E).Next s s') : s'.Tabled ∧ s.Grows s' := by
  rcases h with ⟨job, out, hserve⟩ | ⟨husers, hkeys, hnow⟩
  · have hstepped := stepped_of_serve hserve
    exact ⟨hstepped.tabled hs, hstepped.grows⟩
  · refine ⟨⟨husers ▸ hs.userIds, husers ▸ hs.emails, hkeys ▸ hs.keyIds, ?_⟩, ?_, ?_, hnow⟩
    · rw [hkeys, husers]
      exact hs.keyUsers
    · exact fun u hu => husers ▸ hu
    · exact fun key hkey => ⟨key, hkeys ▸ hkey, .refl key⟩

/-- The row of a key and its user, as they are found. -/
theorem findKey_eq_some (hs : s.Tabled) {keyId : Uuid} {key : ApiKeyRow} {user : UserRow} :
    s.findKey keyId = some (key, user) ↔
      (key ∈ s.apiKeys ∧ key.id = keyId) ∧ user ∈ s.users ∧ user.id = key.userId := by
  rw [findKey, Option.bind_eq_some_iff]
  simp only [beq_eq_decide]
  constructor
  · rintro ⟨key', hkey, hfound⟩
    obtain ⟨user', huser, heq⟩ := Option.map_eq_some_iff.mp hfound
    obtain ⟨rfl, rfl⟩ := Prod.mk.inj heq
    exact ⟨(Keyed.find?_key_eq_some hs.keyIds).mp hkey,
      (Keyed.find?_key_eq_some hs.userIds).mp huser⟩
  · rintro ⟨hkey, huser⟩
    refine ⟨key, (Keyed.find?_key_eq_some hs.keyIds).mpr hkey, ?_⟩
    rw [(Keyed.find?_key_eq_some hs.userIds).mpr huser]
    rfl

end AuthState

end Askl
