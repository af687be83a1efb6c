import Askl.Auth.Keys

/-!
# Who may change the index

A request whose handler asks for an identity is let through when its token verifies against the
row of a key.  The row is read before the secret is verified, and a key may be revoked, expire or
be used in the meantime; requests of all kinds are under way at once, and whoever sends them may
send anything.

Where keys come from is laid down in a contract over the requests that have been sent.  What a
revocation or an expiry does is a statement about the requests that are sent afterwards, whatever
is under way by then.

## Main definitions

* `AuthRun` — runs of the server with whoever sends requests.
* `Presents` — a request brings the token of a key.
* `Issued` — a key comes from a request of the local administration.
* `AuthState.Dead` — a key is revoked or has expired.

## Main results

* `issued_of_identified` — **only keys made by the local administration let requests through.**
* `refused_of_dead` — **a key that is revoked or has expired lets no request through** that is
  sent afterwards.
* `identified_of_created` — **a token that was given out lets all requests through** as long as
  its key is neither, but for failures of the storage.
-/

namespace Askl

open Relation Exchange

/-! ### Where keys come from -/

section Terms

variable (E : AuthEnv)

/-- A request brings a token with the id of a key and a secret, and may do so on its
connection. -/
def Presents (request : HttpRequest) (keyId : Uuid) (secret : Text) : Prop :=
  ∃ token, request.redactAuthHeaders.requestToken E.insecureTokensAllowed = .ok token ∧
    parseToken E.uuid token = some (keyId, secret)

/-- A key of a user has been made by a request of the local administration in bootstrap mode, with
a secret that was drawn for it and the expiry the request asked for. -/
def Issued (sent : List AuthCall) (email hashedSecret : Text) (expiresAt : Option ℤ) : Prop :=
  E.bootstrapAllowed = true ∧
    (∃ rawEmail name rawExpiresAt, .createApiKey true rawEmail name rawExpiresAt ∈ sent ∧
      trim (trim rawEmail) = email ∧
      rawExpiresAt.map (fun raw => (E.parseRfc3339 raw).map timestamptz) = expiresAt.map some) ∧
    ∃ (secret : { bytes : Bytes // bytes.length = 32 }) (salt : Text),
      hashedSecret = E.hashPassword (urlSafeNoPad secret.1) salt

namespace AuthState

/-- The row that was read of a key is still there. -/
def HasRow (s : AuthState) (keyId : Uuid) (row : AuthRow) : Prop :=
  ∃ key ∈ s.apiKeys, key.id = keyId ∧ key.hashedSecret = row.hashedSecret ∧
    key.expiresAt = row.expiresAt ∧ ∃ user ∈ s.users, user.id = key.userId ∧
      user.id = row.userId ∧ user.email = row.email

/-- The secret is that of the key of an identity. -/
def Verified (s : AuthState) (identity : AuthIdentity) (secret : Text) : Prop :=
  ∃ row, s.HasRow identity.keyId row ∧ row.userId = identity.userId ∧
    row.email = identity.email ∧ E.verifyPassword row.hashedSecret secret = true

/-- Every key belongs to a user and has been made by a request that was sent. -/
structure Sound (sent : List AuthCall) (s : AuthState) : Prop where
  tabled : s.Tabled
  issued : ∀ key ∈ s.apiKeys, ∃ user ∈ s.users, user.id = key.userId ∧
    Issued E sent user.email key.hashedSecret key.expiresAt

end AuthState

/-- The terms of the requests that are sent in a run. -/
def authTerms (sent : List AuthCall) : Terms AuthState AuthCall AuthJob AuthReply where
  Inv := AuthState.Sound E sent
  Requires call _ := call ∈ sent
  Progress
    | call, .received call', _ => call' = call
    | .createApiKey loopback rawEmail _ rawExpiresAt, .inserting email _ expiresAt draws hashed _,
        _ =>
      E.bootstrapAllowed = true ∧ loopback = true ∧ email = trim (trim rawEmail) ∧
        rawExpiresAt.map E.parseRfc3339 = expiresAt.map some ∧
        hashed = E.hashPassword (urlSafeNoPad draws.secret.1) draws.salt
    | .revokeApiKey _ _, .revoking _, _ => True
    | .identify request, .authenticating keyId secret, _ => Presents E request keyId secret
    | .identify request, .verifying keyId secret row, s =>
      Presents E request keyId secret ∧ s.HasRow keyId row
    | .identify request, .touching identity, s =>
      ∃ secret, Presents E request identity.keyId secret ∧ s.Verified E identity secret
    | _, _, _ => False
  Ensures
    | .identify request, .identified identity, s =>
      ∃ secret, Presents E request identity.keyId secret ∧ s.Verified E identity secret
    | _, .identified _, _ => False
    | .createApiKey _ rawEmail _ _, .created token _, s => ∃ keyId secret row,
      parseToken E.uuid token = some (keyId, secret) ∧ s.HasRow keyId row ∧
        row.email = trim (trim rawEmail) ∧ E.verifyPassword row.hashedSecret secret = true
    | _, .created _ _, _ => False
    | _, _, _ => True
  Interferes _ _ := False

end Terms

section Contract

variable {E : AuthEnv} {sent : List AuthCall} {s s' : AuthState}

theorem AuthState.HasRow.mono (hgrows : s.Grows s') {keyId : Uuid} {row : AuthRow}
    (h : s.HasRow keyId row) : s'.HasRow keyId row := by
  obtain ⟨key, hkey, hid, hhashed, hexpires, user, huser, hof, hrow⟩ := h
  obtain ⟨key', hkey', hlater⟩ := hgrows.keys key hkey
  exact ⟨key', hkey', hlater.id.trans hid, hlater.hashedSecret.trans hhashed,
    hlater.expiresAt.trans hexpires, user, hgrows.users user huser, hof.trans hlater.userId.symm,
    hrow⟩

theorem AuthState.Verified.mono (hgrows : s.Grows s') {identity : AuthIdentity} {secret : Text}
    (h : s.Verified E identity secret) : s'.Verified E identity secret := by
  obtain ⟨row, hrow, h⟩ := h
  exact ⟨row, hrow.mono hgrows, h⟩

/-- What is known of a request stays known as the tables grow. -/
theorem authTerms_mono (hgrows : s.Grows s') (call : AuthCall) :
    (∀ job, (authTerms E sent).Progress call job s → (authTerms E sent).Progress call job s') ∧
      ∀ reply, (authTerms E sent).Ensures call reply s →
        (authTerms E sent).Ensures call reply s' := by
  constructor
  · intro job h
    cases call with
    | identify request =>
      cases job with
      | verifying keyId secret row => exact ⟨h.1, h.2.mono hgrows⟩
      | touching identity =>
        obtain ⟨secret, hpresents, hverified⟩ := h
        exact ⟨secret, hpresents, hverified.mono hgrows⟩
      | _ => exact h
    | createApiKey => cases job <;> exact h
    | revokeApiKey => cases job <;> exact h
  · intro reply h
    cases call with
    | identify request =>
      cases reply with
      | identified identity =>
        obtain ⟨secret, hpresents, hverified⟩ := h
        exact ⟨secret, hpresents, hverified.mono hgrows⟩
      | _ => exact h
    | createApiKey =>
      cases reply with
      | created token expiresAt =>
        obtain ⟨keyId, secret, row, hparse, hrow, h⟩ := h
        exact ⟨keyId, secret, row, hparse, hrow.mono hgrows, h⟩
      | _ => exact h
    | revokeApiKey => cases reply <;> exact h

/-- A step keeps where keys come from. -/
theorem AuthState.Sound.stepped (hs : s.Sound E sent) {call : AuthCall} (hcall : call ∈ sent)
    {job : AuthJob} (hprogress : (authTerms E sent).Progress call job s)
    (h : s.Stepped job s') : s'.Sound E sent := by
  refine ⟨h.tabled hs.tabled, ?_⟩
  cases h with
  | same => exact hs.issued
  | created hcreate =>
    have hgrows := (AuthState.Stepped.created hcreate).grows
    obtain ⟨user, huser, hemail, -, -, hkeys, -⟩ := AuthState.createApiKey_eq_some hcreate
    intro key hkey
    rw [hkeys] at hkey
    rcases List.mem_append.mp hkey with hkey | hkey
    · obtain ⟨u, hu, hissued⟩ := hs.issued key hkey
      exact ⟨u, hgrows.users u hu, hissued⟩
    · obtain rfl := List.mem_singleton.mp hkey
      cases call with
      | createApiKey loopback rawEmail name rawExpiresAt =>
        obtain ⟨hbootstrap, rfl, hraw, hexpires, hhashed⟩ := hprogress
        refine ⟨user, huser, rfl, hbootstrap, ⟨rawEmail, name, rawExpiresAt, hcall, ?_, ?_⟩, _, _,
          hhashed⟩
        · rw [hemail, hraw]
        · have hmapped := congrArg (Option.map (Option.map timestamptz)) hexpires
          rw [Option.map_map, Option.map_map] at hmapped
          rw [Option.map_map]
          exact hmapped
      | revokeApiKey => exact absurd hprogress id
      | identify => exact absurd hprogress id
  | @updated _ keyId update hupdate =>
    intro key' hkey'
    obtain ⟨key, hkey, hlater⟩ := AuthState.mem_updateKey hupdate hkey'
    obtain ⟨u, hu, hid, hissued⟩ := hs.issued key hkey
    refine ⟨u, hu, hid.trans hlater.userId.symm, ?_⟩
    rw [hlater.hashedSecret, hlater.expiresAt]
    exact hissued

theorem ensures_storageFailure (call : AuthCall) (job : AuthJob) (s : AuthState) :
    (authTerms E sent).Ensures call job.storageFailure s := by
  have hrefused : ∀ refusal, (authTerms E sent).Ensures call (.refused refusal) s := by
    intro refusal
    cases call <;> trivial
  cases job with
  | received call' => cases call' <;> exact hrefused _
  | _ => exact hrefused _

/-- One step of a request that goes on. -/
theorem progress_of_serveAuth {call : AuthCall} {job job' : AuthJob} (hs : s.Tabled)
    (hprogress : (authTerms E sent).Progress call job s) {draws : KeyDraws}
    (h : s.serveAuth E draws job = (s', .inl job')) :
    (authTerms E sent).Progress call job' s' := by
  cases job with
  | received call' =>
    obtain rfl : call' = call := hprogress
    cases call' with
    | createApiKey loopback rawEmail name rawExpiresAt =>
      obtain ⟨rfl, hstart⟩ := Prod.mk.inj h
      simp only [AuthState.startCreate] at hstart
      split at hstart
      · cases hstart
      next hloopback =>
      split at hstart
      · cases hstart
      next hbootstrap =>
      split at hstart
      · cases hstart
      have hbootstrap : E.bootstrapAllowed = true := by simpa using hbootstrap
      have hloopback : loopback = true := by simpa using hloopback
      split at hstart
      · obtain rfl := Sum.inl.inj hstart
        exact ⟨hbootstrap, hloopback, rfl, rfl, rfl⟩
      · split at hstart
        · cases hstart
        next time hparse =>
        split at hstart
        · cases hstart
        obtain rfl := Sum.inl.inj hstart
        exact ⟨hbootstrap, hloopback, rfl, congrArg some hparse, rfl⟩
    | revokeApiKey loopback tokenId =>
      obtain ⟨rfl, hstart⟩ := Prod.mk.inj h
      simp only [AuthState.startRevoke] at hstart
      split at hstart
      · cases hstart
      split at hstart
      · cases hstart
      split at hstart
      · cases hstart
      obtain rfl := Sum.inl.inj hstart
      exact trivial
    | identify request =>
      obtain ⟨rfl, hstart⟩ := Prod.mk.inj h
      simp only [AuthState.startIdentify] at hstart
      split at hstart
      · cases hstart
      next token htoken =>
      split at hstart
      · cases hstart
      next keyId secret hparse =>
      obtain rfl := Sum.inl.inj hstart
      exact ⟨token, htoken, hparse⟩
  | inserting =>
    simp only [AuthState.serveAuth] at h
    split at h <;> cases h
  | revoking => cases h
  | authenticating keyId secret =>
    cases call with
    | identify request =>
      simp only [AuthState.serveAuth] at h
      split at h
      · cases h
      next key user hfind =>
      split at h
      · cases h
      obtain ⟨rfl, hjob⟩ := Prod.mk.inj h
      obtain rfl := Sum.inl.inj hjob
      obtain ⟨⟨hkey, hid⟩, huser, hof⟩ := (AuthState.findKey_eq_some hs).mp hfind
      exact ⟨hprogress, key, hkey, hid, rfl, rfl, user, huser, hof, rfl, rfl⟩
    | _ => exact absurd hprogress id
  | verifying keyId secret row =>
    cases call with
    | identify request =>
      obtain ⟨hpresents, hrow⟩ := hprogress
      simp only [AuthState.serveAuth] at h
      split at h
      · cases h
      next hverified =>
      split at h
      · cases h
      obtain ⟨rfl, hjob⟩ := Prod.mk.inj h
      obtain rfl := Sum.inl.inj hjob
      exact ⟨secret, hpresents, row, hrow, rfl, rfl, by simpa using hverified⟩
    | _ => exact absurd hprogress id
  | touching => cases h

/-- A request is let through by its last step only. -/
theorem touching_of_identified {job : AuthJob} {identity : AuthIdentity} {draws : KeyDraws}
    (h : s.serveAuth E draws job = (s', .inr (.identified identity))) :
    job = .touching identity := by
  cases job with
  | received call =>
    cases call with
    | createApiKey =>
      simp only [AuthState.serveAuth, AuthState.startCreate, Prod.mk.injEq] at h
      repeat' split at h
      all_goals cases h.2
    | revokeApiKey =>
      simp only [AuthState.serveAuth, AuthState.startRevoke, Prod.mk.injEq] at h
      repeat' split at h
      all_goals cases h.2
    | identify =>
      simp only [AuthState.serveAuth, AuthState.startIdentify, Prod.mk.injEq] at h
      repeat' split at h
      all_goals cases h.2
  | inserting =>
    simp only [AuthState.serveAuth] at h
    split at h <;> cases h
  | revoking =>
    simp only [AuthState.serveAuth, Prod.mk.injEq] at h
    split at h <;> cases h.2
  | authenticating =>
    simp only [AuthState.serveAuth] at h
    split at h
    · cases h
    · split at h <;> cases h
  | verifying =>
    simp only [AuthState.serveAuth] at h
    split at h
    · cases h
    · split at h <;> cases h
  | touching identity' =>
    obtain ⟨-, hreply⟩ := Prod.mk.inj h
    rw [AuthReply.identified.inj (Sum.inr.inj hreply)]

/-- A token is given out by the step that inserts its key. -/
theorem inserting_of_created {job : AuthJob} {token : Text} {expiresAt : Option Text}
    {draws : KeyDraws} (h : s.serveAuth E draws job = (s', .inr (.created token expiresAt))) :
    ∃ email name expiry draws' hashedSecret now,
      job = .inserting email name expiry draws' hashedSecret now ∧
        s.createApiKey email name expiry draws' hashedSecret now = some s' ∧
          token = apiToken E.uuid draws'.keyId (urlSafeNoPad draws'.secret.1) := by
  cases job with
  | received call =>
    cases call with
    | createApiKey =>
      simp only [AuthState.serveAuth, AuthState.startCreate, Prod.mk.injEq] at h
      repeat' split at h
      all_goals cases h.2
    | revokeApiKey =>
      simp only [AuthState.serveAuth, AuthState.startRevoke, Prod.mk.injEq] at h
      repeat' split at h
      all_goals cases h.2
    | identify =>
      simp only [AuthState.serveAuth, AuthState.startIdentify, Prod.mk.injEq] at h
      repeat' split at h
      all_goals cases h.2
  | inserting email name expiry draws' hashedSecret now =>
    simp only [AuthState.serveAuth] at h
    split at h
    · cases h
    next s₁ hcreate =>
    obtain ⟨rfl, hreply⟩ := Prod.mk.inj h
    obtain ⟨rfl, -⟩ := AuthReply.created.inj (Sum.inr.inj hreply)
    exact ⟨email, name, expiry, draws', hashedSecret, now, rfl, hcreate, rfl⟩
  | revoking =>
    simp only [AuthState.serveAuth, Prod.mk.injEq] at h
    split at h <;> cases h.2
  | authenticating =>
    simp only [AuthState.serveAuth] at h
    split at h
    · cases h
    · split at h <;> cases h
  | verifying =>
    simp only [AuthState.serveAuth] at h
    split at h
    · cases h
    · split at h <;> cases h
  | touching => cases h

/-- A failure of the storage lets no request through. -/
theorem storageFailure_ne_identified (job : AuthJob) (identity : AuthIdentity) :
    job.storageFailure ≠ .identified identity := by
  intro h
  cases job with
  | received call => cases call <;> cases h
  | _ => cases h

/-- The last step of a request. -/
theorem ensures_of_serveAuth {call : AuthCall} {job : AuthJob} {reply : AuthReply}
    (hprogress : (authTerms E sent).Progress call job s) {draws : KeyDraws}
    (h : s.serveAuth E draws job = (s', .inr reply)) :
    (authTerms E sent).Ensures call reply s' := by
  cases reply with
  | identified identity =>
    obtain rfl := touching_of_identified h
    have hgrows := (AuthState.stepped_serveAuth (E := E) (s := s) draws (.touching identity)).grows
    rw [h] at hgrows
    cases call with
    | identify request =>
      obtain ⟨secret, hpresents, hverified⟩ := hprogress
      exact ⟨secret, hpresents, hverified.mono hgrows⟩
    | _ => exact absurd hprogress id
  | created token expiresAt =>
    obtain ⟨email, name, expiry, draws', hashedSecret, now, rfl, hcreate, rfl⟩ :=
      inserting_of_created h
    cases call with
    | createApiKey loopback rawEmail rawName rawExpiresAt =>
      obtain ⟨-, -, hraw, -, rfl⟩ := hprogress
      obtain ⟨user, huser, hemail, -, -, hkeys, -⟩ := AuthState.createApiKey_eq_some hcreate
      have hparse := parseToken_apiToken (F := E.uuid) draws'.keyId draws'.secret_ne_nil
        (List.forall_mem_nil _) (List.forall_mem_nil _)
      rw [List.nil_append, List.append_nil] at hparse
      have hkey := hkeys ▸ List.mem_append_right s.apiKeys List.mem_cons_self
      exact ⟨draws'.keyId, urlSafeNoPad draws'.secret.1, ⟨user.id, user.email,
        E.hashPassword (urlSafeNoPad draws'.secret.1) draws'.salt, expiry.map timestamptz⟩, hparse,
        ⟨_, hkey, rfl, rfl, rfl, user, huser, rfl, rfl, rfl⟩, hemail.trans hraw,
        E.verify_hash _ _⟩
    | _ => exact absurd hprogress id
  | _ => cases call <;> trivial

/-- **The contract of the requests that are sent in a run.** -/
def authContract (E : AuthEnv) (sent : List AuthCall) : Contract (authService E) where
  toTerms := authTerms E sent
  start _ _ := rfl
  inv_serve hs hcall hprogress hserve :=
    hs.stepped hcall hprogress (AuthState.stepped_of_serve hserve)
  inv_others hs h := by
    obtain ⟨htabled, hgrows⟩ := AuthState.grows_next (E := E) hs.tabled (Or.inr h)
    refine ⟨htabled, fun key hkey => ?_⟩
    obtain ⟨user, huser, hissued⟩ := hs.issued key (h.2.1 ▸ hkey)
    exact ⟨user, hgrows.users user huser, hissued⟩
  work hs _ hprogress hserve := by
    obtain ⟨draws, hdone | ⟨-, hfailed⟩⟩ := hserve
    · exact progress_of_serveAuth hs.tabled hprogress hdone
    · cases hfailed
  answer _ _ hprogress hserve := by
    obtain ⟨draws, hdone | ⟨-, hfailed⟩⟩ := hserve
    · exact ensures_of_serveAuth hprogress hdone
    · obtain rfl := Sum.inr.inj hfailed
      exact ensures_storageFailure _ _ _
  requires call := ⟨fun _ _ h _ _ _ _ => h, fun _ _ h _ => h⟩
  progress call job := ⟨fun _ _ h _ _ _ hserve =>
      (authTerms_mono (AuthState.stepped_of_serve hserve).grows call).1 job h,
    fun hs _ h hothers =>
      (authTerms_mono (AuthState.grows_next (E := E) hs.tabled (Or.inr hothers)).2 call).1 job h⟩
  ensures call reply := ⟨fun _ _ h _ _ _ hserve =>
      (authTerms_mono (AuthState.stepped_of_serve hserve).grows call).2 reply h,
    fun hs _ h hothers =>
      (authTerms_mono (AuthState.grows_next (E := E) hs.tabled (Or.inr hothers)).2 call).2 reply h⟩

end Contract

/-! ### Runs -/

section Runs

variable {E : AuthEnv} {κ ε : Type} {act : Client AuthCall AuthReply κ ε}
  {a b : System AuthState AuthCall AuthJob AuthReply κ}

/-- Runs of the server from empty tables; whoever sends requests may send anything at any
time. -/
def AuthRun (E : AuthEnv) (act : Client AuthCall AuthReply κ ε)
    (sys : System AuthState AuthCall AuthJob AuthReply κ) : Prop :=
  ∃ start now, ReflTransGen (Exchange.Step (authService E) act) ⟨start, ⟨[], [], now⟩, [], [], []⟩ sys

theorem tabled_empty (now : ℤ) : (⟨[], [], now⟩ : AuthState).Tabled :=
  ⟨List.nodup_nil, List.nodup_nil, List.nodup_nil, List.forall_mem_nil _⟩

/-- **Only keys made by the local administration let requests through.**  Whatever is sent and in
whatever order it is worked on, a request that is let through has asked for it with the token of
a key; the secret of the token verifies; and the key has been made for the user it is let through
as, by a request of the local administration in bootstrap mode. -/
theorem issued_of_identified (hrun : AuthRun E act a) {tag : ℕ} {identity : AuthIdentity}
    (hreply : (tag, .identified identity) ∈ a.net.replies) :
    ∃ request, a.net.sent[tag]? = some (.identify request) ∧ ∃ secret,
      Presents E request identity.keyId secret ∧
      ∃ key ∈ a.net.server.apiKeys, key.id = identity.keyId ∧ key.userId = identity.userId ∧
        E.verifyPassword key.hashedSecret secret = true ∧
          Issued E a.net.sent identity.email key.hashedSecret key.expiresAt := by
  obtain ⟨start, now, hrun⟩ := hrun
  have hholds : (authContract E a.net.sent).Holds a.net :=
    holds_of_sent _ (fun _ _ h => h) hrun
      (Contract.holds_initial ⟨tabled_empty now, List.forall_mem_nil _⟩) fun _ hcall _ => hcall
  obtain ⟨call, hcall, hensures⟩ := hholds.replies _ hreply
  cases call with
  | identify request =>
    obtain ⟨secret, hpresents, row, ⟨key, hkey, hid, hhashed, -, user, huser, hof, hrow, hemail⟩,
      hrowUser, hrowEmail, hverified⟩ := hensures
    obtain ⟨user', huser', hof', hissued⟩ := hholds.inv.issued key hkey
    -- the user of the key is the one that was read
    obtain rfl := List.inj_on_of_nodup_map hholds.inv.tabled.userIds huser huser'
      (hof.trans hof'.symm)
    refine ⟨request, hcall, secret, hpresents, key, hkey, hid, ?_, hhashed ▸ hverified, ?_⟩
    · rw [← hof, hrow, hrowUser]
    · rw [← hrowEmail, ← hemail]
      exact hissued
  | createApiKey => exact absurd hensures id
  | revokeApiKey => exact absurd hensures id

end Runs

/-! ### Revocation and expiry -/

/-- A row of a key that is revoked or has expired. -/
def ApiKeyRow.DeadAt (key : ApiKeyRow) (now : ℤ) : Prop :=
  key.revokedAt.isSome = true ∨ ∃ expiresAt, key.expiresAt = some expiresAt ∧ expiresAt ≤ now

/-- A key is revoked or has expired. -/
def AuthState.Dead (s : AuthState) (keyId : Uuid) : Prop :=
  ∃ key ∈ s.apiKeys, key.id = keyId ∧ key.DeadAt s.now

section Dead

variable {E : AuthEnv} {s s' : AuthState} {keyId : Uuid}

/-- A key that is dead stays so. -/
theorem AuthState.Dead.mono (hgrows : s.Grows s') (h : s.Dead keyId) : s'.Dead keyId := by
  obtain ⟨key, hkey, hid, hdead⟩ := h
  obtain ⟨key', hkey', hlater⟩ := hgrows.keys key hkey
  refine ⟨key', hkey', hlater.id.trans hid, ?_⟩
  rcases hdead with hrevoked | ⟨expiresAt, hexpires, hle⟩
  · exact Or.inl (hlater.revokedAt hrevoked)
  · exact Or.inr ⟨expiresAt, hlater.expiresAt.trans hexpires, hle.trans hgrows.now⟩

end Dead

/-! ### Requests with the token of a key -/

section Presenting

variable {E : AuthEnv} {s s' : AuthState} {request : HttpRequest} {keyId : Uuid} {secret : Text}

/-- The job of a request with the token of a key: what has been read of the key, and who is let
through with it. -/
def AuthJob.Presenting (request : HttpRequest) (keyId : Uuid) (secret : Text)
    (Reads : AuthRow → Prop) (Through : AuthIdentity → Prop) : AuthJob → Prop
  | .received call => call = .identify request
  | .authenticating keyId' secret' => keyId' = keyId ∧ secret' = secret
  | .verifying keyId' secret' row => keyId' = keyId ∧ secret' = secret ∧ Reads row
  | .touching identity => Through identity
  | _ => False

theorem storageFailure_of_presenting {Reads : AuthRow → Prop} {Through : AuthIdentity → Prop}
    {job : AuthJob} (h : job.Presenting request keyId secret Reads Through) :
    job.storageFailure = .refused (.internalServerError "Internal error") := by
  cases job with
  | received call =>
    obtain rfl : call = .identify request := h
    rfl
  | inserting => exact absurd h id
  | revoking => exact absurd h id
  | _ => rfl

/-- What a step of such a request leads to. -/
def LeadsTo (out : AuthJob ⊕ AuthReply) (On : AuthJob → Prop) (Tells : AuthReply → Prop) : Prop :=
  (∃ job, out = .inl job ∧ On job) ∨ ∃ reply, out = .inr reply ∧ Tells reply

/-- The requests with the token of a key, from some time on: what one step of them leads to,
a run of steps does. -/
def presentingWatch (E : AuthEnv) (keyId : Uuid) (secret : Text) (Inv : AuthState → Prop)
    (Reads : AuthState → AuthRow → Prop) (Through : AuthIdentity → Prop)
    (Tells : AuthState → AuthReply → Prop)
    (htabled : ∀ {s}, Inv s → s.Tabled)
    (hinv : ∀ {s s' : AuthState}, Inv s → s'.Tabled → s.Grows s' → Inv s')
    (hreads : ∀ {s s' : AuthState} {row}, s.Grows s' → Reads s row → Reads s' row)
    (htells : ∀ {s s' : AuthState} {reply}, s.Grows s' → Tells s reply → Tells s' reply)
    (hfailed : ∀ s, Tells s (.refused (.internalServerError "Internal error")))
    (hserve : ∀ {s s' request job draws out}, Inv s → Presents E request keyId secret →
      job.Presenting request keyId secret (Reads s) Through →
      s.serveAuth E draws job = (s', out) →
      LeadsTo out (·.Presenting request keyId secret (Reads s) Through) (Tells s)) :
    Watch (authService E) where
  Inv := Inv
  Doing call job s := ∀ request, call = .identify request → Presents E request keyId secret →
    job.Presenting request keyId secret (Reads s) Through
  Tells call reply s := ∀ request, call = .identify request → Presents E request keyId secret →
    Tells s reply
  start _ _ hcall _ := hcall
  work {_ _ _ _ job'} hs hdoing hstep := by
    intro request hcall hpresents
    have hgrows := (AuthState.grows_next (htabled hs) (Or.inl ⟨_, _, hstep⟩)).2
    obtain ⟨draws, hdone | ⟨-, hlost⟩⟩ := hstep
    · rcases hserve hs hpresents (hdoing request hcall hpresents) hdone with
        ⟨next, hnext, hon⟩ | ⟨reply, hreply, -⟩
      · obtain rfl := Sum.inl.inj hnext
        cases job' with
        | verifying => exact ⟨hon.1, hon.2.1, hreads hgrows hon.2.2⟩
        | _ => exact hon
      · cases hreply
    · cases hlost
  answer hs hdoing hstep := by
    intro request hcall hpresents
    have hgrows := (AuthState.grows_next (htabled hs) (Or.inl ⟨_, _, hstep⟩)).2
    have hon := hdoing request hcall hpresents
    obtain ⟨draws, hdone | ⟨-, hlost⟩⟩ := hstep
    · rcases hserve hs hpresents hon hdone with ⟨next, hnext, -⟩ | ⟨reply, hreply, htold⟩
      · cases hnext
      · obtain rfl := Sum.inr.inj hreply
        exact htells hgrows htold
    · obtain rfl := Sum.inr.inj hlost
      rw [storageFailure_of_presenting hon]
      exact hfailed _
  inv_next hs hnext := by
    obtain ⟨htabled', hgrows⟩ := AuthState.grows_next (htabled hs) hnext
    exact hinv hs htabled' hgrows
  doing_next {_ job _ _} hs hdoing hnext := by
    intro request hcall hpresents
    have hgrows := (AuthState.grows_next (htabled hs) hnext).2
    have hon := hdoing request hcall hpresents
    cases job with
    | verifying => exact ⟨hon.1, hon.2.1, hreads hgrows hon.2.2⟩
    | _ => exact hon
  tells_next hs htold hnext := by
    intro request hcall hpresents
    exact htells (AuthState.grows_next (htabled hs) hnext).2 (htold request hcall hpresents)

/-- The first step of a request with the token of a key. -/
theorem serveAuth_received (hpresents : Presents E request keyId secret) (draws : KeyDraws) :
    s.serveAuth E draws (.received (.identify request)) =
      (s, .inl (.authenticating keyId secret)) := by
  obtain ⟨token, htoken, hparse⟩ := hpresents
  simp only [AuthState.serveAuth, AuthState.startIdentify, htoken, hparse]

/-! #### Keys that are dead -/

/-- A row that has expired. -/
def AuthState.Expired (s : AuthState) (row : AuthRow) : Prop :=
  ∃ expiresAt, row.expiresAt = some expiresAt ∧ expiresAt ≤ s.now

/-- What is answered for a key that is dead. -/
def Refused (reply : AuthReply) : Prop :=
  reply = .refused (.unauthorized "Unauthorized") ∨
    reply = .refused (.internalServerError "Internal error")

/-- One step of a request with the token of a dead key. -/
theorem leadsTo_refused (hs : s.Tabled) (hdead : s.Dead keyId)
    (hpresents : Presents E request keyId secret) {job : AuthJob} {draws : KeyDraws}
    {out : AuthJob ⊕ AuthReply}
    (hon : job.Presenting request keyId secret s.Expired fun _ => False)
    (h : s.serveAuth E draws job = (s', out)) :
    LeadsTo out (·.Presenting request keyId secret s.Expired fun _ => False) Refused := by
  cases job with
  | received call =>
    obtain rfl : call = .identify request := hon
    rw [serveAuth_received hpresents] at h
    obtain ⟨-, rfl⟩ := Prod.mk.inj h
    exact Or.inl ⟨_, rfl, rfl, rfl⟩
  | authenticating keyId' secret' =>
    obtain ⟨rfl, rfl⟩ := hon
    simp only [AuthState.serveAuth] at h
    split at h
    · obtain ⟨-, rfl⟩ := Prod.mk.inj h
      exact Or.inr ⟨_, rfl, Or.inl rfl⟩
    next key user hfind =>
    split at h
    · obtain ⟨-, rfl⟩ := Prod.mk.inj h
      exact Or.inr ⟨_, rfl, Or.inl rfl⟩
    next hrevoked =>
    obtain ⟨-, rfl⟩ := Prod.mk.inj h
    -- the row is that of the dead key, which has not been revoked
    obtain ⟨⟨hkey, hid⟩, -⟩ := (AuthState.findKey_eq_some hs).mp hfind
    obtain ⟨dead, hmem, hdeadId, hdeadAt⟩ := hdead
    obtain rfl := List.inj_on_of_nodup_map hs.keyIds hkey hmem (hid.trans hdeadId.symm)
    exact Or.inl ⟨_, rfl, rfl, rfl, hdeadAt.resolve_left hrevoked⟩
  | verifying keyId' secret' row =>
    obtain ⟨rfl, rfl, expiresAt, hexpires, hle⟩ := hon
    have hexpired : (row.expiresAt.any fun expiresAt => decide (expiresAt ≤ s.now)) = true := by
      rw [hexpires]
      exact decide_eq_true hle
    simp only [AuthState.serveAuth, hexpired, if_true] at h
    split at h
    · obtain ⟨-, rfl⟩ := Prod.mk.inj h
      exact Or.inr ⟨_, rfl, Or.inl rfl⟩
    · obtain ⟨-, rfl⟩ := Prod.mk.inj h
      exact Or.inr ⟨_, rfl, Or.inl rfl⟩
  | touching => exact absurd hon id
  | inserting => exact absurd hon id
  | revoking => exact absurd hon id

/-- The requests with the token of a key that are sent when it is dead. -/
def deadWatch (E : AuthEnv) (keyId : Uuid) (secret : Text) : Watch (authService E) :=
  presentingWatch E keyId secret (fun s => s.Tabled ∧ s.Dead keyId) AuthState.Expired
    (fun _ => False) (fun _ => Refused) And.left
    (fun hs htabled hgrows => ⟨htabled, hs.2.mono hgrows⟩)
    (fun hgrows ⟨expiresAt, hexpires, hle⟩ => ⟨expiresAt, hexpires, hle.trans hgrows.now⟩)
    (fun _ h => h) (fun _ => Or.inr rfl)
    (fun hs hpresents hon h => leadsTo_refused hs.1 hs.2 hpresents hon h)

/-! #### Keys that are alive -/

variable {row : AuthRow}

/-- What is answered for a key, as long as it is alive. -/
def AuthState.Admits (s : AuthState) (keyId : Uuid) (row : AuthRow) (reply : AuthReply) : Prop :=
  reply = .identified ⟨row.userId, row.email, keyId⟩ ∨
    reply = .refused (.internalServerError "Internal error") ∨ s.Dead keyId

theorem AuthState.Admits.mono (hgrows : s.Grows s') {reply : AuthReply}
    (h : s.Admits keyId row reply) : s'.Admits keyId row reply :=
  h.imp_right (Or.imp_right fun hdead => hdead.mono hgrows)

/-- The row that is read of a key is the one it has. -/
theorem AuthState.HasRow.of_findKey (hs : s.Tabled) (h : s.HasRow keyId row) :
    ∃ key user, s.findKey keyId = some (key, user) ∧ key ∈ s.apiKeys ∧ key.id = keyId ∧
      (⟨user.id, user.email, key.hashedSecret, key.expiresAt⟩ : AuthRow) = row := by
  obtain ⟨key, hkey, hid, hhashed, hexpires, user, huser, hof, hrow, hemail⟩ := h
  refine ⟨key, user, (findKey_eq_some hs).mpr ⟨⟨hkey, hid⟩, huser, hof⟩, hkey, hid, ?_⟩
  rw [hrow, hemail, hhashed, hexpires]

/-- One step of a request with the token of a key: it goes on, or it is let through, or the key
is dead. -/
theorem leadsTo_admits (hs : s.Tabled) (hrow : s.HasRow keyId row)
    (hverified : E.verifyPassword row.hashedSecret secret = true)
    (hpresents : Presents E request keyId secret) {job : AuthJob} {draws : KeyDraws}
    {out : AuthJob ⊕ AuthReply}
    (hon : job.Presenting request keyId secret (· = row) (· = ⟨row.userId, row.email, keyId⟩))
    (h : s.serveAuth E draws job = (s', out)) :
    LeadsTo out
      (·.Presenting request keyId secret (· = row) (· = ⟨row.userId, row.email, keyId⟩))
      (s.Admits keyId row) := by
  cases job with
  | received call =>
    obtain rfl : call = .identify request := hon
    rw [serveAuth_received hpresents] at h
    obtain ⟨-, rfl⟩ := Prod.mk.inj h
    exact Or.inl ⟨_, rfl, rfl, rfl⟩
  | authenticating keyId' secret' =>
    obtain ⟨rfl, rfl⟩ := hon
    obtain ⟨key, user, hfind, hkey, hid, hread⟩ := hrow.of_findKey hs
    simp only [AuthState.serveAuth, hfind] at h
    split at h
    · next hrevoked =>
      obtain ⟨-, rfl⟩ := Prod.mk.inj h
      exact Or.inr ⟨_, rfl, Or.inr (Or.inr ⟨key, hkey, hid, Or.inl hrevoked⟩)⟩
    · obtain ⟨-, rfl⟩ := Prod.mk.inj h
      exact Or.inl ⟨_, rfl, rfl, rfl, hread⟩
  | verifying keyId' secret' row' =>
    obtain ⟨rfl, rfl, rfl⟩ := hon
    simp only [AuthState.serveAuth, hverified, Bool.not_true, Bool.false_eq_true, if_false] at h
    split at h
    · next hexpired =>
      obtain ⟨-, rfl⟩ := Prod.mk.inj h
      obtain ⟨expiresAt, hexpires, hle⟩ := (Option.any_eq_true _ _).mp hexpired
      obtain ⟨key, user, -, hkey, hid, hread⟩ := hrow.of_findKey hs
      refine Or.inr ⟨_, rfl, Or.inr (Or.inr ⟨key, hkey, hid, Or.inr ⟨expiresAt, ?_,
        of_decide_eq_true hle⟩⟩)⟩
      rw [← hexpires, ← hread]
    · obtain ⟨-, rfl⟩ := Prod.mk.inj h
      exact Or.inl ⟨_, rfl, rfl⟩
  | touching identity =>
    obtain rfl : identity = _ := hon
    obtain ⟨-, rfl⟩ := Prod.mk.inj h
    exact Or.inr ⟨_, rfl, Or.inl rfl⟩
  | inserting => exact absurd hon id
  | revoking => exact absurd hon id

/-- The requests with the token of a key that are sent when it is there. -/
def aliveWatch (E : AuthEnv) (keyId : Uuid) (secret : Text) (row : AuthRow)
    (hverified : E.verifyPassword row.hashedSecret secret = true) : Watch (authService E) :=
  presentingWatch E keyId secret (fun s => s.Tabled ∧ s.HasRow keyId row) (fun _ => (· = row))
    (· = ⟨row.userId, row.email, keyId⟩) (fun s => s.Admits keyId row) And.left
    (fun hs htabled hgrows => ⟨htabled, hs.2.mono hgrows⟩) (fun _ h => h)
    (fun hgrows h => h.mono hgrows) (fun _ => Or.inr (Or.inl rfl))
    (fun hs hpresents hon h => leadsTo_admits hs.1 hs.2 hverified hpresents hon h)

end Presenting

section Runs

variable {E : AuthEnv} {κ ε : Type} {act : Client AuthCall AuthReply κ ε}
  {a b : System AuthState AuthCall AuthJob AuthReply κ}

theorem AuthRun.tabled (hrun : AuthRun E act a) : a.net.server.Tabled := by
  obtain ⟨start, now, hrun⟩ := hrun
  exact ((holds_of_sent (authContract E a.net.sent) (fun _ _ h => h) hrun
    (Contract.holds_initial ⟨tabled_empty now, List.forall_mem_nil _⟩)
      fun _ hcall _ => hcall).inv).tabled

/-- **A key that is revoked or has expired lets no request through** that is sent afterwards,
whatever was under way at that time: each is refused. -/
theorem refused_of_dead (hrun : AuthRun E act a) {keyId : Uuid}
    (hdead : a.net.server.Dead keyId)
    (hrest : ReflTransGen (Exchange.Step (authService E) act) a b) {tag : ℕ}
    (hafter : a.net.sent.length ≤ tag) {request : HttpRequest} {secret : Text}
    (hsent : b.net.sent[tag]? = some (.identify request))
    (hpresents : Presents E request keyId secret) {reply : AuthReply}
    (hreply : (tag, reply) ∈ b.net.replies) : Refused reply := by
  have htabled := hrun.tabled
  obtain ⟨start, now, hrun⟩ := hrun
  have hsince : (deadWatch E keyId secret).Since a.net.sent.length b.net :=
    Watch.of_run hrest (Watch.since_of_run hrun ⟨htabled, hdead⟩)
  obtain ⟨call, hcall, htells⟩ := (hsince.replies _ hreply).2 hafter
  obtain rfl := Option.some.inj (hsent.symm.trans hcall)
  exact htells request rfl hpresents

/-- **A token that has been given out lets every request through** that is sent with it
afterwards, as the user it was made for; unless the storage fails or the key has been revoked or
has expired by then. -/
theorem identified_of_created (hrun : AuthRun E act a) {tag₀ : ℕ} {token : Text}
    {expiresAt : Option Text} (hcreated : (tag₀, .created token expiresAt) ∈ a.net.replies) :
    ∃ loopback rawEmail name rawExpiresAt,
      a.net.sent[tag₀]? = some (.createApiKey loopback rawEmail name rawExpiresAt) ∧
      ∃ keyId userId, ∀ b, ReflTransGen (Exchange.Step (authService E) act) a b →
        ∀ tag request reply, a.net.sent.length ≤ tag →
          b.net.sent[tag]? = some (.identify request) →
          request.redactAuthHeaders.requestToken E.insecureTokensAllowed = .ok token →
          (tag, reply) ∈ b.net.replies → ¬b.net.server.Dead keyId →
            reply = .identified ⟨userId, trim (trim rawEmail), keyId⟩ ∨
              reply = .refused (.internalServerError "Internal error") := by
  have htabled := hrun.tabled
  obtain ⟨start, now, hrun⟩ := hrun
  have hholds : (authContract E a.net.sent).Holds a.net :=
    holds_of_sent _ (fun _ _ h => h) hrun
      (Contract.holds_initial ⟨tabled_empty now, List.forall_mem_nil _⟩) fun _ hcall _ => hcall
  obtain ⟨call, hcall, hensures⟩ := hholds.replies _ hcreated
  cases call with
  | createApiKey loopback rawEmail name rawExpiresAt =>
    obtain ⟨keyId, secret, row, hparse, hrow, hemail, hverified⟩ := hensures
    refine ⟨loopback, rawEmail, name, rawExpiresAt, hcall, keyId, row.userId, ?_⟩
    intro b hrest tag request reply hafter hsent htoken hreply halive
    have hsince : (aliveWatch E keyId secret row hverified).Since a.net.sent.length b.net :=
      Watch.of_run hrest (Watch.since_of_run hrun ⟨htabled, hrow⟩)
    obtain ⟨call, hcall', htells⟩ := (hsince.replies _ hreply).2 hafter
    obtain rfl := Option.some.inj (hsent.symm.trans hcall')
    rw [← hemail]
    rcases htells request rfl ⟨token, htoken, hparse⟩ with hadmitted | hfailed | hdead
    · exact Or.inl hadmitted
    · exact Or.inr hfailed
    · exact absurd hdead halive
  | revokeApiKey => exact absurd hensures id
  | identify => exact absurd hensures id

end Runs

/-! ### A run -/

/-- Whoever sends requests, one at a time. -/
def anyone : Client AuthCall AuthReply Unit AuthCall
  | (), _, .inl _ => some ((), none)
  | (), _, .inr call => some ((), some call)

/-- A server in bootstrap mode; the hash of a secret is its salt, a dot and the secret. -/
def plainEnv : AuthEnv where
  uuid := hyphenatedText
  hashPassword secret salt := salt ++ '.' :: secret
  verifyPassword hashed secret := decide ('.' :: secret <:+ hashed)
  verify_hash secret salt := decide_eq_true (List.suffix_append salt ('.' :: secret))
  parseRfc3339 _ := none
  toRfc3339 _ := []
  bootstrapAllowed := true
  insecureTokensAllowed := false

/-- A move: a request is sent, or a step of one is done. -/
inductive AuthMove where
  | send (call : AuthCall)
  | serve (tag : ℕ) (draws : KeyDraws)

/-- Make a move. -/
def authMove (sys : System AuthState AuthCall AuthJob AuthReply Unit) :
    AuthMove → Option (System AuthState AuthCall AuthJob AuthReply Unit)
  | .send call => some ⟨(), sys.net.send (authService plainEnv) call⟩
  | .serve tag draws =>
    match sys.net.pending.find? (·.1 == tag) with
    | none => none
    | some p => match sys.net.server.serveAuth plainEnv draws p.2 with
      | (s', .inl job) => some ⟨(),
          { sys.net with server := s', pending := (tag, job) :: sys.net.without tag }⟩
      | (s', .inr reply) => some ⟨(),
          { sys.net with
            server := s'
            pending := sys.net.without tag
            replies := (tag, reply) :: sys.net.replies }⟩

theorem step_of_authMove {sys sys' : System AuthState AuthCall AuthJob AuthReply Unit}
    {move : AuthMove} (h : authMove sys move = some sys') :
    Exchange.Step (authService plainEnv) anyone sys sys' := by
  cases move with
  | send call =>
    obtain rfl := Option.some.inj h
    exact .act (e := .inr call) (r := some call) trivial rfl
  | serve tag draws =>
    simp only [authMove] at h
    split at h
    · cases h
    next p hfind =>
    obtain rfl : p.1 = tag := by simpa using List.find?_some hfind
    have hp := List.mem_of_find?_eq_some hfind
    split at h
    · next s' job hserve =>
      obtain rfl := Option.some.inj h
      exact .net (.work hp ⟨draws, Or.inl hserve⟩)
    · next s' reply hserve =>
      obtain rfl := Option.some.inj h
      exact .net (.answer hp ⟨draws, Or.inl hserve⟩)

/-- The first key, and its token. -/
def firstDraws : KeyDraws :=
  ⟨⟨List.replicate 32 7, List.length_replicate⟩, ['s'],
    ⟨List.replicate 16 1, List.length_replicate⟩, ⟨List.replicate 16 2, List.length_replicate⟩⟩

def firstToken : Text := apiToken hyphenatedText firstDraws.keyId (urlSafeNoPad firstDraws.secret.1)

/-- A request with the token. -/
def firstRequest : HttpRequest :=
  ⟨[(apiKeyHeader, firstToken.map fun c => UInt8.ofNat c.toNat)], "https".toList, none⟩

/-- A key is made. -/
def createMoves : List AuthMove :=
  [.send (.createApiKey true "a@b".toList none none), .serve 0 firstDraws, .serve 0 firstDraws]

/-- The request is sent, and worked on to its end. -/
def useMoves (tag : ℕ) : List AuthMove :=
  .send (.identify firstRequest) :: List.replicate 4 (.serve tag firstDraws)

/-- The key is revoked. -/
def revokeMoves : List AuthMove :=
  [.send (.revokeApiKey true (hyphenatedText.toText firstDraws.keyId)), .serve 2 firstDraws,
    .serve 2 firstDraws]

/-- The request is sent again. -/
def lateMoves : List AuthMove :=
  [.send (.identify firstRequest), .serve 3 firstDraws, .serve 3 firstDraws]

/-- What is to be seen in a run in which a key is made, used, revoked and used again. -/
structure KeyRun (a b c d : System AuthState AuthCall AuthJob AuthReply Unit) : Prop where
  made : AuthRun plainEnv anyone a
  used : ReflTransGen (Exchange.Step (authService plainEnv) anyone) a b
  revoked : ReflTransGen (Exchange.Step (authService plainEnv) anyone) b c
  late : ReflTransGen (Exchange.Step (authService plainEnv) anyone) c d
  created : (0, .created firstToken none) ∈ a.net.replies
  sent_one : a.net.sent.length = 1
  sent_use : b.net.sent[1]? = some (.identify firstRequest)
  identified : (1, .identified ⟨firstDraws.userId, "a@b".toList, firstDraws.keyId⟩) ∈ b.net.replies
  alive : ∀ keyId, ¬b.net.server.Dead keyId
  dead : c.net.server.Dead firstDraws.keyId
  sent_late : c.net.sent.length = 3 ∧ d.net.sent[3]? = some (.identify firstRequest)
  refused : (3, .refused (.unauthorized "Unauthorized")) ∈ d.net.replies

theorem presents_firstRequest :
    Presents plainEnv firstRequest firstDraws.keyId (urlSafeNoPad firstDraws.secret.1) :=
  ⟨firstToken, by decide +kernel, by decide +kernel⟩

/-- A key is made, used, revoked and used again. -/
theorem exists_keyRun : ∃ a b c d, KeyRun a b c d := by
  let start : System AuthState AuthCall AuthJob AuthReply Unit := ⟨(), ⟨[], [], 0⟩, [], [], []⟩
  have htraces : ((Runs.trace authMove start createMoves).bind fun a =>
      (Runs.trace authMove a (useMoves 1)).bind fun b =>
        (Runs.trace authMove b revokeMoves).bind fun c =>
          (Runs.trace authMove c lateMoves).map fun d => decide (
            ((0, .created firstToken none) ∈ a.net.replies ∧ a.net.sent.length = 1) ∧
            (b.net.sent[1]? = some (.identify firstRequest) ∧
              (1, .identified ⟨firstDraws.userId, "a@b".toList, firstDraws.keyId⟩) ∈
                b.net.replies ∧
              ∀ key ∈ b.net.server.apiKeys, key.revokedAt = none ∧ key.expiresAt = none) ∧
            ((∃ key ∈ c.net.server.apiKeys, key.id = firstDraws.keyId ∧
              key.revokedAt.isSome = true) ∧ c.net.sent.length = 3) ∧
            d.net.sent[3]? = some (.identify firstRequest) ∧
              (3, .refused (.unauthorized "Unauthorized")) ∈ d.net.replies)) = some true := by
    decide +kernel
  obtain ⟨a, ha, htraces⟩ := Option.bind_eq_some_iff.mp htraces
  obtain ⟨b, hb, htraces⟩ := Option.bind_eq_some_iff.mp htraces
  obtain ⟨c, hc, htraces⟩ := Option.bind_eq_some_iff.mp htraces
  obtain ⟨d, hd, hobs⟩ := Option.map_eq_some_iff.mp htraces
  obtain ⟨⟨hcreated, hone⟩, ⟨huse, hidentified, halive⟩, ⟨⟨key, hkey, hid, hrevoked⟩, hthree⟩,
    hlate, hrefused⟩ := of_decide_eq_true hobs
  refine ⟨a, b, c, d, ⟨(), 0, Runs.run_of_trace authMove step_of_authMove ha⟩,
    Runs.run_of_trace authMove step_of_authMove hb, Runs.run_of_trace authMove step_of_authMove hc,
    Runs.run_of_trace authMove step_of_authMove hd, hcreated, hone, huse, hidentified, ?_,
    ⟨key, hkey, hid, Or.inl hrevoked⟩, ⟨hthree, hlate⟩, hrefused⟩
  rintro keyId ⟨key, hkey, -, hrevoked | ⟨expiresAt, hexpires, -⟩⟩
  · rw [(halive key hkey).1] at hrevoked
    cases hrevoked
  · rw [(halive key hkey).2] at hexpires
    cases hexpires

/-- The request that is let through has been sent with the token of the key that was made. -/
theorem issued_firstKey : ∃ b : System AuthState AuthCall AuthJob AuthReply Unit,
    ∃ secret, Presents plainEnv firstRequest firstDraws.keyId secret ∧
      ∃ key ∈ b.net.server.apiKeys, key.id = firstDraws.keyId ∧
        Issued plainEnv b.net.sent "a@b".toList key.hashedSecret key.expiresAt := by
  obtain ⟨a, b, c, d, h⟩ := exists_keyRun
  have hrun : AuthRun plainEnv anyone b := by
    obtain ⟨start, now, hmade⟩ := h.made
    exact ⟨start, now, hmade.trans h.used⟩
  obtain ⟨request, hsent, secret, hpresents, key, hkey, hid, -, -, hissued⟩ :=
    issued_of_identified hrun h.identified
  obtain rfl := AuthCall.identify.inj (Option.some.inj (h.sent_use.symm.trans hsent))
  exact ⟨b, secret, hpresents, key, hkey, hid, hissued⟩

/-- The request that is sent after the revocation is refused. -/
theorem refused_firstKey : ∃ c d, AuthRun plainEnv anyone c ∧
    c.net.server.Dead firstDraws.keyId ∧
      ReflTransGen (Exchange.Step (authService plainEnv) anyone) c d ∧
        ∃ reply, (3, reply) ∈ d.net.replies ∧ Refused reply := by
  obtain ⟨a, b, c, d, h⟩ := exists_keyRun
  have hrun : AuthRun plainEnv anyone c := by
    obtain ⟨start, now, hmade⟩ := h.made
    exact ⟨start, now, (hmade.trans h.used).trans h.revoked⟩
  exact ⟨c, d, hrun, h.dead, h.late, _, h.refused, refused_of_dead hrun h.dead h.late
    h.sent_late.1.le h.sent_late.2 presents_firstRequest h.refused⟩

/-- The token that was given out lets the request through. -/
theorem identified_firstKey : ∃ a b, AuthRun plainEnv anyone a ∧
    ReflTransGen (Exchange.Step (authService plainEnv) anyone) a b ∧
      ∃ keyId userId, (1, .identified ⟨userId, "a@b".toList, keyId⟩) ∈ b.net.replies := by
  obtain ⟨a, b, c, d, h⟩ := exists_keyRun
  obtain ⟨loopback, rawEmail, name, rawExpiresAt, -, keyId, userId, hall⟩ :=
    identified_of_created h.made h.created
  rcases hall b h.used 1 firstRequest _ h.sent_one.le h.sent_use (by decide +kernel) h.identified
    (h.alive keyId) with hidentified | hfailed
  · obtain ⟨rfl, hemail, rfl⟩ := AuthIdentity.mk.inj (AuthReply.identified.inj hidentified)
    exact ⟨a, b, h.made, h.used, _, _, h.identified⟩
  · cases hfailed

end Askl
