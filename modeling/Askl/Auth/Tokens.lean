import Askl.Store.ContentStore
import Mathlib.Data.List.TakeWhile

/-!
# API tokens

A token is `askl_`, the id of its key, a dot and the secret: 32 random bytes in URL-safe base64.
A request carries it in one of two headers, which the server takes out of the request before
anything else sees it.  Ids are printed and parsed by a library, of which only the round trip
and the characters of the text are assumed.

## Main definitions

* `Uuid`, `UuidText` — the ids of keys, and their text.
* `urlSafeNoPad` — the text of a secret.
* `apiToken`, `parseToken` — a token, and what is read of it.
* `HttpRequest`, `redactAuthHeaders`, `extractToken`, `requestToken` — the credentials of a
  request.

## Main results

* `parseToken_eq_some_iff` — what `parseToken` accepts.
* `parseToken_apiToken` — **a token that was made is read again**, whatever white space is put
  around it.
* `requestToken_redact` — **taking the credentials out changes no decision.**
-/

namespace Askl

/-! ### Ids -/

/-- A `Uuid`: 16 bytes. -/
def Uuid : Type := { bytes : Bytes // bytes.length = 16 }

instance : DecidableEq Uuid := inferInstanceAs (DecidableEq { bytes : Bytes // bytes.length = 16 })

/-- How ids are printed and parsed: what is printed is parsed again, and has neither a dot nor
white space in it. -/
structure UuidText where
  toText : Uuid → Text
  parseStr : Text → Option Uuid
  parseStr_toText : ∀ id, parseStr (toText id) = some id
  dot_notMem : ∀ id, '.' ∉ toText id
  not_isWhitespace : ∀ id, ∀ c ∈ toText id, isWhitespace c = false

/-! ### Secrets -/

/-- The digits of URL-safe base64. -/
def base64Char (n : ℕ) : Char :=
  if n < 26 then Char.ofNat (65 + n)
  else if n < 52 then Char.ofNat (71 + n)
  else if n < 62 then Char.ofNat (n - 4)
  else if n = 62 then '-'
  else '_'

/-- `URL_SAFE_NO_PAD.encode`. -/
def urlSafeNoPad : Bytes → Text
  | a :: b :: c :: bytes =>
    base64Char (a.toNat / 4) :: base64Char (a.toNat % 4 * 16 + b.toNat / 16) ::
      base64Char (b.toNat % 16 * 4 + c.toNat / 64) :: base64Char (c.toNat % 64) ::
        urlSafeNoPad bytes
  | [a, b] => [base64Char (a.toNat / 4), base64Char (a.toNat % 4 * 16 + b.toNat / 16),
      base64Char (b.toNat % 16 * 4)]
  | [a] => [base64Char (a.toNat / 4), base64Char (a.toNat % 4 * 16)]
  | [] => []

theorem not_isWhitespace_base64Char (n : ℕ) : isWhitespace (base64Char n) = false := by
  by_cases hn : n < 63
  · have hall : ∀ m < 63, isWhitespace (base64Char m) = false := by decide
    exact hall n hn
  · have hlast : base64Char n = '_' := by
      unfold base64Char
      rw [if_neg (by omega), if_neg (by omega), if_neg (by omega), if_neg (by omega)]
    rw [hlast]
    decide

theorem not_isWhitespace_urlSafeNoPad (bytes : Bytes) :
    ∀ c ∈ urlSafeNoPad bytes, isWhitespace c = false := by
  fun_induction urlSafeNoPad bytes with
  | case1 a b c bytes ih =>
    simp only [List.forall_mem_cons]
    exact ⟨not_isWhitespace_base64Char _, not_isWhitespace_base64Char _,
      not_isWhitespace_base64Char _, not_isWhitespace_base64Char _, ih⟩
  | case2 a b => simp [not_isWhitespace_base64Char]
  | case3 a => simp [not_isWhitespace_base64Char]
  | case4 => exact List.forall_mem_nil _

/-- A secret is not empty. -/
theorem urlSafeNoPad_ne_nil {bytes : Bytes} (h : bytes ≠ []) : urlSafeNoPad bytes ≠ [] := by
  fun_cases urlSafeNoPad bytes with
  | case4 => exact absurd rfl h
  | _ => exact List.cons_ne_nil _ _

/-! ### Tokens -/

/-- What every token starts with. -/
def tokenPrefix : Text := ['a', 's', 'k', 'l', '_']

section Token

variable (F : UuidText)

/-- The token of a key. -/
def apiToken (keyId : Uuid) (secret : Text) : Text :=
  tokenPrefix ++ (F.toText keyId ++ '.' :: secret)

/-- `parse_token`; nothing for an invalid token. -/
def parseToken (token : Text) : Option (Uuid × Text) :=
  match (trim token).dropPrefix? tokenPrefix with
  | none => none
  | some rest => match rest.dropWhile (· != '.') with
    | [] => none
    | _ :: secret =>
      if secret = [] then none
      else (F.parseStr (rest.takeWhile (· != '.'))).map fun keyId => (keyId, secret)

variable {F}

/-- The text up to the first dot, and the text behind it. -/
theorem span_dot {idText : Text} (secret : Text) (h : '.' ∉ idText) :
    (idText ++ '.' :: secret).takeWhile (· != '.') = idText ∧
      (idText ++ '.' :: secret).dropWhile (· != '.') = '.' :: secret := by
  have hne : ∀ c ∈ idText, (c != '.') = true := by
    intro c hc
    rw [bne_iff_ne]
    rintro rfl
    exact h hc
  constructor
  · rw [List.takeWhile_append_of_pos hne, List.takeWhile_cons_of_neg (by decide), List.append_nil]
  · rw [List.dropWhile_append_of_pos hne, List.dropWhile_cons_of_neg (by decide)]

theorem exists_span_dot {rest secret : Text} {c : Char}
    (h : rest.dropWhile (· != '.') = c :: secret) :
    rest = rest.takeWhile (· != '.') ++ '.' :: secret ∧ '.' ∉ rest.takeWhile (· != '.') := by
  have hc : c = '.' := by
    have hhead := List.head?_dropWhile_not (· != '.') rest
    rw [h] at hhead
    simpa using hhead
  have happend := List.takeWhile_append_dropWhile (p := (· != '.')) (l := rest)
  rw [h, hc] at happend
  refine ⟨happend.symm, fun hmem => ?_⟩
  have hdot := List.mem_takeWhile_imp hmem
  simp at hdot

/-- **What is accepted as a token**: the prefix, the text of an id, a dot and a secret that is not
empty; white space around it is cut off. -/
theorem parseToken_eq_some_iff {token : Text} {keyId : Uuid} {secret : Text} :
    parseToken F token = some (keyId, secret) ↔ secret ≠ [] ∧ ∃ idText,
      trim token = tokenPrefix ++ (idText ++ '.' :: secret) ∧ '.' ∉ idText ∧
        F.parseStr idText = some keyId := by
  constructor
  · intro h
    unfold parseToken at h
    split at h
    · cases h
    next rest hrest =>
    obtain ⟨start, htoken, hstart⟩ := List.dropPrefix?_eq_some_iff.mp hrest
    obtain rfl := eq_of_beq hstart
    split at h
    · cases h
    next c secret' hdrop =>
    split at h
    · cases h
    next hne =>
    obtain ⟨id, hid, heq⟩ := Option.map_eq_some_iff.mp h
    obtain ⟨rfl, rfl⟩ := Prod.mk.inj heq
    obtain ⟨happend, hdot⟩ := exists_span_dot hdrop
    exact ⟨hne, _, by rw [htoken, ← happend], hdot, hid⟩
  · rintro ⟨hne, idText, htoken, hdot, hid⟩
    obtain ⟨htake, hdrop⟩ := span_dot secret hdot
    have hprefix : (tokenPrefix ++ (idText ++ '.' :: secret)).dropPrefix? tokenPrefix =
        some (idText ++ '.' :: secret) :=
      List.dropPrefix?_eq_some_iff.mpr ⟨tokenPrefix, rfl, beq_self_eq_true _⟩
    unfold parseToken
    rw [htoken, hprefix]
    simp only [hdrop, htake, hid, if_neg hne, Option.map_some]

/-- White space around a text without any is cut off. -/
theorem trim_surrounded {before after t : Text} (ht : ∀ c ∈ t, isWhitespace c = false)
    (hbefore : ∀ c ∈ before, isWhitespace c = true) (hafter : ∀ c ∈ after, isWhitespace c = true) :
    trim (before ++ (t ++ after)) = t := by
  cases t with
  | nil =>
    have hall : ∀ c ∈ before ++ ([] ++ after), isWhitespace c = true := by
      intro c hc
      rw [List.nil_append] at hc
      exact (List.mem_append.mp hc).elim (hbefore c) (hafter c)
    rw [trim, List.dropWhile_eq_nil_iff.mpr hall]
    rfl
  | cons c t =>
    have hc : ¬isWhitespace c = true := by
      rw [ht c List.mem_cons_self]
      exact Bool.false_ne_true
    have hrev : ∀ d ∈ after.reverse, isWhitespace d = true := by
      intro d hd
      exact hafter d (List.mem_reverse.mp hd)
    have hself := trim_eq_self ht
    rw [trim, List.dropWhile_cons_of_neg hc] at hself
    rw [trim, List.dropWhile_append_of_pos hbefore, List.cons_append,
      List.dropWhile_cons_of_neg hc, ← List.cons_append, List.reverse_append,
      List.dropWhile_append_of_pos hrev]
    exact hself

theorem not_isWhitespace_apiToken (keyId : Uuid) {bytes : Bytes} :
    ∀ c ∈ apiToken F keyId (urlSafeNoPad bytes), isWhitespace c = false := by
  intro c hc
  rcases List.mem_append.mp hc with hc | hc
  · have hall : tokenPrefix.all (! isWhitespace ·) = true := rfl
    simpa using List.all_eq_true.mp hall c hc
  · rcases List.mem_append.mp hc with hc | hc
    · exact F.not_isWhitespace keyId c hc
    · rcases List.mem_cons.mp hc with rfl | hc
      · decide
      · exact not_isWhitespace_urlSafeNoPad bytes c hc

/-- **A token that was made is read again**, with white space around it or without. -/
theorem parseToken_apiToken (keyId : Uuid) {bytes : Bytes} (hbytes : bytes ≠ [])
    {before after : Text} (hbefore : ∀ c ∈ before, isWhitespace c = true)
    (hafter : ∀ c ∈ after, isWhitespace c = true) :
    parseToken F (before ++ (apiToken F keyId (urlSafeNoPad bytes) ++ after)) =
      some (keyId, urlSafeNoPad bytes) := by
  refine parseToken_eq_some_iff.mpr ⟨urlSafeNoPad_ne_nil hbytes, F.toText keyId, ?_,
    F.dot_notMem keyId, F.parseStr_toText keyId⟩
  rw [trim_surrounded (not_isWhitespace_apiToken keyId) hbefore hafter]
  rfl

end Token

/-! ### The hyphenated text of an id -/

/-- The value of a hexadecimal digit in lower case. -/
def hexValue (c : Char) : Option ℕ :=
  if 48 ≤ c.toNat ∧ c.toNat ≤ 57 then some (c.toNat - 48)
  else if 97 ≤ c.toNat ∧ c.toNat ≤ 102 then some (c.toNat - 87)
  else none

/-- The bytes of pairs of digits. -/
def decodeHex : Text → Option Bytes
  | [] => some []
  | [_] => none
  | high :: low :: text =>
    (hexValue high).bind fun h => (hexValue low).bind fun l =>
      (decodeHex text).map (UInt8.ofNat (h * 16 + l) :: ·)

theorem hexValue_hexDigit : ∀ n < 16, hexValue (hexDigit n) = some n := by decide

theorem decodeHex_flatMap (bytes : Bytes) : decodeHex (bytes.flatMap hexByte) = some bytes := by
  induction bytes with
  | nil => rfl
  | cons b bytes ih =>
    have hb := b.toNat_lt
    have hbyte : UInt8.ofNat (b.toNat / 16 * 16 + b.toNat % 16) = b := by
      rw [Nat.div_add_mod' b.toNat 16]
      exact UInt8.ofNat_toNat
    rw [List.flatMap_cons, hexByte, List.cons_append, List.cons_append, List.nil_append, decodeHex,
      hexValue_hexDigit _ (by omega), hexValue_hexDigit _ (by omega), ih]
    simp only [Option.bind_some, Option.map_some, hbyte]

/-- Groups of bytes in hex, with hyphens between them. -/
def hyphenated : List Bytes → Text
  | [] => []
  | [group] => group.flatMap hexByte
  | group :: groups => group.flatMap hexByte ++ '-' :: hyphenated groups

/-- The groups of the bytes of an id. -/
def uuidGroups (bytes : Bytes) : List Bytes :=
  [bytes.take 4, (bytes.drop 4).take 2, (bytes.drop 6).take 2, (bytes.drop 8).take 2, bytes.drop 10]

theorem flatten_uuidGroups (bytes : Bytes) : (uuidGroups bytes).flatten = bytes := by
  have hstep : ∀ m n, (bytes.drop m).take n ++ bytes.drop (m + n) = bytes.drop m := by
    intro m n
    rw [← List.drop_drop, List.take_append_drop]
  simp only [uuidGroups, List.flatten_cons, List.flatten_nil, List.append_nil]
  rw [hstep 8 2, hstep 6 2, hstep 4 2, List.take_append_drop]

theorem of_mem_hexByte (b : UInt8) : ∀ c ∈ hexByte b, c ≠ '-' ∧ c ≠ '.' := by
  have hdigit : ∀ n < 16, hexDigit n ≠ '-' ∧ hexDigit n ≠ '.' := by decide
  have hb := b.toNat_lt
  intro c hc
  rcases List.mem_cons.mp hc with rfl | hc
  · exact hdigit _ (by omega)
  · obtain rfl := List.mem_singleton.mp hc
    exact hdigit _ (by omega)

/-- The characters of the text are hyphens and digits. -/
theorem of_mem_hyphenated {groups : List Bytes} {c : Char} (hc : c ∈ hyphenated groups) :
    c = '-' ∨ ∃ b, c ∈ hexByte b := by
  have hgroup : ∀ group : Bytes, c ∈ group.flatMap hexByte → ∃ b, c ∈ hexByte b := by
    intro group hc
    obtain ⟨b, -, hb⟩ := List.mem_flatMap.mp hc
    exact ⟨b, hb⟩
  fun_induction hyphenated groups with
  | case1 => cases hc
  | case2 group => exact Or.inr (hgroup group hc)
  | case3 group groups hne ih =>
    rcases List.mem_append.mp hc with hc | hc
    · exact Or.inr (hgroup group hc)
    · rcases List.mem_cons.mp hc with rfl | hc
      · exact Or.inl rfl
      · exact ih hc

/-- Without its hyphens, the text is the bytes in hex. -/
theorem filter_hyphenated (groups : List Bytes) :
    (hyphenated groups).filter (· != '-') = groups.flatten.flatMap hexByte := by
  have hgroup : ∀ group : Bytes,
      (group.flatMap hexByte).filter (· != '-') = group.flatMap hexByte := by
    intro group
    refine List.filter_eq_self.mpr fun c hc => ?_
    obtain ⟨b, -, hb⟩ := List.mem_flatMap.mp hc
    exact bne_iff_ne.mpr (of_mem_hexByte b c hb).1
  fun_induction hyphenated groups with
  | case1 => rfl
  | case2 group => rw [hgroup, List.flatten_singleton]
  | case3 group groups hne ih =>
    rw [List.filter_append, hgroup, List.filter_cons_of_neg (by decide), ih, List.flatten_cons,
      List.flatMap_append]

/-- Bytes as an id, if there are 16. -/
def Uuid.ofBytes (bytes : Bytes) : Option Uuid :=
  if h : bytes.length = 16 then some ⟨bytes, h⟩ else none

/-- Ids as they are printed; of the texts that stand for an id, only the printed one is parsed. -/
def hyphenatedText : UuidText where
  toText id := hyphenated (uuidGroups id.1)
  parseStr text := ((decodeHex (text.filter (· != '-'))).bind Uuid.ofBytes).filter fun id =>
    hyphenated (uuidGroups id.1) == text
  parseStr_toText id := by
    have hid : Uuid.ofBytes id.1 = some id := dif_pos id.2
    rw [filter_hyphenated, flatten_uuidGroups, decodeHex_flatMap, Option.bind_some, hid]
    simp
  dot_notMem id hmem := by
    rcases of_mem_hyphenated hmem with hdot | ⟨b, hb⟩
    · exact absurd hdot (by decide)
    · exact (of_mem_hexByte b '.' hb).2 rfl
  not_isWhitespace id c hc := by
    rcases of_mem_hyphenated hc with rfl | ⟨b, hb⟩
    · decide
    · exact not_isWhitespace_hexByte b c hb

/-! ### The credentials of a request -/

/-- What is looked at of a request: its headers by their names in lower case, the scheme of its
connection, and the token that was taken out of it. -/
structure HttpRequest where
  headers : List (Text × Bytes)
  scheme : Text
  redacted : Option Text
  deriving DecidableEq

/-- The names of the headers that may carry a token. -/
def authorizationHeader : Text := "authorization".toList

def apiKeyHeader : Text := "x-api-key".toList

/-- What a handler answers instead of doing its work. -/
inductive Refusal where
  | unauthorized (message : String)
  | forbidden (message : String)
  | internalServerError (message : String)
  deriving DecidableEq, Repr

/-- `HeaderValue::to_str`: visible ASCII, blanks and tabs. -/
def headerText (value : Bytes) : Option Text :=
  if value.all fun b => (32 ≤ b.toNat && b.toNat < 127) || b.toNat == 9 then
    some (value.map fun b => Char.ofNat b.toNat)
  else none

/-- A text, unless it is empty. -/
def nonempty (text : Text) : Option Text := if text = [] then none else some text

/-- `to_ascii_lowercase`. -/
def toAsciiLowercase (text : Text) : Text :=
  text.map fun c => if 65 ≤ c.toNat ∧ c.toNat ≤ 90 then Char.ofNat (c.toNat + 32) else c

/-- `eq_ignore_ascii_case`. -/
def eqIgnoreAsciiCase (text other : Text) : Bool := toAsciiLowercase text == toAsciiLowercase other

namespace HttpRequest

variable (req : HttpRequest)

/-- The text of the first header of a name. -/
def header (name : Text) : Option Text :=
  (req.headers.find? (·.1 == name)).bind fun h => headerText h.2

/-- `extract_token_from_headers`. -/
def extractTokenFromHeaders : Option Text :=
  (((req.header authorizationHeader).bind fun value => value.dropPrefix? "Bearer ".toList).bind
    fun bearer => nonempty (trim bearer)).or
      ((req.header apiKeyHeader).bind fun value => nonempty (trim value))

/-- `extract_token`. -/
def extractToken : Option Text := req.redacted.or req.extractTokenFromHeaders

/-- `redact_auth_headers`. -/
def redactAuthHeaders : HttpRequest where
  headers := (req.headers.filter (·.1 != authorizationHeader)).filter (·.1 != apiKeyHeader)
  scheme := req.scheme
  redacted := req.extractTokenFromHeaders.or req.redacted

/-- `is_secure_request`. -/
def isSecureRequest : Bool :=
  eqIgnoreAsciiCase req.scheme "https".toList ||
    (req.header "x-forwarded-proto".toList).any (fun value =>
      eqIgnoreAsciiCase (trim (value.takeWhile (· != ','))) "https".toList) ||
    (req.header "x-forwarded-ssl".toList).any (fun value =>
      eqIgnoreAsciiCase value "on".toList) ||
    (req.header "forwarded".toList).any fun value =>
      decide ("proto=https".toList <:+: toAsciiLowercase value)

/-- The token of a request, as the extractor of an identity takes it. -/
def requestToken (allowInsecure : Bool) : Except Refusal Text :=
  match req.extractToken with
  | none => .error (.unauthorized "Unauthorized")
  | some token =>
    if !req.isSecureRequest && !allowInsecure then
      .error (.forbidden "API tokens require HTTPS")
    else .ok token

end HttpRequest

section Redaction

variable {req : HttpRequest}

theorem notMem_redactAuthHeaders {name : Text} (h : name = authorizationHeader ∨ name = apiKeyHeader) :
    ∀ header ∈ req.redactAuthHeaders.headers, header.1 ≠ name := by
  intro header hmem
  obtain ⟨hmem, hkey⟩ := List.mem_filter.mp hmem
  obtain ⟨-, hauthorization⟩ := List.mem_filter.mp hmem
  rcases h with rfl | rfl
  · exact bne_iff_ne.mp hauthorization
  · exact bne_iff_ne.mp hkey

/-- The headers that may carry a token are gone. -/
theorem header_redact_eq_none {name : Text} (h : name = authorizationHeader ∨ name = apiKeyHeader) :
    req.redactAuthHeaders.header name = none := by
  have hfind : req.redactAuthHeaders.headers.find? (·.1 == name) = none := by
    refine List.find?_eq_none.mpr fun header hmem => ?_
    simpa using notMem_redactAuthHeaders h header hmem
  rw [HttpRequest.header, hfind, Option.bind_none]

/-- The other headers are as they were. -/
theorem header_redact {name : Text} (hauthorization : name ≠ authorizationHeader)
    (hkey : name ≠ apiKeyHeader) : req.redactAuthHeaders.header name = req.header name := by
  have hfind : req.redactAuthHeaders.headers.find? (·.1 == name) =
      req.headers.find? (·.1 == name) := by
    simp only [HttpRequest.redactAuthHeaders, List.find?_filter]
    congr 1
    funext header
    cases hname : header.1 == name with
    | false => simp
    | true =>
      rw [beq_iff_eq.mp hname]
      simp [hauthorization, hkey]
  rw [HttpRequest.header, hfind, HttpRequest.header]

theorem extractTokenFromHeaders_redact : req.redactAuthHeaders.extractTokenFromHeaders = none := by
  rw [HttpRequest.extractTokenFromHeaders, header_redact_eq_none (Or.inl rfl),
    header_redact_eq_none (Or.inr rfl)]
  rfl

theorem isSecureRequest_redact : req.redactAuthHeaders.isSecureRequest = req.isSecureRequest := by
  unfold HttpRequest.isSecureRequest
  rw [header_redact (by decide) (by decide), header_redact (by decide) (by decide),
    header_redact (by decide) (by decide)]
  rfl

/-- **Taking the credentials out of a request changes no decision**, and doing so again changes
nothing. -/
theorem requestToken_redact (hfresh : req.redacted = none) (allowInsecure : Bool) :
    req.redactAuthHeaders.requestToken allowInsecure = req.requestToken allowInsecure ∧
      req.redactAuthHeaders.redactAuthHeaders = req.redactAuthHeaders := by
  constructor
  · have htoken : req.redactAuthHeaders.extractToken = req.extractToken := by
      rw [HttpRequest.extractToken, extractTokenFromHeaders_redact, HttpRequest.extractToken,
        hfresh, Option.or_none, Option.none_or]
      exact congrArg _ hfresh |>.trans (Option.or_none)
    unfold HttpRequest.requestToken
    rw [htoken, isSecureRequest_redact]
  · have hheaders : ∀ header ∈ req.redactAuthHeaders.headers,
        (header.1 != authorizationHeader) = true ∧ (header.1 != apiKeyHeader) = true := by
      intro header hmem
      exact ⟨bne_iff_ne.mpr (notMem_redactAuthHeaders (Or.inl rfl) header hmem),
        bne_iff_ne.mpr (notMem_redactAuthHeaders (Or.inr rfl) header hmem)⟩
    have hkept := List.filter_eq_self.mpr fun header hmem => (hheaders header hmem).1
    have hkept' := List.filter_eq_self.mpr fun header hmem => (hheaders header hmem).2
    rw [HttpRequest.redactAuthHeaders, extractTokenFromHeaders_redact, hkept, hkept',
      Option.none_or]

end Redaction

end Askl
