/-
`apps/delivery/src/policy/mta-sts.ts`: the MTA-STS policy in force for a domain
(RFC 8461).

`lookupMtaSts` has eight ways to end. It asks the cache, then the TXT record, and
only where the record names an id that the cached policy does not have is a policy
fetched; everything that goes wrong on the way falls back to the cache. So a lookup
does one of three things (`lookupMtaSts_cases`): it fetches a policy and stores it,
it answers from the cache, or it answers that there is none, and then nothing that it
could read in the cache is still valid. The cache may be a database
(`createSettingPolicyStore`): it may fail to answer, and fail to store.

What can replace a policy in the cache is another one, fetched over HTTPS. It counts
from then on, also where it expires earlier than the one it has replaced.

The TXT answer and the text of the policy come from outside: any answer, any failure.
-/
import Postroom.Mime.Header
import Postroom.Lib.Decimal

set_option autoImplicit false

namespace Postroom.Delivery.MtaSts

open Mime (trim)

/-! ## 1. Policies -/

inductive MtaStsMode
  | enforce
  | testing
  | none
  deriving DecidableEq, Repr

structure MtaStsPolicy where
  mode : MtaStsMode
  /-- Lowercased, no trailing dot. -/
  mx : List Mime.Text
  /-- Seconds. -/
  maxAge : ℕ
  deriving DecidableEq, Repr

structure CachedMtaStsPolicy where
  id : Mime.Text
  policy : MtaStsPolicy
  fetchedAt : ℕ
  expiresAt : ℕ
  deriving DecidableEq, Repr

inductive Source
  | fetched
  | cache
  deriving DecidableEq, Repr

inductive MtaStsLookup
  | none (reason : Mime.Text)
  | policy (id : Mime.Text) (policy : MtaStsPolicy) (source : Source)
  deriving DecidableEq, Repr

/-- What is done to strings outside of the repository. -/
structure Platform where
  toLowerCase : Mime.Text → Mime.Text
  /-- `JSON.stringify`. -/
  stringify : Mime.Text → Mime.Text
  /-- `JSON.stringify(text.slice(0, 80))`. -/
  excerpt : Mime.Text → Mime.Text

def MAX_AGE_LIMIT : ℕ := 31557600

variable (js : Platform)

/-- `name.toLowerCase().replace(/\.$/, '')`. -/
def bare (name : Mime.Text) : Mime.Text :=
  let lower := js.toLowerCase name
  if lower.getLast? = some '.' then lower.dropLast else lower

def isAlnum (c : Char) : Bool := ('A' ≤ c && c ≤ 'Z') || ('a' ≤ c && c ≤ 'z')
    || ('0' ≤ c && c ≤ '9')

/-- `/^[A-Za-z0-9]{1,32}$/`. -/
def isStsId (value : Mime.Text) : Bool := 1 ≤ value.length && value.length ≤ 32 && value.all isAlnum

/-- A field or line with its separator at a position above 0, in two. -/
def keyValue (separator : Char) (line : Mime.Text) : Option (Mime.Text × Mime.Text) :=
  if separator ∉ line ∨ line.head? = some separator then none
  else some (trim (line.takeWhile (· ≠ separator)), trim ((line.dropWhile (· ≠ separator)).drop 1))

/-- The loop of `parseStsTxt` over the fields after the version. -/
def stsId : List Mime.Text → Option Mime.Text
  | [] => none
  | field :: rest =>
    match keyValue '=' field with
    | none => none
    | some (key, value) =>
      if key = "id".toList then (if isStsId value then some value else none) else stsId rest

/-- The id of the record, when it is a valid STSv1 record. -/
def parseStsTxt (text : Mime.Text) : Option Mime.Text :=
  match ((text.splitOn ';').map trim).filter (· ≠ []) with
  | [] => none
  | first :: fields => if first = "v=STSv1".toList then stsId fields else none

/-- `body.split(/\r?\n/)`. -/
def splitLines (body : Mime.Text) : List Mime.Text :=
  let parts := body.splitOn '\n'
  parts.dropLast.map (fun line => if line.getLast? = some '\r' then line.dropLast else line)
    ++ parts.getLast?.toList

/-- What has been read of a policy. -/
structure PolicyText where
  version : Option Mime.Text := none
  mode : Option Mime.Text := none
  maxAgeText : Option Mime.Text := none
  mx : List Mime.Text := []

/-- One line of a policy; the first of a repeated key wins, `mx` accumulates. -/
def policyLine (read : PolicyText) (rawLine : Mime.Text) : Except Mime.Text PolicyText :=
  let line := trim rawLine
  if line = [] then .ok read
  else
    match keyValue ':' line with
    | none => .error ("malformed policy line: ".toList ++ js.excerpt line)
    | some (key, value) =>
      if key = "version".toList then .ok { read with version := read.version.or (some value) }
      else if key = "mode".toList then .ok { read with mode := read.mode.or (some value) }
      else if key = "max_age".toList then
        .ok { read with maxAgeText := read.maxAgeText.or (some value) }
      else if key = "mx".toList then .ok { read with mx := read.mx ++ [bare js value] }
      else .ok read

def parseMode (mode : Option Mime.Text) : Option MtaStsMode :=
  if mode = some "enforce".toList then some .enforce
  else if mode = some "testing".toList then some .testing
  else if mode = some "none".toList then some .none
  else none

/-- `/^\d{1,10}$/`. -/
def isMaxAge (text : Mime.Text) : Bool := 1 ≤ text.length && text.length ≤ 10 && text.all fun c =>
    '0' ≤ c && c ≤ '9'

def isLabelChar (c : Char) : Bool := ('a' ≤ c && c ≤ 'z') || ('0' ≤ c && c ≤ '9') || c = '_'
    || c = '-'

/-- `/^(\*\.)?[a-z0-9_-]+(\.[a-z0-9_-]+)*$/`. -/
def isMxPattern (pattern : Mime.Text) : Bool :=
  let name := if pattern.take 2 = "*.".toList then pattern.drop 2 else pattern
  (name.splitOn '.').all fun label => label ≠ [] && label.all isLabelChar

/-- `JSON.stringify(text ?? null)`. -/
def stringifyOrNull (text : Option Mime.Text) : Mime.Text :=
  (text.map js.stringify).getD "null".toList

/-- The checks of `parsePolicy`, after its loop. -/
def checkPolicy (read : PolicyText) : Except Mime.Text MtaStsPolicy :=
  if read.version ≠ some "STSv1".toList then
    .error ("unsupported policy version ".toList ++ stringifyOrNull js read.version)
  else
    match parseMode read.mode with
    | none => .error ("invalid policy mode ".toList ++ stringifyOrNull js read.mode)
    | some mode =>
      match read.maxAgeText with
      | none => .error "missing or invalid max_age".toList
      | some maxAgeText =>
        if !isMaxAge maxAgeText then .error "missing or invalid max_age".toList
        else if MAX_AGE_LIMIT < Lib.bigInt maxAgeText then
          .error ("max_age ".toList ++ maxAgeText ++ " above ".toList ++ Lib.decimal MAX_AGE_LIMIT)
        else
          match read.mx.find? fun pattern => !isMxPattern pattern with
          | some pattern => .error ("invalid mx pattern ".toList ++ js.stringify pattern)
          | none =>
            if mode ≠ .none ∧ read.mx = [] then
              .error ("mode ".toList ++ read.mode.getD [] ++ " without any mx".toList)
            else .ok ⟨mode, read.mx, Lib.bigInt maxAgeText⟩

def parsePolicy (body : Mime.Text) : Except Mime.Text MtaStsPolicy := do
  let read ← (splitLines body).foldlM (policyLine js) {}
  checkPolicy js read

/-! ## 2. One lookup -/

/-- An answer record of the resolver. -/
inductive Answer
  | txt (text : Mime.Text)
  | other

structure TxtAnswer where
  rcode : ℕ
  answers : List Answer

/-- A call of `lookupMtaSts`, with what the world answers: the TXT lookup or its
error, and `fetchPolicyText` or its error. -/
structure Call where
  domain : Mime.Text
  now : ℕ
  txt : Except Mime.Text TxtAnswer
  fetch : Except Mime.Text Mime.Text
  /-- `cache.get` fails, and what is cached stays unread. -/
  unread : Bool := false
  /-- `cache.set` fails, and nothing is stored. -/
  unstored : Bool := false

/-- What an `MtaStsCache` holds: the map behind `memoryPolicyCache`, or the settings. -/
abbrev Cache := Mime.Text → Option CachedMtaStsPolicy

def Cache.get (cache : Cache) (domain : Mime.Text) : Option CachedMtaStsPolicy :=
  cache (bare js domain)

def Cache.set (cache : Cache) (domain : Mime.Text) (entry : CachedMtaStsPolicy) : Cache :=
  fun key => if key = bare js domain then some entry else cache key

def startsWith (start text : Mime.Text) : Bool := text.take start.length = start

/-- The id the TXT record names, or why there is none. -/
def txtId (txt : Except Mime.Text TxtAnswer) : Except Mime.Text Mime.Text :=
  match txt with
  | .error error => .error ("_mta-sts TXT lookup failed: ".toList ++ error)
  | .ok txt =>
    -- NOERROR and NXDOMAIN
    if txt.rcode ≠ 0 ∧ txt.rcode ≠ 3 then
      .error ("_mta-sts TXT lookup answered rcode ".toList ++ Lib.decimal txt.rcode)
    else
      let records := txt.answers.flatMap fun
        | .txt text => if startsWith "v=STSv1".toList text then [text] else []
        | .other => []
      match records with
      | [] => .error "no _mta-sts TXT record".toList
      | [only] =>
        match parseStsTxt only with
        | none => .error ("invalid _mta-sts TXT record ".toList ++ js.excerpt only)
        | some id => .ok id
      | _ => .error "more than one STSv1 TXT record".toList

/-- The cached policy, while it has not expired. An error of `cache.get` is caught:
the lookup goes on as if nothing were cached. -/
def valid (cache : Cache) (call : Call) : Option CachedMtaStsPolicy :=
  let cached := if call.unread then none else cache.get js (bare js call.domain)
  cached.filter fun cached => call.now < cached.expiresAt

def fromCache (valid : Option CachedMtaStsPolicy) (why : Mime.Text) : MtaStsLookup :=
  match valid with
  | none => .none why
  | some entry => .policy entry.id entry.policy .cache

def entryFor (id : Mime.Text) (policy : MtaStsPolicy) (now : ℕ) : CachedMtaStsPolicy :=
  ⟨id, policy, now, now + policy.maxAge * 1000⟩

def lookupMtaSts (cache : Cache) (call : Call) : MtaStsLookup × Cache :=
  let name := bare js call.domain
  let valid := valid js cache call
  match txtId js call.txt with
  | .error why => (fromCache valid why, cache)
  | .ok id =>
    if valid.map (·.id) = some id then (fromCache valid "unchanged id".toList, cache)
    else
      match call.fetch with
      | .error error => (fromCache valid ("policy fetch failed: ".toList ++ error), cache)
      | .ok body =>
        match parsePolicy js body with
        | .error error => (fromCache valid ("invalid policy: ".toList ++ error), cache)
        | .ok policy =>
          -- an error of `cache.set` is caught: this attempt still has the fresh policy
          let stored := if call.unstored then cache
            else cache.set js name (entryFor id policy call.now)
          (.policy id policy .fetched, stored)

/-- The cache after the calls, one after the other. -/
def lookups (cache : Cache) (calls : List Call) : Cache :=
  calls.foldl (fun cache call => (lookupMtaSts js cache call).2) cache

/-! ## 3. What a lookup can do -/

/-- Where the cache keeps what it knows of the domain of the call. -/
def Call.key (call : Call) : Mime.Text := bare js (bare js call.domain)

/-- The call fetches this policy: the TXT record names the id, it is not the id of a
valid policy that the call has read in the cache, and what is fetched parses. -/
structure Fetches (cache : Cache) (call : Call) (id : Mime.Text) (policy : MtaStsPolicy) :
    Prop where
  named : txtId js call.txt = .ok id
  changed : ∀ entry, valid js cache call = some entry → entry.id ≠ id
  parsed : ∃ body, call.fetch = .ok body ∧ parsePolicy js body = .ok policy
  result : (lookupMtaSts js cache call).1 = .policy id policy .fetched
  stored : (lookupMtaSts js cache call).2
    = if call.unstored then cache else cache.set js (bare js call.domain)
      (entryFor id policy call.now)

variable {js} {cache : Cache} {call : Call}

/-- **The three ways a lookup ends.** -/
theorem lookupMtaSts_cases (js : Platform) (cache : Cache) (call : Call) :
    (∃ id policy, Fetches js cache call id policy)
      ∨ (∃ why, lookupMtaSts js cache call = (fromCache (valid js cache call) why, cache)) := by
  rcases htxt : txtId js call.txt with why | id
  · refine .inr ⟨why, ?_⟩
    unfold lookupMtaSts
    rw [htxt]
  by_cases hsame : (valid js cache call).map (·.id) = some id
  · refine .inr ⟨"unchanged id".toList, ?_⟩
    unfold lookupMtaSts
    simp only [htxt, if_pos hsame]
  rcases hfetch : call.fetch with error | body
  · refine .inr ⟨"policy fetch failed: ".toList ++ error, ?_⟩
    unfold lookupMtaSts
    simp only [htxt, if_neg hsame, hfetch]
  rcases hparse : parsePolicy js body with error | policy
  · refine .inr ⟨"invalid policy: ".toList ++ error, ?_⟩
    unfold lookupMtaSts
    simp only [htxt, if_neg hsame, hfetch, hparse]
  · have hresult : lookupMtaSts js cache call
        = (.policy id policy .fetched,
          if call.unstored then cache else cache.set js (bare js call.domain)
          (entryFor id policy call.now)) := by
      unfold lookupMtaSts
      simp only [htxt, if_neg hsame, hfetch, hparse]
    refine .inl ⟨id, policy, htxt, ?_, ⟨body, hfetch, hparse⟩, by rw [hresult], by rw [hresult]⟩
    rintro entry hvalid rfl
    rw [hvalid] at hsame
    exact hsame rfl

variable {id key : Mime.Text} {policy : MtaStsPolicy} {entry : CachedMtaStsPolicy}

/-- A lookup that says it has fetched has. -/
theorem fetches_of_result (h : (lookupMtaSts js cache call).1 = .policy id policy .fetched) :
    Fetches js cache call id policy := by
  rcases lookupMtaSts_cases js cache call with ⟨id', policy', hfetches⟩ | ⟨why, heq⟩
  · have hsame := hfetches.result.symm.trans h
    obtain ⟨rfl, rfl⟩ : id' = id ∧ policy' = policy := by simpa using hsame
    exact hfetches
  · rw [heq] at h
    unfold fromCache at h
    split at h
    · cases h
    · cases h

/-- A call that reads the cache finds the entry as long as it has not expired. -/
theorem valid_eq (h : cache (call.key js) = some entry) (hread : call.unread = false) :
    valid js cache call = if call.now < entry.expiresAt then some entry else none := by
  unfold valid Cache.get
  rw [← Call.key, h, hread]
  simp [Option.filter_some]

theorem set_self (entry : CachedMtaStsPolicy) :
    (cache.set js (bare js call.domain) entry) (call.key js) = some entry := if_pos rfl

theorem set_other (entry : CachedMtaStsPolicy) (h : call.key js ≠ key) :
    (cache.set js (bare js call.domain) entry) key = cache key := if_neg (Ne.symm h)

/-! ## 4. Sequences of lookups -/

variable (js) in
/-- One of the calls, made one after the other from `cache` on, has fetched this
policy for the key at the time `now`. -/
def FetchedBy (cache : Cache) (calls : List Call) (key id : Mime.Text) (policy : MtaStsPolicy)
    (now : ℕ) : Prop :=
  ∃ before call after, calls = before ++ call :: after ∧ call.key js = key ∧ call.now = now
    ∧ Fetches js (lookups js cache before) call id policy

theorem FetchedBy.cons {calls : List Call} {now : ℕ}
    (h : FetchedBy js (lookupMtaSts js cache call).2 calls key id policy now) :
    FetchedBy js cache (call :: calls) key id policy now := by
  obtain ⟨before, call', after, rfl, hkey, hnow, hfetches⟩ := h
  exact ⟨call :: before, call', after, rfl, hkey, hnow, hfetches⟩

theorem FetchedBy.append {calls more : List Call} {now : ℕ}
    (h : FetchedBy js cache calls key id policy now) :
    FetchedBy js cache (calls ++ more) key id policy now := by
  obtain ⟨before, call', after, rfl, hkey, hnow, hfetches⟩ := h
  exact ⟨before, call', after ++ more, by simp, hkey, hnow, hfetches⟩

/-- What is cached for a key is what was, or has been fetched since. -/
theorem lookups_entry (js : Platform) (calls : List Call) (cache : Cache)
    (h : cache key = some entry) :
    lookups js cache calls key = some entry
      ∨ ∃ id policy now, lookups js cache calls key = some (entryFor id policy now)
          ∧ FetchedBy js cache calls key id policy now := by
  induction calls generalizing cache entry with
  | nil => exact .inl h
  | cons call calls ih =>
    -- what is there after this call: the same entry, or the one it has fetched
    have hafter : (lookupMtaSts js cache call).2 key = some entry
        ∨ ∃ id policy, (lookupMtaSts js cache call).2 key = some (entryFor id policy call.now)
            ∧ FetchedBy js cache (call :: calls) key id policy call.now := by
      rcases lookupMtaSts_cases js cache call with ⟨id, policy, hfetches⟩ | ⟨why, heq⟩
      · have hstored := hfetches.stored
        split_ifs at hstored with hunstored
        · exact .inl (by rw [hstored]; exact h)
        by_cases hkey : call.key js = key
        · refine .inr ⟨id, policy, ?_, [], call, calls, rfl, hkey, rfl, hfetches⟩
          rw [hstored, ← hkey]
          exact set_self _
        · refine .inl ?_
          rw [hstored, set_other _ hkey]
          exact h
      · exact .inl (by rw [heq]; exact h)
    rcases hafter with hsame | ⟨id, policy, hnew, hby⟩
    · rcases ih (lookupMtaSts js cache call).2 hsame with hkeep | ⟨id, policy, now, hentry, hby⟩
      · exact .inl hkeep
      · exact .inr ⟨id, policy, now, hentry, hby.cons⟩
    · rcases ih (lookupMtaSts js cache call).2 hnew with hkeep | ⟨id', policy', now, hentry, hby'⟩
      · exact .inr ⟨id, policy, call.now, hkeep, hby⟩
      · exact .inr ⟨id', policy', now, hentry, hby'.cons⟩

/-- A platform for names in lower case. -/
def lowerOnly : Platform := ⟨fun text => text, fun text => text, fun text => text⟩

/-- The TXT record names `id`, and the policy that is served has this `max_age`. -/
def publishes (now : ℕ) (id maxAge : String) : Call where
  domain := "example.org".toList
  now := now
  txt := .ok ⟨0, [.txt ("v=STSv1; id=".toList ++ id.toList)]⟩
  fetch := .ok ("version: STSv1\nmode: enforce\nmx: mx.example.org\nmax_age: ".toList
    ++ maxAge.toList)

/-- The TXT record is gone, and nothing is served. -/
def stripped (now : ℕ) : Call where
  domain := "example.org".toList
  now := now
  txt := .ok ⟨3, []⟩
  fetch := .error "unreachable".toList

def noPolicies : Cache := fun _ => none

def enforced (maxAge : ℕ) : MtaStsPolicy := ⟨.enforce, ["mx.example.org".toList], maxAge⟩

end Postroom.Delivery.MtaSts
