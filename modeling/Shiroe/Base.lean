import Shiroe.Lib.JsonTokens
import Shiroe.Lib.Act
import Shiroe.Lib.Sha256

/-!
# What the program takes from outside, and what it raises

`Host` collects what the modelled code reads from its surroundings: the hash function, the
redaction pass under the project's `REDACT.md`, the wall clock, `uuid4`, and two conversions of
the SQLite driver.  Every definition that uses one of them takes the host as its first argument,
and no theorem assumes more of it than its statement says.

`Exc` lists the exceptions, each with the data its message is built from.
-/

namespace Shiroe

/-- The text starts like an ISO date: four characters, a dash, at least two more characters. -/
def IsoText (s : String) : Prop := 7 ≤ s.toList.length ∧ s.toList[4]? = some '-'

instance (s : String) : Decidable (IsoText s) := inferInstanceAs (Decidable (_ ∧ _))

/-- The text is ASCII. -/
def Ascii (s : String) : Prop := ∀ c ∈ s.toList, c.toNat < 128

instance (s : String) : Decidable (Ascii s) := inferInstanceAs (Decidable (∀ c ∈ s.toList, _))

/-- What the program reads from its surroundings. -/
structure Host where
  /-- `hashlib.sha256(data).digest()`. -/
  digest : List UInt8 → List UInt8
  digest_length : ∀ data, (digest data).length = 32
  /-- The readings of `datetime.now(timezone.utc).isoformat(timespec="seconds")`, in order. -/
  clock : ℕ → String
  clock_iso : ∀ n, IsoText (clock n)
  clock_ascii : ∀ n, Ascii (clock n)
  /-- The values of `uuid.uuid4().hex`, in the order they are drawn. -/
  uuid : ℕ → String
  uuid_ascii : ∀ n, Ascii (uuid n)
  /-- A Python string may hold lone surrogates, which have no UTF-8 form: whether the string
  that is carried by this text can be encoded. -/
  encodes : String → Bool
  encodes_append : ∀ s t, encodes (s ++ t) = (encodes s && encodes t)
  encodes_ascii : ∀ s, Ascii s → encodes s = true
  /-- The text that `shiroe.privacy.scrub` returns under the project's `REDACT.md`. -/
  scrub : String → String
  /-- The pass folds characters and puts in replacement texts, none of them a surrogate. -/
  scrub_encodes : ∀ s, encodes s = true → encodes (scrub s) = true
  /-- The parts of the absolute path of the project root. -/
  root : List String
  /-- The text a TEXT column keeps for a float. -/
  realText : PyFloat → String
  /-- The number `float(s)` reads from a text, if it reads one. -/
  parseFloat : String → Option ℚ

namespace Host

variable (H : Host)

/-- `hashlib.sha256(text.encode("utf-8")).hexdigest()`. -/
def sha256 (text : List Char) : String := hex (H.digest (utf8 text))

/-- A digest has 64 hexadecimal digits. -/
theorem sha256_length (text : List Char) : (H.sha256 text).toList.length = 64 := by
  rw [sha256, length_hex, H.digest_length]

theorem sha256_ascii (text : List Char) : Ascii (H.sha256 text) := ascii_hex _

variable {H}

/-- A text can be encoded exactly if each of its characters can. -/
theorem encodes_iff {s : String} :
    H.encodes s = true ↔ ∀ c ∈ s.toList, H.encodes (String.singleton c) = true := by
  obtain ⟨l, rfl⟩ : ∃ l, s = String.ofList l := ⟨s.toList, String.ofList_toList.symm⟩
  rw [String.toList_ofList]
  induction l with
  | nil => simpa using H.encodes_ascii _ fun _ h => absurd h List.not_mem_nil
  | cons c l ih =>
    have happend : String.ofList (c :: l) = String.singleton c ++ String.ofList l := by
      apply String.toList_injective
      simp
    rw [happend, H.encodes_append, Bool.and_eq_true, ih, List.forall_mem_cons]

theorem encodes_singleton_of_ascii {c : Char} (h : c.toNat < 128) :
    H.encodes (String.singleton c) = true := by
  refine H.encodes_ascii _ fun d hd => ?_
  rw [String.toList_singleton, List.mem_singleton] at hd
  rwa [hd]

/-- The canonical text of a value can be encoded if its strings can. -/
theorem encodes_dumps {ascii : Bool} {j : Json}
    (h : ∀ c ∈ j.chars, H.encodes (String.singleton c) = true) :
    H.encodes (String.ofList (j.dumps ascii)) = true := by
  refine encodes_iff.2 fun c hc => ?_
  rw [String.toList_ofList] at hc
  rcases Json.mem_dumps ascii j hc with hc | hc
  · exact encodes_singleton_of_ascii hc
  · exact h c hc

end Host

/-- A host for runs on concrete inputs: the clock stands still and the ids count up. -/
def Host.plain (scrub : String → String) : Host where
  digest := Sha256.digest
  digest_length := Sha256.length_digest
  clock _ := "2026-01-01T00:00:00+00:00"
  clock_iso _ := by decide
  clock_ascii _ := by decide
  uuid n := String.ofList (Sha256.hexWord n ++ (List.replicate 24 '0'))
  uuid_ascii n := by
    intro c hc
    rw [String.toList_ofList, List.mem_append] at hc
    rcases hc with hc | hc
    · exact Sha256.ascii_hexWord hc
    · rw [List.eq_of_mem_replicate hc]
      decide
  encodes _ := true
  encodes_append _ _ := rfl
  encodes_ascii _ _ := rfl
  scrub := scrub
  scrub_encodes _ _ := rfl
  root := ["srv", "project"]
  realText x := x.repr
  parseFloat _ := none

/-- A host for longer runs, with a hash that keeps the first 32 bytes.  Such a run compares hashes
of equal texts, and of sources that differ in these bytes; what it does is what it does under
SHA-256. -/
def Host.quick (scrub : String → String) : Host :=
  { Host.plain scrub with
    digest := fun data => (data ++ List.replicate 32 0).take 32
    digest_length := fun _ => by simp }

/-- Why SQLite rejects a statement. -/
inductive Constraint where
  /-- A NOT NULL column would hold NULL. -/
  | notNull (table column : String)
  /-- A foreign key would name no row. -/
  | foreignKey (table column : String)
  deriving DecidableEq

/-- What `validate_manifest` finds wrong. -/
inductive ManifestProblem where
  | wrongSchema (got : Json)
  | missingField (field : String)
  | unknownType (got : Json)
  | notObject (field : String)
  | requiredField (field : String)
  /-- The entrypoint has no command, callable or url. -/
  | noEntrypoint
  deriving DecidableEq

/-- Why a capability may not be executed. -/
inductive GateProblem where
  | unknownCapability (capabilityId : String)
  | notExecutable (capabilityId lifecycle : String)
  | noVersion (capabilityId : String)
  | sourceGone (capabilityId location : String)
  /-- The source has changed. -/
  | snappedBack (capabilityId lifecycle : String)
  | noManifest (capabilityId : String)
  | noAdapter (capabilityId : String)
  /-- `AdapterNotFoundError`. -/
  | adapterNotFound (name : String)
  | unhealthy (adapter : String) (reason : Option String)
  /-- The adapter enforces neither embedded nor as a sidecar. -/
  | notEnforced (adapter : String)
  deriving DecidableEq

/-- The exceptions. -/
inductive Exc where
  /-- A Python `KeyError`. -/
  | keyError (key : String)
  /-- A Python `TypeError`. -/
  | typeError
  /-- A Python `AttributeError`. -/
  | attributeError
  /-- A Python `ValueError`. -/
  | valueError (message : String)
  /-- `json.JSONDecodeError`: a text is not JSON. -/
  | jsonDecode (text : String)
  /-- `LockError`: another writer holds `memory/.lock`. -/
  | lockHeld
  /-- An operation of the file system failed. -/
  | osError
  /-- `EventValidationError`: a required field is missing. -/
  | missingField (field : String)
  /-- `EventValidationError`: the schema is not the one expected. -/
  | wrongSchema (got : Json)
  /-- `EventValidationError`: the privacy class is not allowed. -/
  | wrongPrivacyClass (got : Json)
  /-- `EventValidationError`: the payload is not an object. -/
  | payloadNotObject
  /-- `EventValidationError`: the event type is not registered. -/
  | unknownEventType (got : Json)
  /-- `HashChainError`: an event does not name the event before it. -/
  | chainBreak (eventId previousHash : Json) (expected : String)
  /-- `HashChainError`: an event does not have the hash it states. -/
  | hashMismatch (eventId stored : Json) (recomputed : String)
  /-- `HashChainError`: `head.json` names an event the log does not hold. -/
  | headAbsent (stored : String)
  /-- `HashChainError`: `head.json` does not name the last event. -/
  | headMismatch (declared last : String)
  /-- `sqlite3.IntegrityError`. -/
  | integrityError (violated : Constraint)
  /-- `OverflowError`: an integer does not fit a SQLite integer. -/
  | intOverflow (n : ℤ)
  /-- `OverflowError`: an infinite float has no integer part. -/
  | infiniteFloat
  /-- `sqlite3.ProgrammingError`: a list or a dict was bound to a parameter. -/
  | unsupportedType
  /-- `UnicodeEncodeError`: a string with lone surrogates was bound to a parameter or hashed. -/
  | unicodeEncode (s : String)
  /-- `write_record` was given fields that a record does not have. -/
  | unknownRecordFields (names : List String)
  /-- `AuthorizationError`: an approval was decided by someone who is not human. -/
  | notHuman
  /-- A `PermissionError` of the policy. -/
  | denied (reason : String)
  /-- `InvalidTransition`: the capability cannot move between the states. -/
  | invalidTransition (capabilityId current target : String)
  /-- `ManifestError`. -/
  | manifest (problem : ManifestProblem)
  /-- `OnboardingError`. -/
  | onboarding (message : String)
  /-- `CapabilityGateError`. -/
  | capabilityGate (problem : GateProblem)
  /-- `WorkGraphError`; without a message where it repeats one of the interpreter. -/
  | workGraph (message : Option String)
  /-- `ConcurrentWorkUpdate`: a node was not in the state that the caller read. -/
  | concurrentWorkUpdate (nodeId : String)
  /-- A Python `RuntimeError`. -/
  | runtimeError (message : String)
  /-- The process dies. -/
  | killed
  deriving DecidableEq

/-! ### Pieces of Python -/

/-- `s[a:b]` for `a ≤ b`. -/
def slice (s : String) (a b : ℕ) : String := String.ofList ((s.toList.drop a).take (b - a))

/-- The characters `str.strip` removes. -/
def isSpace (c : Char) : Bool :=
  (9 ≤ c.toNat && c.toNat ≤ 13) || (28 ≤ c.toNat && c.toNat ≤ 32) ||
    (8192 ≤ c.toNat && c.toNat ≤ 8202) ||
    [133, 160, 5760, 8232, 8233, 8239, 8287, 12288].contains c.toNat

/-- `s.strip()`. -/
def strip (s : String) : String :=
  String.ofList (((s.toList.dropWhile isSpace).reverse.dropWhile isSpace).reverse)

/-- `timestamp or …`, `x or None`: the text given, if it is one and not empty. -/
def given (t : Option String) : Option String := t.filter (· ≠ "")

/-- `not s.strip()`. -/
def blank (s : String) : Bool := s.toList.all isSpace

/-- `s.startswith(p)`. -/
def startsWith (s p : String) : Bool := p.toList.isPrefixOf s.toList

/-- `s[len(p):]`. -/
def removePrefix (s p : String) : String := String.ofList (s.toList.drop p.toList.length)

/-- The number that a run of decimal digits stands for. -/
def ofDigits (l : List Char) : ℕ := l.foldl (fun n c => 10 * n + (c.toNat - '0'.toNat)) 0

/-- The number that a finite float is, read off its `repr`. -/
def PyFloat.value (x : PyFloat) : ℚ :=
  let (sign, l) : ℚ × List Char :=
    match x.repr.toList with
    | '-' :: l => (-1, l)
    | l => (1, l)
  let mantissa := l.takeWhile (· ≠ 'e')
  let whole := mantissa.takeWhile (· ≠ '.')
  let part := (mantissa.dropWhile (· ≠ '.')).drop 1
  let m : ℚ := sign * ofDigits (whole ++ part) / (10 ^ part.length : ℕ)
  match (l.dropWhile (· ≠ 'e')).drop 1 with
  | '-' :: l => m / (10 ^ ofDigits l : ℕ)
  | '+' :: l => m * (10 ^ ofDigits l : ℕ)
  | l => m * (10 ^ ofDigits l : ℕ)

/-- `d.get(k, default)`: the default counts only for a missing key. -/
def Json.getD (d : Json) (k : String) (default : Json) : Json :=
  if d.has k then d.get k else default

/-- `iter(x)` for a JSON value. -/
def Json.items : Json → Except Exc (List Json)
  | .arr l => .ok l
  | .obj d => .ok (d.map fun kv => .str kv.1)
  | .str s => .ok (s.toList.map fun c => .str (String.singleton c))
  | _ => .error .typeError

/-- `x[k]` for a string key. -/
def Json.item (x : Json) (k : String) : Except Exc Json :=
  match x with
  | .obj _ => if x.has k then .ok (x.get k) else .error (.keyError k)
  | _ => .error .typeError

/-- A value that is used as a dict: `x.get` on anything else is an `AttributeError`. -/
def Json.dict (x : Json) : Except Exc Json :=
  if x.isObj then .ok x else .error .attributeError

/-- `d[k] = v` in a copy of a dict. -/
def Json.set (x : Json) (k : String) (v : Json) : Json :=
  match x with
  | .obj d => .obj (Json.dictInsert k v d)
  | j => j

/-- An item of a sequence that `dict` reads as a key and a value.  The keys of a `Json` object are
texts, so that an item with another key, which `dict` would take, is refused. -/
def Json.pair : Json → Except Exc (String × Json)
  | .arr [.str k, v] => .ok (k, v)
  | .obj [(k, _), (v, _)] => .ok (k, .str v)
  | .str s =>
    match s.toList with
    | [k, v] => .ok (String.singleton k, .str (String.singleton v))
    | _ => .error (.valueError "dictionary update sequence element has the wrong length")
  | _ => .error .typeError

/-- `dict(x)`. -/
def Json.toDict : Json → Except Exc Json
  | .obj d => .ok (.obj d)
  | .arr l => do return .mkObj (← l.mapM Json.pair).reverse
  | .str "" => .ok (.mkObj [])
  | .str _ => .error (.valueError
    "dictionary update sequence element #0 has length 1; 2 is required")
  | _ => .error .typeError

theorem Json.isObj_toDict {x d : Json} (h : x.toDict = .ok d) : d.isObj = true := by
  unfold Json.toDict at h
  split at h
  · cases h
    rfl
  · rename_i l
    cases hl : l.mapM Json.pair with
    | error e =>
      rw [hl] at h
      cases h
    | ok fields =>
      rw [hl] at h
      cases h
      rfl
  · cases h
    rfl
  · cases h
  · cases h

/-- A list of strings as a JSON value. -/
def Json.strs (l : List String) : Json := .arr (l.map .str)

/-- The path starts at the root. -/
def isAbsolute (path : String) : Bool := path.toList.head? = some '/'

/-- `repr(s)`: the text in quotes, with the escapes for quotes and control characters. -/
def pyRepr (s : String) : String :=
  let quote := if s.toList.contains '\'' && !s.toList.contains '"' then '"' else '\''
  let escape (c : Char) : List Char :=
    if c = quote || c = '\\' then ['\\', c]
    else if c = '\n' then ['\\', 'n']
    else if c = '\r' then ['\\', 'r']
    else if c = '\t' then ['\\', 't']
    else if c.toNat < 32 || c.toNat = 127 then
      ['\\', 'x', (c.toNat / 16).digitChar, (c.toNat % 16).digitChar]
    else [c]
  String.ofList (quote :: s.toList.flatMap escape ++ [quote])

end Shiroe
