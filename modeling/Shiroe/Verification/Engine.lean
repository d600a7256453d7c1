import Shiroe.Memory.Service

/-!
# The verification engine

`verification/engine.py` and `verification/claims.py`: the checks that a proposed memory record
passes before it is stored.  The check for contradictions reads the active records of the project;
the others read the proposal alone.
-/

namespace Shiroe

/-- What the checks take from outside: `str.lower`, the classes that the redaction pass reports for
a text, and the text of an exception. -/
structure TextTools where
  lower : String → String
  classesHit : String → List String
  excText : Exc → String

/-- What the checks take from outside for ASCII texts that hold nothing sensitive. -/
def TextTools.ascii : TextTools where
  lower s := s.map Char.toLower
  classesHit _ := []
  excText _ := ""

/-- `CheckStatus`. -/
inductive CheckStatus where
  | passed | warn | block
  deriving DecidableEq, Repr

/-- `VerificationFinding`. -/
structure Finding where
  code : String
  message : String
  severity : CheckStatus
  deriving DecidableEq

/-! ### Texts -/

/-- `sub in s`. -/
def containsText (s sub : String) : Bool := s.toList.tails.any sub.toList.isPrefixOf

/-- `s.endswith(sub)`. -/
def endsWith (s sub : String) : Bool := sub.toList.isSuffixOf s.toList

/-- `s.rstrip(".")`. -/
def dropDots (s : String) : String :=
  String.ofList (s.toList.reverse.dropWhile (· = '.')).reverse

/-- `" ".join(s.split())`. -/
def joinWords (s : String) : String :=
  " ".intercalate (((s.toList.splitOnP isSpace).filter (· ≠ [])).map String.ofList)

/-- `s.replace(old, new, 1)` on the characters. -/
def replaceFirst (old new : List Char) : List Char → List Char
  | [] => if old = [] then new else []
  | c :: s =>
    if old.isPrefixOf (c :: s) then new ++ (c :: s).drop old.length
    else c :: replaceFirst old new s

variable (T : TextTools)

/-! ### Opposition -/

/-- The polarity of a claim. -/
inductive Polarity where
  | positive | negative
  deriving DecidableEq, Repr

/-- The terms that oppose each other, in the order in which they are looked for. -/
def oppositionTerms : List (String × Polarity) :=
  [("enabled", .positive), ("disabled", .negative), ("allowed", .positive), ("denied", .negative),
    ("on", .positive), ("off", .negative), ("true", .positive), ("false", .negative)]

/-- `_opposition_key`. -/
def oppositionKey (claim : String) : Option (String × Polarity) :=
  let lowered := joinWords (dropDots (strip (T.lower claim)))
  (oppositionTerms.find? fun t =>
      endsWith lowered (" " ++ t.1) || containsText lowered (" " ++ t.1 ++ " ")).map fun t =>
    (String.ofList (replaceFirst (" " ++ t.1).toList " <state>".toList lowered.toList), t.2)

/-- Two keys name one subject with opposite polarity. -/
def Opposed (a b : Option (String × Polarity)) : Prop :=
  ∃ subject p q, a = some (subject, p) ∧ b = some (subject, q) ∧ p ≠ q

instance (a b : Option (String × Polarity)) : Decidable (Opposed a b) :=
  match a, b with
  | some (s, p), some (t, q) =>
    decidable_of_iff (s = t ∧ p ≠ q)
      ⟨by rintro ⟨rfl, h⟩; exact ⟨s, p, q, rfl, rfl, h⟩,
        by rintro ⟨_, _, _, ha, hb, h⟩; cases ha; cases hb; exact ⟨rfl, h⟩⟩
  | none, _ => isFalse (by rintro ⟨_, _, _, ha, -, -⟩; cases ha)
  | some _, none => isFalse (by rintro ⟨_, _, _, -, hb, -⟩; cases hb)

/-! ### Claims -/

/-- `BLOCKED_PATTERNS`. -/
def blockedPatterns : List (String × List String) :=
  [("unsupported_superlative", ["is the best", "best-in-class", "beats every", "beats all"]),
    ("benchmark_claim", ["10/10 on all benchmarks", "scores 10/10", "leaderboard"]),
    ("production_ready", ["production-ready", "production proven", "production-proven"]),
    ("success_without_evidence",
      ["all gates pass", "all checks pass", "fully verified", "unsupported claim"])]

/-- `matched_claim_category`; the category `""` is none. -/
def matchedClaimCategory (claim : String) : Option String :=
  (blockedPatterns.find? fun p => p.2.any (containsText (T.lower claim))).map (·.1)

/-- `classify_claim(...) == "user_provided_fact"`. -/
def isUserProvidedFact (claim : String) (sourceRefs : List String) : Bool :=
  (matchedClaimCategory T (T.lower claim)).isNone &&
    !(["unknown", "assume", "assumption", "likely", "maybe"].any (containsText (T.lower claim))) &&
    sourceRefs.isEmpty

/-- `_looks_factual`. -/
def looksFactual (claim : String) : Bool :=
  [" is ", " has ", " supports ", " ships ", " passes "].any (containsText (T.lower claim))

/-! ### The checks -/

/-- `_check_write_shape`. -/
def checkWriteShape (p : MemoryWrite) : List Finding :=
  ([("kind", p.kind), ("title", p.title), ("claim", p.claim)].filter fun f => blank f.2).map
    fun f => ⟨f.1 ++ "_required", f.1 ++ " is required.", .block⟩

/-- `_check_privacy`. -/
def checkPrivacy (p : MemoryWrite) : List Finding :=
  (if p.privacyClass ∈ ["secret", "do_not_store"] then
    [⟨"privacy_class_blocked", "privacy_class `" ++ p.privacyClass ++ "` cannot be stored.",
      .block⟩]
  else []) ++
  let hits := T.classesHit p.claim
  if hits.any fun c => c = "credentials" || startsWith c "credentials_" then
    [⟨"credential_shaped_claim", "The memory claim contains credential-shaped material.", .block⟩]
  else if hits ≠ [] then
    [⟨"sensitive_claim", "The memory claim contains sensitive material.", .warn⟩]
  else []

/-- `_check_evidence`. -/
def checkEvidence (p : MemoryWrite) : List Finding :=
  (if p.kind ∉ ["unknown", "assumption"] ∧ p.sourceRefs = [] then
    [⟨"source_refs_required", "Factual or decision-like memory requires source_refs.", .block⟩]
  else []) ++
  if p.evidenceGrade ∈ ["D", "F"] then
    [⟨"weak_evidence_grade",
      "Evidence grade " ++ p.evidenceGrade ++ " is weak for durable memory.", .warn⟩]
  else []

/-- `_check_claims`. -/
def checkClaims (p : MemoryWrite) : List Finding :=
  match matchedClaimCategory T p.claim with
  | some category => [⟨category, p.claim, .block⟩]
  | none =>
    if isUserProvidedFact T p.claim p.sourceRefs && looksFactual T p.claim then
      [⟨"missing_source_ref", p.claim, .warn⟩]
    else []

/-- The finding that a claim contradicts a record. -/
def contradictionFinding (id : String) : Finding where
  code := "contradiction_detected"
  message := "Claim contradicts active memory " ++ id ++ "; human arbitration is required."
  severity := .block

variable (H : Host)

/-- `_check_contradictions`. -/
def contradictions (db : Db) (p : MemoryWrite) : List Finding :=
  if oppositionKey T p.claim = none then []
  else
    match db.listMemory H {} with
    | .ok records =>
      (records.filter fun m => Opposed (oppositionKey T p.claim) (oppositionKey T m.claim)).map
        fun m => contradictionFinding m.id
    | .error x =>
      [⟨"contradiction_check_failed",
        "Contradiction check could not complete: " ++ T.excText x, .block⟩]

/-- The checks that read the proposal alone. -/
def ownFindings (p : MemoryWrite) : List Finding :=
  checkWriteShape p ++ checkPrivacy T p ++ checkEvidence p ++ checkClaims T p

/-- `_verify_write`: the messages of the blocking findings, if there are any. -/
def verifyWrite (db : Db) (p : MemoryWrite) : Option String :=
  let blocking := (ownFindings T p ++ contradictions T H db p).filter (·.severity = .block)
  if blocking = [] then none
  else
    let text := "; ".intercalate (blocking.map (·.message))
    some (if text = "" then "verification blocked memory write" else text)

/-- `MemoryService.write` after the gate: the record and the record read back, or the rejection. -/
def storeProposal (i : ℕ) (p : MemoryWrite) : Option String → Op MemoryRecord
  | some reason => do
    let _ ← append H i (rejectedEvent p reason) none
    throw (.valueError reason)
  | none => do
    let id ← uuidHex H
    let sources ← proposalSources H p.sourceRefs
    let _ ← writeRecord H i (proposalRecord p id sources)
    getMemory H ("mem_" ++ slice id 0 16)

/-- The gate of `MemoryService.write`: `_validate_write(proposal) or _verify_write(...)`. -/
def gateReason (db : Db) (p : MemoryWrite) : Option String :=
  validateWrite p <|> verifyWrite T H db p

/-- `MemoryService.write`. -/
def writeProposal (i : ℕ) (p : MemoryWrite) : Op MemoryRecord := do
  let w ← get
  storeProposal H i p (gateReason T H w.db p)

end Shiroe
