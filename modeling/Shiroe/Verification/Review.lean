import Shiroe.Capabilities.Gate
import Shiroe.Lib.JsonRead
import Shiroe.Verification.Engine
import Shiroe.Work.Schema

/-!
# Independent reviews

`verification/review.py`: a capability other than the executor reviews what the executor has
produced, and answers with a verdict.
-/

namespace Shiroe

open Act

variable (H : Host)

/-! ### Calls of adapters -/

/-- Call an adapter, and take what it answers. -/
def invokeAdapter : Op AdapterResult := fun w =>
  match w.outside.answer w.calls with
  | .ok result => .ok result { w with calls := w.calls + 1 }
  | .error e => .error e { w with calls := w.calls + 1 }

/-- The adapter that the latest manifest of a capability names. -/
def adapterEntry (capabilityId : String) : Op Json := do
  match ← latestVersion H capabilityId with
  | none => throw (.capabilityGate (.noManifest capabilityId))
  | some version =>
    let manifest ← Act.ofExcept version.manifest.loads
    let entrypoint ← Act.ofExcept (manifest.item "entrypoint")
    Act.ofExcept (entrypoint.item "adapter")

/-- `resolve_adapter`; `AdapterNotFoundError` is a `KeyError`. -/
def resolveAdapter (name : Json) : Op Unit := do
  let w ← get
  match name with
  | .str name => if (w.outside.adapter name).isNone then throw (.keyError name)
  -- a list or a dict has no hash; no adapter is registered under anything else
  | .arr _ => throw .typeError
  | .obj _ => throw .typeError
  | j => throw (.keyError (pyStr j))

/-- The id of a capability, where it is a text. -/
def capabilityText : Json → Except Exc String
  | .str s => .ok s
  | _ => .error .typeError

/-! ### The answer -/

/-- `str(x)`. -/
def Json.pyText : Json → String
  | .str s => s
  | j => j.pyRepr

/-- Leave out the blanks between the tokens of a JSON text. -/
def withoutBlanks : Bool → List Char → List Char
  | _, [] => []
  | false, c :: s =>
    if Json.isBlank c then withoutBlanks false s else c :: withoutBlanks (c = '"') s
  | true, '\\' :: c :: s => '\\' :: c :: withoutBlanks true s
  | true, c :: s => c :: withoutBlanks (c ≠ '"') s

/-- `json.loads` of a text that holds an object. -/
def loadsObject (s : String) : Except Exc Json :=
  match Json.scan s.toList with
  | none => .error (.jsonDecode s)
  | some .object =>
    match Json.loads (withoutBlanks false s.toList) with
    | some j => .ok j
    | none => .error (.jsonDecode s)
  | some _ => .error (.valueError "independent review output must be a JSON object")

/-- `_parse_payload`. -/
def parsePayload : Json → Except Exc Json
  | .obj d => .ok (.obj d)
  | .str s => loadsObject s
  | _ => .error (.valueError "independent review output must be a JSON object")

/-- `_VERDICTS`. -/
def reviewVerdicts : List String := ["pass", "revise", "block"]

/-- `_status_for_verdict`. -/
def statusForVerdict (verdict : String) (required : Bool) : CheckStatus :=
  if verdict = "pass" then .passed
  else if verdict = "block" then .block
  else if required then .block
  else .warn

/-- The payload lists findings. -/
def listsFindings (payload : Json) : Bool :=
  match payload.get "findings" with
  | .arr l => !l.isEmpty
  | _ => false

/-- What a review says.  Of `_findings` only the part that can fail is here: a review that does not
pass and lists no findings has its evidence gaps read. -/
def reviewStatus (payload : Json) (required : Bool) : Except Exc CheckStatus := do
  let verdict := ((payload.get "verdict").orElse (.str "")).pyText
  if reviewVerdicts.contains verdict = false then
    .error (.valueError ("unknown independent review verdict: " ++ pyRepr verdict))
  else
    let status := statusForVerdict verdict required
    if listsFindings payload = false ∧ status ≠ .passed then do
      let _ ← ((payload.get "evidence_gaps").orElse (.arr [])).items
    return status

/-- `run_independent_review`: the status of the check. -/
def runIndependentReview (executor reviewer : Json) (required : Bool) : Op CheckStatus := do
  if executor = reviewer then
    throw (.valueError
      "independent review requires a reviewer capability distinct from the executor")
  else do
    let reviewer ← Act.ofExcept (capabilityText reviewer)
    assertExecutable H reviewer
    let name ← adapterEntry H reviewer
    resolveAdapter (.str name.pyText)
    let result ← invokeAdapter
    if result.ok = false then return .block
    else do
      let payload ← Act.ofExcept (parsePayload result.output)
      Act.ofExcept (reviewStatus payload required)

end Shiroe
