import Shiroe.Policy.Approvals
import Shiroe.Capabilities.Store

/-!
# Onboarding

`capabilities/onboarding.py`: a source below the project root is inspected, registered, moved to
`inspected`, and put before a human.
-/

namespace Shiroe

open Act

variable (H : Host)

/-- `str.lower`, as far as it decides which characters are letters or digits of ASCII: of the
others only these two have one in their lower case. -/
def lowerChars (c : Char) : List Char :=
  if 'A' ≤ c ∧ c ≤ 'Z' then [Char.ofNat (c.toNat + 32)]
  else if c = 'İ' then ['i', Char.ofNat 0x307]
  else if c = 'K' then ['k']
  else [c]

/-- The characters that `[^a-z0-9]+` leaves. -/
def isSlugChar (c : Char) : Bool := ('a' ≤ c && c ≤ 'z') || ('0' ≤ c && c ≤ '9')

/-- `_ID_SAFE.sub("_", s)` and the removal of underscores at the front: the runs of other
characters become one underscore each. -/
def slugParts : List Char → List Char → List (List Char)
  | [], part => if part = [] then [] else [part]
  | c :: l, part =>
    if isSlugChar c then slugParts l (part ++ [c])
    else (if part = [] then [] else [part]) ++ slugParts l []

/-- `rel_path.stem or rel_path.name`. -/
def pathStem (path : String) : String :=
  let name := (pathName path).toList
  String.ofList (name.take (name.length - (suffix (pathName path)).toList.length))

/-- `_derive_capability_id`. -/
def deriveCapabilityId (rel : String) : String :=
  let parts := slugParts ((pathStem rel).toList.flatMap lowerChars) []
  "local." ++ if parts = [] then "capability" else String.ofList (List.intercalate ['_'] parts)

/-- The approval request of an onboarding. -/
def onboardingRequest (capabilityId : String) (digest : Json) : RequestArgs where
  approvalType := ApprovalType.capability.value
  requestedAction := "approve " ++ capabilityId
  scope := .mkObj [("capability_id", .str capabilityId), ("digest", digest)]
  reason := "onboarding"
  risk := "medium"
  actionKind := some "capability.approve"

/-- `onboard` of the source at a resolved path: the id of the capability and of the request. -/
def onboard (source : String) : Op (String × String) := do
  let w ← get
  match w.outside.source (relativize H source) with
  | none => throw (.onboarding ("capability source does not exist: " ++ source))
  | some found =>
    match relativeTo H source with
    | none =>
      throw (.onboarding ("capability source " ++ source ++ " is outside project root " ++
        "/" ++ joinPath H.root))
    | some rel =>
      let trust ← Act.ofExcept (inspectSource H found)
      let capabilityId := deriveCapabilityId rel
      let type := if found.isFile then "script" else "capability"
      let manifest ← Act.ofExcept
        (inferManifest rel found.relIsFile capabilityId (pathName rel) type)
      Act.ofExcept (validateManifest manifest)
      let i ← newLog
      registerOrRefresh H i capabilityId manifest rel trust
      setLifecycle H i (.str capabilityId) Lifecycle.inspected.value "onboarding"
      let row ← requireCapability H capabilityId
      let j ← newLog
      let approvalId ← requestApproval H j
        (onboardingRequest capabilityId row.currentDigest.read)
      return (capabilityId, approvalId)

end Shiroe
