import Mathlib.Tactic.TypeStar
import Mathlib.Tactic.Lemma

/-!
# Types of the policy engine

Actions, layers, verdicts and autonomy modes, with the texts their enumerations carry.
-/

namespace Shiroe

/-- What an action does. -/
inductive ActionKind where
  | fsRead | fsWrite | fsDelete | network | secretRead | subprocess | externalWrite | destructive
  | memoryWrite | eventWrite | push | merge | publish | externalMessage | permissionChange
  | budgetEscalation | dependencyAdd | capabilityInvoke
  deriving DecidableEq, Repr

/-- The text of an action kind. -/
def ActionKind.value : ActionKind → String
  | fsRead => "fs.read"
  | fsWrite => "fs.write"
  | fsDelete => "fs.delete"
  | network => "network"
  | secretRead => "secret.read"
  | subprocess => "subprocess"
  | externalWrite => "external.write"
  | destructive => "destructive"
  | memoryWrite => "memory.write"
  | eventWrite => "event.write"
  | push => "vcs.push"
  | merge => "vcs.merge"
  | publish => "publish"
  | externalMessage => "external.message"
  | permissionChange => "permission.change"
  | budgetEscalation => "budget.escalation"
  | dependencyAdd => "dependency.add"
  | capabilityInvoke => "capability.invoke"

/-- The verdict on an action. -/
inductive Verdict where
  | allow | deny | requireApproval
  deriving DecidableEq, Repr

/-- A verdict with its reason and the layer it comes from. -/
structure Decision where
  verdict : Verdict
  reason : String
  decidingLayer : String
  deriving DecidableEq

/-- A layer of the policy stack. -/
structure PolicyLayer where
  name : String
  denies : List ActionKind := []
  allows : List ActionKind := []
  fsWriteScopes : List String := []
  fsReadScopes : List String := []
  networkHosts : List String := []
  deriving DecidableEq

/-- How much a run may do without asking. -/
inductive AutonomyMode where
  | suggest | autoSafe | policyBound
  deriving DecidableEq, Repr

/-- The text of an autonomy mode. -/
def AutonomyMode.value : AutonomyMode → String
  | suggest => "suggest"
  | autoSafe => "auto-safe"
  | policyBound => "policy-bound"

end Shiroe
