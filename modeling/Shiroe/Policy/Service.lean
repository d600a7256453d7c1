import Shiroe.Policy.Approvals
import Shiroe.Policy.Engine

/-!
# The policy service

`policy/service.py`: an action that needs an approval is allowed or denied by the latest request for
its exact scope, and where there is none, a request is made.
-/

namespace Shiroe

open Act

variable (H : Host)

/-- `AuthorizationResult`. -/
structure AuthorizationResult where
  verdict : Verdict
  reason : String
  decidingLayer : String
  approvalId : Option String := none
  deriving DecidableEq

namespace Action

variable (a : Action)

/-- The scope that a request for the action is bound to; `context` is `action.context`. -/
def currentScope (context scope : Json) : Json :=
  scope.orElse (.mkObj [("target", .str a.target), ("context", context.orElse (.mkObj []))])

/-- `action.target or action.kind.value`. -/
def requested : String := if a.target = "" then a.kind.value else a.target

/-- The risk of a request for the action. -/
def risk : String :=
  if [ActionKind.publish, .push, .merge, .destructive, .fsDelete].contains a.kind then "high"
  else "medium"

/-- The keys that a request for the action is looked up by. -/
def matchKey (graphId nodeId : Option String) (digest : String) : MatchKey where
  graphId := graphId
  nodeId := nodeId
  actionKind := some a.kind.value
  requestedAction := a.requested
  digest := digest

/-- A request for the action. -/
def requestArgs (graphId nodeId : Option String) (scope : Json) (reason : String) :
    RequestArgs where
  approvalType := ApprovalType.action.value
  requestedAction := a.requested
  scope := scope
  reason := reason
  risk := a.risk
  graphId := graphId
  nodeId := nodeId
  actionKind := some a.kind.value

end Action

/-- What an earlier request says about a decision that asks for approval. -/
def resultOfPrior (decision : Decision) (prior : ApprovalRequest) : AuthorizationResult :=
  match prior.status with
  | .approved =>
    { verdict := .allow
      reason := "human-approved: " ++ (given prior.decisionReason).getD "approved"
      decidingLayer := decision.decidingLayer
      approvalId := some prior.id }
  | .rejected =>
    { verdict := .deny
      reason := "human-rejected: " ++ (given prior.decisionReason).getD "rejected"
      decidingLayer := decision.decidingLayer
      approvalId := some prior.id }
  | status =>
    { verdict := decision.verdict
      reason := "awaiting human decision (" ++ status.value ++ ")"
      decidingLayer := decision.decidingLayer
      approvalId := some prior.id }

/-- `PolicyService.authorize`; `i` is the log of the approval service, `context` the context of the
action. -/
def authorize (i : ℕ) (a : Action) (context : Json) (graphId nodeId : Option String) (scope : Json)
    (mode : AutonomyMode) : Op AuthorizationResult := do
  let w ← get
  let decision := evaluate a w.outside.policy mode
  if decision.verdict ≠ .requireApproval then
    return {
      verdict := decision.verdict
      reason := decision.reason
      decidingLayer := decision.decidingLayer }
  else do
    let scope ← Act.ofExcept (a.currentScope context scope).toDict
    let digest ← Act.ofExcept (scopeDigest H scope)
    match ← readDb (·.findLatestMatching H (a.matchKey graphId nodeId digest)) with
    | some prior => return resultOfPrior decision prior
    | none =>
      let id ← requestApproval H i (a.requestArgs graphId nodeId scope decision.reason)
      return {
        verdict := decision.verdict
        reason := decision.reason
        decidingLayer := decision.decidingLayer
        approvalId := some id }

end Shiroe
