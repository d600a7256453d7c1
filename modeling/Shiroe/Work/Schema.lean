import Shiroe.Storage.Projections

/-!
# Work graphs

`work/schema.py`: the types of a work graph with the checks of their constructors.  A value that a
spec or a row hands to a constructor is a `Json`, since nothing has looked at it before.
-/

namespace Shiroe

/-! ### Pieces of Python -/

mutual
/-- `repr(x)`. -/
def Json.pyRepr : Json → String
  | .str s => Shiroe.pyRepr s
  | .arr l => "[" ++ String.intercalate ", " (pyReprItems l) ++ "]"
  | .obj d => "\x7b" ++ String.intercalate ", " (pyReprFields d) ++ "\x7d"
  | .null => pyStr .null
  | .bool b => pyStr (.bool b)
  | .int n => pyStr (.int n)
  | .float x => pyStr (.float x)
/-- `repr` of the items of a list. -/
def Json.pyReprItems : List Json → List String
  | [] => []
  | x :: l => x.pyRepr :: pyReprItems l
/-- `repr` of the items of a dict. -/
def Json.pyReprFields : List (String × Json) → List String
  | [] => []
  | (k, x) :: d => (Shiroe.pyRepr k ++ ": " ++ x.pyRepr) :: pyReprFields d
end

/-- `type(x).__name__`. -/
def Json.typeName : Json → String
  | .null => "NoneType"
  | .bool _ => "bool"
  | .int _ => "int"
  | .float _ => "float"
  | .str _ => "str"
  | .arr _ => "list"
  | .obj _ => "dict"

/-- `x < n`. -/
def Json.lessThan (x : Json) (n : ℤ) : Except Exc Bool :=
  match x with
  | .int m => .ok (m < n)
  | .bool b => .ok ((if b then 1 else 0 : ℤ) < n)
  | .float y => .ok (if y.isFinite then y.value < n else y.repr = "-Infinity")
  | _ => .error .typeError

/-- `C(**x)` for a class with these parameters: the arguments, by name. -/
def Json.kwargs (params : List String) : Json → Except Exc Json
  | .obj d => if d.all fun kv => params.contains kv.1 then .ok (.obj d) else .error .typeError
  | _ => .error .typeError

/-! ### Enumerations -/

/-- The kind of a node. -/
inductive NodeKind where
  | task | decision | approval | review
  deriving DecidableEq, Repr

/-- The text of a node kind. -/
def NodeKind.value : NodeKind → String
  | task => "task"
  | decision => "decision"
  | approval => "approval"
  | review => "review"

/-- The node kinds, in order. -/
def NodeKind.all : List NodeKind := [task, decision, approval, review]

/-- The status of a graph. -/
inductive GraphStatus where
  | draft | ready | running | paused | completed | failed | cancelled
  deriving DecidableEq, Repr

/-- The text of a graph status. -/
def GraphStatus.value : GraphStatus → String
  | draft => "draft"
  | ready => "ready"
  | running => "running"
  | paused => "paused"
  | completed => "completed"
  | failed => "failed"
  | cancelled => "cancelled"

/-- The graph statuses, in order. -/
def GraphStatus.all : List GraphStatus :=
  [draft, ready, running, paused, completed, failed, cancelled]

/-- The status of a node. -/
inductive NodeStatus where
  | pending | ready | running | blocked | completed | failed | skipped
  deriving DecidableEq, Repr

/-- The text of a node status. -/
def NodeStatus.value : NodeStatus → String
  | pending => "pending"
  | ready => "ready"
  | running => "running"
  | blocked => "blocked"
  | completed => "completed"
  | failed => "failed"
  | skipped => "skipped"

/-- The node statuses, in order. -/
def NodeStatus.all : List NodeStatus :=
  [pending, ready, running, blocked, completed, failed, skipped]

/-- The member of an enumeration that has the value `x`. -/
def memberOf? {α : Type} (members : List α) (value : α → String) (x : Json) : Option α :=
  members.find? fun m => x = .str (value m)

/-- `_coerce_enum`. -/
def coerceEnum {α : Type} (members : List α) (value : α → String) (x : Json) (fieldName : String) :
    Except Exc α :=
  match memberOf? members value x with
  | some m => .ok m
  | none => .error (.valueError ("unknown " ++ fieldName ++ ": " ++ x.pyRepr))

/-- `NodeStatus(x)`. -/
def NodeStatus.ofJson (x : Json) : Except Exc NodeStatus :=
  match memberOf? NodeStatus.all NodeStatus.value x with
  | some s => .ok s
  | none => .error (.valueError (x.pyRepr ++ " is not a valid NodeStatus"))

/-- `GraphStatus(x)`. -/
def GraphStatus.ofJson (x : Json) : Except Exc GraphStatus :=
  match memberOf? GraphStatus.all GraphStatus.value x with
  | some s => .ok s
  | none => .error (.valueError (x.pyRepr ++ " is not a valid GraphStatus"))

/-! ### Parts of a graph -/

/-- `_require_text`: the text, if there is one and it is not blank. -/
def requireText (x : Json) (fieldName : String) : Except Exc String :=
  match x with
  | .str s =>
    if blank s then .error (.valueError (fieldName ++ " must be a non-empty string")) else .ok s
  | _ => .error (.valueError (fieldName ++ " must be a non-empty string"))

/-- How often a node is tried, and how long to wait in between. -/
structure RetryPolicy where
  maxAttempts : Json := .int 1
  backoffS : Json := .float .zero
  deriving DecidableEq

/-- `RetryPolicy(**x)`. -/
def RetryPolicy.make (x : Json) : Except Exc RetryPolicy := do
  let d ← x.kwargs ["max_attempts", "backoff_s"]
  let maxAttempts := d.getD "max_attempts" ({} : RetryPolicy).maxAttempts
  let backoffS := d.getD "backoff_s" ({} : RetryPolicy).backoffS
  if ← maxAttempts.lessThan 1 then .error (.valueError "max_attempts must be >= 1")
  else if ← backoffS.lessThan 0 then .error (.valueError "backoff_s must be >= 0")
  else .ok { maxAttempts, backoffS }

/-- The dict that a retry policy is stored as. -/
def RetryPolicy.toJson (r : RetryPolicy) : Json :=
  .mkObj [("max_attempts", r.maxAttempts), ("backoff_s", r.backoffS)]

/-- Where a node runs. -/
structure Placement where
  /-- `local` or `node`. -/
  mode : String := "local"
  nodeId : Json := .null
  deriving DecidableEq

/-- `Placement(**x)`. -/
def Placement.make (x : Json) : Except Exc Placement := do
  let d ← x.kwargs ["mode", "node_id"]
  let nodeId := d.get "node_id"
  match d.getD "mode" (.str "local") with
  | .str mode =>
    if ["local", "node"].contains mode = false then
      .error (.valueError "unsupported placement mode")
    else if mode = "node" ∧ nodeId.truthy = false then
      .error (.valueError "node placement requires node_id")
    else if mode = "local" ∧ nodeId.isNull = false then
      .error (.valueError "local placement cannot name node_id")
    else .ok { mode, nodeId }
  -- a list or a dict has no hash
  | .arr _ => .error .typeError
  | .obj _ => .error .typeError
  | _ => .error (.valueError "unsupported placement mode")

/-- The dict that a placement is stored as. -/
def Placement.toJson (p : Placement) : Json :=
  .mkObj [("mode", .str p.mode), ("node_id", p.nodeId)]

/-- `WorkNode`. -/
structure WorkNode where
  id : String
  graphId : String
  kind : NodeKind
  objective : String
  requires : List Json
  risk : Json
  approvalRequired : Bool
  independentReview : Bool
  evidenceRequired : Bool
  expectedOutputs : List Json
  retry : RetryPolicy
  placement : Placement
  metadata : Json
  deriving DecidableEq

/-- The arguments of `WorkNode` that its constructor looks at. -/
structure NodeFields where
  id : Json
  graphId : Json
  kind : Json
  objective : Json
  metadata : Json

/-- `WorkNode.__post_init__`: the node, from the fields that are checked and the others. -/
def WorkNode.make (f : NodeFields) (requires : List Json) (risk : Json)
    (approvalRequired independentReview evidenceRequired : Bool) (expectedOutputs : List Json)
    (retry : RetryPolicy) (placement : Placement) : Except Exc WorkNode := do
  let id ← requireText f.id "node id"
  let graphId ← requireText f.graphId "graph_id"
  let objective ← requireText f.objective "objective"
  let kind ← coerceEnum NodeKind.all NodeKind.value f.kind "node kind"
  let metadata ← f.metadata.toDict
  return { id, graphId, kind, objective, requires, risk, approvalRequired, independentReview,
           evidenceRequired, expectedOutputs, retry, placement, metadata }

/-- `WorkEdge`. -/
structure WorkEdge where
  graphId : String
  srcId : String
  dstId : String
  deriving DecidableEq

/-- `WorkEdge.__post_init__`. -/
def WorkEdge.make (graphId srcId dstId : Json) : Except Exc WorkEdge := do
  let graphId ← requireText graphId "graph_id"
  let srcId ← requireText srcId "src_id"
  let dstId ← requireText dstId "dst_id"
  if srcId = dstId then .error (.valueError "work edge cannot be a self-edge")
  else .ok { graphId, srcId, dstId }

/-- `WorkGraph`; its metadata is neither stored nor read. -/
structure WorkGraph where
  id : String
  objective : String
  nodes : List WorkNode
  edges : List WorkEdge
  constraints : List Json
  successCriteria : List Json
  status : GraphStatus
  version : ℤ
  deriving DecidableEq

/-- `WorkGraph.__post_init__`. -/
def WorkGraph.make (id objective status : Json) (version : ℤ) (nodes : List WorkNode)
    (edges : List WorkEdge) (constraints successCriteria : List Json) : Except Exc WorkGraph := do
  let id ← requireText id "graph id"
  let objective ← requireText objective "objective"
  if version < 1 then .error (.valueError "graph version must be >= 1")
  else
    let status ← coerceEnum GraphStatus.all GraphStatus.value status "graph status"
    match nodes.find? (·.graphId ≠ id), edges.find? (·.graphId ≠ id) with
    | some n, _ => .error (.valueError
        ("node " ++ pyRepr n.id ++ " belongs to graph " ++ pyRepr n.graphId))
    | none, some e => .error (.valueError ("edge " ++ pyRepr e.srcId ++ "->" ++ pyRepr e.dstId ++
        " belongs to graph " ++ pyRepr e.graphId))
    | none, none =>
      .ok { id, objective, nodes, edges, constraints, successCriteria, status, version }

end Shiroe
