import Shiroe.Lib.JsonRead
import Shiroe.Storage.Keys
import Shiroe.Work.Schema

/-!
# The compiler for work graph specs

`work/compiler.py`: a spec is checked field by field, its nodes and edges are sorted, and a graph
with a cycle is rejected.

* The objects of a spec have their fields in the order of the spec, which `tuple` and `dict` follow;
  the values that a graph keeps of it have them in key order.
* `dict` takes a list of pairs, too, and a key in it may be a number, a boolean or `None`.  What the
  metadata of a node has under such keys is kept beside the node (`SpecNode`, `CompiledGraph`).
-/

namespace Shiroe

/-- `except (TypeError, ValueError) as exc: raise WorkGraphError(str(exc))`. -/
def asWorkGraphError {α : Type} : Except Exc α → Except Exc α
  | .error .typeError => .error (.workGraph none)
  | .error (.valueError message) => .error (.workGraph (some message))
  | x => x

/-! ### Dicts -/

/-- A value as the key of a dict: a list or a dict has no hash. -/
def PyKey.ofJson : Json → Except Exc PyKey
  | .null => .ok .none
  | .bool b => .ok (.bool b)
  | .int n => .ok (.int n)
  | .float x => .ok (.float x)
  | .str s => .ok (.str s)
  | _ => .error .typeError

/-- `d[k] = v`: the entry of an equal key keeps its place and its key. -/
def putEntry (d : List (PyKey × Json)) (entry : PyKey × Json) : List (PyKey × Json) :=
  if d.any fun e => e.1.same entry.1 then
    d.map fun e => if e.1.same entry.1 then (e.1, entry.2) else e
  else d ++ [entry]

/-- An item of a sequence that `dict` is given, with its position: a key and a value. -/
def entryOf (item : Json × ℕ) : Except Exc (PyKey × Json) := do
  match ← item.1.items with
  | [k, v] => return (← PyKey.ofJson k, v)
  | l => .error (.valueError ("dictionary update sequence element #" ++ toString item.2 ++
      " has length " ++ toString l.length ++ "; 2 is required"))

/-- `dict(x)`: its entries, in the order in which they are put in. -/
def Json.entries : Json → Except Exc (List (PyKey × Json))
  | .obj d => .ok (d.map fun kv => (.str kv.1, kv.2))
  | x => do return (← (← x.items).zipIdx.mapM entryOf).foldl putEntry []

/-- The entries under texts, as a JSON value. -/
def textEntries (d : List (PyKey × Json)) : Json :=
  .mkObj (d.filterMap fun
    | (.str k, v) => some (k, v.reread)
    | _ => none)

/-- The entries under other keys than texts. -/
def otherEntries (d : List (PyKey × Json)) : List (PyKey × Json) :=
  (d.filter fun e => !e.1.isStr).map fun e => (e.1, e.2.reread)

/-! ### Nodes and edges -/

/-- A node of a spec: the metadata of the node is a dict with texts for keys, and what the spec has
under other keys stands beside it. -/
structure SpecNode extends WorkNode where
  otherMetadata : List (PyKey × Json)

/-- `_node`. -/
def nodeOfSpec (graphId raw : Json) : Except Exc SpecNode := do
  if raw.isObj = false then
    .error (.workGraph (some ("node must be a dict, got " ++ raw.typeName)))
  else
    let node ← asWorkGraphError do
      let metadata ← (raw.getD "metadata" (.mkObj [])).entries
      if metadata.any fun e => e.1 = .str "placement" then
        .error (.valueError "node placement must use top-level placement, not metadata")
      else
        let retry ← RetryPolicy.make (raw.getD "retry" (.mkObj []))
        let placement ← Placement.make (raw.getD "placement" (.mkObj [])).reread
        let requires ← (raw.getD "requires" (.arr [])).items
        let expectedOutputs ← (raw.getD "expected_outputs" (.arr [])).items
        let node ← WorkNode.make
          { id := raw.getD "id" (.str "")
            graphId
            kind := raw.getD "kind" (.str NodeKind.task.value)
            objective := raw.getD "objective" (.str "")
            metadata := textEntries metadata }
          (requires.map Json.reread) (raw.getD "risk" (.str "low")).reread
          (raw.get "approval_required").truthy (raw.get "independent_review").truthy
          (raw.get "evidence_required").truthy (expectedOutputs.map Json.reread) retry placement
        return { node with otherMetadata := otherEntries metadata }
    if node.kind = .approval ∧ node.approvalRequired = false then
      .error (.workGraph (some "approval nodes must set approval_required=True"))
    else .ok node

/-- `_edge`. -/
def edgeOfSpec (graphId raw : Json) : Except Exc WorkEdge :=
  if raw.isObj = false then
    .error (.workGraph (some ("edge must be a dict, got " ++ raw.typeName)))
  else
    asWorkGraphError (WorkEdge.make graphId
      (raw.getD "from" (raw.getD "src_id" (.str ""))) (raw.getD "to" (raw.getD "dst_id" (.str ""))))

/-! ### Cycles -/

/-- The state of the depth-first search: the nodes on the stack, the nodes that are done, and the
stack itself, each node with the children that are left. -/
structure Dfs where
  visiting : List String
  visited : List String
  stack : List (String × List String)

/-- One pass of the inner loop of `_reject_cycles`. -/
def Dfs.step (outgoing : String → List String) (s : Dfs) : Except Exc Dfs :=
  match s.stack with
  | [] => .ok s
  | (nodeId, []) :: stack =>
    .ok { visiting := s.visiting.filter (· ≠ nodeId), visited := nodeId :: s.visited, stack }
  | (nodeId, child :: children) :: stack =>
    if child ∈ s.visiting then .error (.workGraph (some "graph contains a cycle"))
    else if child ∈ s.visited then .ok { s with stack := (nodeId, children) :: stack }
    else
      .ok { s with
        visiting := child :: s.visiting
        stack := (child, outgoing child) :: (nodeId, children) :: stack }

/-- The inner loop of `_reject_cycles`. -/
def Dfs.run (outgoing : String → List String) : ℕ → Dfs → Except Exc Dfs
  | 0, s => .ok s
  | fuel + 1, s => if s.stack = [] then .ok s else do (← s.step outgoing).run outgoing fuel

/-- `_reject_cycles`; every pass of the inner loop is done with a node or with an edge. -/
def rejectCycles (nodeIds : List String) (edges : List WorkEdge) : Except Exc Unit := do
  let outgoing (id : String) := (edges.filter (·.srcId = id)).map (·.dstId)
  let _ ← (nodeIds.insertionSort (· ≤ ·)).foldlM
    (fun (s : Dfs) root =>
      if root ∈ s.visited then .ok s
      else
        { s with visiting := root :: s.visiting, stack := [(root, outgoing root)] }.run outgoing
          (nodeIds.length + edges.length))
    { visiting := [], visited := [], stack := [] }

/-! ### Graphs -/

/-- `nodes_by_id`, in the order of the spec. -/
def nodesOfSpec (graphId : Json) (items : List Json) : Except Exc (List SpecNode) :=
  items.foldlM (fun nodes item => do
    let node ← nodeOfSpec graphId item
    if nodes.any (·.id = node.id) then
      .error (.workGraph (some ("duplicate node id: " ++ pyRepr node.id)))
    else .ok (nodes ++ [node])) []

/-- The order of the edges in a compiled graph. -/
def WorkEdge.Le (a b : WorkEdge) : Prop := a.srcId < b.srcId ∨ a.srcId = b.srcId ∧ a.dstId ≤ b.dstId

instance : DecidableRel WorkEdge.Le := fun _ _ => inferInstanceAs (Decidable (_ ∨ _))

/-- The check that an edge joins two nodes. -/
def checkEdge (nodeIds : List String) (e : WorkEdge) : Except Exc Unit :=
  if e.srcId ∉ nodeIds then
    .error (.workGraph (some ("edge references unknown node: from=" ++ pyRepr e.srcId)))
  else if e.dstId ∉ nodeIds then
    .error (.workGraph (some ("edge references unknown node: to=" ++ pyRepr e.dstId)))
  else .ok ()

/-! ### Integers -/

/-- The decimal zeros of Unicode 14, which Python 3.11 has; the other nine digits follow each. -/
def decimalZeros : List ℕ :=
  [0x30, 0x660, 0x6f0, 0x7c0, 0x966, 0x9e6, 0xa66, 0xae6, 0xb66, 0xbe6, 0xc66, 0xce6, 0xd66, 0xde6,
    0xe50, 0xed0, 0xf20, 0x1040, 0x1090, 0x17e0, 0x1810, 0x1946, 0x19d0, 0x1a80, 0x1a90, 0x1b50,
    0x1bb0, 0x1c40, 0x1c50, 0xa620, 0xa8d0, 0xa900, 0xa9d0, 0xa9f0, 0xaa50, 0xabf0, 0xff10, 0x104a0,
    0x10d30, 0x11066, 0x110f0, 0x11136, 0x111d0, 0x112f0, 0x11450, 0x114d0, 0x11650, 0x116c0,
    0x11730, 0x118e0, 0x11950, 0x11c50, 0x11d50, 0x11da0, 0x16a60, 0x16ac0, 0x16b50, 0x1d7ce,
    0x1d7d8, 0x1d7e2, 0x1d7ec, 0x1d7f6, 0x1e140, 0x1e2f0, 0x1e950, 0x1fbf0]

/-- The ASCII character that `int` reads a character as. -/
def asciiOf (c : Char) : Char :=
  if c.toNat < 127 then c
  else if isSpace c then ' '
  else
    match decimalZeros.find? fun first => first ≤ c.toNat && c.toNat < first + 10 with
    | some first => (c.toNat - first).digitChar
    | none => '?'

/-- The blanks of C. -/
def isBlank (c : Char) : Bool := c = ' ' || (9 ≤ c.toNat && c.toNat ≤ 13)

/-- The digits that a text starts with and what comes after them: a single underscore may stand
between two digits. -/
def digitsOf : List Char → List Char × List Char
  | [] => ([], [])
  | '_' :: l => ([], '_' :: l)
  | c :: '_' :: l =>
    if c.isDigit = false then ([], c :: '_' :: l)
    else if (digitsOf l).1 = [] then ([c], '_' :: l)
    else (c :: (digitsOf l).1, (digitsOf l).2)
  | c :: l => if c.isDigit then (c :: (digitsOf l).1, (digitsOf l).2) else ([], c :: l)

/-- `int(s)` for a text, which may have 4300 digits. -/
def intOfText (s : String) : Except Exc ℤ :=
  let l := (s.toList.map asciiOf).dropWhile isBlank
  let (sign, l) : ℤ × List Char :=
    match l with
    | '-' :: l => (-1, l)
    | '+' :: l => (1, l)
    | l => (1, l)
  let (digits, rest) := digitsOf l
  if 4300 < digits.length ∧ rest.head? ≠ some '_' then
    .error (.valueError (
      "Exceeds the limit (4300 digits) for integer string conversion: value has " ++
      toString digits.length ++ " digits; use sys.set_int_max_str_digits() to increase the limit"))
  else if digits = [] ∨ rest.dropWhile isBlank ≠ [] then
    .error (.valueError ("invalid literal for int() with base 10: " ++
      String.ofList ((pyRepr s).toList.take 200)))
  else .ok (sign * ofDigits digits)

/-- `int(x)`. -/
def versionOf : Json → Except Exc ℤ
  | .null => .error .typeError
  | .bool b => .ok (if b then 1 else 0)
  | .int n => .ok n
  | .float x =>
    if x.isNaN then .error (.valueError "cannot convert float NaN to integer")
    else if x.isFinite then .ok ((toDouble x.value).num.tdiv (toDouble x.value).den)
    else .error .infiniteFloat
  | .str s => intOfText s
  | .arr _ => .error .typeError
  | .obj _ => .error .typeError

/-! ### The whole compiler -/

/-- A graph as the compiler returns it: beside the graph, what the metadata of its nodes has under
other keys than texts. -/
structure CompiledGraph extends WorkGraph where
  otherMetadata : List (String × PyKey × Json) := []
  deriving DecidableEq

instance : Coe WorkGraph CompiledGraph := ⟨fun g => { g with }⟩

/-- `compile_work_graph`. -/
def compileWorkGraph (spec : Json) : Except Exc CompiledGraph := do
  if spec.isObj = false then
    .error (.workGraph (some ("spec must be a dict, got " ++ spec.typeName)))
  else
    let graphId := spec.getD "id" (.str "")
    match spec.get "nodes" with
    | .arr (item :: items) =>
      let nodes ← nodesOfSpec graphId (item :: items)
      let nodeIds := nodes.map (·.id)
      let edges ← (← (spec.getD "edges" (.arr [])).items).mapM (edgeOfSpec graphId)
      let edges := edges.insertionSort WorkEdge.Le
      edges.forM (checkEdge nodeIds)
      rejectCycles nodeIds edges
      asWorkGraphError do
        let constraints ← (spec.getD "constraints" (.arr [])).items
        let successCriteria ← (spec.getD "success_criteria" (.arr [])).items
        let version ← versionOf (spec.getD "version" (.int 1))
        let _ ← (spec.getD "metadata" (.mkObj [])).entries
        let graph ← WorkGraph.make graphId (spec.getD "objective" (.str ""))
          (spec.getD "status" (.str GraphStatus.draft.value)) version
          ((nodes.map (·.toWorkNode)).insertionSort (·.id ≤ ·.id)) edges
          (constraints.map Json.reread) (successCriteria.map Json.reread)
        return { graph with
          otherMetadata := nodes.flatMap fun n => n.otherMetadata.map fun e => (n.id, e) }
    | _ => .error (.workGraph (some "spec.nodes must be a non-empty list"))

end Shiroe
