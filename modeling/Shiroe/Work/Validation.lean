import Shiroe.Lib.Raises
import Shiroe.Work.Cycles

/-!
# What the compiler raises

The constructors raise `TypeError` and `ValueError`, and the compiler turns these into
`WorkGraphError` wherever it calls one of them.  It does not where it walks over `edges`, and the
clause around the last constructor lets the `OverflowError` of an infinite `version` through.

* `compileWorkGraph_raises_iff` : a spec is rejected with `WorkGraphError` or gives a well-formed
  graph, exactly if it is none of these two.
-/

namespace Shiroe

open Act

/-- What `except (TypeError, ValueError)` catches. -/
inductive Exc.Caught : Exc → Prop
  | typeError : Exc.Caught .typeError
  | valueError (message : String) : Exc.Caught (.valueError message)

/-- `WorkGraphError`. -/
def Exc.IsWorkGraph (e : Exc) : Prop := ∃ message, e = .workGraph message

/-! ### The constructors -/

theorem raises_requireText (x : Json) (name : String) : Raises Exc.Caught (requireText x name) := by
  unfold requireText
  split
  · exact .ite (fun _ => .error (.valueError _)) fun _ => .ok _
  · exact .error (.valueError _)

theorem raises_coerceEnum {α : Type} (members : List α) (value : α → String) (x : Json)
    (name : String) : Raises Exc.Caught (coerceEnum members value x name) := by
  unfold coerceEnum
  split
  · exact .ok _
  · exact .error (.valueError _)

theorem raises_lessThan (x : Json) (n : ℤ) : Raises Exc.Caught (x.lessThan n) := by
  unfold Json.lessThan
  split
  · exact .ok _
  · exact .ok _
  · exact .ok _
  · exact .error .typeError

theorem raises_kwargs (params : List String) (x : Json) :
    Raises Exc.Caught (x.kwargs params) := by
  unfold Json.kwargs
  split
  · exact .ite (fun _ => .ok _) fun _ => .error .typeError
  · exact .error .typeError

theorem raises_items (x : Json) : Raises Exc.Caught x.items := by
  unfold Json.items
  split
  · exact .ok _
  · exact .ok _
  · exact .ok _
  · exact .error .typeError

theorem raises_pair (x : Json) : Raises Exc.Caught x.pair := by
  unfold Json.pair
  split
  · exact .ok _
  · exact .ok _
  · split
    · exact .ok _
    · exact .error (.valueError _)
  · exact .error .typeError

theorem raises_toDict (x : Json) : Raises Exc.Caught x.toDict := by
  unfold Json.toDict
  split
  · exact .ok _
  · exact (Raises.mapM fun p _ => raises_pair p).bind fun _ _ => .pure _
  · exact .ok _
  · exact .error (.valueError _)
  · exact .error .typeError

theorem raises_keyOfJson (x : Json) : Raises Exc.Caught (PyKey.ofJson x) := by
  unfold PyKey.ofJson
  split
  all_goals first
    | exact .ok _
    | exact .error .typeError

theorem raises_entryOf (item : Json × ℕ) : Raises Exc.Caught (entryOf item) := by
  refine (raises_items _).bind fun l _ => ?_
  split
  · exact (raises_keyOfJson _).bind fun _ _ => .pure _
  · exact .error (.valueError _)

theorem raises_entries (x : Json) : Raises Exc.Caught x.entries := by
  unfold Json.entries
  split
  · exact .ok _
  · refine (raises_items _).bind fun l _ => ?_
    exact (Raises.mapM fun item _ => raises_entryOf item).bind fun _ _ => .pure _

theorem RetryPolicy.raises_make (x : Json) : Raises Exc.Caught (RetryPolicy.make x) := by
  refine (raises_kwargs _ x).bind fun d _ => (raises_lessThan _ 1).bind fun b _ => ?_
  refine .ite (fun _ => .error (.valueError _)) fun _ => (raises_lessThan _ 0).bind fun b _ => ?_
  exact .ite (fun _ => .error (.valueError _)) fun _ => .ok _

theorem Placement.raises_make (x : Json) : Raises Exc.Caught (Placement.make x) := by
  refine (raises_kwargs _ x).bind fun d _ => ?_
  dsimp only
  split
  · refine .ite (fun _ => .error (.valueError _)) fun _ => ?_
    refine .ite (fun _ => .error (.valueError _)) fun _ => ?_
    exact .ite (fun _ => .error (.valueError _)) fun _ => .ok _
  · exact .error .typeError
  · exact .error .typeError
  · exact .error (.valueError _)

theorem WorkNode.raises_make (f : NodeFields) (requires : List Json) (risk : Json)
    (approvalRequired independentReview evidenceRequired : Bool) (expectedOutputs : List Json)
    (retry : RetryPolicy) (placement : Placement) :
    Raises Exc.Caught (WorkNode.make f requires risk approvalRequired independentReview
      evidenceRequired expectedOutputs retry placement) := by
  refine (raises_requireText _ _).bind fun id _ => (raises_requireText _ _).bind fun g _ => ?_
  refine (raises_requireText _ _).bind fun o _ => (raises_coerceEnum _ _ _ _).bind fun k _ => ?_
  exact (raises_toDict _).bind fun m _ => .pure _

theorem WorkEdge.raises_make (graphId srcId dstId : Json) :
    Raises Exc.Caught (WorkEdge.make graphId srcId dstId) := by
  refine (raises_requireText _ _).bind fun g _ => (raises_requireText _ _).bind fun s _ => ?_
  refine (raises_requireText _ _).bind fun d _ => ?_
  exact .ite (fun _ => .error (.valueError _)) fun _ => .ok _

theorem WorkGraph.raises_make (id objective status : Json) (version : ℤ) (nodes : List WorkNode)
    (edges : List WorkEdge) (constraints successCriteria : List Json) :
    Raises Exc.Caught (WorkGraph.make id objective status version nodes edges constraints
      successCriteria) := by
  refine (raises_requireText _ _).bind fun id _ => (raises_requireText _ _).bind fun o _ => ?_
  refine .ite (fun _ => .error (.valueError _)) fun _ => (raises_coerceEnum _ _ _ _).bind
    fun s _ => ?_
  split
  · exact .error (.valueError _)
  · exact .error (.valueError _)
  · exact .ok _

/-! ### The parts of the compiler -/

/-- **The clause `except (TypeError, ValueError)`.**  What it does not catch passes. -/
theorem raises_asWorkGraphError {α : Type} {x : Except Exc α} {E : Exc → Prop}
    (hx : Raises (fun e => e.Caught ∨ E e) x) :
    Raises (fun e => e.IsWorkGraph ∨ E e) (asWorkGraphError x) := by
  unfold asWorkGraphError
  split
  · exact .error (.inl ⟨_, rfl⟩)
  · exact .error (.inl ⟨_, rfl⟩)
  · rename_i htype hvalue
    intro e he
    rcases hx e he with hcaught | he
    · cases hcaught with
      | typeError => exact absurd he htype
      | valueError message => exact absurd he (hvalue message)
    · exact .inr he

theorem Raises.asWorkGraphError {α : Type} {x : Except Exc α} (hx : Raises Exc.Caught x) :
    Raises Exc.IsWorkGraph (asWorkGraphError x) :=
  (raises_asWorkGraphError (E := fun _ => False) (hx.mono fun _ => .inl)).mono
    fun _ h => h.resolve_right id

theorem raises_nodeOfSpec (graphId raw : Json) :
    Raises Exc.IsWorkGraph (nodeOfSpec graphId raw) := by
  refine .ite (fun _ => .error ⟨_, rfl⟩) fun _ => ?_
  refine Raises.bind (Raises.asWorkGraphError ?_) fun node _ => ?_
  · refine (raises_entries _).bind fun metadata _ => ?_
    refine .ite (fun _ => .error (.valueError _)) fun _ => ?_
    refine (RetryPolicy.raises_make _).bind fun retry _ => ?_
    refine (Placement.raises_make _).bind fun placement _ => ?_
    refine (raises_items _).bind fun requires _ => (raises_items _).bind fun outputs _ => ?_
    exact (WorkNode.raises_make _ _ _ _ _ _ _ _ _).bind fun node _ => .pure _
  · exact .ite (fun _ => .error ⟨_, rfl⟩) fun _ => .ok _

theorem raises_nodesOfSpec (graphId : Json) (items : List Json) :
    Raises Exc.IsWorkGraph (nodesOfSpec graphId items) := by
  refine .foldlM (fun nodes item _ => (raises_nodeOfSpec graphId item).bind fun node _ => ?_) []
  exact .ite (fun _ => .error ⟨_, rfl⟩) fun _ => .ok _

theorem raises_edgeOfSpec (graphId raw : Json) : Raises Exc.IsWorkGraph (edgeOfSpec graphId raw) :=
  .ite (fun _ => .error ⟨_, rfl⟩) fun _ => (WorkEdge.raises_make _ _ _).asWorkGraphError

theorem raises_checkEdge (nodeIds : List String) (e : WorkEdge) :
    Raises Exc.IsWorkGraph (checkEdge nodeIds e) :=
  .ite (fun _ => .error ⟨_, rfl⟩) fun _ => .ite (fun _ => .error ⟨_, rfl⟩) fun _ => .ok _

theorem Dfs.raises_step (outgoing : String → List String) (s : Dfs) :
    Raises Exc.IsWorkGraph (s.step outgoing) := by
  rw [Dfs.step]
  split
  · exact .ok _
  · exact .ok _
  · exact .ite (fun _ => .error ⟨_, rfl⟩) fun _ => .ite (fun _ => .ok _) fun _ => .ok _

theorem Dfs.raises_run (outgoing : String → List String) (fuel : ℕ) (s : Dfs) :
    Raises Exc.IsWorkGraph (s.run outgoing fuel) := by
  induction fuel generalizing s with
  | zero => exact .ok _
  | succ fuel ih =>
    rw [Dfs.run]
    exact .ite (fun _ => .ok _) fun _ => (Dfs.raises_step outgoing s).bind fun s' _ => ih s'

theorem raises_rejectCycles (nodeIds : List String) (edges : List WorkEdge) :
    Raises Exc.IsWorkGraph (rejectCycles nodeIds edges) := by
  refine Raises.bind (.foldlM (fun s root _ => ?_) _) fun _ _ => .pure _
  exact .ite (fun _ => .ok _) fun _ => Dfs.raises_run _ _ _

theorem raises_intOfText (s : String) : Raises Exc.Caught (intOfText s) := by
  refine .ite (fun _ => .error (.valueError _)) fun _ => ?_
  exact .ite (fun _ => .error (.valueError _)) fun _ => .ok _

theorem raises_versionOf (x : Json) :
    Raises (fun e => e.Caught ∨ e = .infiniteFloat) (versionOf x) := by
  cases x with
  | null => exact .error (.inl .typeError)
  | bool b => exact .ok _
  | int n => exact .ok _
  | float x =>
    refine .ite (fun _ => .error (.inl (.valueError _))) fun _ => ?_
    exact .ite (fun _ => .ok _) fun _ => .error (.inr rfl)
  | str s => exact (raises_intOfText s).mono fun _ => .inl
  | arr l => exact .error (.inl .typeError)
  | obj d => exact .error (.inl .typeError)

/-! ### The specs that are not rejected properly -/

/-- Iterating over the value raises nothing: it is an array, an object or a text. -/
inductive Json.Iterable : Json → Prop
  | arr (items : List Json) : Json.Iterable (.arr items)
  | obj (fields : List (String × Json)) : Json.Iterable (.obj fields)
  | str (s : String) : Json.Iterable (.str s)

/-- The value is `Infinity` or `-Infinity`. -/
def Json.Infinite (x : Json) : Prop :=
  ∃ f : PyFloat, x = .float f ∧ f.isNaN = false ∧ f.isFinite = false

theorem items_eq_ok {x : Json} : (∃ l, x.items = .ok l) ↔ x.Iterable := by
  constructor
  · rintro ⟨l, h⟩
    unfold Json.items at h
    split at h
    · exact .arr _
    · exact .obj _
    · exact .str _
    · cases h
  · rintro (_ | _ | _)
    · exact ⟨_, rfl⟩
    · exact ⟨_, rfl⟩
    · exact ⟨_, rfl⟩

theorem items_eq_error {x : Json} (h : ¬ x.Iterable) : x.items = .error .typeError := by
  cases hx : x.items with
  | ok l => exact absurd (items_eq_ok.1 ⟨l, hx⟩) h
  | error e =>
    unfold Json.items at hx
    split at hx
    · cases hx
    · cases hx
    · cases hx
    · rw [← Except.error.inj hx]

theorem versionOf_eq_infiniteFloat {x : Json} :
    versionOf x = .error .infiniteFloat ↔ x.Infinite := by
  constructor
  · intro h
    cases x with
    | float f =>
      rw [versionOf] at h
      split_ifs at h with hnan hfinite
      · cases h
      · exact ⟨f, rfl, by simpa using hnan, by simpa using hfinite⟩
    | str s => cases raises_intOfText s _ h
    | _ => cases h
  · rintro ⟨f, rfl, hnan, hfinite⟩
    simp only [versionOf, hnan, hfinite]
    rfl

/-- The spec is an object with a list of nodes, none of them rejected. -/
structure NodesPass (spec : Json) (nodes : List SpecNode) : Prop where
  object : spec.isObj = true
  pass : ∃ items, spec.get "nodes" = .arr items ∧ items ≠ [] ∧
    List.Forall₂ (fun raw n => nodeOfSpec (spec.getD "id" (.str "")) raw = .ok n) items nodes
  nodup : (nodes.map (·.id)).Nodup

/-- The edges of the spec are none of them rejected, and join the nodes without a cycle. -/
structure EdgesPass (spec : Json) (nodes : List SpecNode) (edges : List WorkEdge) : Prop where
  pass : ∃ items, (spec.getD "edges" (.arr [])).items = .ok items ∧
    List.Forall₂ (fun raw e => edgeOfSpec (spec.getD "id" (.str "")) raw = .ok e) items edges
  ends : ∀ e ∈ edges, e.srcId ∈ nodes.map (·.id) ∧ e.dstId ∈ nodes.map (·.id)
  acyclic : Digraph.Acyclic (Leads edges)

/-- The specs on which something else than `WorkGraphError` is raised: the nodes pass and there is
no walking over the edges, or all parts pass up to a version that is infinite. -/
inductive Escapes (spec : Json) : Prop
  | edges {nodes : List SpecNode} : NodesPass spec nodes →
      ¬ (spec.getD "edges" (.arr [])).Iterable → Escapes spec
  | version {nodes : List SpecNode} {edges : List WorkEdge} : NodesPass spec nodes →
      EdgesPass spec nodes edges → (spec.getD "constraints" (.arr [])).Iterable →
      (spec.getD "success_criteria" (.arr [])).Iterable →
      (spec.getD "version" (.int 1)).Infinite → Escapes spec

/-- What the scheduler relies on. -/
structure WorkGraph.WellFormed (g : WorkGraph) : Prop where
  ids : (g.nodes.map (·.id)).Pairwise (· < ·)
  joins : ∀ e ∈ g.edges, e.srcId ≠ e.dstId ∧ e.srcId ∈ g.nodes.map (·.id) ∧
    e.dstId ∈ g.nodes.map (·.id)
  acyclic : Digraph.Acyclic (Leads g.edges)
  nodesOwn : ∀ n ∈ g.nodes, n.graphId = g.id
  edgesOwn : ∀ e ∈ g.edges, e.graphId = g.id
  approvals : ∀ n ∈ g.nodes, n.kind = .approval → n.approvalRequired = true

theorem approval_of_nodeOfSpec {graphId raw : Json} {n : SpecNode}
    (h : nodeOfSpec graphId raw = .ok n) (hkind : n.kind = .approval) :
    n.approvalRequired = true := by
  rw [nodeOfSpec] at h
  split_ifs at h
  obtain ⟨node, -, h⟩ := except_bind_eq_ok.1 h
  split_ifs at h with happroval
  cases h
  by_contra hnot
  exact happroval ⟨hkind, by simpa using hnot⟩

/-- The loop over the nodes returns the nodes if none is rejected and no id comes twice. -/
theorem nodesOfSpec_eq_ok {graphId : Json} {items : List Json} {nodes : List SpecNode} :
    nodesOfSpec graphId items = .ok nodes ↔
      List.Forall₂ (fun raw n => nodeOfSpec graphId raw = .ok n) items nodes ∧
        (nodes.map (·.id)).Nodup := by
  -- the loop from any nodes it has already
  have hloop : ∀ before : List SpecNode, (before.map (·.id)).Nodup →
      (items.foldlM (fun nodes item => do
        let node ← nodeOfSpec graphId item
        if nodes.any (·.id = node.id) then
          .error (.workGraph (some ("duplicate node id: " ++ pyRepr node.id)))
        else .ok (nodes ++ [node])) before = .ok nodes ↔
      ∃ after, nodes = before ++ after ∧
        List.Forall₂ (fun raw n => nodeOfSpec graphId raw = .ok n) items after ∧
          (nodes.map (·.id)).Nodup) := by
    induction items with
    | nil =>
      intro before hbefore
      rw [List.foldlM_nil]
      constructor
      · intro h
        cases h
        exact ⟨[], (List.append_nil _).symm, .nil, hbefore⟩
      · rintro ⟨after, rfl, hafter, -⟩
        cases hafter
        rw [List.append_nil]
        rfl
    | cons item items ih =>
      intro before hbefore
      rw [List.foldlM_cons, except_bind_eq_ok]
      constructor
      · rintro ⟨b, hb, h⟩
        obtain ⟨node, hnode, hb⟩ := except_bind_eq_ok.1 hb
        split_ifs at hb with hany
        cases hb
        have hnodup : ((before ++ [node]).map (·.id)).Nodup := by
          rw [List.map_append, List.map_singleton, List.nodup_append]
          refine ⟨hbefore, List.nodup_singleton _, fun x hx y hy hxy => hany ?_⟩
          obtain ⟨n, hn, rfl⟩ := List.mem_map.1 hx
          rw [List.mem_singleton.1 hy] at hxy
          exact List.any_eq_true.2 ⟨n, hn, decide_eq_true hxy⟩
        obtain ⟨after, rfl, hafter, hall⟩ := (ih _ hnodup).1 h
        exact ⟨node :: after, by rw [List.append_assoc]; rfl, .cons hnode hafter, hall⟩
      · rintro ⟨after, rfl, hafter, hall⟩
        obtain ⟨node, rest, hnode, hrest, rfl⟩ := List.forall₂_cons_left_iff.1 hafter
        have hsplit : before ++ node :: rest = (before ++ [node]) ++ rest := by
          rw [List.append_assoc]
          rfl
        have hnodup : ((before ++ [node]).map (·.id)).Nodup := by
          rw [hsplit, List.map_append] at hall
          exact hall.of_append_left
        have hnew : ¬ before.any (·.id = node.id) = true := by
          intro hany
          obtain ⟨n, hn, hid⟩ := List.any_eq_true.1 hany
          rw [List.map_append, List.nodup_append] at hnodup
          exact hnodup.2.2 n.id (List.mem_map_of_mem hn) node.id
            (List.mem_singleton.2 rfl) (of_decide_eq_true hid)
        refine ⟨before ++ [node], ?_, (ih _ hnodup).2 ⟨rest, hsplit, hrest, hall⟩⟩
        exact except_bind_eq_ok.2 ⟨node, hnode, if_neg hnew⟩
  rw [nodesOfSpec, hloop [] List.nodup_nil]
  constructor
  · rintro ⟨after, rfl, hafter, hall⟩
    exact ⟨hafter, hall⟩
  · rintro ⟨hafter, hall⟩
    exact ⟨nodes, rfl, hafter, hall⟩

/-! ### The whole compiler -/

theorem nodesPass_iff {spec : Json} {nodes : List SpecNode} : NodesPass spec nodes ↔
    spec.isObj = true ∧ ∃ item items, spec.get "nodes" = .arr (item :: items) ∧
      nodesOfSpec (spec.getD "id" (.str "")) (item :: items) = .ok nodes := by
  constructor
  · rintro ⟨hobject, ⟨items, hitems, hne, hpass⟩, hnodup⟩
    obtain ⟨item, items, rfl⟩ := List.exists_cons_of_ne_nil hne
    exact ⟨hobject, item, items, hitems, nodesOfSpec_eq_ok.2 ⟨hpass, hnodup⟩⟩
  · rintro ⟨hobject, item, items, hitems, h⟩
    obtain ⟨hpass, hnodup⟩ := nodesOfSpec_eq_ok.1 h
    exact ⟨hobject, ⟨_, hitems, List.cons_ne_nil _ _, hpass⟩, hnodup⟩

theorem checkEdge_eq_ok {nodeIds : List String} {e : WorkEdge} :
    checkEdge nodeIds e = .ok () ↔ e.srcId ∈ nodeIds ∧ e.dstId ∈ nodeIds := by
  rw [checkEdge]
  split_ifs with hsrc hdst
  · exact ⟨fun _ => ⟨hsrc, hdst⟩, fun _ => rfl⟩
  · exact ⟨fun h => (by cases h), fun h => absurd h.2 hdst⟩
  · exact ⟨fun h => (by cases h), fun h => absurd h.1 hsrc⟩

theorem leads_insertionSort (edges : List WorkEdge) :
    Leads (edges.insertionSort WorkEdge.Le) = Leads edges := by
  funext x y
  simp only [Leads, List.mem_insertionSort]

/-- The last part of the compiler: the constructor of the graph and its arguments. -/
def finishGraph (spec : Json) (nodes : List SpecNode) (edges : List WorkEdge) :
    Except Exc CompiledGraph :=
  asWorkGraphError do
    let constraints ← (spec.getD "constraints" (.arr [])).items
    let successCriteria ← (spec.getD "success_criteria" (.arr [])).items
    let version ← versionOf (spec.getD "version" (.int 1))
    let _ ← (spec.getD "metadata" (.mkObj [])).entries
    let graph ← WorkGraph.make (spec.getD "id" (.str "")) (spec.getD "objective" (.str ""))
      (spec.getD "status" (.str GraphStatus.draft.value)) version
      ((nodes.map (·.toWorkNode)).insertionSort (·.id ≤ ·.id)) (edges.insertionSort WorkEdge.Le)
      (constraints.map Json.reread) (successCriteria.map Json.reread)
    return { graph with
      otherMetadata := nodes.flatMap fun n => n.otherMetadata.map fun e => (n.id, e) }

/-- The part of the compiler after the nodes. -/
def edgesAndGraph (spec : Json) (nodes : List SpecNode) : Except Exc CompiledGraph := do
  let edges ← (← (spec.getD "edges" (.arr [])).items).mapM
    (edgeOfSpec (spec.getD "id" (.str "")))
  (edges.insertionSort WorkEdge.Le).forM (checkEdge (nodes.map (·.id)))
  rejectCycles (nodes.map (·.id)) (edges.insertionSort WorkEdge.Le)
  finishGraph spec nodes edges

/-- A spec whose nodes do not pass is rejected; otherwise the edges come next. -/
theorem compileWorkGraph_nodes (spec : Json) :
    (∃ nodes, NodesPass spec nodes ∧ compileWorkGraph spec = edgesAndGraph spec nodes) ∨
      (¬ ∃ nodes, NodesPass spec nodes) ∧ ∃ e : Exc, e.IsWorkGraph ∧
        compileWorkGraph spec = .error e := by
  by_cases hobject : spec.isObj = true
  · rw [compileWorkGraph, if_neg (by simp [hobject])]
    dsimp only
    split
    · rename_i item items hitems
      cases hnodes : nodesOfSpec (spec.getD "id" (.str "")) (item :: items) with
      | ok nodes => exact .inl ⟨nodes, nodesPass_iff.2 ⟨hobject, item, items, hitems, hnodes⟩, rfl⟩
      | error e =>
        refine .inr ⟨?_, e, raises_nodesOfSpec _ _ e hnodes, rfl⟩
        rintro ⟨nodes, hpass⟩
        obtain ⟨-, item', items', hitems', h⟩ := nodesPass_iff.1 hpass
        rw [hitems] at hitems'
        cases hitems'
        rw [hnodes] at h
        cases h
    · rename_i hitems
      refine .inr ⟨?_, _, ⟨_, rfl⟩, rfl⟩
      rintro ⟨nodes, hpass⟩
      obtain ⟨-, item, items, h, -⟩ := nodesPass_iff.1 hpass
      exact hitems item items h
  · rw [compileWorkGraph, if_pos (by simpa using hobject)]
    refine .inr ⟨?_, _, ⟨_, rfl⟩, rfl⟩
    rintro ⟨nodes, hpass⟩
    exact hobject hpass.object

/-- What the end of the compiler raises. -/
theorem raises_finishGraph (spec : Json) (nodes : List SpecNode) (edges : List WorkEdge) :
    Raises (fun e => e.IsWorkGraph ∨ e = .infiniteFloat ∧
      (spec.getD "constraints" (.arr [])).Iterable ∧
      (spec.getD "success_criteria" (.arr [])).Iterable ∧
      (spec.getD "version" (.int 1)).Infinite) (finishGraph spec nodes edges) := by
  refine raises_asWorkGraphError ?_
  refine ((raises_items _).mono fun _ => .inl).bind fun constraints hconstraints => ?_
  refine ((raises_items _).mono fun _ => .inl).bind fun criteria hcriteria => ?_
  refine Raises.bind (fun e he => ?_) fun version _ => ?_
  · refine (raises_versionOf _ e he).imp_right fun hinfinite => ?_
    subst hinfinite
    exact ⟨rfl, items_eq_ok.1 ⟨_, hconstraints⟩, items_eq_ok.1 ⟨_, hcriteria⟩,
      versionOf_eq_infiniteFloat.1 he⟩
  · refine ((raises_entries _).mono fun _ => .inl).bind fun _ _ => ?_
    refine ((WorkGraph.raises_make _ _ _ _ _ _ _ _).mono fun _ => .inl).bind fun _ _ => ?_
    exact .pure _

/-- Where the last part is reached with an infinite version, the exception passes. -/
theorem finishGraph_infinite {spec : Json} {nodes : List SpecNode} {edges : List WorkEdge}
    (hconstraints : (spec.getD "constraints" (.arr [])).Iterable)
    (hcriteria : (spec.getD "success_criteria" (.arr [])).Iterable)
    (hversion : (spec.getD "version" (.int 1)).Infinite) :
    finishGraph spec nodes edges = .error .infiniteFloat := by
  obtain ⟨constraints, hconstraints⟩ := items_eq_ok.2 hconstraints
  obtain ⟨criteria, hcriteria⟩ := items_eq_ok.2 hcriteria
  rw [finishGraph, hconstraints, hcriteria, versionOf_eq_infiniteFloat.2 hversion]
  rfl

theorem edgesPass_iff {spec : Json} {nodes : List SpecNode} {edges : List WorkEdge}
    (hnodup : (nodes.map (·.id)).Nodup) : EdgesPass spec nodes edges ↔
      ∃ items, (spec.getD "edges" (.arr [])).items = .ok items ∧
        items.mapM (edgeOfSpec (spec.getD "id" (.str ""))) = .ok edges ∧
        (edges.insertionSort WorkEdge.Le).forM (checkEdge (nodes.map (·.id))) = .ok () ∧
        rejectCycles (nodes.map (·.id)) (edges.insertionSort WorkEdge.Le) = .ok () := by
  have hcheck : (edges.insertionSort WorkEdge.Le).forM (checkEdge (nodes.map (·.id))) = .ok () ↔
      ∀ e ∈ edges, e.srcId ∈ nodes.map (·.id) ∧ e.dstId ∈ nodes.map (·.id) := by
    simp only [except_forM_eq_ok, List.mem_insertionSort, checkEdge_eq_ok]
  have hcycles : (∀ e ∈ edges, e.srcId ∈ nodes.map (·.id) ∧ e.dstId ∈ nodes.map (·.id)) →
      (rejectCycles (nodes.map (·.id)) (edges.insertionSort WorkEdge.Le) = .ok () ↔
        Digraph.Acyclic (Leads edges)) := by
    intro hends
    rw [← leads_insertionSort]
    exact (rejectCycles_spec hnodup fun e he => hends e ((List.mem_insertionSort _).1 he)).2.2
  constructor
  · rintro ⟨⟨items, hitems, hpass⟩, hends, hacyclic⟩
    exact ⟨items, hitems, except_mapM_eq_ok.2 hpass, hcheck.2 hends, (hcycles hends).2 hacyclic⟩
  · rintro ⟨items, hitems, hpass, hforM, hreject⟩
    have hends := hcheck.1 hforM
    exact ⟨⟨items, hitems, except_mapM_eq_ok.1 hpass⟩, hends, (hcycles hends).1 hreject⟩

/-- **What the compiler raises**: `WorkGraphError`, unless the spec escapes. -/
theorem raises_compileWorkGraph (spec : Json) :
    Raises (fun e => e.IsWorkGraph ∨ Escapes spec) (compileWorkGraph spec) := by
  rcases compileWorkGraph_nodes spec with ⟨nodes, hnodes, h⟩ | ⟨-, e, he, h⟩
  · rw [h]
    intro e he
    rcases except_bind_eq_error.1 he with hitems | ⟨items, hitems, he⟩
    · refine .inr (.edges hnodes fun hiterable => ?_)
      obtain ⟨l, hl⟩ := items_eq_ok.2 hiterable
      rw [hl] at hitems
      cases hitems
    rcases except_bind_eq_error.1 he with hmapM | ⟨edges, hmapM, he⟩
    · exact .inl (Raises.mapM (fun raw _ => raises_edgeOfSpec _ raw) e hmapM)
    rcases except_bind_eq_error.1 he with hforM | ⟨⟨⟩, hforM, he⟩
    · exact .inl (Raises.forM (fun edge _ => raises_checkEdge _ edge) e hforM)
    rcases except_bind_eq_error.1 he with hreject | ⟨⟨⟩, hreject, he⟩
    · exact .inl (raises_rejectCycles _ _ e hreject)
    refine (raises_finishGraph spec nodes edges e he).imp_right ?_
    rintro ⟨-, hconstraints, hcriteria, hversion⟩
    exact .version hnodes
      ((edgesPass_iff hnodes.nodup).2 ⟨items, hitems, hmapM, hforM, hreject⟩)
      hconstraints hcriteria hversion
  · rw [h]
    exact .error (.inl he)

/-- **A spec that escapes** makes the compiler raise something else. -/
theorem compileWorkGraph_of_escapes {spec : Json} (h : Escapes spec) :
    compileWorkGraph spec = .error .typeError ∨ compileWorkGraph spec = .error .infiniteFloat := by
  have hnodes : ∀ {nodes}, NodesPass spec nodes →
      compileWorkGraph spec = edgesAndGraph spec nodes := by
    intro nodes hpass
    rcases compileWorkGraph_nodes spec with ⟨nodes', hpass', h⟩ | ⟨hnone, -⟩
    · obtain ⟨-, item, items, hitems, hok⟩ := nodesPass_iff.1 hpass
      obtain ⟨-, item', items', hitems', hok'⟩ := nodesPass_iff.1 hpass'
      rw [hitems] at hitems'
      cases hitems'
      rw [hok] at hok'
      cases hok'
      exact h
    · exact absurd ⟨nodes, hpass⟩ hnone
  cases h with
  | edges hpass hiterable =>
    rw [hnodes hpass, edgesAndGraph, items_eq_error hiterable]
    exact .inl rfl
  | version hpass hedges hconstraints hcriteria hversion =>
    obtain ⟨items, hitems, hmapM, hforM, hreject⟩ := (edgesPass_iff hpass.nodup).1 hedges
    refine .inr ?_
    rw [hnodes hpass, edgesAndGraph, except_bind_of_ok hitems, except_bind_of_ok hmapM,
      except_bind_of_ok hforM, except_bind_of_ok hreject]
    exact finishGraph_infinite hconstraints hcriteria hversion

/-! ### Well-formed graphs -/

theorem WorkEdge.ne_of_make {graphId srcId dstId : Json} {e : WorkEdge}
    (h : WorkEdge.make graphId srcId dstId = .ok e) : e.srcId ≠ e.dstId := by
  rw [WorkEdge.make] at h
  obtain ⟨g, -, h⟩ := except_bind_eq_ok.1 h
  obtain ⟨s, -, h⟩ := except_bind_eq_ok.1 h
  obtain ⟨d, -, h⟩ := except_bind_eq_ok.1 h
  split_ifs at h with hne
  cases h
  exact hne

theorem WorkGraph.nodes_of_make {id objective status : Json} {version : ℤ} {nodes : List WorkNode}
    {edges : List WorkEdge} {constraints successCriteria : List Json} {g : WorkGraph}
    (h : WorkGraph.make id objective status version nodes edges constraints
      successCriteria = .ok g) :
    g.nodes = nodes := by
  rw [WorkGraph.make] at h
  obtain ⟨id, -, h⟩ := except_bind_eq_ok.1 h
  obtain ⟨objective, -, h⟩ := except_bind_eq_ok.1 h
  split_ifs at h
  obtain ⟨status, -, h⟩ := except_bind_eq_ok.1 h
  split at h
  · cases h
  · cases h
  · cases h
    rfl

/-- The nodes of a compiled graph are those of the spec, sorted. -/
theorem nodes_of_compileWorkGraph {spec : Json} {g : CompiledGraph}
    (h : compileWorkGraph spec = .ok g) :
    ∃ nodes, NodesPass spec nodes ∧ ∀ n ∈ g.nodes, n ∈ nodes.map (·.toWorkNode) := by
  rcases compileWorkGraph_nodes spec with ⟨nodes, hnodes, heq⟩ | ⟨-, e, -, he⟩
  · refine ⟨nodes, hnodes, fun n hn => ?_⟩
    rw [heq] at h
    obtain ⟨items, -, h⟩ := except_bind_eq_ok.1 h
    obtain ⟨edges, -, h⟩ := except_bind_eq_ok.1 h
    obtain ⟨⟨⟩, -, h⟩ := except_bind_eq_ok.1 h
    obtain ⟨⟨⟩, -, h⟩ := except_bind_eq_ok.1 h
    obtain ⟨constraints, -, h⟩ := except_bind_eq_ok.1 (asWorkGraphError_eq_ok.1 h)
    obtain ⟨criteria, -, h⟩ := except_bind_eq_ok.1 h
    obtain ⟨version, -, h⟩ := except_bind_eq_ok.1 h
    obtain ⟨metadata, -, h⟩ := except_bind_eq_ok.1 h
    obtain ⟨graph, hmake, h⟩ := except_bind_eq_ok.1 h
    cases h
    rw [WorkGraph.nodes_of_make hmake] at hn
    exact (List.mem_insertionSort _).1 hn
  · rw [he] at h
    cases h

/-- **A graph that the compiler returns is well formed.** -/
theorem wellFormed_of_compileWorkGraph {spec : Json} {g : CompiledGraph}
    (h : compileWorkGraph spec = .ok g) : g.WellFormed := by
  have hg := compileWorkGraph_spec h
  obtain ⟨nodes, hnodes, hmem⟩ := nodes_of_compileWorkGraph h
  refine ⟨?_, fun e he => ⟨WorkEdge.ne_of_make (hg.edges e he), hg.ends e he⟩, hg.acyclic,
    fun n hn => (hg.nodes n hn).2, fun e he => ?_, fun n hn => ?_⟩
  · have hsorted : (g.nodes.map (·.id)).Pairwise (· ≤ ·) := List.pairwise_map.2 hg.sorted
    exact (hsorted.and hg.nodup).imp fun h => lt_of_le_of_ne h.1 h.2
  · exact (Json.str.inj (WorkEdge.make_again (hg.edges e he)).1).symm
  · obtain ⟨items, -, -, hpass⟩ := hnodes.pass
    obtain ⟨node, hnode, rfl⟩ := List.mem_map.1 (hmem n hn)
    obtain ⟨raw, -, hraw⟩ := exists_of_mem_forall₂ hpass hnode
    exact approval_of_nodeOfSpec hraw

/-- **The compiler as a validator.**  It raises `WorkGraphError` or returns a well-formed graph
exactly if the spec does not escape. -/
theorem compileWorkGraph_raises_iff (spec : Json) :
    ((∃ message, compileWorkGraph spec = .error (.workGraph message)) ∨
      ∃ g, compileWorkGraph spec = .ok g ∧ g.WellFormed) ↔ ¬ Escapes spec := by
  constructor
  · intro h hescapes
    rcases compileWorkGraph_of_escapes hescapes with he | he
    · rcases h with ⟨message, h⟩ | ⟨g, h, -⟩
      · rw [he] at h
        cases h
      · rw [he] at h
        cases h
    · rcases h with ⟨message, h⟩ | ⟨g, h, -⟩
      · rw [he] at h
        cases h
      · rw [he] at h
        cases h
  · intro hescapes
    cases h : compileWorkGraph spec with
    | ok g => exact .inr ⟨g, rfl, wellFormed_of_compileWorkGraph h⟩
    | error e =>
      obtain ⟨message, rfl⟩ := (raises_compileWorkGraph spec e h).resolve_right hescapes
      exact .inl ⟨message, rfl⟩

/-- A spec with one task and the edges given. -/
def oneTask (edges version : Json) : Json :=
  .mkObj [("id", .str "g"), ("objective", .str "o"),
    ("nodes", .arr [.mkObj [("id", .str "a"), ("objective", .str "x")]]), ("edges", edges),
    ("version", version)]

example : compileWorkGraph (oneTask (.arr []) (.float ⟨"Infinity", .inr (by decide)⟩)) =
    .error .infiniteFloat := by decide +kernel

/-- With `null` for the edges, a `TypeError` is raised. -/
theorem compileWorkGraph_escapes_null :
    ¬ ∀ spec, (∃ message, compileWorkGraph spec = .error (.workGraph message)) ∨
      ∃ g, compileWorkGraph spec = .ok g ∧ g.WellFormed := by
  intro h
  have hnull : compileWorkGraph (oneTask .null (.int 1)) = .error .typeError := by decide +kernel
  rcases h (oneTask .null (.int 1)) with ⟨message, hmessage⟩ | ⟨g, hg, -⟩
  · rw [hnull] at hmessage
    cases hmessage
  · rw [hnull] at hg
    cases hg

end Shiroe
