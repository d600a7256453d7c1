import Shiroe.Work.Compiler
import Shiroe.Lib.Act
import Shiroe.Lib.Digraph

/-!
# What the compiler makes sure of

A graph that `compile_work_graph` returns has passed the constructors of its parts and the search
for cycles, whose last list of visited nodes shows that there is none.

* `compileWorkGraph_spec` : what holds of every compiled graph.
-/

namespace Shiroe

open Act

/-! ### Values that a constructor lets through again -/

theorem requireText_eq_ok {x : Json} {name s : String} :
    requireText x name = .ok s ↔ x = .str s ∧ blank s = false := by
  unfold requireText
  split
  · rename_i t
    by_cases h : blank t = true
    · rw [if_pos h]
      simp only [reduceCtorEq, false_iff, not_and, Json.str.injEq]
      rintro rfl
      simp [h]
    · rw [if_neg h, Except.ok.injEq, Json.str.injEq]
      exact ⟨fun h' => ⟨h', by rw [← h']; simpa using h⟩, fun h' => h'.1⟩
  · rename_i hx
    simp only [reduceCtorEq, false_iff, not_and]
    exact fun h => absurd h (hx s)

theorem requireText_str {s name : String} (h : blank s = false) :
    requireText (.str s) name = .ok s := requireText_eq_ok.2 ⟨rfl, h⟩

theorem Json.toDict_of_isObj {d : Json} (h : d.isObj = true) : d.toDict = .ok d := by
  cases d with
  | obj => rfl
  | _ => cases h

theorem mem_dictInsert {k : String} {v : Json} {d : List (String × Json)} {kv : String × Json}
    (h : kv ∈ Json.dictInsert k v d) : kv = (k, v) ∨ kv ∈ d := by
  induction d with
  | nil => exact Or.inl (List.mem_singleton.1 h)
  | cons kv' d ih =>
    rw [Json.dictInsert] at h
    split_ifs at h
    · exact List.mem_cons.1 h
    · exact (List.mem_cons.1 h).imp_right (List.mem_cons_of_mem _)
    · rcases List.mem_cons.1 h with rfl | h
      · exact Or.inr List.mem_cons_self
      · exact (ih h).imp_right (List.mem_cons_of_mem _)

/-- A call with keyword arguments that the class has. -/
theorem kwargs_mkObj {params : List String} {fields : List (String × Json)}
    (h : ∀ kv ∈ fields, kv.1 ∈ params) :
    Json.kwargs params (.mkObj fields) = .ok (.mkObj fields) := by
  have hall : ∀ kv ∈ fields.foldr (fun kv d => Json.dictInsert kv.1 kv.2 d) [],
      kv.1 ∈ params := by
    induction fields with
    | nil => exact fun _ hkv => absurd hkv List.not_mem_nil
    | cons kv fields ih =>
      intro kv' hkv'
      rcases mem_dictInsert hkv' with rfl | hmem
      · exact h kv List.mem_cons_self
      · exact ih (fun _ hmem => h _ (List.mem_cons_of_mem _ hmem)) kv' hmem
  exact if_pos (by simpa [List.all_eq_true] using hall)

theorem RetryPolicy.make_toJson {r : RetryPolicy} (h₁ : r.maxAttempts.lessThan 1 = .ok false)
    (h₂ : r.backoffS.lessThan 0 = .ok false) : RetryPolicy.make r.toJson = .ok r := by
  have hmax : r.toJson.getD "max_attempts" ({} : RetryPolicy).maxAttempts = r.maxAttempts := by
    simp [RetryPolicy.toJson, Json.getD]
  have hback : r.toJson.getD "backoff_s" ({} : RetryPolicy).backoffS = r.backoffS := by
    simp [RetryPolicy.toJson, Json.getD, List.lookup]
  have hd : Json.kwargs ["max_attempts", "backoff_s"] r.toJson = .ok r.toJson :=
    kwargs_mkObj (by simp)
  rw [RetryPolicy.make, hd]
  refine except_bind_eq_ok.2 ⟨r.toJson, rfl, ?_⟩
  refine except_bind_eq_ok.2 ⟨false, by rw [hmax, h₁], ?_⟩
  exact except_bind_eq_ok.2 ⟨false, by rw [hback, h₂], by rw [hmax, hback]; rfl⟩

theorem RetryPolicy.make_again {x : Json} {r : RetryPolicy} (h : RetryPolicy.make x = .ok r) :
    RetryPolicy.make r.toJson = .ok r := by
  rw [RetryPolicy.make] at h
  obtain ⟨d, -, h₀⟩ := except_bind_eq_ok.1 h
  obtain ⟨b, hb, h₁⟩ := except_bind_eq_ok.1 h₀
  split_ifs at h₁ with hb₁
  obtain ⟨b', hb', h₂⟩ := except_bind_eq_ok.1 h₁
  split_ifs at h₂ with hb₂
  rw [← Except.ok.inj h₂]
  exact make_toJson (by simpa [hb₁] using hb) (by simpa [hb₂] using hb')

theorem Placement.make_toJson {p : Placement} (h₁ : ["local", "node"].contains p.mode = true)
    (h₂ : ¬ (p.mode = "node" ∧ p.nodeId.truthy = false))
    (h₃ : ¬ (p.mode = "local" ∧ p.nodeId.isNull = false)) : Placement.make p.toJson = .ok p := by
  have hmode : p.toJson.getD "mode" (.str "local") = .str p.mode := by
    simp [Placement.toJson, Json.getD]
  have hid : p.toJson.get "node_id" = p.nodeId := by
    simp [Placement.toJson, List.lookup]
  have hd : Json.kwargs ["mode", "node_id"] p.toJson = .ok p.toJson := kwargs_mkObj (by simp)
  rw [Placement.make, hd]
  refine except_bind_eq_ok.2 ⟨p.toJson, rfl, ?_⟩
  simp only [hmode, hid]
  rw [if_neg (by rw [h₁]; decide), if_neg h₂, if_neg h₃]

theorem Placement.make_again {x : Json} {p : Placement} (h : Placement.make x = .ok p) :
    Placement.make p.toJson = .ok p := by
  rw [Placement.make] at h
  obtain ⟨d, -, h₀⟩ := except_bind_eq_ok.1 h
  dsimp only at h₀
  split at h₀
  · split_ifs at h₀ with h₁ h₂ h₃
    rw [← Except.ok.inj h₀]
    exact make_toJson (Bool.not_eq_false _ ▸ h₁) h₂ h₃
  · cases h₀
  · cases h₀
  · cases h₀

/-- What the constructors have looked at in a node. -/
structure WorkNode.Checked (n : WorkNode) : Prop where
  id : blank n.id = false
  graphId : blank n.graphId = false
  objective : blank n.objective = false
  metadata : n.metadata.isObj = true
  retry : RetryPolicy.make n.retry.toJson = .ok n.retry
  placement : Placement.make n.placement.toJson = .ok n.placement

@[simp] theorem memberOf?_nodeKind (k : NodeKind) :
    memberOf? NodeKind.all NodeKind.value (.str k.value) = some k := by
  cases k <;> rfl

@[simp] theorem memberOf?_graphStatus (s : GraphStatus) :
    memberOf? GraphStatus.all GraphStatus.value (.str s.value) = some s := by
  cases s <;> rfl

theorem WorkNode.Checked.make {n : WorkNode} (h : n.Checked) :
    WorkNode.make { id := .str n.id, graphId := .str n.graphId, kind := .str n.kind.value,
                    objective := .str n.objective, metadata := n.metadata }
      n.requires n.risk n.approvalRequired n.independentReview n.evidenceRequired
      n.expectedOutputs n.retry n.placement = .ok n := by
  simp only [WorkNode.make, requireText_str h.id, requireText_str h.graphId,
    requireText_str h.objective, coerceEnum, memberOf?_nodeKind, Json.toDict_of_isObj h.metadata]
  rfl

theorem WorkNode.checked_of_make {f : NodeFields} {requires : List Json} {risk : Json}
    {approvalRequired independentReview evidenceRequired : Bool} {expectedOutputs : List Json}
    {retry : RetryPolicy} {placement : Placement} {n : WorkNode}
    (hretry : RetryPolicy.make retry.toJson = .ok retry)
    (hplacement : Placement.make placement.toJson = .ok placement)
    (h : WorkNode.make f requires risk approvalRequired independentReview evidenceRequired
      expectedOutputs retry placement = .ok n) : n.Checked ∧ f.graphId = .str n.graphId := by
  rw [WorkNode.make] at h
  obtain ⟨id, hid, h₁⟩ := except_bind_eq_ok.1 h
  obtain ⟨graphId, hgraph, h₂⟩ := except_bind_eq_ok.1 h₁
  obtain ⟨objective, hobjective, h₃⟩ := except_bind_eq_ok.1 h₂
  obtain ⟨kind, -, h₄⟩ := except_bind_eq_ok.1 h₃
  obtain ⟨metadata, hmetadata, h₅⟩ := except_bind_eq_ok.1 h₄
  rw [← Except.ok.inj h₅]
  exact ⟨⟨(requireText_eq_ok.1 hid).2, (requireText_eq_ok.1 hgraph).2,
    (requireText_eq_ok.1 hobjective).2, Json.isObj_toDict hmetadata, hretry, hplacement⟩,
    (requireText_eq_ok.1 hgraph).1⟩

theorem asWorkGraphError_eq_ok {α : Type} {x : Except Exc α} {a : α} :
    asWorkGraphError x = .ok a ↔ x = .ok a := by
  unfold asWorkGraphError
  split <;> simp

theorem checked_of_nodeOfSpec {graphId raw : Json} {n : SpecNode}
    (h : nodeOfSpec graphId raw = .ok n) : n.Checked ∧ graphId = .str n.graphId := by
  rw [nodeOfSpec] at h
  split_ifs at h
  obtain ⟨node, hnode, h₁⟩ := except_bind_eq_ok.1 h
  split_ifs at h₁
  cases h₁
  obtain ⟨metadata, -, h₂⟩ := except_bind_eq_ok.1 (asWorkGraphError_eq_ok.1 hnode)
  split_ifs at h₂
  obtain ⟨retry, hretry, h₃⟩ := except_bind_eq_ok.1 h₂
  obtain ⟨placement, hplacement, h₄⟩ := except_bind_eq_ok.1 h₃
  obtain ⟨requires, -, h₅⟩ := except_bind_eq_ok.1 h₄
  obtain ⟨outputs, -, h₆⟩ := except_bind_eq_ok.1 h₅
  obtain ⟨made, hmade, h₇⟩ := except_bind_eq_ok.1 h₆
  cases h₇
  exact WorkNode.checked_of_make (RetryPolicy.make_again hretry) (Placement.make_again hplacement)
    hmade

/-! ### The search for cycles -/

namespace Dfs

variable {outgoing : String → List String} {nodeIds : List String} {s s' : Dfs}

/-- The nodes on the stack. -/
def onStack (s : Dfs) : List String := s.stack.map Prod.fst

/-- Every child of a node on the stack is left to look at, has been visited or stands on the stack
right above the node. -/
def Accounted (outgoing : String → List String) (visited : List String) :
    Option String → List (String × List String) → Prop
  | _, [] => True
  | above, (x, left) :: stack =>
    (∀ y ∈ outgoing x, y ∈ left ∨ y ∈ visited ∨ some y = above) ∧
      Accounted outgoing visited (some x) stack

theorem Accounted.pop {visited : List String} {x : String} {stack : List (String × List String)}
    (h : Accounted outgoing visited (some x) stack) :
    Accounted outgoing (x :: visited) none stack := by
  have hmono : ∀ {above stack}, Accounted outgoing visited above stack →
      Accounted outgoing (x :: visited) above stack := by
    intro above stack h
    induction stack generalizing above with
    | nil => trivial
    | cons p stack ih =>
      exact ⟨fun y hy => (h.1 y hy).imp_right (Or.imp_left (List.mem_cons_of_mem _)), ih h.2⟩
  cases stack with
  | nil => trivial
  | cons p stack =>
    refine ⟨fun y hy => ?_, hmono h.2⟩
    rcases h.1 y hy with hleft | hvisited | habove
    · exact Or.inl hleft
    · exact Or.inr (Or.inl (List.mem_cons_of_mem _ hvisited))
    · exact Or.inr (Or.inl (Option.some.inj habove ▸ List.mem_cons_self))

/-- The passes that nodes still to be entered and the stack take: one for each node and one for
each child. -/
def cost (outgoing : String → List String) (fresh : List String)
    (stack : List (String × List String)) : ℕ :=
  (fresh.map fun x => 1 + (outgoing x).length).sum + (stack.map fun p => 1 + p.2.length).sum

/-- What holds of the search between two passes: the visited nodes stand in front of their
children, and `fuel` passes are enough. -/
structure Searching (outgoing : String → List String) (nodeIds : List String) (fuel : ℕ)
    (s : Dfs) : Prop where
  finished : Digraph.Finished (fun x y => y ∈ outgoing x) s.visited
  accounted : Accounted outgoing s.visited none s.stack
  left : ∀ p ∈ s.stack, ∀ y ∈ p.2, y ∈ nodeIds
  visiting : ∀ x ∈ s.onStack, x ∈ s.visiting
  nodup : s.onStack.Nodup
  fresh : ∃ fresh, (∀ x ∈ nodeIds, x ∈ fresh ∨ x ∈ s.onStack ∨ x ∈ s.visited) ∧
    cost outgoing fresh s.stack ≤ fuel

/-- A node that is on the stack or visited stays one of these. -/
def Reaches (s s' : Dfs) : Prop :=
  ∀ x, x ∈ s.onStack ∨ x ∈ s.visited → x ∈ s'.onStack ∨ x ∈ s'.visited

theorem Searching.step {fuel : ℕ} (hout : ∀ x ∈ nodeIds, ∀ y ∈ outgoing x, y ∈ nodeIds)
    (h : Searching outgoing nodeIds (fuel + 1) s) (hne : s.stack ≠ [])
    (hs : s.step outgoing = .ok s') : Searching outgoing nodeIds fuel s' ∧ Reaches s s' := by
  obtain ⟨visiting, visited, stack⟩ := s
  obtain ⟨hfin, hacc, hleft, hvis, hnodup, fresh, hcover, hcost⟩ := h
  obtain _ | ⟨⟨x, _ | ⟨y, left⟩⟩, stack⟩ := stack
  · exact absurd rfl hne
  -- all children of `x` are visited: `x` is finished
  · cases hs
    obtain ⟨hx, hnodup⟩ := List.nodup_cons.1 hnodup
    have hmoved : ∀ z, z ∈ x :: stack.map Prod.fst ∨ z ∈ visited →
        z ∈ stack.map Prod.fst ∨ z ∈ x :: visited := by
      rintro z (hz | hz)
      · rcases List.mem_cons.1 hz with rfl | hz
        · exact Or.inr List.mem_cons_self
        · exact Or.inl hz
      · exact Or.inr (List.mem_cons_of_mem _ hz)
    refine ⟨⟨.cons (fun z hz => ?_) hfin, hacc.2.pop,
      fun p hp => hleft p (List.mem_cons_of_mem _ hp), fun z hz => ?_, hnodup, fresh,
      fun z hz => (hcover z hz).imp_right (hmoved z), ?_⟩, hmoved⟩
    · rcases hacc.1 z hz with h | h | h
      · cases h
      · exact h
      · cases h
    · exact List.mem_filter.2 ⟨hvis z (List.mem_cons_of_mem _ hz),
        by simpa using fun heq : z = x => hx (heq ▸ hz)⟩
    · simp only [cost, List.map_cons, List.sum_cons, List.length_nil] at hcost ⊢
      omega
  · have hy : y ∈ nodeIds := hleft _ List.mem_cons_self y List.mem_cons_self
    rw [Dfs.step] at hs
    dsimp only at hs
    split_ifs at hs with h₁ h₂
    -- the child is visited already
    · cases hs
      refine ⟨⟨hfin, ⟨fun z hz => ?_, hacc.2⟩, ?_, hvis, hnodup, fresh, hcover, ?_⟩,
        fun z hz => hz⟩
      · rcases hacc.1 z hz with h | h | h
        · rcases List.mem_cons.1 h with rfl | h
          · exact Or.inr (Or.inl h₂)
          · exact Or.inl h
        · exact Or.inr (Or.inl h)
        · cases h
      · intro p hp z hz
        rcases List.mem_cons.1 hp with rfl | hp
        · exact hleft _ List.mem_cons_self z (List.mem_cons_of_mem _ hz)
        · exact hleft p (List.mem_cons_of_mem _ hp) z hz
      · simp only [cost, List.map_cons, List.sum_cons, List.length_cons] at hcost ⊢
        omega
    -- the child is entered
    · cases hs
      have hstack : y ∉ x :: stack.map Prod.fst := fun h => h₁ (hvis y h)
      have hfresh : y ∈ fresh := by
        rcases hcover y hy with h | h | h
        · exact h
        · exact absurd h hstack
        · exact absurd h h₂
      have hsum : (fresh.map fun z => 1 + (outgoing z).length).sum =
          1 + (outgoing y).length + ((fresh.erase y).map fun z => 1 + (outgoing z).length).sum :=
        (List.sum_map_erase _ hfresh).symm
      refine ⟨⟨hfin, ⟨fun z hz => Or.inl hz, fun z hz => ?_, hacc.2⟩, ?_, ?_, ?_,
        fresh.erase y, fun z hz => ?_, ?_⟩, fun z hz => ?_⟩
      · rcases hacc.1 z hz with h | h | h
        · rcases List.mem_cons.1 h with rfl | h
          · exact Or.inr (Or.inr rfl)
          · exact Or.inl h
        · exact Or.inr (Or.inl h)
        · cases h
      · intro p hp z hz
        rcases List.mem_cons.1 hp with rfl | hp
        · exact hout y hy z hz
        · rcases List.mem_cons.1 hp with rfl | hp
          · exact hleft _ List.mem_cons_self z (List.mem_cons_of_mem _ hz)
          · exact hleft p (List.mem_cons_of_mem _ hp) z hz
      · intro z hz
        rcases List.mem_cons.1 hz with rfl | hz
        · exact List.mem_cons_self
        · exact List.mem_cons_of_mem _ (hvis z hz)
      · exact List.nodup_cons.2 ⟨hstack, hnodup⟩
      · by_cases hzy : z = y
        · exact Or.inr (Or.inl (hzy ▸ List.mem_cons_self))
        · rcases hcover z hz with h | h | h
          · exact Or.inl ((List.mem_erase_of_ne hzy).2 h)
          · exact Or.inr (Or.inl (List.mem_cons_of_mem _ h))
          · exact Or.inr (Or.inr h)
      · simp only [cost, List.map_cons, List.sum_cons, List.length_cons] at hcost ⊢
        omega
      · exact hz.imp_left (List.mem_cons_of_mem _)

/-- **The inner loop ends with an empty stack**, every node on the stack visited. -/
theorem Searching.run {fuel : ℕ} (hout : ∀ x ∈ nodeIds, ∀ y ∈ outgoing x, y ∈ nodeIds)
    (h : Searching outgoing nodeIds fuel s) (hs : s.run outgoing fuel = .ok s') :
    Searching outgoing nodeIds fuel s' ∧ s'.stack = [] ∧ Reaches s s' := by
  induction fuel generalizing s with
  | zero =>
    cases hs
    obtain ⟨fresh, -, hcost⟩ := h.fresh
    refine ⟨h, ?_, fun _ hx => hx⟩
    cases hstack : s'.stack with
    | nil => rfl
    | cons p stack =>
      simp only [cost, hstack, List.map_cons, List.sum_cons] at hcost
      omega
  | succ fuel ih =>
    rw [Dfs.run] at hs
    split_ifs at hs with hnil
    · cases hs
      exact ⟨h, hnil, fun _ hx => hx⟩
    · obtain ⟨s₁, hs₁, hs⟩ := except_bind_eq_ok.1 hs
      obtain ⟨h₁, hr₁⟩ := h.step hout hnil hs₁
      obtain ⟨⟨hfin, hacc, hleft, hvis, hnodup, fresh, hcover, hcost⟩, hnil', hr⟩ := ih h₁ hs
      exact ⟨⟨hfin, hacc, hleft, hvis, hnodup, fresh, hcover, by omega⟩, hnil',
        fun x hx => hr x (hr₁ x hx)⟩

/-- The search before its first root: nothing is visited, and no pass has been taken. -/
theorem Searching.start {fuel : ℕ}
    (hfuel : (nodeIds.map fun x => 1 + (outgoing x).length).sum ≤ fuel) :
    Searching outgoing nodeIds fuel { visiting := [], visited := [], stack := [] } where
  finished := .nil
  accounted := trivial
  left := fun _ hp => absurd hp List.not_mem_nil
  visiting := fun _ hx => absurd hx List.not_mem_nil
  nodup := List.nodup_nil
  fresh := ⟨nodeIds, fun _ hx => Or.inl hx, by simpa [cost] using hfuel⟩

/-- A root that has not been visited is entered. -/
theorem Searching.enter {fuel : ℕ} (hout : ∀ x ∈ nodeIds, ∀ y ∈ outgoing x, y ∈ nodeIds)
    (h : Searching outgoing nodeIds fuel s) (hnil : s.stack = []) {root : String}
    (hroot : root ∈ nodeIds) (hnew : root ∉ s.visited) :
    Searching outgoing nodeIds fuel
      { s with visiting := root :: s.visiting, stack := [(root, outgoing root)] } := by
  obtain ⟨fresh, hcover, hcost⟩ := h.fresh
  have hon : s.onStack = [] := by rw [onStack, hnil, List.map_nil]
  have hfresh : root ∈ fresh := by
    rcases hcover root hroot with h | h | h
    · exact h
    · rw [hon] at h
      cases h
    · exact absurd h hnew
  refine ⟨h.finished, ⟨fun y hy => Or.inl hy, trivial⟩, fun p hp y hy => ?_, fun x hx => ?_,
    List.nodup_singleton root, fresh.erase root, fun x hx => ?_, ?_⟩
  · rw [List.mem_singleton.1 hp] at hy
    exact hout root hroot y hy
  · rw [List.mem_singleton.1 hx]
    exact List.mem_cons_self
  · by_cases hxr : x = root
    · exact Or.inr (Or.inl (hxr ▸ List.mem_cons_self))
    · rcases hcover x hx with h | h | h
      · exact Or.inl ((List.mem_erase_of_ne hxr).2 h)
      · rw [hon] at h
        cases h
      · exact Or.inr (Or.inr h)
  · have hsum : (fresh.map fun z => 1 + (outgoing z).length).sum =
        1 + (outgoing root).length +
          ((fresh.erase root).map fun z => 1 + (outgoing z).length).sum :=
      (List.sum_map_erase _ hfresh).symm
    simp only [cost, hnil, List.map_nil, List.sum_nil, List.map_cons, List.sum_cons] at hcost ⊢
    omega

/-- The search from each of the roots in turn visits them all. -/
theorem Searching.roots {fuel : ℕ} (hout : ∀ x ∈ nodeIds, ∀ y ∈ outgoing x, y ∈ nodeIds)
    {roots : List String} (hroots : ∀ x ∈ roots, x ∈ nodeIds)
    (h : Searching outgoing nodeIds fuel s) (hnil : s.stack = [])
    (hs : roots.foldlM (fun (s : Dfs) root =>
      if root ∈ s.visited then .ok s
      else
        { s with visiting := root :: s.visiting, stack := [(root, outgoing root)] }.run outgoing
          fuel) s = .ok s') :
    Searching outgoing nodeIds fuel s' ∧ s'.stack = [] ∧ (∀ x ∈ s.visited, x ∈ s'.visited) ∧
      ∀ x ∈ roots, x ∈ s'.visited := by
  induction roots generalizing s with
  | nil =>
    cases hs
    exact ⟨h, hnil, fun _ hx => hx, fun _ hx => absurd hx List.not_mem_nil⟩
  | cons root roots ih =>
    rw [List.foldlM_cons] at hs
    obtain ⟨s₁, hs₁, hs⟩ := except_bind_eq_ok.1 hs
    have hsub : ∀ x ∈ roots, x ∈ nodeIds := fun x hx => hroots x (List.mem_cons_of_mem _ hx)
    -- the root is visited after its own search, if not before it
    have hroot : Searching outgoing nodeIds fuel s₁ ∧ s₁.stack = [] ∧
        (∀ x ∈ s.visited, x ∈ s₁.visited) ∧ root ∈ s₁.visited := by
      split_ifs at hs₁ with hmem
      · cases hs₁
        exact ⟨h, hnil, fun _ hx => hx, hmem⟩
      · obtain ⟨h₁, hnil₁, hr₁⟩ :=
          (h.enter hout hnil (hroots root List.mem_cons_self) hmem).run hout hs₁
        have hvisited : ∀ x, x ∈ s₁.onStack ∨ x ∈ s₁.visited → x ∈ s₁.visited := by
          intro x hx
          rw [onStack, hnil₁] at hx
          exact hx.resolve_left List.not_mem_nil
        exact ⟨h₁, hnil₁, fun x hx => hvisited x (hr₁ x (Or.inr hx)),
          hvisited root (hr₁ root (Or.inl List.mem_cons_self))⟩
    obtain ⟨h₁, hnil₁, hmono₁, hroot₁⟩ := hroot
    obtain ⟨h₂, hnil₂, hmono₂, hall⟩ := ih hsub h₁ hnil₁ hs
    exact ⟨h₂, hnil₂, fun x hx => hmono₂ x (hmono₁ x hx),
      List.forall_mem_cons.2 ⟨hmono₂ root hroot₁, hall⟩⟩

end Dfs

/-- Some edge leads from the one node to the other. -/
def Leads (edges : List WorkEdge) (x y : String) : Prop := ∃ e ∈ edges, e.srcId = x ∧ e.dstId = y

theorem mem_outgoing {edges : List WorkEdge} {x y : String} :
    y ∈ (edges.filter (·.srcId = x)).map (·.dstId) ↔ Leads edges x y := by
  simp only [List.mem_map, List.mem_filter, decide_eq_true_eq, Leads, and_assoc]

/-- Every edge starts at one node at most. -/
theorem sum_outgoing_le {nodeIds : List String} (h : nodeIds.Nodup) (edges : List WorkEdge) :
    (nodeIds.map fun x => (edges.filter (·.srcId = x)).length).sum ≤ edges.length := by
  induction nodeIds generalizing edges with
  | nil => exact Nat.zero_le _
  | cons x nodeIds ih =>
    obtain ⟨hx, hnodup⟩ := List.nodup_cons.1 h
    have hrest := ih hnodup (edges.filter fun e => !decide (e.srcId = x))
    have hsame : ∀ y ∈ nodeIds, ((edges.filter fun e => !decide (e.srcId = x)).filter
        (·.srcId = y)).length = (edges.filter (·.srcId = y)).length := by
      intro y hy
      rw [List.filter_filter]
      congr 1
      refine List.filter_congr fun e _ => ?_
      by_cases hey : e.srcId = y
      · have hyx : y ≠ x := fun h => hx (h ▸ hy)
        simp [hey, hyx]
      · simp [hey]
    rw [List.map_congr_left hsame] at hrest
    have hsplit := List.length_eq_length_filter_add (l := edges) fun e => decide (e.srcId = x)
    rw [List.map_cons, List.sum_cons]
    omega

/-- **A graph that the search lets through has no cycle.** -/
theorem acyclic_of_rejectCycles {nodeIds : List String} {edges : List WorkEdge}
    (hnodup : nodeIds.Nodup) (hends : ∀ e ∈ edges, e.srcId ∈ nodeIds ∧ e.dstId ∈ nodeIds)
    (h : rejectCycles nodeIds edges = .ok ()) : Digraph.Acyclic (Leads edges) := by
  obtain ⟨s, hs, -⟩ := except_bind_eq_ok.1 h
  have hout : ∀ x ∈ nodeIds, ∀ y ∈ (edges.filter (·.srcId = x)).map (·.dstId), y ∈ nodeIds := by
    intro x _ y hy
    obtain ⟨e, he, -, rfl⟩ := mem_outgoing.1 hy
    exact (hends e he).2
  have hfuel : (nodeIds.map fun x =>
      1 + ((edges.filter (·.srcId = x)).map (·.dstId)).length).sum ≤
      nodeIds.length + edges.length := by
    have hsum := sum_outgoing_le hnodup edges
    simp only [List.length_map, List.sum_map_add]
    simpa using hsum
  obtain ⟨hfin, -, -, hall⟩ := Dfs.Searching.roots hout
    (fun x hx => (List.mem_insertionSort _).1 hx) (.start hfuel) rfl hs
  have hE : (fun x y => y ∈ (edges.filter (·.srcId = x)).map (·.dstId)) = Leads edges := by
    funext x y
    exact propext mem_outgoing
  rw [← hE]
  refine hfin.finished.acyclic fun x y hxy => hall x ((List.mem_insertionSort _).2 ?_)
  obtain ⟨e, he, rfl, -⟩ := mem_outgoing.1 hxy
  exact (hends e he).1

/-! ### Compiled graphs -/

/-- What holds of a graph that has passed the constructors and the checks of the compiler. -/
structure WorkGraph.Compiled (g : WorkGraph) : Prop where
  id : blank g.id = false
  objective : blank g.objective = false
  version : 1 ≤ g.version
  nodes : ∀ n ∈ g.nodes, n.Checked ∧ n.graphId = g.id
  nodup : (g.nodes.map (·.id)).Nodup
  sorted : g.nodes.Pairwise (·.id ≤ ·.id)
  edges : ∀ e ∈ g.edges, WorkEdge.make (.str g.id) (.str e.srcId) (.str e.dstId) = .ok e
  ends : ∀ e ∈ g.edges, e.srcId ∈ g.nodes.map (·.id) ∧ e.dstId ∈ g.nodes.map (·.id)
  edgesSorted : g.edges.Pairwise WorkEdge.Le
  acyclic : Digraph.Acyclic (Leads g.edges)

theorem exists_of_mem_forall₂ {α β : Type} {R : α → β → Prop} {l : List α} {bs : List β}
    (h : List.Forall₂ R l bs) {b : β} (hb : b ∈ bs) : ∃ a ∈ l, R a b := by
  induction h with
  | nil => cases hb
  | cons hab _ ih =>
    rcases List.mem_cons.1 hb with rfl | hb
    · exact ⟨_, List.mem_cons_self, hab⟩
    · obtain ⟨a, ha, h⟩ := ih hb
      exact ⟨a, List.mem_cons_of_mem _ ha, h⟩

theorem WorkEdge.make_again {graphId srcId dstId : Json} {e : WorkEdge}
    (h : WorkEdge.make graphId srcId dstId = .ok e) :
    graphId = .str e.graphId ∧
      WorkEdge.make (.str e.graphId) (.str e.srcId) (.str e.dstId) = .ok e := by
  rw [WorkEdge.make] at h
  obtain ⟨g, hg, h₁⟩ := except_bind_eq_ok.1 h
  obtain ⟨s, hs, h₂⟩ := except_bind_eq_ok.1 h₁
  obtain ⟨d, hd, h₃⟩ := except_bind_eq_ok.1 h₂
  split_ifs at h₃ with hne
  rw [← Except.ok.inj h₃]
  obtain ⟨hg, hgb⟩ := requireText_eq_ok.1 hg
  refine ⟨hg, ?_⟩
  simp only [WorkEdge.make, requireText_str hgb, requireText_str (requireText_eq_ok.1 hs).2,
    requireText_str (requireText_eq_ok.1 hd).2]
  exact if_neg hne

theorem checked_of_edgeOfSpec {graphId raw : Json} {e : WorkEdge}
    (h : edgeOfSpec graphId raw = .ok e) : graphId = .str e.graphId ∧
      WorkEdge.make (.str e.graphId) (.str e.srcId) (.str e.dstId) = .ok e := by
  rw [edgeOfSpec] at h
  split_ifs at h
  exact WorkEdge.make_again (asWorkGraphError_eq_ok.1 h)

theorem checked_of_nodesOfSpec {graphId : Json} {items : List Json} {nodes : List SpecNode}
    (h : nodesOfSpec graphId items = .ok nodes) :
    (∀ n ∈ nodes, n.Checked ∧ graphId = .str n.graphId) ∧ (nodes.map (·.id)).Nodup := by
  refine except_foldlM_keeps (I := fun nodes : List SpecNode =>
    (∀ n ∈ nodes, n.Checked ∧ graphId = .str n.graphId) ∧ (nodes.map (·.id)).Nodup)
    (fun nodes item _ nodes' hI hstep => ?_) ⟨fun _ hn => absurd hn List.not_mem_nil,
      List.nodup_nil⟩ h
  obtain ⟨node, hnode, hstep⟩ := except_bind_eq_ok.1 hstep
  split_ifs at hstep with hany
  cases hstep
  refine ⟨fun n hn => ?_, ?_⟩
  · rcases List.mem_append.1 hn with hn | hn
    · exact hI.1 n hn
    · exact List.mem_singleton.1 hn ▸ checked_of_nodeOfSpec hnode
  · rw [List.map_append, List.map_singleton, List.nodup_append]
    refine ⟨hI.2, List.nodup_singleton _, fun x hx y hy hxy => hany ?_⟩
    obtain ⟨n, hn, rfl⟩ := List.mem_map.1 hx
    rw [List.mem_singleton.1 hy] at hxy
    exact List.any_eq_true.2 ⟨n, hn, decide_eq_true hxy⟩

instance : Std.Total WorkEdge.Le where
  total a b := by
    rcases lt_trichotomy a.srcId b.srcId with h | h | h
    · exact Or.inl (Or.inl h)
    · exact (le_total a.dstId b.dstId).imp (fun hd => Or.inr ⟨h, hd⟩) fun hd =>
        Or.inr ⟨h.symm, hd⟩
    · exact Or.inr (Or.inl h)

instance : IsTrans WorkEdge WorkEdge.Le where
  trans a b c hab hbc := by
    rcases hab with hab | ⟨hab, hab'⟩ <;> rcases hbc with hbc | ⟨hbc, hbc'⟩
    · exact Or.inl (hab.trans hbc)
    · exact Or.inl (hbc ▸ hab)
    · exact Or.inl (hab ▸ hbc)
    · exact Or.inr ⟨hab.trans hbc, hab'.trans hbc'⟩

instance : Std.Total fun a b : WorkNode => a.id ≤ b.id where
  total a b := le_total a.id b.id

instance : IsTrans WorkNode fun a b => a.id ≤ b.id where
  trans _ _ _ hab hbc := hab.trans hbc

/-- **What the compiler makes sure of.** -/
theorem compileWorkGraph_spec {spec : Json} {g : CompiledGraph}
    (h : compileWorkGraph spec = .ok g) : g.Compiled := by
  rw [compileWorkGraph] at h
  split_ifs at h
  dsimp only at h
  split at h
  case h_2 => cases h
  case h_1 item items hitems =>
    obtain ⟨nodes, hnodes, h₁⟩ := except_bind_eq_ok.1 h
    obtain ⟨raw, -, h₂⟩ := except_bind_eq_ok.1 h₁
    obtain ⟨edges, hedges, h₃⟩ := except_bind_eq_ok.1 h₂
    obtain ⟨⟨⟩, hcheck, h₄⟩ := except_bind_eq_ok.1 h₃
    obtain ⟨⟨⟩, hcycles, h₅⟩ := except_bind_eq_ok.1 h₄
    obtain ⟨constraints, -, h₆⟩ := except_bind_eq_ok.1 (asWorkGraphError_eq_ok.1 h₅)
    obtain ⟨criteria, -, h₇⟩ := except_bind_eq_ok.1 h₆
    obtain ⟨version, -, h₈⟩ := except_bind_eq_ok.1 h₇
    obtain ⟨metadata, -, h₉⟩ := except_bind_eq_ok.1 h₈
    obtain ⟨graph, hmake, hg⟩ := except_bind_eq_ok.1 h₉
    cases hg
    -- the constructor of the graph
    rw [WorkGraph.make] at hmake
    obtain ⟨id, hid, h₁₀⟩ := except_bind_eq_ok.1 hmake
    obtain ⟨objective, hobjective, h₁₁⟩ := except_bind_eq_ok.1 h₁₀
    split_ifs at h₁₁ with hversion
    obtain ⟨status, -, h₁₂⟩ := except_bind_eq_ok.1 h₁₁
    obtain ⟨hgraph, hidb⟩ := requireText_eq_ok.1 hid
    obtain ⟨hchecked, hnodup⟩ := checked_of_nodesOfSpec hnodes
    split at h₁₂
    case h_1 => cases h₁₂
    case h_2 => cases h₁₂
    case h_3 =>
      cases h₁₂
      have hends : ∀ e ∈ edges.insertionSort WorkEdge.Le,
          e.srcId ∈ nodes.map (·.id) ∧ e.dstId ∈ nodes.map (·.id) := by
        intro e he
        have h := except_forM_eq_ok.1 hcheck e he
        rw [checkEdge] at h
        split_ifs at h with hsrc hdst
        exact ⟨hsrc, hdst⟩
      have hperm : (((nodes.map (·.toWorkNode)).insertionSort (·.id ≤ ·.id)).map (·.id)).Perm
          (nodes.map (·.id)) := by
        refine ((List.perm_insertionSort _ _).map _).trans (.of_eq ?_)
        rw [List.map_map]
        rfl
      refine ⟨hidb, (requireText_eq_ok.1 hobjective).2, not_lt.1 hversion, fun n hn => ?_,
        hperm.nodup_iff.2 hnodup, ?_, fun e he => ?_, fun e he => ?_, ?_,
        acyclic_of_rejectCycles hnodup hends hcycles⟩
      · obtain ⟨n, hmem, rfl⟩ := List.mem_map.1 ((List.mem_insertionSort _).1 hn)
        obtain ⟨hn, hg⟩ := hchecked n hmem
        exact ⟨hn, Json.str.inj (hg.symm.trans hgraph)⟩
      · exact List.pairwise_insertionSort _ _
      · obtain ⟨item, -, hitem⟩ :=
          exists_of_mem_forall₂ (except_mapM_eq_ok.1 hedges) ((List.mem_insertionSort _).1 he)
        obtain ⟨hg, hmake⟩ := checked_of_edgeOfSpec hitem
        rwa [Json.str.inj (hgraph.symm.trans hg)]
      · exact ⟨hperm.mem_iff.2 (hends e he).1, hperm.mem_iff.2 (hends e he).2⟩
      · exact List.pairwise_insertionSort _ edges

end Shiroe
