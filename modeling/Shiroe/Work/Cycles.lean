import Shiroe.Work.Compiled

/-!
# The search for cycles finds every cycle and nothing else

The loops of `_reject_cycles` have no bound; `Dfs.Runs` and `Dfs.RunsRoots` are these loops.  The
search ends on every graph, with the result that `rejectCycles` computes.  It raises only where the
child it looks at stands on the stack: the stack is a walk, and the child closes a cycle.

* `rejectCycles_spec` : the search ends, and raises exactly if the graph has a cycle.
-/

namespace Shiroe

open Act

namespace Dfs

variable {outgoing : String → List String} {nodeIds : List String} {s s' : Dfs}

/-! ### The loops without a bound -/

/-- The inner loop, `while stack`, started in a state, ends with a result. -/
inductive Runs (outgoing : String → List String) : Dfs → Except Exc Dfs → Prop
  | done {s : Dfs} : s.stack = [] → Runs outgoing s (.ok s)
  | raise {s : Dfs} {e : Exc} : s.stack ≠ [] → s.step outgoing = .error e →
      Runs outgoing s (.error e)
  | pass {s s' : Dfs} {r : Except Exc Dfs} : s.stack ≠ [] → s.step outgoing = .ok s' →
      Runs outgoing s' r → Runs outgoing s r

/-- The stack holds a root only. -/
def enter (outgoing : String → List String) (s : Dfs) (root : String) : Dfs :=
  { s with visiting := root :: s.visiting, stack := [(root, outgoing root)] }

/-- The outer loop, over the roots that are left, ends with a result. -/
inductive RunsRoots (outgoing : String → List String) :
    List String → Dfs → Except Exc Dfs → Prop
  | done {s : Dfs} : RunsRoots outgoing [] s (.ok s)
  | skip {root : String} {roots : List String} {s : Dfs} {r : Except Exc Dfs} :
      root ∈ s.visited → RunsRoots outgoing roots s r → RunsRoots outgoing (root :: roots) s r
  | raise {root : String} {roots : List String} {s : Dfs} {e : Exc} :
      root ∉ s.visited → Runs outgoing (s.enter outgoing root) (.error e) →
      RunsRoots outgoing (root :: roots) s (.error e)
  | pass {root : String} {roots : List String} {s s' : Dfs} {r : Except Exc Dfs} :
      root ∉ s.visited → Runs outgoing (s.enter outgoing root) (.ok s') →
      RunsRoots outgoing roots s' r → RunsRoots outgoing (root :: roots) s r

theorem Runs.unique {r r' : Except Exc Dfs} (h : Runs outgoing s r) (h' : Runs outgoing s r') :
    r = r' := by
  induction h with
  | done hnil =>
    cases h' with
    | done => rfl
    | raise hne => exact absurd hnil hne
    | pass hne => exact absurd hnil hne
  | raise hne he =>
    cases h' with
    | done hnil => exact absurd hnil hne
    | raise _ he' =>
      rw [he] at he'
      cases he'
      rfl
    | pass _ hs' =>
      rw [he] at hs'
      cases hs'
  | pass hne hs _ ih =>
    cases h' with
    | done hnil => exact absurd hnil hne
    | raise _ he' =>
      rw [hs] at he'
      cases he'
    | pass _ hs' h' =>
      rw [hs] at hs'
      cases hs'
      exact ih h'

theorem RunsRoots.unique {roots : List String} {r r' : Except Exc Dfs}
    (h : RunsRoots outgoing roots s r) (h' : RunsRoots outgoing roots s r') : r = r' := by
  induction h with
  | done =>
    cases h'
    rfl
  | skip hmem _ ih =>
    cases h' with
    | skip _ h' => exact ih h'
    | raise hnew => exact absurd hmem hnew
    | pass hnew => exact absurd hmem hnew
  | raise hnew h =>
    cases h' with
    | skip hmem => exact absurd hmem hnew
    | raise _ h' => exact congrArg _ (Except.error.inj (h.unique h'))
    | pass _ h' => cases h.unique h'
  | pass hnew h _ ih =>
    cases h' with
    | skip hmem => exact absurd hmem hnew
    | raise _ h' => cases h.unique h'
    | pass _ h' hrest =>
      cases h.unique h'
      exact ih hrest

/-- Where the passes that are left are enough, the loop ends with what the bounded one computes. -/
theorem Searching.runs {fuel : ℕ} (hout : ∀ x ∈ nodeIds, ∀ y ∈ outgoing x, y ∈ nodeIds)
    (h : Searching outgoing nodeIds fuel s) : Runs outgoing s (s.run outgoing fuel) := by
  induction fuel generalizing s with
  | zero => exact .done (h.run hout rfl).2.1
  | succ fuel ih =>
    rw [Dfs.run]
    split_ifs with hnil
    · exact .done hnil
    · cases hs : s.step outgoing with
      | error e => exact .raise hnil hs
      | ok s' => exact .pass hnil hs (ih (h.step hout hnil hs).1)

/-- The bounded outer loop. -/
def roots (outgoing : String → List String) (fuel : ℕ) (ids : List String) (s : Dfs) :
    Except Exc Dfs :=
  ids.foldlM (fun (s : Dfs) root =>
    if root ∈ s.visited then .ok s else (s.enter outgoing root).run outgoing fuel) s

theorem Searching.runsRoots {fuel : ℕ} (hout : ∀ x ∈ nodeIds, ∀ y ∈ outgoing x, y ∈ nodeIds)
    {ids : List String} (hids : ∀ x ∈ ids, x ∈ nodeIds)
    (h : Searching outgoing nodeIds fuel s) (hnil : s.stack = []) :
    RunsRoots outgoing ids s (Dfs.roots outgoing fuel ids s) := by
  induction ids generalizing s with
  | nil => exact .done
  | cons root ids ih =>
    have hsub : ∀ x ∈ ids, x ∈ nodeIds := fun x hx => hids x (List.mem_cons_of_mem _ hx)
    rw [Dfs.roots, List.foldlM_cons]
    by_cases hmem : root ∈ s.visited
    · rw [if_pos hmem]
      exact .skip hmem (ih hsub h hnil)
    · rw [if_neg hmem]
      have henter := h.enter hout hnil (hids root List.mem_cons_self) hmem
      have hruns := henter.runs hout
      cases hr : (s.enter outgoing root).run outgoing fuel with
      | error e => exact .raise hmem (hr ▸ hruns)
      | ok s' =>
        obtain ⟨h', hnil', -⟩ := henter.run hout hr
        exact .pass hmem (hr ▸ hruns) (ih hsub h' hnil')

/-! ### The stack is a walk -/

/-- What holds between two passes: the stack is a walk, listed from its end, the children left of a
node are children of it, and only nodes on the stack are being visited. -/
structure Walking (outgoing : String → List String) (s : Dfs) : Prop where
  chain : s.onStack.IsChain fun x y => x ∈ outgoing y
  left : ∀ p ∈ s.stack, ∀ y ∈ p.2, y ∈ outgoing p.1
  visiting : ∀ x ∈ s.visiting, x ∈ s.onStack

theorem Walking.step (h : Walking outgoing s) (hs : s.step outgoing = .ok s') :
    Walking outgoing s' := by
  obtain ⟨visiting, visited, stack⟩ := s
  obtain ⟨hchain, hleft, hvis⟩ := h
  obtain _ | ⟨⟨x, _ | ⟨y, left⟩⟩, stack⟩ := stack
  · cases hs
    exact ⟨hchain, hleft, hvis⟩
  -- `x` is finished and leaves the stack
  · cases hs
    refine ⟨hchain.tail, fun p hp => hleft p (List.mem_cons_of_mem _ hp), fun z hz => ?_⟩
    obtain ⟨hz, hne⟩ := List.mem_filter.1 hz
    exact (List.mem_cons.1 (hvis z hz)).resolve_left (by simpa using hne)
  · have hy : y ∈ outgoing x := hleft _ List.mem_cons_self y List.mem_cons_self
    have hrest : ∀ p ∈ (x, left) :: stack, ∀ z ∈ p.2, z ∈ outgoing p.1 := by
      intro p hp z hz
      rcases List.mem_cons.1 hp with rfl | hp
      · exact hleft _ List.mem_cons_self z (List.mem_cons_of_mem _ hz)
      · exact hleft p (List.mem_cons_of_mem _ hp) z hz
    rw [Dfs.step] at hs
    dsimp only at hs
    split_ifs at hs with h₁ h₂
    · cases hs
      exact ⟨hchain, hrest, hvis⟩
    · cases hs
      refine ⟨List.isChain_cons_cons.2 ⟨hy, hchain⟩, fun p hp z hz => ?_, fun z hz => ?_⟩
      · rcases List.mem_cons.1 hp with rfl | hp
        · exact hz
        · exact hrest p hp z hz
      · rcases List.mem_cons.1 hz with rfl | hz
        · exact List.mem_cons_self
        · exact List.mem_cons_of_mem _ (hvis z hz)

/-- **The search raises only where an edge closes a cycle.** -/
theorem Walking.of_error {e : Exc} (h : Walking outgoing s) (hs : s.step outgoing = .error e) :
    e = .workGraph (some "graph contains a cycle") ∧
      ¬ Digraph.Acyclic fun x y => y ∈ outgoing x := by
  obtain ⟨visiting, visited, stack⟩ := s
  obtain ⟨hchain, hleft, hvis⟩ := h
  obtain _ | ⟨⟨x, _ | ⟨y, left⟩⟩, stack⟩ := stack
  · cases hs
  · cases hs
  · rw [Dfs.step] at hs
    dsimp only at hs
    split_ifs at hs with h₁ h₂
    cases hs
    exact ⟨rfl, Digraph.not_acyclic_of_isChain hchain (hvis y h₁)
      (hleft _ List.mem_cons_self y List.mem_cons_self)⟩

theorem Walking.runs {r : Except Exc Dfs} (h : Walking outgoing s) (hr : Runs outgoing s r) :
    (∀ s', r = .ok s' → Walking outgoing s' ∧ s'.stack = []) ∧
      ∀ e, r = .error e → e = .workGraph (some "graph contains a cycle") ∧
        ¬ Digraph.Acyclic fun x y => y ∈ outgoing x := by
  induction hr with
  | done hnil =>
    refine ⟨fun s' hs' => ?_, fun e he => ?_⟩
    · cases hs'
      exact ⟨h, hnil⟩
    · cases he
  | raise _ hs =>
    refine ⟨fun s' hs' => ?_, fun e he => ?_⟩
    · cases hs'
    · cases he
      exact h.of_error hs
  | pass _ hs _ ih => exact ih (h.step hs)

theorem Walking.runsRoots {ids : List String} {r : Except Exc Dfs} (h : Walking outgoing s)
    (hnil : s.stack = []) (hr : RunsRoots outgoing ids s r) {e : Exc} (he : r = .error e) :
    e = .workGraph (some "graph contains a cycle") ∧
      ¬ Digraph.Acyclic fun x y => y ∈ outgoing x := by
  -- a root alone is a walk, and nothing was being visited before it
  have henter : ∀ {s : Dfs}, Walking outgoing s → s.stack = [] → ∀ root,
      Walking outgoing (s.enter outgoing root) := by
    intro s h hnil root
    refine ⟨List.isChain_singleton root, fun p hp y hy => ?_, fun x hx => ?_⟩
    · rw [List.mem_singleton.1 hp] at hy ⊢
      exact hy
    · rcases List.mem_cons.1 hx with rfl | hx
      · exact List.mem_cons_self
      · have hon := h.visiting x hx
        rw [onStack, hnil] at hon
        exact absurd hon List.not_mem_nil
  induction hr with
  | done => cases he
  | skip _ _ ih => exact ih h hnil he
  | raise _ hr =>
    cases he
    exact ((henter h hnil _).runs hr).2 _ rfl
  | pass _ hr _ ih =>
    obtain ⟨h', hnil'⟩ := ((henter h hnil _).runs hr).1 _ rfl
    exact ih h' hnil' he

end Dfs

/-! ### The whole search -/

/-- The children of a node, in the order of the edges. -/
def childrenOf (edges : List WorkEdge) (id : String) : List String :=
  (edges.filter (·.srcId = id)).map (·.dstId)

/-- `_reject_cycles`, with loops that have no bound, ends with a result. -/
def RejectCyclesEnds (nodeIds : List String) (edges : List WorkEdge) (r : Except Exc Unit) : Prop :=
  ∃ r' : Except Exc Dfs, r = r'.map (fun _ => ()) ∧
    Dfs.RunsRoots (childrenOf edges) (nodeIds.insertionSort (· ≤ ·))
      { visiting := [], visited := [], stack := [] } r'

theorem rejectCycles_eq (nodeIds : List String) (edges : List WorkEdge) :
    rejectCycles nodeIds edges =
      (Dfs.roots (childrenOf edges) (nodeIds.length + edges.length)
        (nodeIds.insertionSort (· ≤ ·)) { visiting := [], visited := [], stack := [] }).map
          fun _ => () := rfl

theorem acyclic_childrenOf {edges : List WorkEdge} :
    (Digraph.Acyclic fun x y => y ∈ childrenOf edges x) ↔ Digraph.Acyclic (Leads edges) := by
  have hE : (fun x y => y ∈ childrenOf edges x) = Leads edges := by
    funext x y
    exact propext mem_outgoing
  rw [hE]

/-- **The search for cycles.**  It ends on every graph, and raises exactly if there is a cycle. -/
theorem rejectCycles_spec {nodeIds : List String} {edges : List WorkEdge}
    (hnodup : nodeIds.Nodup) (hends : ∀ e ∈ edges, e.srcId ∈ nodeIds ∧ e.dstId ∈ nodeIds) :
    (∀ r, RejectCyclesEnds nodeIds edges r ↔ r = rejectCycles nodeIds edges) ∧
      ((∃ m, rejectCycles nodeIds edges = .error (.workGraph m)) ↔
        ¬ Digraph.Acyclic (Leads edges)) ∧
      (rejectCycles nodeIds edges = .ok () ↔ Digraph.Acyclic (Leads edges)) := by
  have hout : ∀ x ∈ nodeIds, ∀ y ∈ childrenOf edges x, y ∈ nodeIds := by
    intro x _ y hy
    obtain ⟨e, he, -, rfl⟩ := mem_outgoing.1 hy
    exact (hends e he).2
  have hfuel : (nodeIds.map fun x => 1 + (childrenOf edges x).length).sum ≤
      nodeIds.length + edges.length := by
    have hsum := sum_outgoing_le hnodup edges
    simp only [childrenOf, List.length_map, List.sum_map_add]
    simpa using hsum
  have hids : ∀ x ∈ nodeIds.insertionSort (· ≤ ·), x ∈ nodeIds :=
    fun x hx => (List.mem_insertionSort _).1 hx
  have hruns := Dfs.Searching.runsRoots hout hids (.start hfuel) rfl
  have hwalk : Dfs.Walking (childrenOf edges) { visiting := [], visited := [], stack := [] } :=
    ⟨List.isChain_nil, fun _ h => absurd h List.not_mem_nil, fun _ h => absurd h List.not_mem_nil⟩
  have herror : ∀ e, rejectCycles nodeIds edges = .error e →
      e = .workGraph (some "graph contains a cycle") ∧ ¬ Digraph.Acyclic (Leads edges) := by
    intro e he
    rw [rejectCycles_eq] at he
    cases hr : Dfs.roots (childrenOf edges) (nodeIds.length + edges.length)
        (nodeIds.insertionSort (· ≤ ·)) { visiting := [], visited := [], stack := [] } with
    | ok s =>
      rw [hr] at he
      cases he
    | error e' =>
      rw [hr] at he hruns
      cases he
      rw [← acyclic_childrenOf]
      exact hwalk.runsRoots rfl hruns rfl
  have hok : rejectCycles nodeIds edges = .ok () → Digraph.Acyclic (Leads edges) :=
    acyclic_of_rejectCycles hnodup hends
  refine ⟨fun r => ⟨?_, ?_⟩, ⟨?_, ?_⟩, ⟨hok, ?_⟩⟩
  · rintro ⟨r', rfl, hr'⟩
    rw [hr'.unique hruns, rejectCycles_eq]
  · rintro rfl
    exact ⟨_, rejectCycles_eq nodeIds edges, hruns⟩
  · rintro ⟨m, hm⟩
    exact (herror _ hm).2
  · intro hcycle
    cases hr : rejectCycles nodeIds edges with
    | ok u => exact absurd (hok hr) hcycle
    | error e => exact ⟨_, congrArg _ (herror e hr).1⟩
  · intro hacyclic
    cases hr : rejectCycles nodeIds edges with
    | ok u => rfl
    | error e => exact absurd hacyclic (herror e hr).2

/-- Two nodes that lead to each other, one of the edges twice. -/
theorem rejectCycles_spec_pair :
    let edges : List WorkEdge := [⟨"g", "a", "b"⟩, ⟨"g", "a", "b"⟩, ⟨"g", "b", "a"⟩]
    (∀ r, RejectCyclesEnds ["a", "b"] edges r ↔ r = rejectCycles ["a", "b"] edges) ∧
      ((∃ m, rejectCycles ["a", "b"] edges = .error (.workGraph m)) ↔
        ¬ Digraph.Acyclic (Leads edges)) ∧
      (rejectCycles ["a", "b"] edges = .ok () ↔ Digraph.Acyclic (Leads edges)) :=
  rejectCycles_spec (by decide) (by decide)

end Shiroe
