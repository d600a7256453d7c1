import Shiroe.Execution.Supervisor
import Shiroe.Work.Progress

/-!
# When a run finds nothing ready

A run whose ready set is empty ends: completed if all nodes are done, else failed as deadlocked.

* `ready_empty_iff` : for a compiled graph that has been created after any other creations, an empty
  ready set means that all is done exactly if the graph is read back without a cycle.
-/

namespace Shiroe

open Act

variable {H : Host}

/-! ### The ids of nodes are texts -/

theorem named_of_puts {g : WorkGraph} {nodes : List WorkNode} {edges : List WorkEdge} {db db' : Db}
    (h : Puts H g nodes edges db db') (hdb : db.Named) : db'.Named := by
  obtain ⟨now, rows, hrows, rfl⟩ := h
  intro r hr
  rcases Table.mem_of_mem_replaceAll hr with hr | hr
  · exact hdb r hr
  · obtain ⟨n, -, hid, -⟩ := isRow_of_mem hrows hr
    exact ⟨_, hid⟩

theorem Db.Named.of_mirror {db db' : Db} (h : db.Named)
    (hdb : db'.exceptMirror = db.exceptMirror) : db'.Named := by
  rw [Db.Named, (rows_of_mirror hdb).2.1]
  exact h

/-- However a creation ends, the ids of the nodes are texts. -/
theorem createGraph_named (i : ℕ) (g : WorkGraph) :
    Keeps (fun w : World => w.db.Named) (createGraph H i g) := by
  intro w hw
  refine wp_mono (createGraph_spec i g w) ?_ ?_
  · rintro - w' ⟨-, db, hdb, hputs⟩
    exact named_of_puts hputs (hw.of_mirror hdb)
  · rintro - w' ⟨-, db, hdb, rfl | ⟨nodes, edges, -, -, hputs⟩⟩
    · exact hw.of_mirror hdb
    · exact named_of_puts hputs (hw.of_mirror hdb)

theorem created_named {w : World} (hw : w.db.Named) (calls : List (ℕ × WorkGraph))
    (made : List WorkGraph) :
    (calls.foldl (createStep H) { world := w, made }).world.db.Named := by
  induction calls generalizing w made with
  | nil => exact hw
  | cons c calls ih =>
    have hkeeps := createGraph_named (H := H) c.1 c.2 w hw
    rw [List.foldl_cons, createStep]
    cases hcreate : createGraph H c.1 c.2 w with
    | ok a w' => exact ih ((wp_of_ok hcreate).1 hkeeps) _
    | error e w' => exact ih ((wp_of_error hcreate).1 hkeeps) _

/-! ### The end of a run -/

namespace Supervisor

variable (S : Supervisor)

/-- A run whose nodes are all done ends without a reason. -/
theorem conclude_done {graphId : String} {statuses : List (String × NodeStatus)}
    (h : statuses.all fun s => s.2 = .completed || s.2 = .skipped) (p : Session) :
    Act.wp (S.conclude H graphId statuses) (fun r _ => r.reason = none) (fun _ _ => True) p := by
  rw [conclude, if_pos h, wp_bind]
  refine wp_mono (Keeps.const True _ p trivial) (fun _ _ _ => ?_) fun _ _ _ => trivial
  rw [summary, wp_bind, Process.wp_recollect, wp_pure]

end Supervisor

/-- The statuses that `conclude` is given where the nodes have these. -/
def WorkGraph.statusList (g : WorkGraph) (status : String → NodeStatus) :
    List (String × NodeStatus) :=
  g.nodes.map fun n => (n.id, status n.id)

/-- A node that is neither pending nor done: it has failed, is blocked, or is set to ready or
running. -/
def NodeStatus.Halted (s : NodeStatus) : Prop := s ∈ [.failed, .blocked, .ready, .running]

/-- **A run finds a deadlock only where a node is halted**: nothing is ready, and `conclude` names a
reason. -/
theorem halted_of_deadlock {db : Db} {graphId : String} {g : WorkGraph} (hnamed : db.Named)
    (hg : db.getGraph H graphId = .ok g) (h : g.Schedulable) {status : String → NodeStatus}
    (hready : (db.withStatuses graphId status).readyNodeIds H graphId = .ok [])
    (hnot : ((g.statusList status).all fun s => s.2 = .completed || s.2 = .skipped) = false) :
    ∃ n ∈ g.nodes, (status n.id).Halted := by
  by_contra hnone
  have hthree : ∀ x ∈ g.nodes.map (·.id),
      status x = .pending ∨ status x = .completed ∨ status x = .skipped := by
    intro x hx
    obtain ⟨n, hn, rfl⟩ := List.mem_map.1 hx
    have hhalted : ¬ (status n.id).Halted := fun hh => hnone ⟨n, hn, hh⟩
    revert hhalted
    unfold NodeStatus.Halted
    cases status n.id <;> simp
  rw [List.all_eq_false] at hnot
  obtain ⟨s, hs, hdone⟩ := hnot
  obtain ⟨n, hn, rfl⟩ := List.mem_map.1 hs
  have hmem : n.id ∈ g.nodes.map (·.id) := List.mem_map_of_mem hn
  have hpending : status n.id = .pending := by
    refine (hthree n.id hmem).resolve_right fun hd => hdone ?_
    simpa using hd
  obtain ⟨y, hy⟩ := h.exists_ready hnamed hg hthree hready hmem hpending
  exact List.not_mem_nil hy

/-! ### Compiled graphs -/

/-- **An empty ready set means that all is done, for every spread of pending, completed and skipped
nodes, exactly if the graph is read back with edges between its nodes and without a cycle.**  The
graph is compiled and created after any other creations; it is read back as it is where its rows are
its own.  Then a run that finds nothing ready ends as deadlocked only if a node is halted. -/
theorem ready_empty_iff {w : World} (hempty : w.db.workNodes = []) (calls : List (ℕ × WorkGraph))
    {spec : Json} {g : WorkGraph} (hspec : compileWorkGraph spec = .ok g) {i : ℕ} {w' : World}
    (hcreate : createGraph H i g
      (calls.foldl (createStep H) { world := w, made := [] }).world = .ok () w') :
    (w'.db.Progresses H g.id ↔ ∃ g', w'.db.getGraph H g.id = .ok g' ∧ g'.Schedulable) ∧
    (Stored H w'.db g → g.Unredacted H → g.Storable H →
      w'.db.getGraph H g.id = .ok g ∧ g.Schedulable) ∧
    ∀ g', w'.db.getGraph H g.id = .ok g' → g'.Schedulable → ∀ status : String → NodeStatus,
      (w'.db.withStatuses g.id status).readyNodeIds H g.id = .ok [] →
      ∀ (S : Supervisor) (p : Session), Act.wp (S.conclude H g.id (g'.statusList status))
        (fun r _ => r.reason ≠ none → ∃ n ∈ g'.nodes, (status n.id).Halted) (fun _ _ => True)
          p := by
  have hnamed : w'.db.Named := by
    have hw : w.db.Named := by
      rw [Db.Named, hempty]
      exact fun _ hr => absurd hr List.not_mem_nil
    exact (wp_of_ok hcreate).1 (createGraph_named i g _ (created_named hw calls []))
  have hcompiled := compileWorkGraph_spec hspec
  refine ⟨⟨schedulable_of_progresses hnamed, ?_⟩, fun hstored hu hs => ?_, ?_⟩
  · rintro ⟨g', hg', h⟩
    exact h.progresses hnamed hg'
  · exact ⟨hstored.getGraph hcompiled hu hs, hcompiled.ends, hcompiled.acyclic⟩
  · intro g' hg' h status hready S p
    by_cases hall : (g'.statusList status).all fun s => s.2 = .completed || s.2 = .skipped
    · exact wp_mono (S.conclude_done hall p) (fun _ _ hr hne => absurd hr hne) fun _ _ _ => trivial
    · have hhalted := halted_of_deadlock hnamed hg' h hready (Bool.eq_false_iff.2 hall)
      exact wp_mono (Keeps.const True _ p trivial) (fun _ _ _ _ => hhalted) fun _ _ _ => trivial

/-- A plan of two nodes that is created once. -/
theorem ready_empty_iff_plan :
    ∃ w', createGraph (Host.quick id) 0 (planGraph "g1" ["a", "b"] [("a", "b")]) emptyWorld =
        .ok () w' ∧ w'.db.Progresses (Host.quick id) "g1" := by
  have hspec : compileWorkGraph (planSpec "g1" ["a", "b"] [("a", "b")]) =
      .ok (planGraph "g1" ["a", "b"] [("a", "b")]) := by decide +kernel
  have hrun : (Act.result? (createGraph (Host.quick id) 0
        (planGraph "g1" ["a", "b"] [("a", "b")])) emptyWorld).isSome = true ∧
      (Act.final (createGraph (Host.quick id) 0 (planGraph "g1" ["a", "b"] [("a", "b")]))
        emptyWorld).db.getGraph (Host.quick id) "g1" =
        .ok (planGraph "g1" ["a", "b"] [("a", "b")]) := by decide +kernel
  obtain ⟨⟨⟩, w', hw'⟩ := Act.exists_ok hrun.1
  have hread := hrun.2
  rw [Act.final_of_ok hw'] at hread
  have hcompiled := compileWorkGraph_spec hspec
  have hiff := (ready_empty_iff (H := Host.quick id) (w := emptyWorld) rfl [] hspec hw').1
  exact ⟨w', hw', hiff.2 ⟨_, hread, hcompiled.ends, hcompiled.acyclic⟩⟩

/-- **A plan whose edge is turned round is stuck**: both versions are compiled, the stored edges of
both make a cycle, and with every node pending nothing is ready. -/
theorem turned_plan_stuck :
    let H := Host.quick id
    let s := [(0, planGraph "g1" ["a", "b"] [("a", "b")]),
      (0, planGraph "g1" ["a", "b"] [("b", "a")])].foldl (createStep H)
        { world := emptyWorld, made := [] }
    compileWorkGraph (planSpec "g1" ["a", "b"] [("a", "b")]) =
        .ok (planGraph "g1" ["a", "b"] [("a", "b")]) ∧
      compileWorkGraph (planSpec "g1" ["a", "b"] [("b", "a")]) =
        .ok (planGraph "g1" ["a", "b"] [("b", "a")]) ∧
      s.last? "g1" = some (planGraph "g1" ["a", "b"] [("b", "a")]) ∧
      s.world.db.readyNodeIds H "g1" = .ok [] ∧
      s.world.db.nodeStatuses "g1" = [(.text "a", .text "pending"),
        (.text "b", .text "pending")] := by
  decide +kernel

end Shiroe
