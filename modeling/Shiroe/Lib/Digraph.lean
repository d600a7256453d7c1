import Mathlib.Data.List.Chain
import Mathlib.Data.Set.Finite.List
import Mathlib.Logic.Relation
import Mathlib.Order.WellFounded

/-!
# Cycles of a relation

A relation is read as a directed graph on its points.

* `Finished` : a list in which every point stands in front of its successors; `Finished.acyclic`
  says that a relation all of whose starting points are in such a list has no cycle;
* `Acyclic.exists_source` : without a cycle, some point of a finite part has no predecessor in it;
* `exists_fed_of_not_acyclic` : the points on a cycle each have a predecessor among them;
* `not_acyclic_of_isChain` : an edge from the end of a walk back to a point of it closes a cycle.
-/

namespace Shiroe

namespace Digraph

variable {V : Type*} {E : V → V → Prop}

/-- No point leads back to itself. -/
def Acyclic (E : V → V → Prop) : Prop := ∀ x, ¬ Relation.TransGen E x x

/-- Every point of the list stands in front of its successors. -/
inductive Finished (E : V → V → Prop) : List V → Prop
  | nil : Finished E []
  | cons {x : V} {l : List V} : (∀ y, E x y → y ∈ l) → Finished E l → Finished E (x :: l)

/-- From a point of such a list every walk ends. -/
theorem Finished.acc {l : List V} (h : Finished E l) : ∀ x ∈ l, Acc (fun y x => E x y) x := by
  induction h with
  | nil => exact fun x hx => absurd hx List.not_mem_nil
  | cons hsucc _ ih =>
    intro x hx
    rcases List.mem_cons.1 hx with rfl | hx
    · exact Acc.intro _ fun y hy => ih y (hsucc y hy)
    · exact ih x hx

theorem not_transGen_of_acc {r : V → V → Prop} {x : V} (h : Acc r x) :
    ¬ Relation.TransGen r x x := by
  have hacc : Acc (Relation.TransGen r) x := h.transGen
  clear h
  induction hacc with
  | intro x _ ih => exact fun hx => ih x hx hx

/-- **The order in which the points are finished shows that there is no cycle.** -/
theorem Finished.acyclic {l : List V} (h : Finished E l) (hall : ∀ x y, E x y → x ∈ l) :
    Acyclic E := by
  intro x hx
  obtain ⟨y, hxy, -⟩ := Relation.TransGen.head'_iff.1 hx
  exact not_transGen_of_acc (h.acc x (hall x y hxy)) (Relation.transGen_swap.2 hx)

/-- **A finite part of a graph without cycles has a source**: a point with no predecessor in it. -/
theorem Acyclic.exists_source (h : Acyclic E) {l : List V} (hl : l ≠ []) :
    ∃ x ∈ l, ∀ y ∈ l, ¬ E y x := by
  have hfin : Finite {x // x ∈ l} := List.finite_toSet l
  -- walks between the points of the list are a strict order
  let r : {x // x ∈ l} → {x // x ∈ l} → Prop := fun x y => Relation.TransGen E x y
  have htrans : IsTrans _ r := ⟨fun _ _ _ => Relation.TransGen.trans⟩
  have hirrefl : Std.Irrefl r := ⟨fun x => h x⟩
  have hwf : WellFounded r := Finite.wellFounded_of_trans_of_irrefl r
  obtain ⟨x₀, hx₀⟩ := List.exists_mem_of_ne_nil l hl
  obtain ⟨x, -, hx⟩ := hwf.has_min Set.univ ⟨⟨x₀, hx₀⟩, trivial⟩
  exact ⟨x, x.2, fun y hy hyx => hx ⟨y, hy⟩ trivial (.single hyx)⟩

/-- **The points on a cycle each have a predecessor among them.** -/
theorem exists_fed_of_not_acyclic (h : ¬ Acyclic E) :
    ∃ S : Set V, S.Nonempty ∧ ∀ x ∈ S, ∃ y ∈ S, E y x := by
  simp only [Acyclic, not_forall, not_not] at h
  obtain ⟨x, hx⟩ := h
  refine ⟨{y | Relation.TransGen E x y ∧ Relation.TransGen E y x}, ⟨x, hx, hx⟩, ?_⟩
  rintro y ⟨hxy, hyx⟩
  obtain ⟨z, hxz, hzy⟩ := Relation.TransGen.tail'_iff.1 hxy
  refine ⟨z, ⟨?_, .head hzy hyx⟩, hzy⟩
  exact (Relation.reflTransGen_iff_eq_or_transGen.1 hxz).elim (fun h => h ▸ hx) id

/-- Along a walk, listed from its end, every point leads to the end. -/
theorem reflTransGen_of_isChain {x y : V} {l : List V}
    (h : (x :: l).IsChain fun a b => E b a) (hy : y ∈ x :: l) : Relation.ReflTransGen E y x := by
  induction l generalizing x with
  | nil =>
    rw [List.mem_singleton.1 hy]
  | cons z l ih =>
    obtain ⟨hzx, h⟩ := List.isChain_cons_cons.1 h
    rcases List.mem_cons.1 hy with rfl | hy
    · exact .refl
    · exact (ih h hy).tail hzx

/-- **An edge from the end of a walk back to a point of it closes a cycle.** -/
theorem not_acyclic_of_isChain {x y : V} {l : List V}
    (h : (x :: l).IsChain fun a b => E b a) (hy : y ∈ x :: l) (hxy : E x y) : ¬ Acyclic E :=
  fun hacyclic => hacyclic y (.tail' (reflTransGen_of_isChain h hy) hxy)

end Digraph

end Shiroe
