import Mathlib.Data.List.Range

/-!
# A filtered view of a list and its index map

Some positions of a list are dropped; the rest is a shorter list, read together with the positions
it comes from.

* `getElem?_indexMap` : the item at `k` of the view comes from the one position that is kept and has
  `k` kept positions before it;
* `drop_take_kept` : a stretch of the view is what is kept of the stretch it comes from.
-/

namespace Shiroe

namespace Filtered

variable {α : Type*} (keep : ℕ → Bool) (l : List α)

/-- The items kept, with their positions. -/
def view : List (α × ℕ) := l.zipIdx.filter fun p => keep p.2

/-- The items kept. -/
def kept : List α := (view keep l).map Prod.fst

/-- The positions that the items kept come from. -/
def indexMap : List ℕ := (view keep l).map Prod.snd

/-- The number of positions kept before this one. -/
def rank (i : ℕ) : ℕ := (List.range i).countP keep

/-- The item at `k` of the view comes from position `i` of a list of length `n`. -/
def Origin (n k i : ℕ) : Prop := i < n ∧ keep i = true ∧ rank keep i = k

variable {keep l} {n k i j : ℕ}

theorem rank_succ : rank keep (i + 1) = rank keep i + if keep i = true then 1 else 0 := by
  rw [rank, List.range_succ, List.countP_append, List.countP_singleton]
  rfl

theorem rank_le_rank (h : i ≤ j) : rank keep i ≤ rank keep j :=
  (List.range_sublist.2 h).countP_le

/-- The kept positions before another kept position are fewer. -/
theorem rank_lt_rank (hi : keep i = true) (h : i < j) : rank keep i < rank keep j := by
  have hle := @rank_le_rank keep _ _ h
  rw [rank_succ, if_pos hi] at hle
  omega

theorem Origin.unique (hi : Origin keep n k i) (hj : Origin keep n k j) : i = j := by
  obtain ⟨-, hkeepi, hi⟩ := hi
  obtain ⟨-, hkeepj, hj⟩ := hj
  rcases lt_trichotomy i j with h | h | h
  · have := rank_lt_rank hkeepi h
    omega
  · exact h
  · have := rank_lt_rank hkeepj h
    omega

theorem Origin.mono {k' : ℕ} (hi : Origin keep n k i) (hj : Origin keep n k' j) (h : k ≤ k') :
    i ≤ j := by
  by_contra hlt
  have hrank := rank_lt_rank hj.2.1 (not_le.1 hlt)
  rw [hi.2.2, hj.2.2] at hrank
  omega

/-- The part of the view before a position has as many items as positions are kept. -/
theorem length_filter_take (h : i ≤ l.length) :
    ((l.zipIdx.take i).filter fun p => keep p.2).length = rank keep i := by
  have hpositions : (l.zipIdx.take i).map Prod.snd = List.range i := by
    rw [List.map_take, List.zipIdx_map_snd, ← List.range_eq_range', List.take_range,
      min_eq_left h]
  rw [← List.countP_eq_length_filter, rank, ← hpositions, List.countP_map]
  rfl

theorem view_eq (i : ℕ) : view keep l = ((l.zipIdx.take i).filter fun p => keep p.2) ++
    (l.zipIdx.drop i).filter fun p => keep p.2 := by
  rw [← List.filter_append, List.take_append_drop, view]

theorem getElem?_view (hi : i < l.length) (hkeep : keep i = true) :
    (view keep l)[rank keep i]? = some (l[i], i) := by
  have hlength : i < l.zipIdx.length := by rwa [List.length_zipIdx]
  have hitem : l.zipIdx[i] = (l[i], i) := by
    rw [List.getElem_zipIdx, Nat.zero_add]
  rw [view_eq i, List.getElem?_append_right (length_filter_take hi.le).le,
    length_filter_take hi.le, Nat.sub_self, List.drop_eq_getElem_cons hlength, hitem,
    List.filter_cons, if_pos hkeep]
  rfl

/-- **The index map.**  The item at `k` of the view comes from the position that is kept and has
`k` kept positions before it. -/
theorem getElem?_indexMap : (indexMap keep l)[k]? = some i ↔ Origin keep l.length k i := by
  constructor
  · intro h
    rw [indexMap, List.getElem?_map, Option.map_eq_some_iff] at h
    obtain ⟨p, hp, rfl⟩ := h
    obtain ⟨hmem, hkeep⟩ := List.mem_filter.1 (List.mem_of_getElem? hp)
    have hlt : p.2 < l.length := List.snd_lt_of_mem_zipIdx hmem
    refine ⟨hlt, hkeep, ?_⟩
    have hnodup : ((view keep l).map Prod.snd).Nodup := by
      refine List.Nodup.sublist (List.filter_sublist.map _) ?_
      rw [List.zipIdx_map_snd]
      exact List.nodup_range'
    have hsame : ((view keep l).map Prod.snd)[k]? =
        ((view keep l).map Prod.snd)[rank keep p.2]? := by
      rw [List.getElem?_map, List.getElem?_map, hp, getElem?_view hlt hkeep]
      rfl
    have hk : k < ((view keep l).map Prod.snd).length := by
      rw [List.length_map]
      exact (List.getElem?_eq_some_iff.1 hp).1
    exact ((List.getElem?_inj hk hnodup).1 hsame).symm
  · rintro ⟨hlt, hkeep, rfl⟩
    rw [indexMap, List.getElem?_map, getElem?_view hlt hkeep]
    rfl

theorem exists_origin (h : k < (kept keep l).length) : ∃ i, Origin keep l.length k i := by
  have hlength : k < (indexMap keep l).length := by
    rwa [indexMap, List.length_map, ← List.length_map Prod.fst, ← kept]
  exact ⟨_, getElem?_indexMap.1 (List.getElem?_eq_getElem hlength)⟩

/-- **A stretch of the view spells what is kept of the stretch it comes from.** -/
theorem drop_take_kept {first last e : ℕ} (hfirst : Origin keep l.length k first)
    (hlast : Origin keep l.length e last) (hle : k ≤ e) :
    ((kept keep l).take (e + 1)).drop k =
      ((((l.zipIdx.take (last + 1)).drop first).filter fun p => keep p.2).map Prod.fst) := by
  have horder : first ≤ last := hfirst.mono hlast hle
  obtain ⟨-, -, hfirst⟩ := hfirst
  obtain ⟨hlt, hkeep, hlast⟩ := hlast
  have hbefore : ((l.zipIdx.take (last + 1)).filter fun p => keep p.2).length = e + 1 := by
    rw [length_filter_take hlt, rank_succ, if_pos hkeep, hlast]
  have hcut : l.zipIdx.take (last + 1) =
      l.zipIdx.take first ++ (l.zipIdx.take (last + 1)).drop first := by
    have htake := List.take_append_drop first (l.zipIdx.take (last + 1))
    rw [List.take_take, min_eq_left (by omega)] at htake
    exact htake.symm
  rw [kept, view_eq (last + 1), List.map_append, ← hbefore, ← List.length_map Prod.fst,
    List.take_left, hcut, List.filter_append, List.map_append, ← hfirst,
    ← length_filter_take (by omega : first ≤ l.length), ← List.length_map Prod.fst, List.drop_left]
  rw [← hcut]

end Filtered

end Shiroe
