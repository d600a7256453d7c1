import Mathlib.Data.List.Induction
import Mathlib.Data.List.Nodup

/-!
# Hash chains

A list of entries is a chain from `g` when each entry names the digest of the entry before it,
the first one naming `g`.  The digest of the last entry is the `tip`.

* `HashChain.linked_append` : a list is a chain iff each part is, the second from the tip of the
  first.
* `HashChain.eq_of_tip_eq` : two chains with one tip are equal, when no two of their entries
  collide and no digest is the genesis value.
* `HashChain.eq_of_perm` : the entries of a chain can be put in no other order that is a chain.
-/

namespace Shiroe

namespace HashChain

variable {α κ : Type*} (prev digest : α → κ)

/-- `l` is a chain that starts at `g`. -/
def Linked : κ → List α → Prop
  | _, [] => True
  | g, a :: l => prev a = g ∧ Linked (digest a) l

/-- The digest of the last entry, `g` when there is none. -/
def tip : κ → List α → κ
  | g, [] => g
  | _, a :: l => tip (digest a) l

@[simp] theorem linked_nil (g : κ) : Linked prev digest g [] := trivial

@[simp] theorem tip_nil (g : κ) : tip digest g [] = g := rfl

theorem tip_append (g : κ) (l l' : List α) :
    tip digest g (l ++ l') = tip digest (tip digest g l) l' := by
  induction l generalizing g with
  | nil => rfl
  | cons a l ih => exact ih (digest a)

@[simp] theorem tip_concat (g : κ) (l : List α) (a : α) : tip digest g (l ++ [a]) = digest a := by
  rw [tip_append]
  rfl

theorem linked_append (g : κ) (l l' : List α) :
    Linked prev digest g (l ++ l') ↔
      Linked prev digest g l ∧ Linked prev digest (tip digest g l) l' := by
  induction l generalizing g with
  | nil => simp [tip]
  | cons a l ih => simp only [List.cons_append, Linked, tip, ih, and_assoc]

theorem linked_concat (g : κ) (l : List α) (a : α) :
    Linked prev digest g (l ++ [a]) ↔ Linked prev digest g l ∧ prev a = tip digest g l := by
  simp [linked_append, Linked]

/-- A chain whose digests are not the genesis value has the genesis tip only when it is empty. -/
theorem tip_eq_genesis {g : κ} {l : List α} (hg : ∀ a ∈ l, digest a ≠ g) :
    tip digest g l = g ↔ l = [] := by
  induction l using List.reverseRecOn with
  | nil => simp
  | append_singleton l a _ => simp [hg a (by simp)]

variable {prev digest}

/-- **The tip determines the chain**, when the entries of the two chains do not collide. -/
theorem eq_of_tip_eq {g : κ} {l l' : List α} (hl : Linked prev digest g l)
    (hl' : Linked prev digest g l') (hg : ∀ a ∈ l, digest a ≠ g) (hg' : ∀ a ∈ l', digest a ≠ g)
    (hinj : ∀ a ∈ l, ∀ b ∈ l', digest a = digest b → a = b)
    (htip : tip digest g l = tip digest g l') : l = l' := by
  -- both chains are taken apart from the end: equal tips give equal last entries, and the equal
  -- last entries name the same digest before them
  induction l using List.reverseRecOn generalizing l' with
  | nil => exact ((tip_eq_genesis digest hg').1 htip.symm).symm
  | append_singleton l a ih =>
    rcases List.eq_nil_or_concat l' with rfl | ⟨l', b, rfl⟩
    · exact (tip_eq_genesis digest hg).1 htip
    · rw [tip_concat, List.concat_eq_append, tip_concat] at htip
      rw [List.concat_eq_append] at hl' hg' hinj ⊢
      obtain rfl : a = b := hinj a (by simp) b (by simp) htip
      rw [linked_concat] at hl hl'
      have hll' : l = l' := ih hl.1 hl'.1 (fun c hc => hg c (by simp [hc]))
        (fun c hc => hg' c (by simp [hc]))
        (fun c hc d hd => hinj c (by simp [hc]) d (by simp [hd])) (hl.2.symm.trans hl'.2)
      rw [hll']

/-- A chain without collisions has no entry twice. -/
theorem Linked.nodup {g : κ} {l : List α} (hl : Linked prev digest g l)
    (hg : ∀ a ∈ l, digest a ≠ g) (hinj : ∀ a ∈ l, ∀ b ∈ l, digest a = digest b → a = b) :
    l.Nodup := by
  induction l using List.reverseRecOn with
  | nil => exact List.nodup_nil
  | append_singleton l a ih =>
    have hl' := (linked_concat prev digest g l a).1 hl
    have hnd : l.Nodup := ih hl'.1 (fun b hb => hg b (by simp [hb]))
      fun b hb c hc => hinj b (by simp [hb]) c (by simp [hc])
    refine List.nodup_append.2 ⟨hnd, List.nodup_singleton a, fun b hb c hc hbc => ?_⟩
    -- an earlier occurrence ends a shorter chain with the same tip
    rw [List.mem_singleton] at hc
    obtain ⟨s, t, rfl⟩ := List.append_of_mem (hbc.trans hc ▸ hb)
    have hs : Linked prev digest g (s ++ [a]) := by
      have h := hl'.1
      rw [show s ++ a :: t = (s ++ [a]) ++ t by simp, linked_append] at h
      exact h.1
    have heq := eq_of_tip_eq hs hl (fun x hx => hg x (by simp at hx ⊢; tauto)) hg
      (fun x hx y hy => hinj x (by simp at hx ⊢; tauto) y hy) (by rw [tip_concat, tip_concat])
    have hlen := congrArg List.length heq
    simp only [List.length_append, List.length_cons, List.length_nil] at hlen
    omega

/-- What the entries of a chain name: the genesis value and all digests but the last. -/
theorem Linked.map_prev {g : κ} {l : List α} (hl : Linked prev digest g l) :
    l.map prev = (g :: l.map digest).dropLast := by
  induction l generalizing g with
  | nil => rfl
  | cons a l ih =>
    rw [List.map_cons, hl.1, ih hl.2]
    rfl

theorem eq_of_perm_of_nodup {g : κ} {l l' : List α} (hl : Linked prev digest g l)
    (hl' : Linked prev digest g l') (hp : l.Perm l') (hnd : (l.map prev).Nodup) : l = l' := by
  induction l generalizing g l' with
  | nil => exact hp.nil_eq
  | cons a l ih =>
    obtain ⟨b, l', rfl⟩ := List.exists_cons_of_ne_nil (fun h : l' = [] => by
      rw [h] at hp
      exact List.cons_ne_nil a l hp.eq_nil)
    have hab : a = b := List.inj_on_of_nodup_map hnd (by simp) (hp.symm.subset (by simp))
      (hl.1.trans hl'.1.symm)
    subst hab
    rw [ih hl.2 hl'.2 ((List.perm_cons a).1 hp) (List.nodup_cons.1 hnd).2]

/-- **The entries of a chain determine their order**, when they do not collide. -/
theorem eq_of_perm {g : κ} {l l' : List α} (hl : Linked prev digest g l)
    (hl' : Linked prev digest g l') (hp : l.Perm l') (hg : ∀ a ∈ l, digest a ≠ g)
    (hinj : ∀ a ∈ l, ∀ b ∈ l, digest a = digest b → a = b) : l = l' := by
  have hdig : (g :: l.map digest).Nodup := by
    refine List.nodup_cons.2 ⟨fun h => ?_, (hl.nodup hg hinj).map_on hinj⟩
    obtain ⟨a, ha, hga⟩ := List.mem_map.1 h
    exact hg a ha hga
  refine eq_of_perm_of_nodup hl hl' hp ?_
  rw [hl.map_prev]
  exact hdig.sublist (List.dropLast_sublist _)

end HashChain

end Shiroe
