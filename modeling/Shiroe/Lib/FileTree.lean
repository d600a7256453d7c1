import Shiroe.Lib.Act

/-!
# A file system as a tree of paths

`Disk` gives the entry at every path, and lists the paths that were written.  The operations that
change it (`put`, `remove`, `thin`, `move`) work on what lies at and below a path, `Disk.below`;
what lies below a path beside theirs stays as it is.

* `below_move_dst`, `below_move_src`, `below_move_of_beside` : a rename as three facts;
* `Disk.Logs` : nothing changes but what the log names;
* `makeDirs_spec` : when a chain of folders can be made, and what is there afterwards;
* `makeDirs_written` : what making it writes.
-/

namespace Shiroe

/-- A path, as the names on the way from the root. -/
abbrev TreePath := List String

/-- What lies at a path. -/
inductive Entry where
  | file (data : List UInt8)
  | folder
  /-- A symbolic link, and whether there is something at its target. -/
  | link (alive : Bool)
  deriving DecidableEq

/-- A file system, with the paths that were written. -/
structure Disk where
  entry : TreePath → Option Entry
  written : List TreePath := []

/-- Neither path lies below the other. -/
def Beside (p q : TreePath) : Prop := ¬ p <+: q ∧ ¬ q <+: p

instance (p q : TreePath) : Decidable (Beside p q) := inferInstanceAs (Decidable (_ ∧ _))

/-- `Path.exists()` for the entry at a path: a link counts if its target does. -/
def pathExists : Option Entry → Bool
  | none => false
  | some (.link target) => target
  | some _ => true

/-- `os.replace` can put the first entry in the place of the second.  (An empty folder could be
replaced by a folder; here a folder never meets one.) -/
def replaceable : Option Entry → Option Entry → Bool
  | none, _ => false
  | some .folder, some _ => false
  | some _, some .folder => false
  | some _, _ => true

/-- Where a name leads from a folder. -/
def child (p : TreePath) (n : String) : TreePath := if n = ".." then p.dropLast else p ++ [n]

/-- Where the names lead from a folder, one after the other. -/
def follow (p : TreePath) (names : List String) : TreePath := names.foldl child p

namespace Disk

variable (d : Disk) (p q src dst : TreePath)

/-- What lies at a path and below it. -/
def below : TreePath → Option Entry := fun s => d.entry (p ++ s)

/-- Put an entry at a path. -/
def put (e : Entry) : Disk where
  entry := Function.update d.entry p (some e)
  written := d.written ++ [p]

/-- Remove what lies at and below a path. -/
def remove : Disk where
  entry q := if p <+: q then none else d.entry q
  written := d.written ++ [p]

/-- Remove a part of what lies at and below a path. -/
def thin (left : TreePath → Bool) : Disk where
  entry q := if p <+: q ∧ left q = false then none else d.entry q
  written := d.written ++ [p]

/-- Move what lies at and below a path. -/
def move : Disk where
  entry q :=
    if dst <+: q then d.entry (src ++ q.drop dst.length)
    else if src <+: q then none
    else d.entry q
  written := d.written ++ [src, dst]

end Disk

/-! ### Paths -/

theorem child_of_ne {p : TreePath} {n : String} (h : n ≠ "..") : child p n = p ++ [n] := if_neg h

/-- Names that do not lead up lead down. -/
theorem follow_eq {p : TreePath} {names : List String} (h : ".." ∉ names) :
    follow p names = p ++ names := by
  induction names generalizing p with
  | nil => exact (List.append_nil p).symm
  | cons n names ih =>
    rw [List.mem_cons, not_or] at h
    change follow (child p n) names = _
    rw [ih h.2, child_of_ne (Ne.symm h.1), List.append_assoc, List.singleton_append]

theorem Beside.symm {p q : TreePath} (h : Beside p q) : Beside q p := ⟨h.2, h.1⟩

theorem Beside.not_prefix {p q : TreePath} (h : Beside p q) (s : TreePath) : ¬ q <+: p ++ s := by
  intro hq
  rcases List.prefix_or_prefix_of_prefix (List.prefix_append p s) hq with hp | hp
  · exact h.1 hp
  · exact h.2 hp

/-- Two names in one folder. -/
theorem beside_of_ne {folder : TreePath} {a b : String} (h : a ≠ b) :
    Beside (folder ++ [a]) (folder ++ [b]) := by
  constructor
  · rw [List.prefix_append_right_inj]
    simpa using h
  · rw [List.prefix_append_right_inj]
    simpa using h.symm

namespace Disk

variable {d : Disk} {p q src dst : TreePath}

/-! ### What lies below a path afterwards -/

theorem below_put (e : Entry) (s : TreePath) :
    (d.put (p ++ s) e).below p = Function.update (d.below p) s (some e) := by
  funext t
  by_cases h : t = s
  · subst h
    simp [below, put]
  · have hne : p ++ t ≠ p ++ s := fun heq => h (List.append_cancel_left heq)
    simp [below, put, h, hne]

theorem below_put_of_not (e : Entry) (h : ¬ p <+: q) : (d.put q e).below p = d.below p := by
  funext s
  have hne : p ++ s ≠ q := fun heq => h (heq ▸ List.prefix_append p s)
  simp [below, put, hne]

theorem below_remove : (d.remove p).below p = fun _ => none := by
  funext s
  simp [below, remove]

theorem below_remove_of_beside (h : Beside p q) : (d.remove q).below p = d.below p := by
  funext s
  simp only [below, remove, if_neg (h.not_prefix s)]

theorem below_thin_of_beside (h : Beside p q) (left : TreePath → Bool) :
    (d.thin q left).below p = d.below p := by
  funext s
  simp only [below, thin, h.not_prefix s, false_and, if_false]

theorem below_move_dst : (d.move src dst).below dst = d.below src := by
  funext s
  simp [below, move]

theorem below_move_src (h : Beside src dst) : (d.move src dst).below src = fun _ => none := by
  funext s
  simp only [below, move, if_neg (h.not_prefix s), if_pos (List.prefix_append src s)]

theorem below_move_of_beside (hsrc : Beside p src) (hdst : Beside p dst) :
    (d.move src dst).below p = d.below p := by
  funext s
  simp only [below, move, if_neg (hdst.not_prefix s), if_neg (hsrc.not_prefix s)]

/-! ### The log -/

/-- What does not lie at or below a written path is as it was. -/
def Logs (entry : TreePath → Option Entry) (d : Disk) : Prop :=
  ∀ q, (∀ p ∈ d.written, ¬ p <+: q) → d.entry q = entry q

namespace Logs

variable {entry : TreePath → Option Entry} (h : Logs entry d)

include h

theorem put (p : TreePath) (e : Entry) : Logs entry (d.put p e) := by
  intro q hq
  simp only [Disk.put, List.mem_append, List.mem_singleton, or_imp, forall_and,
    forall_eq] at hq
  have hne : q ≠ p := fun heq => hq.2 (heq ▸ List.prefix_refl _)
  exact (Function.update_of_ne hne _ _).trans (h q hq.1)

theorem remove (p : TreePath) : Logs entry (d.remove p) := by
  intro q hq
  simp only [Disk.remove, List.mem_append, List.mem_singleton, or_imp, forall_and,
    forall_eq] at hq
  exact (if_neg hq.2).trans (h q hq.1)

theorem thin (p : TreePath) (left : TreePath → Bool) : Logs entry (d.thin p left) := by
  intro q hq
  simp only [Disk.thin, List.mem_append, List.mem_singleton, or_imp, forall_and,
    forall_eq] at hq
  exact (if_neg fun hc => hq.2 hc.1).trans (h q hq.1)

theorem move (src dst : TreePath) : Logs entry (d.move src dst) := by
  intro q hq
  simp only [Disk.move, List.mem_append, List.mem_cons, List.not_mem_nil, or_false, or_imp,
    forall_and, forall_eq] at hq
  exact ((if_neg hq.2.2).trans (if_neg hq.2.1)).trans (h q hq.1)

end Logs

end Disk

/-! ### Making folders -/

section

variable {ε : Type} (refuses : TreePath → Bool) (e : ε)

/-- `Path.mkdir(exist_ok=True)` in a folder that exists. -/
def makeDir (p : TreePath) : Act ε Disk Unit := fun d =>
  match d.entry p with
  | none => if refuses p then .error e d else .ok () (d.put p .folder)
  | some .folder => .ok () d
  | some _ => .error e d

/-- `Path.mkdir(parents=True, exist_ok=True)` for the path with the given names from a folder that
exists. -/
def makeDirs (base : TreePath) : List String → Act ε Disk Unit
  | [] => pure ()
  | n :: l => do
    makeDir refuses e (child base n)
    makeDirs (child base n) l

/-- The paths of the folders on the way from `base`. -/
def onWay (base : TreePath) : List String → List TreePath
  | [] => []
  | n :: l => (base ++ [n]) :: onWay (base ++ [n]) l

namespace Disk

variable (d : Disk)

/-- A folder is there, or can be made. -/
def Makeable (p : TreePath) : Prop :=
  d.entry p = some .folder ∨ d.entry p = none ∧ refuses p = false

instance (p : TreePath) : Decidable (d.Makeable refuses p) := inferInstanceAs (Decidable (_ ∨ _))

/-- Each folder on the way is there, or can be made. -/
def CanMake (base : TreePath) (l : List String) : Prop :=
  ∀ p ∈ onWay base l, d.Makeable refuses p

instance (base : TreePath) (l : List String) : Decidable (d.CanMake refuses base l) :=
  inferInstanceAs (Decidable (∀ p ∈ onWay base l, _))

/-- The first path on the way that is no folder is free, and a folder can be made there. -/
def Makes (base : TreePath) : List String → Prop
  | [] => False
  | n :: l =>
    d.entry (base ++ [n]) = none ∧ refuses (base ++ [n]) = false ∨
      d.entry (base ++ [n]) = some .folder ∧ Makes (base ++ [n]) l

end Disk

theorem mem_onWay {base p : TreePath} {l : List String} :
    p ∈ onWay base l ↔ base <+: p ∧ p <+: base ++ l ∧ p ≠ base := by
  induction l generalizing base with
  | nil =>
    simp only [onWay, List.not_mem_nil, List.append_nil, false_iff, not_and, not_not]
    exact fun h h' => h'.eq_of_length (Nat.le_antisymm h'.length_le h.length_le)
  | cons n l ih =>
    rw [onWay, List.mem_cons, ih, List.append_assoc, List.singleton_append]
    constructor
    · rintro (rfl | ⟨h, h', -⟩)
      · exact ⟨List.prefix_append _ _, by simp, by simp⟩
      · have hlt := h.length_le
        refine ⟨(List.prefix_append _ _).trans h, h', ?_⟩
        rintro rfl
        rw [List.length_append, List.length_singleton] at hlt
        omega
    · rintro ⟨⟨s, rfl⟩, h', hne⟩
      rw [List.prefix_append_right_inj] at h'
      cases s with
      | nil => simp at hne
      | cons m s =>
        obtain ⟨rfl, hs⟩ := List.cons_prefix_cons.1 h'
        by_cases h : s = []
        · exact Or.inl (by rw [h])
        · refine Or.inr ⟨by simp, by simpa using hs, by simpa using h⟩

variable {refuses e} {d : Disk}

theorem wp_makeDir {p : TreePath} {Q : Unit → Disk → Prop} {E : ε → Disk → Prop} :
    Act.wp (makeDir refuses e p) Q E d ↔
      match d.entry p with
      | none => if refuses p then E e d else Q () (d.put p .folder)
      | some .folder => Q () d
      | some _ => E e d := by
  simp only [Act.wp, makeDir]
  cases d.entry p with
  | none => by_cases h : refuses p <;> simp [h]
  | some entry => cases entry <;> rfl

theorem keeps_makeDirs (entry : TreePath → Option Entry) (base : TreePath) (l : List String) :
    Act.Keeps (Disk.Logs entry) (makeDirs refuses e base l) := by
  induction l generalizing base with
  | nil => exact Act.Keeps.pure _
  | cons n l ih =>
    refine Act.Keeps.bind (fun d hd => wp_makeDir.2 ?_) fun _ => ih _
    split
    · split_ifs
      · exact hd
      · exact hd.put _ _
    · exact hd
    · exact hd

/-- When the folders on the way can be made, and what is there afterwards. -/
theorem makeDirs_spec (base : TreePath) {l : List String} (hl : ".." ∉ l) :
    Act.wp (makeDirs refuses e base l)
      (fun _ d' => d.CanMake refuses base l ∧
        d'.entry = fun q => if q ∈ onWay base l then some .folder else d.entry q)
      (fun _ d' => ¬ d.CanMake refuses base l ∧
        ∀ q, q ∉ onWay base l → d'.entry q = d.entry q) d := by
  induction l generalizing base d with
  | nil => exact (Act.wp_pure _).2 ⟨fun p hp => absurd hp List.not_mem_nil, by simp [onWay]⟩
  | cons n l ih =>
    have hsplit : d.CanMake refuses base (n :: l) ↔
        d.Makeable refuses (base ++ [n]) ∧ d.CanMake refuses (base ++ [n]) l :=
      List.forall_mem_cons
    have hself : base ++ [n] ∉ onWay (base ++ [n]) l := fun h => (mem_onWay.1 h).2.2 rfl
    rw [List.mem_cons, not_or] at hl
    rw [makeDirs, child_of_ne (Ne.symm hl.1), Act.wp_bind, wp_makeDir, hsplit]
    simp only [onWay, List.mem_cons, not_or]
    cases hentry : d.entry (base ++ [n]) with
    | none =>
      by_cases href : refuses (base ++ [n]) = true
      · refine (iff_of_eq (if_pos href)).2 ⟨?_, fun _ _ => trivial⟩
        rintro ⟨h | ⟨-, h⟩, -⟩
        · rw [hentry] at h
          cases h
        · rw [href] at h
          cases h
      · have hput : ∀ q ∈ onWay (base ++ [n]) l,
            (d.put (base ++ [n]) .folder).entry q = d.entry q := fun q hq =>
          Function.update_of_ne (ne_of_mem_of_not_mem hq hself) _ _
        have hcan : (d.put (base ++ [n]) .folder).CanMake refuses (base ++ [n]) l ↔
            d.CanMake refuses (base ++ [n]) l :=
          forall₂_congr fun q hq => by rw [Disk.Makeable, Disk.Makeable, hput q hq]
        refine (iff_of_eq (if_neg href)).2 ?_
        refine Act.wp_mono (ih (base ++ [n]) hl.2) (fun _ d' h => ?_) fun _ d' h => ?_
        · refine ⟨⟨Or.inr ⟨hentry, by simpa using href⟩, hcan.1 h.1⟩, ?_⟩
          rw [h.2]
          funext q
          by_cases hq : q = base ++ [n]
          · rw [if_neg (hq ▸ hself), if_pos (Or.inl hq), hq]
            exact Function.update_self _ _ _
          · simp [hq, Disk.put]
        · refine ⟨fun hc => h.1 (hcan.2 hc.2), fun q hq => ?_⟩
          rw [h.2 q hq.2]
          exact Function.update_of_ne hq.1 _ _
    | some entry =>
      cases entry with
      | folder =>
        dsimp only
        refine Act.wp_mono (ih (base ++ [n]) hl.2) (fun _ d' h => ?_) fun _ d' h => ?_
        · refine ⟨⟨Or.inl hentry, h.1⟩, ?_⟩
          rw [h.2]
          funext q
          by_cases hq : q = base ++ [n]
          · rw [if_neg (hq ▸ hself), if_pos (Or.inl hq), hq, hentry]
          · simp [hq]
        · exact ⟨fun hc => h.1 hc.2, fun q hq => h.2 q hq.2⟩
      | _ =>
        refine ⟨?_, fun _ _ => trivial⟩
        rintro ⟨h | ⟨h, -⟩, -⟩ <;> rw [hentry] at h <;> cases h

/-- What making the folders writes: something exactly if it makes one. -/
theorem makeDirs_written (base : TreePath) {l : List String} (hl : ".." ∉ l) :
    Act.wp (makeDirs refuses e base l)
      (fun _ d' => ∃ new, d'.written = d.written ++ new ∧ (∀ p ∈ new, p ∈ onWay base l) ∧
        (new ≠ [] ↔ d.Makes refuses base l))
      (fun _ d' => ∃ new, d'.written = d.written ++ new ∧ (∀ p ∈ new, p ∈ onWay base l) ∧
        (new ≠ [] ↔ d.Makes refuses base l)) d := by
  induction l generalizing base d with
  | nil => exact (Act.wp_pure _).2 ⟨[], by simp, by simp, by simp [Disk.Makes]⟩
  | cons n l ih =>
    rw [List.mem_cons, not_or] at hl
    rw [makeDirs, child_of_ne (Ne.symm hl.1), Act.wp_bind, wp_makeDir]
    cases hentry : d.entry (base ++ [n]) with
    | none =>
      by_cases href : refuses (base ++ [n]) = true
      · exact (iff_of_eq (if_pos href)).2 ⟨[], by simp, by simp, by simp [Disk.Makes, hentry, href]⟩
      · refine (iff_of_eq (if_neg href)).2 ?_
        have hnew : ∀ d' : Disk, (∃ new, d'.written = (d.put (base ++ [n]) .folder).written ++ new ∧
            (∀ p ∈ new, p ∈ onWay (base ++ [n]) l) ∧
              (new ≠ [] ↔ (d.put (base ++ [n]) .folder).Makes refuses (base ++ [n]) l)) →
              ∃ new, d'.written = d.written ++ new ∧ (∀ p ∈ new, p ∈ onWay base (n :: l)) ∧
                (new ≠ [] ↔ d.Makes refuses base (n :: l)) := by
          rintro d' ⟨new, hw, hmem, -⟩
          refine ⟨(base ++ [n]) :: new, by rw [hw]; simp [Disk.put], ?_, ?_⟩
          · exact List.forall_mem_cons.2 ⟨List.mem_cons_self,
              fun p hp => List.mem_cons_of_mem _ (hmem p hp)⟩
          · simp [Disk.Makes, hentry, href]
        exact Act.wp_mono (ih (base ++ [n]) hl.2) (fun _ => hnew) fun _ => hnew
    | some entry =>
      cases entry with
      | folder =>
        dsimp only
        have hnew : ∀ d' : Disk, (∃ new, d'.written = d.written ++ new ∧
            (∀ p ∈ new, p ∈ onWay (base ++ [n]) l) ∧
              (new ≠ [] ↔ d.Makes refuses (base ++ [n]) l)) →
              ∃ new, d'.written = d.written ++ new ∧ (∀ p ∈ new, p ∈ onWay base (n :: l)) ∧
                (new ≠ [] ↔ d.Makes refuses base (n :: l)) := by
          rintro d' ⟨new, hw, hmem, hiff⟩
          refine ⟨new, hw, fun p hp => List.mem_cons_of_mem _ (hmem p hp), ?_⟩
          simpa [Disk.Makes, hentry] using hiff
        exact Act.wp_mono (ih (base ++ [n]) hl.2) (fun _ => hnew) fun _ => hnew
      | _ =>
        exact ⟨[], by simp, by simp, by simp [Disk.Makes, hentry]⟩

end

end Shiroe
