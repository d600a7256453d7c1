import Shiroe.Policy.Engine

/-!
# Where the target of an action lies

The engine compares a scope with a target as text.  A path says more: `.`, `..` and repeated slashes
lead elsewhere than its text, and of two layers with one name only the later is in effect.

* `contained_iff_slips` : a deny layer that holds the target decides, and a scoped layer allows only
  what lies inside its scopes, unless a layer allows the action past one of three slips; on plain
  paths, with no layer given twice, there is none.
-/

namespace Shiroe

/-! ### Where a path lies -/

/-- One part of a path, after the parts before it, the last of them first. -/
def pushPart (absolute : Bool) (parts : List (List Char)) (part : List Char) : List (List Char) :=
  if part = [] ∨ part = ['.'] then parts
  else if part = ['.', '.'] then
    match parts with
    | [] => if absolute then [] else [part]
    | last :: rest => if last = ['.', '.'] then part :: parts else rest
  else part :: parts

/-- The parts of a path once `.`, `..` and repeated slashes are resolved. -/
def lexicalParts (path : String) : List (List Char) :=
  ((path.toList.splitOn '/').foldl (pushPart (isAbsolute path)) []).reverse

/-- After lexical normalisation the path is the scope or lies below it. -/
def Inside (path scope : String) : Prop :=
  isAbsolute path = isAbsolute scope ∧ lexicalParts scope <+: lexicalParts path

instance (path scope : String) : Decidable (Inside path scope) :=
  inferInstanceAs (Decidable (_ ∧ _))

/-- The scopes of a layer for a kind of action on files. -/
def PolicyLayer.scopes (layer : PolicyLayer) : ActionKind → List String
  | .fsWrite => layer.fsWriteScopes
  | .fsRead => layer.fsReadScopes
  | _ => []

/-- The layer has no scopes for the action, or the target lies inside one of them. -/
def Holds (layer : PolicyLayer) (a : Action) : Prop :=
  layer.scopes a.kind = [] ∨ ∃ scope ∈ layer.scopes a.kind, Inside a.target scope

instance decidableHolds (layer : PolicyLayer) (a : Action) : Decidable (Holds layer a) :=
  inferInstanceAs (Decidable (_ ∨ _))

variable {a : Action} {stack : List PolicyLayer}

/-- A deny layer that holds the target decides, and a scoped layer allows only what lies inside its
scopes. -/
structure Contained (a : Action) (stack : List PolicyLayer) : Prop where
  denied : ∀ layer ∈ stack, layer.name ∈ denyNames → a.kind ∈ layer.denies → Holds layer a →
    (resolve a stack).verdict = .deny ∧ ∀ mode, (evaluate a stack mode).verdict = .deny
  granted : (resolve a stack).verdict = .allow → ∀ layer,
    inEffect stack (resolve a stack).decidingLayer = some layer → Holds layer a

/-- **The engine contains an action iff, when no layer in effect refuses it and one would allow it,
no deny layer of the list, in effect or not, holds the target, and the allowing layer does.** -/
theorem contained_iff (a : Action) (stack : List PolicyLayer) :
    Contained a stack ↔ ∀ layer, refused a stack = false → grantor a stack = some layer →
      Holds layer a ∧
        ∀ deny ∈ stack, deny.name ∈ denyNames → a.kind ∈ deny.denies → ¬ Holds deny a := by
  have hspec := @resolve_spec a stack
  constructor
  · rintro ⟨hdenied, hgranted⟩ layer hno hlayer
    rw [if_neg (by simp [hno]), hlayer] at hspec
    refine ⟨hgranted hspec.1 layer hspec.2, fun deny hdeny hname hkind hholds => ?_⟩
    rw [(hdenied deny hdeny hname hkind hholds).1] at hspec
    cases hspec.1
  · intro h
    -- without a refusal a granting layer is the only way to an allow
    have hverdict : refused a stack = true ∨ grantor a stack = none →
        (resolve a stack).verdict = .deny := by
      rintro (hyes | hnone)
      · rwa [if_pos hyes] at hspec
      · rw [hnone] at hspec
        split_ifs at hspec <;> exact hspec
    refine ⟨fun deny hdeny hname hkind hholds => ?_, fun hallow layer hlayer => ?_⟩
    · have hres : (resolve a stack).verdict = .deny := by
        refine hverdict ?_
        by_contra hcon
        rw [not_or, Bool.not_eq_true, ← ne_eq, Option.ne_none_iff_exists'] at hcon
        obtain ⟨hno, layer, hlayer⟩ := hcon
        exact (h layer hno hlayer).2 deny hdeny hname hkind hholds
      exact ⟨hres, evaluate_deny hres⟩
    · by_cases hyes : refused a stack = true
      · rw [hverdict (Or.inl hyes)] at hallow
        cases hallow
      · cases hg : grantor a stack with
        | none =>
          rw [hverdict (Or.inr hg)] at hallow
          cases hallow
        | some layer' =>
          rw [if_neg hyes, hg] at hspec
          obtain rfl : layer' = layer := Option.some.inj (hspec.2.symm.trans hlayer)
          exact (h layer' (by simpa using hyes) hg).1

/-! ### Paths as they are written -/

/-- The parts of a path between its slashes, none of them resolved. -/
def rawParts (path : String) : List (List Char) :=
  (rstripSlash (strip path)).toList.splitOn '/'

/-- Part by part the path starts with the scope. -/
def StartsIn (path scope : String) : Prop :=
  rstripSlash (strip scope) ≠ "" ∧ rawParts scope <+: rawParts path

instance (path scope : String) : Decidable (StartsIn path scope) :=
  inferInstanceAs (Decidable (_ ∧ _))

/-- The layer has no scopes for the action, or the target starts in one of them as it is written. -/
def Encloses (layer : PolicyLayer) (a : Action) : Prop :=
  layer.scopes a.kind = [] ∨ ∃ scope ∈ layer.scopes a.kind, StartsIn a.target scope

instance (layer : PolicyLayer) (a : Action) : Decidable (Encloses layer a) :=
  inferInstanceAs (Decidable (_ ∨ _))

theorem intercalate_append {sep : List Char} {xs ys : List (List Char)} (hx : xs ≠ [])
    (hy : ys ≠ []) :
    sep.intercalate (xs ++ ys) = sep.intercalate xs ++ sep ++ sep.intercalate ys := by
  induction xs with
  | nil => exact absurd rfl hx
  | cons x xs ih =>
    rcases eq_or_ne xs [] with rfl | hxs
    · rw [List.singleton_append, List.intercalate_cons_of_ne_nil hy, List.intercalate_singleton]
    · have hne : xs ++ ys ≠ [] := fun h => hxs (List.append_eq_nil_iff.1 h).1
      rw [List.cons_append, List.intercalate_cons_of_ne_nil hne,
        List.intercalate_cons_of_ne_nil hxs, ih hxs]
      simp only [List.append_assoc]

/-- The parts of a text start with those of another iff it is that text, or goes on with a slash. -/
theorem splitOn_prefix_iff {s t : List Char} :
    s.splitOn '/' <+: t.splitOn '/' ↔ t = s ∨ s ++ ['/'] <+: t := by
  constructor
  · rintro ⟨rest, hrest⟩
    rcases rest with - | ⟨part, rest⟩
    · left
      rw [List.append_nil] at hrest
      have htext := congrArg (List.intercalate ['/']) hrest
      rw [List.intercalate_splitOn, List.intercalate_splitOn] at htext
      exact htext.symm
    · right
      refine ⟨List.intercalate ['/'] (part :: rest), ?_⟩
      have htext := congrArg (List.intercalate ['/']) hrest
      rw [intercalate_append (List.splitOn_ne_nil _ _) (List.cons_ne_nil _ _),
        List.intercalate_splitOn, List.intercalate_splitOn] at htext
      exact htext
  · rintro (rfl | ⟨l, hl⟩)
    · exact List.prefix_refl _
    · rw [List.append_assoc, List.singleton_append] at hl
      rw [← hl, List.splitOn_append_cons_self]
      exact List.prefix_append _ _

theorem startsIn_iff {path scope : String} : StartsIn path scope ↔
    rstripSlash (strip scope) ≠ "" ∧ (rstripSlash (strip path) = rstripSlash (strip scope) ∨
      startsWith (rstripSlash (strip path)) (rstripSlash (strip scope) ++ "/") = true) := by
  rw [StartsIn, rawParts, rawParts, splitOn_prefix_iff, String.toList_inj, startsWith,
    List.isPrefixOf_iff_prefix, String.toList_append]
  rfl

/-- Only a path with a text starts in a scope. -/
theorem StartsIn.ne_empty {path scope : String} (h : StartsIn path scope) :
    rstripSlash (strip path) ≠ "" := by
  intro hempty
  obtain ⟨hne, hsame | hstart⟩ := startsIn_iff.1 h
  · exact hne (hsame.symm.trans hempty)
  · rw [hempty, startsWith, List.isPrefixOf_iff_prefix, String.toList_append] at hstart
    have := List.prefix_nil.1 hstart
    simp at this

theorem pathInScopes_iff {path : String} {scopes : List String} :
    pathInScopes path scopes = true ↔ scopes = [] ∨ ∃ scope ∈ scopes, StartsIn path scope := by
  simp only [pathInScopes, Bool.or_eq_true, List.isEmpty_iff, Bool.and_eq_true, decide_eq_true_eq,
    List.any_eq_true, ← startsIn_iff]
  refine or_congr_right ⟨fun h => h.2, fun h => ⟨?_, h⟩⟩
  obtain ⟨scope, -, hstart⟩ := h
  exact hstart.ne_empty

theorem targetAllowed_iff {layer : PolicyLayer} (hkind : a.kind = .fsRead ∨ a.kind = .fsWrite) :
    targetAllowed a layer = true ↔ Encloses layer a := by
  unfold targetAllowed Encloses PolicyLayer.scopes
  rcases hkind with hk | hk <;> rw [hk] <;> exact pathInScopes_iff

/-! ### Which layer allows -/

/-- `LAYER_ORDER`. -/
def layerOrder : List String :=
  ["runtime-invariant", "project-deny", "global-deny", "explicit-user-grant", "project-defaults",
    "global-defaults", "harness-defaults"]

/-- The layer decides on the action: a runtime invariant on each kind that it denies, a deny layer,
a grant or a layer with defaults on what it denies or allows where it encloses the target. -/
def Decides (layer : PolicyLayer) (a : Action) : Prop :=
  if layer.name = "runtime-invariant" then a.kind ∈ layer.denies
  else if layer.name ∈ denyNames then a.kind ∈ layer.denies ∧ Encloses layer a
  else if layer.name = "explicit-user-grant" then a.kind ∈ layer.allows ∧ Encloses layer a
  else (a.kind ∈ layer.allows ∨ a.kind ∈ layer.denies) ∧ Encloses layer a

/-- No layer in effect under these names decides on the action. -/
def Undecided (stack : List PolicyLayer) (names : List String) (a : Action) : Prop :=
  ∀ name ∈ names, ∀ layer ∈ inEffect stack name, ¬ Decides layer a

instance (layer : PolicyLayer) (a : Action) : Decidable (Decides layer a) :=
  inferInstanceAs (Decidable (ite _ _ _))

instance (stack : List PolicyLayer) (names : List String) (a : Action) :
    Decidable (Undecided stack names a) :=
  inferInstanceAs (Decidable (∀ name ∈ names, _))

/-- The layer is in effect and allows the action, and none before it in the order decides. -/
structure GrantedBy (stack : List PolicyLayer) (layer : PolicyLayer) (a : Action) : Prop where
  effect : inEffect stack layer.name = some layer
  name : layer.name ∈ "explicit-user-grant" :: defaultNames
  kind : a.kind ∈ layer.allows
  encloses : Encloses layer a
  first : Undecided stack (layerOrder.takeWhile (· ≠ layer.name)) a

/-- How the text of a path lets an action past the layers, where `grant` allows it. -/
inductive Slip (stack : List PolicyLayer) (a : Action) (grant : PolicyLayer) : Prop
  /-- The target starts in a scope of the grant as it is written, and lies outside all of them. -/
  | leaves (h : ¬ Holds grant a)
  /-- The target lies in a scope of a deny layer, and starts in none of them as it is written. -/
  | enters {deny : PolicyLayer} (effect : inEffect stack deny.name = some deny)
      (name : deny.name ∈ denyNames) (kind : a.kind ∈ deny.denies) (holds : Holds deny a)
      (encloses : ¬ Encloses deny a)
  /-- A deny layer that holds the target has a later one of its name behind it. -/
  | shadowed {deny : PolicyLayer} (mem : deny ∈ stack)
      (effect : inEffect stack deny.name ≠ some deny) (name : deny.name ∈ denyNames)
      (kind : a.kind ∈ deny.denies) (holds : Holds deny a)

theorem decides_iff_of_deny {layer : PolicyLayer} (h : layer.name ∈ denyNames) :
    Decides layer a ↔ a.kind ∈ layer.denies ∧ Encloses layer a := by
  have hne : layer.name ≠ "runtime-invariant" := fun heq => by
    rw [heq] at h
    revert h
    decide
  rw [Decides, if_neg hne, if_pos h]

theorem decides_iff_of_default {layer : PolicyLayer} (h : layer.name ∈ defaultNames) :
    Decides layer a ↔ (a.kind ∈ layer.allows ∨ a.kind ∈ layer.denies) ∧ Encloses layer a := by
  have hother : ∀ name ∈ defaultNames, name ≠ "runtime-invariant" ∧ name ∉ denyNames ∧
      name ≠ "explicit-user-grant" := by decide
  obtain ⟨hinv, hdeny, hgrant⟩ := hother _ h
  rw [Decides, if_neg hinv, if_neg hdeny, if_neg hgrant]

theorem not_decides_iff_of_default (hkind : a.kind = .fsRead ∨ a.kind = .fsWrite)
    {layer : PolicyLayer} (h : layer.name ∈ defaultNames) :
    ¬ Decides layer a ↔ ¬ allowing a layer = true ∧ ¬ denying a layer = true := by
  rw [decides_iff_of_default h, ← targetAllowed_iff hkind, or_and_right, not_or, allowing, denying,
    Bool.and_eq_true, Bool.and_eq_true, decide_eq_true_eq, decide_eq_true_eq]

theorem refused_eq_false_iff (hkind : a.kind = .fsRead ∨ a.kind = .fsWrite) :
    refused a stack = false ↔ Undecided stack ("runtime-invariant" :: denyNames) a := by
  have hinv :
      ((inEffect stack "runtime-invariant").any fun layer => a.kind ∈ layer.denies) = false ↔
        ∀ layer, inEffect stack "runtime-invariant" = some layer → ¬ Decides layer a := by
    cases hl : inEffect stack "runtime-invariant" with
    | none => simp
    | some layer =>
      simp only [Option.any_some, Option.some.injEq, forall_eq', Decides, name_of_inEffect hl,
        if_true, decide_eq_false_iff_not]
  have hdeny : ∀ name ∈ denyNames, ((inEffect stack name).any (denying a) = false ↔
      ∀ layer, inEffect stack name = some layer → ¬ Decides layer a) := by
    intro name hname
    cases hl : inEffect stack name with
    | none => simp
    | some layer =>
      rw [← name_of_inEffect hl] at hname
      simp only [Option.any_some, Option.some.injEq, forall_eq', decides_iff_of_deny hname,
        ← targetAllowed_iff hkind]
      rw [denying, ← Bool.not_eq_true, Bool.and_eq_true, decide_eq_true_eq]
  rw [refused, Bool.or_eq_false_iff, hinv, List.any_eq_false, Undecided, List.forall_mem_cons]
  refine and_congr_right fun _ => forall₂_congr fun name hname => ?_
  rw [Bool.not_eq_true, hdeny name hname]
  rfl

theorem undecided_of_defaultGrantor (hkind : a.kind = .fsRead ∨ a.kind = .fsWrite)
    {layer : PolicyLayer} {names : List String} (hnames : names ⊆ defaultNames)
    (h : defaultGrantor a stack names = some layer) :
    layer.name ∈ names ∧ inEffect stack layer.name = some layer ∧ allowing a layer = true ∧
      Undecided stack (names.takeWhile (· ≠ layer.name)) a := by
  induction names with
  | nil => cases h
  | cons name names ih =>
    have ih := ih fun n hn => hnames (List.mem_cons_of_mem _ hn)
    rw [defaultGrantor] at h
    -- past a name that does not decide, the rest of them does
    have hpast : defaultGrantor a stack names = some layer →
        (∀ other, inEffect stack name = some other →
          ¬ allowing a other = true ∧ ¬ denying a other = true) →
        layer.name ∈ name :: names ∧ inEffect stack layer.name = some layer ∧
          allowing a layer = true ∧
          Undecided stack ((name :: names).takeWhile (· ≠ layer.name)) a := by
      intro h hno
      obtain ⟨hmem, heff, hallow, hund⟩ := ih h
      have hne : name ≠ layer.name := by
        rintro rfl
        exact (hno layer heff).1 hallow
      rw [List.takeWhile_cons_of_pos (by simpa using hne)]
      refine ⟨List.mem_cons_of_mem _ hmem, heff, hallow, List.forall_mem_cons.2 ⟨?_, hund⟩⟩
      intro other hother
      refine (not_decides_iff_of_default hkind ?_).2 (hno other hother)
      rw [name_of_inEffect hother]
      exact hnames List.mem_cons_self
    cases hl : inEffect stack name with
    | none =>
      rw [hl] at h
      exact hpast h (by simp [hl])
    | some other =>
      rw [hl] at h
      simp only at h
      split_ifs at h with hallow hdeny
      · cases h
        obtain rfl := name_of_inEffect hl
        rw [List.takeWhile_cons_of_neg (by simp)]
        exact ⟨List.mem_cons_self, hl, hallow, List.forall_mem_nil _⟩
      · refine hpast h fun other' hother => ?_
        obtain rfl := Option.some.inj (hl.symm.trans hother)
        exact ⟨hallow, hdeny⟩

theorem defaultGrantor_of_undecided (hkind : a.kind = .fsRead ∨ a.kind = .fsWrite)
    {layer : PolicyLayer} {names : List String} (hnames : names ⊆ defaultNames)
    (hmem : layer.name ∈ names) (heff : inEffect stack layer.name = some layer)
    (hallow : allowing a layer = true)
    (hund : Undecided stack (names.takeWhile (· ≠ layer.name)) a) :
    defaultGrantor a stack names = some layer := by
  induction names with
  | nil => cases hmem
  | cons name names ih =>
    rw [defaultGrantor]
    by_cases hname : name = layer.name
    · rw [hname, heff]
      simp only [hallow, if_true]
    · rw [List.takeWhile_cons_of_pos (by simpa using hname)] at hund
      obtain ⟨hno, hund⟩ := List.forall_mem_cons.1 hund
      have hrest := ih (fun n hn => hnames (List.mem_cons_of_mem _ hn))
        ((List.mem_cons.1 hmem).resolve_left (Ne.symm hname)) hund
      cases hl : inEffect stack name with
      | none => exact hrest
      | some other =>
        have hother : other.name ∈ defaultNames := by
          rw [name_of_inEffect hl]
          exact hnames List.mem_cons_self
        obtain ⟨hnallow, hndeny⟩ := (not_decides_iff_of_default hkind hother).1 (hno other hl)
        simp only [hnallow, hndeny, Bool.false_eq_true, if_false]
        exact hrest

theorem grantor_iff (hkind : a.kind = .fsRead ∨ a.kind = .fsWrite) {layer : PolicyLayer} :
    grantor a stack = some layer ↔
      layer.name ∈ "explicit-user-grant" :: defaultNames ∧
        inEffect stack layer.name = some layer ∧ allowing a layer = true ∧
        Undecided stack (("explicit-user-grant" :: defaultNames).takeWhile (· ≠ layer.name)) a := by
  have hdecides : ∀ other, inEffect stack "explicit-user-grant" = some other →
      (Decides other a ↔ allowing a other = true) := by
    intro other hother
    rw [Decides, name_of_inEffect hother, if_neg (by decide), if_neg (by decide), if_pos rfl,
      ← targetAllowed_iff hkind, allowing, Bool.and_eq_true, decide_eq_true_eq]
  rw [grantor, Option.or_eq_some_iff, Option.filter_eq_some_iff, Option.filter_eq_none_iff]
  constructor
  · rintro (⟨heff, hallow⟩ | ⟨hnone, hdefault⟩)
    · have hname := name_of_inEffect heff
      rw [hname, List.takeWhile_cons_of_neg (by simp)]
      exact ⟨List.mem_cons_self, heff, hallow, List.forall_mem_nil _⟩
    · obtain ⟨hmem, heff, hallow, hund⟩ :=
        undecided_of_defaultGrantor hkind (List.Subset.refl _) hdefault
      have hne : "explicit-user-grant" ≠ layer.name := by
        intro heq
        rw [← heq] at hmem
        revert hmem
        decide
      rw [List.takeWhile_cons_of_pos (by simpa using hne)]
      exact ⟨List.mem_cons_of_mem _ hmem, heff, hallow, List.forall_mem_cons.2
        ⟨fun other hother => (hdecides other hother).not.2 (hnone other hother), hund⟩⟩
  · rintro ⟨hmem, heff, hallow, hund⟩
    by_cases hname : "explicit-user-grant" = layer.name
    · exact Or.inl ⟨hname ▸ heff, hallow⟩
    · rw [List.takeWhile_cons_of_pos (by simpa using hname)] at hund
      obtain ⟨hno, hund⟩ := List.forall_mem_cons.1 hund
      exact Or.inr ⟨fun other hother => (hdecides other hother).not.1 (hno other hother),
        defaultGrantor_of_undecided hkind (List.Subset.refl _)
          ((List.mem_cons.1 hmem).resolve_left (Ne.symm hname)) heff hallow hund⟩

theorem grantedBy_iff (hkind : a.kind = .fsRead ∨ a.kind = .fsWrite) {layer : PolicyLayer} :
    GrantedBy stack layer a ↔ refused a stack = false ∧ grantor a stack = some layer := by
  have hallowing : allowing a layer = true ↔ a.kind ∈ layer.allows ∧ Encloses layer a := by
    rw [allowing, Bool.and_eq_true, decide_eq_true_eq, targetAllowed_iff hkind]
  -- the layers that may refuse come before all that may grant
  have horder : layer.name ∈ "explicit-user-grant" :: defaultNames →
      layerOrder.takeWhile (· ≠ layer.name) = ("runtime-invariant" :: denyNames) ++
        ("explicit-user-grant" :: defaultNames).takeWhile (· ≠ layer.name) := by
    intro hmem
    have hbefore : ∀ name ∈ "runtime-invariant" :: denyNames,
        decide (name ≠ layer.name) = true := by
      have hother : ∀ name ∈ "explicit-user-grant" :: defaultNames,
          name ∉ "runtime-invariant" :: denyNames := by decide
      intro name hname
      exact decide_eq_true fun heq => hother _ hmem (heq ▸ hname)
    exact List.takeWhile_append_of_pos hbefore
  rw [refused_eq_false_iff hkind, grantor_iff hkind, hallowing]
  constructor
  · intro h
    have hfirst := h.first
    rw [horder h.name, Undecided, List.forall_mem_append] at hfirst
    exact ⟨hfirst.1, h.name, h.effect, ⟨h.kind, h.encloses⟩, hfirst.2⟩
  · rintro ⟨hrefuse, hmem, heff, ⟨hk, hencloses⟩, hund⟩
    refine ⟨heff, hmem, hk, hencloses, ?_⟩
    rw [horder hmem, Undecided, List.forall_mem_append]
    exact ⟨hrefuse, hund⟩

/-- Where a layer grants, it slips iff it does not hold the target or a deny layer does. -/
theorem slip_iff (hkind : a.kind = .fsRead ∨ a.kind = .fsWrite) {grant : PolicyLayer}
    (h : GrantedBy stack grant a) :
    ¬ Slip stack a grant ↔ Holds grant a ∧
      ∀ deny ∈ stack, deny.name ∈ denyNames → a.kind ∈ deny.denies → ¬ Holds deny a := by
  constructor
  · intro hslip
    refine ⟨not_not.1 fun hholds => hslip (.leaves hholds), fun deny hmem hname hk hholds => ?_⟩
    by_cases heff : inEffect stack deny.name = some deny
    · refine hslip (.enters heff hname hk hholds fun hencloses => ?_)
      have hund := (refused_eq_false_iff hkind).1 ((grantedBy_iff hkind).1 h).1
      exact hund _ (List.mem_cons_of_mem _ hname) deny heff
        ((decides_iff_of_deny hname).2 ⟨hk, hencloses⟩)
    · exact hslip (.shadowed hmem heff hname hk hholds)
  · rintro ⟨hholds, hdenies⟩ hslip
    cases hslip with
    | leaves hn => exact hn hholds
    | enters heff hname hk hdeny => exact hdenies _ (mem_of_inEffect heff) hname hk hdeny
    | shadowed hmem _ hname hk hdeny => exact hdenies _ hmem hname hk hdeny

/-! ### Plain paths

On paths that are their own normal form, and with no layer given twice, the engine contains every
action. -/

/-- The parts of a path as they are written, without the empty one in front of the root. -/
def writtenParts (path : String) : List (List Char) :=
  if isAbsolute path then (path.toList.splitOn '/').tail else path.toList.splitOn '/'

/-- A path without blanks around it that has no empty part, no `.` and no `..`. -/
structure Plain (path : String) : Prop where
  strip : Shiroe.strip path = path
  parts : ∀ part ∈ writtenParts path, part ≠ [] ∧ part ≠ ['.'] ∧ part ≠ ['.', '.']

theorem exists_absolute {path : String} (h : isAbsolute path = true) :
    ∃ l, path.toList = '/' :: l ∧ path.toList.splitOn '/' = [] :: l.splitOn '/' := by
  obtain ⟨l, hl⟩ : ∃ l, path.toList = '/' :: l := by
    rw [isAbsolute, decide_eq_true_eq] at h
    exact ⟨path.toList.tail, (List.cons_head?_tail h).symm⟩
  refine ⟨l, hl, ?_⟩
  rw [hl]
  exact List.splitOn_append_cons_self [] l

theorem foldl_pushPart {absolute : Bool} {parts acc : List (List Char)}
    (h : ∀ part ∈ parts, part ≠ [] ∧ part ≠ ['.'] ∧ part ≠ ['.', '.']) :
    parts.foldl (pushPart absolute) acc = parts.reverse ++ acc := by
  induction parts generalizing acc with
  | nil => rfl
  | cons part parts ih =>
    obtain ⟨hne, hdot, hdots⟩ := h part (by simp)
    have hpush : pushPart absolute acc part = part :: acc := by
      simp [pushPart, hne, hdot, hdots]
    rw [List.foldl_cons, hpush, ih fun part hpart => h part (List.mem_cons_of_mem _ hpart)]
    simp

namespace Plain

variable {path scope : String}

theorem lexicalParts (h : Plain path) : lexicalParts path = writtenParts path := by
  have hparts := h.parts
  unfold Shiroe.lexicalParts
  unfold writtenParts at hparts ⊢
  split_ifs at hparts ⊢ with habs
  · obtain ⟨l, -, hsplit⟩ := exists_absolute habs
    rw [hsplit, List.tail_cons] at hparts ⊢
    rw [List.foldl_cons, show pushPart (isAbsolute path) [] [] = [] by simp [pushPart],
      foldl_pushPart hparts]
    simp
  · rw [foldl_pushPart hparts]
    simp

theorem ne_empty (h : Plain path) : path ≠ "" := by
  rintro rfl
  exact (h.parts [] (by decide)).1 rfl

theorem not_trailing (h : Plain path) (l : List Char) : path.toList ≠ l ++ ['/'] := by
  intro hl
  refine (h.parts [] ?_).1 rfl
  have hsplit : path.toList.splitOn '/' = l.splitOn '/' ++ [[]] := by
    rw [hl]
    exact List.splitOn_append_cons_self l []
  unfold writtenParts
  split_ifs
  · rw [hsplit, List.tail_append_of_ne_nil (List.splitOn_ne_nil _ _)]
    simp
  · rw [hsplit]
    simp

/-- The texts the engine compares are the paths themselves. -/
theorem rstripSlash_strip (h : Plain path) : rstripSlash (Shiroe.strip path) = path := by
  rw [h.strip, rstripSlash]
  rcases List.eq_nil_or_concat path.toList with hnil | ⟨l, c, hl⟩
  · rw [hnil]
    exact (String.toList_eq_nil_iff.1 hnil).symm
  · have hc : c ≠ '/' := by
      rintro rfl
      rw [List.concat_eq_append] at hl
      exact h.not_trailing l hl
    rw [hl, List.concat_eq_append, List.reverse_append, List.reverse_singleton,
      List.singleton_append, List.dropWhile_cons_of_neg (by simpa using hc), List.reverse_cons,
      List.reverse_reverse, ← List.concat_eq_append, ← hl, String.ofList_toList]

theorem inside_iff (h : Plain path) (hs : Plain scope) :
    Inside path scope ↔ path = scope ∨ startsWith path (scope ++ "/") = true := by
  have hsplit : ∀ {p : String}, Plain p →
      p.toList.splitOn '/' = if isAbsolute p then [] :: writtenParts p else writtenParts p := by
    intro p _
    unfold writtenParts
    split_ifs with habs
    · obtain ⟨l, -, hl⟩ := exists_absolute habs
      rw [hl, List.tail_cons]
    · rfl
  have hraw : Inside path scope ↔ isAbsolute path = isAbsolute scope ∧
      scope.toList.splitOn '/' <+: path.toList.splitOn '/' := by
    rw [Inside, h.lexicalParts, hs.lexicalParts, hsplit h, hsplit hs]
    refine and_congr_right fun habs => ?_
    rw [habs]
    split_ifs
    · rw [List.cons_prefix_cons, and_iff_right rfl]
    · rfl
  rw [hraw, splitOn_prefix_iff, String.toList_inj, startsWith, List.isPrefixOf_iff_prefix,
    String.toList_append]
  refine and_iff_right_of_imp ?_
  rintro (rfl | ⟨l, hl⟩)
  · rfl
  · have hne : scope.toList ≠ [] := fun hnil => hs.ne_empty (String.toList_eq_nil_iff.1 hnil)
    rw [isAbsolute, isAbsolute, ← hl, List.append_assoc, List.head?_append_of_ne_nil _ hne]

theorem startsIn_iff (h : Plain path) (hs : Plain scope) :
    StartsIn path scope ↔ Inside path scope := by
  rw [Shiroe.startsIn_iff, h.rstripSlash_strip, hs.rstripSlash_strip, and_iff_right hs.ne_empty,
    h.inside_iff hs]

/-- On a plain target, text and place agree for a layer with plain scopes. -/
theorem encloses_iff (h : Plain a.target) {layer : PolicyLayer}
    (hs : ∀ scope ∈ layer.fsWriteScopes ++ layer.fsReadScopes, Plain scope) :
    Encloses layer a ↔ Holds layer a := by
  refine or_congr_right (exists_congr fun scope => and_congr_right fun hscope => ?_)
  refine h.startsIn_iff (hs scope ?_)
  unfold PolicyLayer.scopes at hscope
  split at hscope
  · exact List.mem_append_left _ hscope
  · exact List.mem_append_right _ hscope
  · cases hscope

end Plain

/-- Every scope of every layer is plain, and no layer is given twice. -/
structure PlainStack (stack : List PolicyLayer) : Prop where
  scopes : ∀ layer ∈ stack, ∀ scope ∈ layer.fsWriteScopes ++ layer.fsReadScopes, Plain scope
  names : (stack.map PolicyLayer.name).Nodup

theorem PlainStack.inEffect (h : PlainStack stack) {layer : PolicyLayer} (hl : layer ∈ stack) :
    inEffect stack layer.name = some layer := by
  cases hf : Shiroe.inEffect stack layer.name with
  | none =>
    have := List.find?_eq_none.1 hf layer (List.mem_reverse.2 hl)
    simp at this
  | some other =>
    have hname : other.name = layer.name := name_of_inEffect hf
    rw [List.inj_on_of_nodup_map h.names (mem_of_inEffect hf) hl hname]

/-- A project denies writes below `/etc` and allows all others. -/
def etcStack : List PolicyLayer :=
  [{ name := "project-deny", denies := [.fsWrite], fsWriteScopes := ["/etc"] },
    { name := "project-defaults", allows := [.fsWrite] }]

end Shiroe
