import Shiroe.Policy.Engine

/-!
# Narrowing two layers

`narrower` combines two layers with one name field by field.  An empty list of scopes or hosts
stands for no restriction, and the lists for reading are united: the result can let a target through
that one of the layers does not, and can pass over a target that one of them denies.

* `narrower_permits_iff` : when the combined layer, alone in the stack, permits nothing that one of
  the two does not permit, and when it denies by a rule whatever one of the two does.
-/

namespace Shiroe

/-- `tuple(sorted(l))` for a set of texts. -/
def sortedTuple (l : List String) : List String := l.dedup.insertionSort (· ≤ ·)

/-- `narrower`. -/
def narrower (a b : PolicyLayer) : PolicyLayer where
  name := a.name
  denies := a.denies ∪ b.denies
  allows := a.allows ∩ b.allows
  fsWriteScopes := sortedTuple (a.fsWriteScopes ∩ b.fsWriteScopes)
  fsReadScopes := sortedTuple (a.fsReadScopes ∪ b.fsReadScopes)
  networkHosts := sortedTuple (a.networkHosts ∩ b.networkHosts)

/-! ### One layer alone -/

/-- A layer of this name can allow. -/
def Grants (name : String) : Prop := name = "explicit-user-grant" ∨ name ∈ defaultNames

instance (name : String) : Decidable (Grants name) := inferInstanceAs (Decidable (_ ∨ _))

/-- The layer alone in the stack permits the action. -/
def Permits (layer : PolicyLayer) (act : Action) : Prop := (resolve act [layer]).verdict = .allow

/-- The layer alone in the stack denies the action, and not for lack of a rule. -/
def DeniesByRule (layer : PolicyLayer) (act : Action) : Prop :=
  (resolve act [layer]).verdict = .deny ∧ (resolve act [layer]).decidingLayer ≠ "default-deny"

instance (layer : PolicyLayer) (act : Action) : Decidable (Permits layer act) :=
  inferInstanceAs (Decidable (_ = _))

instance (layer : PolicyLayer) (act : Action) : Decidable (DeniesByRule layer act) :=
  inferInstanceAs (Decidable (_ ∧ _))

variable {a b layer : PolicyLayer} {act : Action}

theorem inEffect_singleton (name : String) :
    inEffect [layer] name = if layer.name = name then some layer else none := by
  by_cases h : layer.name = name <;> simp [inEffect, h]

theorem find?_denying_singleton (names : List String) :
    names.find? (fun name => (inEffect [layer] name).any (denying act)) =
      if layer.name ∈ names ∧ denying act layer = true then some layer.name else none := by
  induction names with
  | nil => simp
  | cons name names ih =>
    rw [List.find?_cons, inEffect_singleton, ih]
    by_cases hname : layer.name = name
    · by_cases hdeny : denying act layer = true <;> simp [hname, hdeny]
    · simp [hname]

theorem resolveDefaults_singleton (names : List String) : resolveDefaults act [layer] names =
    if layer.name ∈ names ∧ allowing act layer = true then
      ⟨.allow, "allowed by " ++ layer.name, layer.name⟩
    else if layer.name ∈ names ∧ denying act layer = true then
      ⟨.deny, "denied by " ++ layer.name, layer.name⟩
    else ⟨.deny, "no matching allow rule", "default-deny"⟩ := by
  induction names with
  | nil => simp [resolveDefaults]
  | cons name names ih =>
    rw [resolveDefaults, inEffect_singleton, ih]
    by_cases hname : layer.name = name
    · by_cases hallow : allowing act layer = true
      · simp [hname, hallow]
      · by_cases hdeny : denying act layer = true <;> simp [hname, hallow, hdeny]
    · simp [hname]

/-- What a layer decides alone, by the place that its name gives it. -/
theorem resolve_singleton : resolve act [layer] =
    if layer.name = "runtime-invariant" ∧ act.kind ∈ layer.denies then
      ⟨.deny, "runtime safety invariant", "runtime-invariant"⟩
    else if layer.name ∈ denyNames ∧ denying act layer = true then
      ⟨.deny, "denied by " ++ layer.name, layer.name⟩
    else if layer.name = "explicit-user-grant" ∧ allowing act layer = true then
      ⟨.allow, "explicit user grant", "explicit-user-grant"⟩
    else if layer.name ∈ defaultNames ∧ allowing act layer = true then
      ⟨.allow, "allowed by " ++ layer.name, layer.name⟩
    else if layer.name ∈ defaultNames ∧ denying act layer = true then
      ⟨.deny, "denied by " ++ layer.name, layer.name⟩
    else ⟨.deny, "no matching allow rule", "default-deny"⟩ := by
  have hany : ∀ (name : String) (f : PolicyLayer → Bool),
      (inEffect [layer] name).any f = true ↔ layer.name = name ∧ f layer = true := by
    intro name f
    rw [inEffect_singleton]
    by_cases hname : layer.name = name <;> simp [hname]
  simp only [resolve, find?_denying_singleton, resolveDefaults_singleton, hany,
    decide_eq_true_eq]
  by_cases hdeny : layer.name ∈ denyNames ∧ denying act layer = true
  · rw [if_pos hdeny, if_pos hdeny]
  · rw [if_neg hdeny, if_neg hdeny]

theorem permits_iff : Permits layer act ↔ Grants layer.name ∧ allowing act layer = true := by
  have hdisjoint : Grants layer.name → layer.name ≠ "runtime-invariant" ∧
      layer.name ∉ denyNames := by
    generalize layer.name = name
    rintro (rfl | h)
    · decide
    · revert name
      decide
  rw [Permits, resolve_singleton, Grants]
  split_ifs with h₁ h₂ h₃ h₄ h₅
  · exact ⟨fun h => (by cases h), fun h => absurd h₁.1 (hdisjoint h.1).1⟩
  · exact ⟨fun h => (by cases h), fun h => absurd h₂.1 (hdisjoint h.1).2⟩
  · exact ⟨fun _ => ⟨.inl h₃.1, h₃.2⟩, fun _ => rfl⟩
  · exact ⟨fun _ => ⟨.inr h₄.1, h₄.2⟩, fun _ => rfl⟩
  · exact ⟨fun h => (by cases h), fun h => (h.1.elim (fun hn => h₃ ⟨hn, h.2⟩)
      fun hn => h₄ ⟨hn, h.2⟩).elim⟩
  · exact ⟨fun h => (by cases h), fun h => (h.1.elim (fun hn => h₃ ⟨hn, h.2⟩)
      fun hn => h₄ ⟨hn, h.2⟩).elim⟩

theorem deniesByRule_iff : DeniesByRule layer act ↔
    layer.name = "runtime-invariant" ∧ act.kind ∈ layer.denies ∨
      (layer.name ∈ denyNames ∨ layer.name ∈ defaultNames ∧ allowing act layer = false) ∧
        denying act layer = true := by
  have hname : ∀ name, name ∈ denyNames ∨ name ∈ defaultNames →
      name ≠ "default-deny" ∧ name ≠ "explicit-user-grant" := by
    simp only [denyNames, defaultNames, List.mem_cons, List.not_mem_nil, or_false]
    rintro name ((rfl | rfl) | (rfl | rfl | rfl)) <;> decide
  rw [DeniesByRule, resolve_singleton]
  split_ifs with h₁ h₂ h₃ h₄ h₅
  · exact ⟨fun _ => .inl h₁, fun _ => ⟨rfl, by decide⟩⟩
  · exact ⟨fun _ => .inr ⟨.inl h₂.1, h₂.2⟩, fun _ => ⟨rfl, (hname _ (.inl h₂.1)).1⟩⟩
  · refine ⟨fun h => absurd h.1 (by decide), ?_⟩
    rintro (h | ⟨h | h, hdeny⟩)
    · exact absurd h h₁
    · exact absurd ⟨h, hdeny⟩ h₂
    · exact absurd h₃.1 (hname _ (.inr h.1)).2
  · refine ⟨fun h => absurd h.1 (by decide), ?_⟩
    rintro (h | ⟨h | h, hdeny⟩)
    · exact absurd h h₁
    · exact absurd ⟨h, hdeny⟩ h₂
    · rw [h₄.2] at h
      exact absurd h.2 (by decide)
  · refine ⟨fun _ => .inr ⟨.inr ⟨h₅.1, ?_⟩, h₅.2⟩, fun _ => ⟨rfl, (hname _ (.inr h₅.1)).1⟩⟩
    exact Bool.eq_false_iff.2 fun hallow => h₄ ⟨h₅.1, hallow⟩
  · refine ⟨fun h => absurd rfl h.2, ?_⟩
    rintro (h | ⟨h | h, hdeny⟩)
    · exact absurd h h₁
    · exact absurd ⟨h, hdeny⟩ h₂
    · exact absurd ⟨h.1, hdeny⟩ h₅

/-! ### The combined lists -/

/-- The target lies in the scope. -/
def InScope (target scope : String) : Prop := pathInScopes target [scope] = true

/-- The combined lists let through a target that the lists of one layer do not: no host or scope for
writing is in both layers, or the target lies in a scope for reading of one of them. -/
def Widens (a b : PolicyLayer) (act : Action) : Prop :=
  ¬ (targetAllowed act a = true ∧ targetAllowed act b = true) ∧
    match act.kind with
    | .network => ∀ host ∈ a.networkHosts, host ∉ b.networkHosts
    | .fsWrite => ∀ scope ∈ a.fsWriteScopes, scope ∉ b.fsWriteScopes
    | .fsRead => ∃ scope, (scope ∈ a.fsReadScopes ∨ scope ∈ b.fsReadScopes) ∧
        InScope act.target scope
    | _ => False

/-- The combined lists do not hold the target: some host or scope for writing is in both layers, but
none that holds it; or there are scopes for reading, and none of either layer holds it. -/
def Misses (a b : PolicyLayer) (act : Action) : Prop :=
  match act.kind with
  | .network => (∃ host ∈ a.networkHosts, host ∈ b.networkHosts) ∧
      ¬ (act.target ∈ a.networkHosts ∧ act.target ∈ b.networkHosts)
  | .fsWrite => (∃ scope ∈ a.fsWriteScopes, scope ∈ b.fsWriteScopes) ∧
      ∀ scope ∈ a.fsWriteScopes, scope ∈ b.fsWriteScopes → ¬ InScope act.target scope
  | .fsRead => (a.fsReadScopes ≠ [] ∨ b.fsReadScopes ≠ []) ∧
      ∀ scope, scope ∈ a.fsReadScopes ∨ scope ∈ b.fsReadScopes → ¬ InScope act.target scope
  | _ => False

theorem mem_sortedTuple {l : List String} {s : String} : s ∈ sortedTuple l ↔ s ∈ l := by
  rw [sortedTuple, List.mem_insertionSort, List.mem_dedup]

theorem sortedTuple_eq_nil {l : List String} : sortedTuple l = [] ↔ l = [] := by
  simp only [List.eq_nil_iff_forall_not_mem, mem_sortedTuple]

theorem pathInScopes_eq_true {target : String} {scopes : List String} :
    pathInScopes target scopes = true ↔ scopes = [] ∨ ∃ s ∈ scopes, InScope target s := by
  simp only [InScope, pathInScopes, Bool.or_eq_true, List.isEmpty_iff, Bool.and_eq_true,
    List.any_eq_true, List.mem_singleton, exists_eq_left, List.cons_ne_nil, false_or]
  constructor
  · rintro (h | ⟨htarget, s, hs, h⟩)
    · exact .inl h
    · exact .inr ⟨s, hs, htarget, h⟩
  · rintro (h | ⟨s, hs, htarget, h⟩)
    · exact .inl h
    · exact .inr ⟨htarget, s, hs, h⟩

theorem networkAllowed_iff {target : String} {hosts : List String} :
    (hosts.isEmpty || hosts.contains target) = true ↔ hosts = [] ∨ target ∈ hosts := by
  rw [Bool.or_eq_true, List.isEmpty_iff, List.contains_iff_mem]

theorem inter_eq_nil {l l' : List String} : l ∩ l' = [] ↔ ∀ s ∈ l, s ∉ l' := by
  simp only [List.eq_nil_iff_forall_not_mem, List.mem_inter_iff, not_and]

theorem union_eq_nil {l l' : List String} : l ∪ l' = [] ↔ l = [] ∧ l' = [] := by
  simp only [List.eq_nil_iff_forall_not_mem, List.mem_union_iff, not_or, forall_and]

/-- The lists of the combined layer hold every target but those that they miss. -/
theorem targetAllowed_narrower : targetAllowed act (narrower a b) = true ↔ ¬ Misses a b act := by
  unfold targetAllowed Misses narrower
  split
  · simp only [networkAllowed_iff, sortedTuple_eq_nil, mem_sortedTuple, inter_eq_nil,
      List.mem_inter_iff]
    grind
  · simp only [pathInScopes_eq_true, sortedTuple_eq_nil, mem_sortedTuple, inter_eq_nil,
      List.mem_inter_iff]
    grind
  · simp only [pathInScopes_eq_true, sortedTuple_eq_nil, mem_sortedTuple, List.mem_union_iff,
      union_eq_nil]
    grind
  · simp

/-- What the combined layer holds, both layers hold, unless the lists widen. -/
theorem targetAllowed_both : (targetAllowed act (narrower a b) = true →
    targetAllowed act a = true ∧ targetAllowed act b = true) ↔ ¬ Widens a b act := by
  unfold targetAllowed Widens targetAllowed narrower
  cases act.kind
  case network =>
    simp only [networkAllowed_iff, sortedTuple_eq_nil, mem_sortedTuple, inter_eq_nil,
      List.mem_inter_iff]
    grind
  case fsWrite =>
    simp only [pathInScopes_eq_true, sortedTuple_eq_nil, mem_sortedTuple, inter_eq_nil,
      List.mem_inter_iff]
    grind
  case fsRead =>
    simp only [pathInScopes_eq_true, sortedTuple_eq_nil, mem_sortedTuple, List.mem_union_iff,
      union_eq_nil]
    constructor
    · rintro h ⟨hnot, hheld⟩
      exact hnot (h (.inr hheld))
    · rintro h (⟨ha, hb⟩ | hheld)
      · exact ⟨.inl ha, .inl hb⟩
      · by_contra hnot
        exact h ⟨hnot, hheld⟩
  all_goals simp

/-! ### The combined layer alone -/

theorem verdict_singleton : (resolve act [layer]).verdict = .deny ↔ ¬ Permits layer act := by
  rw [Permits, resolve_singleton]
  split_ifs <;> simp

theorem allowing_narrower : allowing act (narrower a b) = true ↔
    (act.kind ∈ a.allows ∧ act.kind ∈ b.allows) ∧ targetAllowed act (narrower a b) = true := by
  rw [allowing, Bool.and_eq_true, decide_eq_true_eq]
  exact and_congr_left fun _ => List.mem_inter_iff

theorem denying_narrower : denying act (narrower a b) = true ↔
    (act.kind ∈ a.denies ∨ act.kind ∈ b.denies) ∧ ¬ Misses a b act := by
  rw [denying, Bool.and_eq_true, decide_eq_true_eq, targetAllowed_narrower]
  exact and_congr_left fun _ => List.mem_union_iff

theorem permits_narrower (hname : a.name = b.name) :
    (Permits (narrower a b) act → Permits a act ∧ Permits b act) ↔
      ¬ (Grants a.name ∧ act.kind ∈ a.allows ∧ act.kind ∈ b.allows ∧ Widens a b act) := by
  have hboth := @targetAllowed_both a b act
  have hn : Permits (narrower a b) act ↔ Grants a.name ∧ allowing act (narrower a b) = true :=
    permits_iff
  rw [hn, permits_iff, permits_iff, allowing_narrower, ← hname]
  simp only [allowing, Bool.and_eq_true, decide_eq_true_eq]
  constructor
  · rintro h ⟨hgrants, ha, hb, hwidens⟩
    refine hboth.1 (fun htarget => ?_) hwidens
    have hallows := h ⟨hgrants, ⟨ha, hb⟩, htarget⟩
    exact ⟨hallows.1.2.2, hallows.2.2.2⟩
  · rintro h ⟨hgrants, ⟨ha, hb⟩, htarget⟩
    obtain ⟨hta, htb⟩ := hboth.2 (fun hwidens => h ⟨hgrants, ha, hb, hwidens⟩) htarget
    exact ⟨⟨hgrants, ha, hta⟩, hgrants, hb, htb⟩

/-- A layer that denies an action by a rule has it among its denies, and not among the allows of a
layer with defaults that hold the target. -/
theorem rule_of_deniesByRule (h : DeniesByRule layer act) : act.kind ∈ layer.denies ∧
    (layer.name = "runtime-invariant" ∨ layer.name ∈ denyNames ∨
      layer.name ∈ defaultNames ∧ act.kind ∉ layer.allows) := by
  rcases deniesByRule_iff.1 h with ⟨hinv, hkind⟩ | ⟨hplace, hdeny⟩
  · exact ⟨hkind, .inl hinv⟩
  · rw [denying, Bool.and_eq_true, decide_eq_true_eq] at hdeny
    refine ⟨hdeny.1, .inr (hplace.imp_right fun hdefault => ⟨hdefault.1, fun hallow => ?_⟩)⟩
    have hfalse := hdefault.2
    rw [allowing, hdeny.2, decide_eq_true hallow] at hfalse
    exact absurd hfalse (by decide)

theorem deniesByRule_narrower (hname : a.name = b.name)
    (hdeny : DeniesByRule a act ∨ DeniesByRule b act) :
    DeniesByRule (narrower a b) act ↔ a.name = "runtime-invariant" ∨ ¬ Misses a b act := by
  have hn : DeniesByRule (narrower a b) act ↔
      a.name = "runtime-invariant" ∧ act.kind ∈ (narrower a b).denies ∨
        (a.name ∈ denyNames ∨ a.name ∈ defaultNames ∧ allowing act (narrower a b) = false) ∧
          denying act (narrower a b) = true := deniesByRule_iff
  have hmem : act.kind ∈ (narrower a b).denies ↔ act.kind ∈ a.denies ∨ act.kind ∈ b.denies :=
    List.mem_union_iff
  -- the rule that denies is in the combined layer, and no allow of both layers comes before it
  have hrule : (act.kind ∈ a.denies ∨ act.kind ∈ b.denies) ∧
      (a.name = "runtime-invariant" ∨ a.name ∈ denyNames ∨
        a.name ∈ defaultNames ∧ ¬ (act.kind ∈ a.allows ∧ act.kind ∈ b.allows)) := by
    rcases hdeny with hdeny | hdeny
    · obtain ⟨hkind, hplace⟩ := rule_of_deniesByRule hdeny
      exact ⟨.inl hkind, hplace.imp_right (Or.imp_right fun h => ⟨h.1, fun hk => h.2 hk.1⟩)⟩
    · obtain ⟨hkind, hplace⟩ := rule_of_deniesByRule hdeny
      rw [← hname] at hplace
      exact ⟨.inr hkind, hplace.imp_right (Or.imp_right fun h => ⟨h.1, fun hk => h.2 hk.2⟩)⟩
  rw [hn, hmem, denying_narrower]
  constructor
  · rintro (h | h)
    · exact .inl h.1
    · exact .inr h.2.2
  · rintro (h | h)
    · exact .inl ⟨h, hrule.1⟩
    · rcases hrule.2 with hinv | hplace | ⟨hdefault, hallow⟩
      · exact .inl ⟨hinv, hrule.1⟩
      · exact .inr ⟨.inl hplace, hrule.1, h⟩
      · refine .inr ⟨.inr ⟨hdefault, Bool.eq_false_iff.2 fun hn => ?_⟩, hrule.1, h⟩
        exact hallow (allowing_narrower.1 hn).1

/-- **Narrowing two layers of one name.**  The combined layer, alone in the stack, permits only what
both permit and denies what one of them denies by a rule, unless the layers can grant, both allow
the kind of action, and their lists widen.  It denies by a rule of its own what one of them does,
unless the combined lists miss the target. -/
theorem narrower_permits_iff (hname : a.name = b.name) (act : Action) :
    (((Permits (narrower a b) act → Permits a act ∧ Permits b act) ∧
        (DeniesByRule a act ∨ DeniesByRule b act →
          (resolve act [narrower a b]).verdict = .deny)) ↔
      ¬ (Grants a.name ∧ act.kind ∈ a.allows ∧ act.kind ∈ b.allows ∧ Widens a b act)) ∧
    ((DeniesByRule a act ∨ DeniesByRule b act → DeniesByRule (narrower a b) act) ↔
      ¬ (a.name ≠ "runtime-invariant" ∧ (DeniesByRule a act ∨ DeniesByRule b act) ∧
        Misses a b act)) := by
  constructor
  · rw [← permits_narrower hname]
    refine ⟨fun h => h.1, fun h => ⟨h, fun hdeny => verdict_singleton.2 fun hn => ?_⟩⟩
    -- what is denied by a rule of one layer is not permitted by it
    rcases hdeny with hdeny | hdeny
    · exact verdict_singleton.1 hdeny.1 (h hn).1
    · exact verdict_singleton.1 hdeny.1 (h hn).2
  · by_cases hdeny : DeniesByRule a act ∨ DeniesByRule b act
    · simp only [hdeny, true_imp_iff, true_and, deniesByRule_narrower hname hdeny]
      tauto
    · simp only [hdeny, false_imp_iff, false_and, and_false, not_false_eq_true]

/-- A user grant for writing in one place. -/
def grantOf (scope : String) : PolicyLayer :=
  { name := "explicit-user-grant", allows := [.fsWrite], fsWriteScopes := [scope] }

/-- Two grants for writing in different places. -/
theorem narrower_permits_iff_grants :
    (((Permits (narrower (grantOf "/a") (grantOf "/b")) ⟨.fsWrite, "/etc"⟩ →
          Permits (grantOf "/a") ⟨.fsWrite, "/etc"⟩ ∧ Permits (grantOf "/b") ⟨.fsWrite, "/etc"⟩) ∧
        (DeniesByRule (grantOf "/a") ⟨.fsWrite, "/etc"⟩ ∨
            DeniesByRule (grantOf "/b") ⟨.fsWrite, "/etc"⟩ →
          (resolve ⟨.fsWrite, "/etc"⟩ [narrower (grantOf "/a") (grantOf "/b")]).verdict = .deny)) ↔
      ¬ (Grants (grantOf "/a").name ∧ ActionKind.fsWrite ∈ (grantOf "/a").allows ∧
        ActionKind.fsWrite ∈ (grantOf "/b").allows ∧
        Widens (grantOf "/a") (grantOf "/b") ⟨.fsWrite, "/etc"⟩)) ∧
    ((DeniesByRule (grantOf "/a") ⟨.fsWrite, "/etc"⟩ ∨
          DeniesByRule (grantOf "/b") ⟨.fsWrite, "/etc"⟩ →
        DeniesByRule (narrower (grantOf "/a") (grantOf "/b")) ⟨.fsWrite, "/etc"⟩) ↔
      ¬ ((grantOf "/a").name ≠ "runtime-invariant" ∧
        (DeniesByRule (grantOf "/a") ⟨.fsWrite, "/etc"⟩ ∨
          DeniesByRule (grantOf "/b") ⟨.fsWrite, "/etc"⟩) ∧
        Misses (grantOf "/a") (grantOf "/b") ⟨.fsWrite, "/etc"⟩)) :=
  narrower_permits_iff (by decide) _

/-- Combining grants for `/a` and for `/b` permits writing to `/etc`. -/
theorem narrower_widens : ¬ ∀ (a b : PolicyLayer), a.name = b.name → ∀ act : Action,
    (Permits (narrower a b) act → Permits a act ∧ Permits b act) ∧
      (DeniesByRule a act ∨ DeniesByRule b act →
        (resolve act [narrower a b]).verdict = .deny) := by
  intro h
  have hgrants := (h (grantOf "/a") (grantOf "/b") rfl ⟨.fsWrite, "/etc"⟩).1
  exact absurd (hgrants (by decide +kernel)).1 (by decide +kernel)

end Shiroe
