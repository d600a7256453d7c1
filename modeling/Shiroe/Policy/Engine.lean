import Shiroe.Base
import Shiroe.Policy.Schema

/-!
# The policy engine

`resolve` walks seven layers in a fixed order, `evaluate` lowers an allow that the autonomy mode
does not cover.  A scope of a layer is compared with the target of an action as text: the target is
the scope, or starts with the scope and a slash.
-/

namespace Shiroe

/-! ### The engine -/

/-- What a caller wants to do. -/
structure Action where
  kind : ActionKind
  /-- A path, a URL, the name of a secret or the id of a capability. -/
  target : String := ""

/-- `s.rstrip("/")`. -/
def rstripSlash (s : String) : String :=
  String.ofList ((s.toList.reverse.dropWhile (· = '/')).reverse)

/-- `_layer_dict(stack).get(name)`: of two layers with one name the later is in effect. -/
def inEffect (stack : List PolicyLayer) (name : String) : Option PolicyLayer :=
  stack.reverse.find? fun layer => layer.name = name

/-- `_path_in_scopes`. -/
def pathInScopes (target : String) (scopes : List String) : Bool :=
  let target := rstripSlash (strip target)
  scopes.isEmpty || target ≠ "" && scopes.any fun scope =>
    let scope := rstripSlash (strip scope)
    scope ≠ "" && (target = scope || startsWith target (scope ++ "/"))

/-- `_target_allowed`. -/
def targetAllowed (a : Action) (layer : PolicyLayer) : Bool :=
  match a.kind with
  | .network => layer.networkHosts.isEmpty || layer.networkHosts.contains a.target
  | .fsWrite => pathInScopes a.target layer.fsWriteScopes
  | .fsRead => pathInScopes a.target layer.fsReadScopes
  | _ => true

/-- The layer denies the action. -/
def denying (a : Action) (layer : PolicyLayer) : Bool :=
  a.kind ∈ layer.denies && targetAllowed a layer

/-- The layer allows the action. -/
def allowing (a : Action) (layer : PolicyLayer) : Bool :=
  a.kind ∈ layer.allows && targetAllowed a layer

/-- The defaults, from the project's down: the first layer that names the action decides. -/
def resolveDefaults (a : Action) (stack : List PolicyLayer) : List String → Decision
  | [] => ⟨.deny, "no matching allow rule", "default-deny"⟩
  | name :: names =>
    match inEffect stack name with
    | none => resolveDefaults a stack names
    | some layer =>
      if allowing a layer then ⟨.allow, "allowed by " ++ name, name⟩
      else if denying a layer then ⟨.deny, "denied by " ++ name, name⟩
      else resolveDefaults a stack names

/-- The deny layers of the project and the global root. -/
def denyNames : List String := ["project-deny", "global-deny"]

/-- The layers with defaults. -/
def defaultNames : List String := ["project-defaults", "global-defaults", "harness-defaults"]

/-- `resolve`. -/
def resolve (a : Action) (stack : List PolicyLayer) : Decision :=
  if (inEffect stack "runtime-invariant").any fun layer => a.kind ∈ layer.denies then
    ⟨.deny, "runtime safety invariant", "runtime-invariant"⟩
  else
    match denyNames.find? fun name => (inEffect stack name).any (denying a) with
    | some name => ⟨.deny, "denied by " ++ name, name⟩
    | none =>
      if (inEffect stack "explicit-user-grant").any (allowing a) then
        ⟨.allow, "explicit user grant", "explicit-user-grant"⟩
      else resolveDefaults a stack defaultNames

/-- `ALWAYS_REQUIRE_APPROVAL`. -/
def alwaysRequireApproval : List ActionKind :=
  [.push, .merge, .publish, .externalMessage, .fsDelete, .destructive, .secretRead, .dependencyAdd,
    .permissionChange, .budgetEscalation]

/-- `REVERSIBLE_KINDS`. -/
def reversibleKinds : List ActionKind := [.fsRead, .memoryWrite, .eventWrite, .capabilityInvoke]

/-- `autonomy_gate`. -/
def autonomyGate (kind : ActionKind) (mode : AutonomyMode) : Bool :=
  if kind ∈ alwaysRequireApproval then false
  else
    match mode with
    | .suggest => false
    | .autoSafe => kind ∈ reversibleKinds
    | .policyBound => true

/-- `evaluate`. -/
def evaluate (a : Action) (stack : List PolicyLayer) (mode : AutonomyMode) : Decision :=
  let raw := resolve a stack
  if raw.verdict ≠ .allow then raw
  else if autonomyGate a.kind mode then raw
  else
    { verdict := .requireApproval
      reason := raw.reason ++ "; but autonomy mode " ++ pyRepr mode.value ++
        " requires approval for " ++ pyRepr a.kind.value
      decidingLayer := raw.decidingLayer }

/-! ### What decides -/

/-- A layer in effect refuses the action for good. -/
def refused (a : Action) (stack : List PolicyLayer) : Bool :=
  ((inEffect stack "runtime-invariant").any fun layer => a.kind ∈ layer.denies) ||
    denyNames.any fun name => (inEffect stack name).any (denying a)

/-- The layer with defaults that allows the action, if the first one that names it does. -/
def defaultGrantor (a : Action) (stack : List PolicyLayer) : List String → Option PolicyLayer
  | [] => none
  | name :: names =>
    match inEffect stack name with
    | none => defaultGrantor a stack names
    | some layer =>
      if allowing a layer then some layer
      else if denying a layer then none
      else defaultGrantor a stack names

/-- The layer in effect that would allow the action. -/
def grantor (a : Action) (stack : List PolicyLayer) : Option PolicyLayer :=
  ((inEffect stack "explicit-user-grant").filter (allowing a)).or
    (defaultGrantor a stack defaultNames)

variable {a : Action} {stack : List PolicyLayer}

theorem name_of_inEffect {name : String} {layer : PolicyLayer}
    (h : inEffect stack name = some layer) : layer.name = name := by
  simpa using List.find?_some h

theorem mem_of_inEffect {name : String} {layer : PolicyLayer}
    (h : inEffect stack name = some layer) : layer ∈ stack :=
  List.mem_reverse.1 (List.mem_of_find?_eq_some h)

theorem resolveDefaults_spec (names : List String) :
    match defaultGrantor a stack names with
    | some layer => (resolveDefaults a stack names).verdict = .allow ∧
        inEffect stack (resolveDefaults a stack names).decidingLayer = some layer
    | none => (resolveDefaults a stack names).verdict = .deny := by
  induction names with
  | nil => rfl
  | cons name names ih =>
    rw [defaultGrantor, resolveDefaults]
    cases hl : inEffect stack name with
    | none => exact ih
    | some layer =>
      by_cases hallow : allowing a layer
      · simp only [hallow, if_true]
        exact ⟨trivial, hl⟩
      · by_cases hdeny : denying a layer
        · simp only [hallow, hdeny, if_true, Bool.false_eq_true, if_false]
        · simp only [hallow, hdeny, Bool.false_eq_true, if_false]
          exact ih

/-- **What `resolve` returns**: deny when a layer refuses, else what the granting layer says. -/
theorem resolve_spec :
    if refused a stack then (resolve a stack).verdict = .deny
    else
      match grantor a stack with
      | some layer => (resolve a stack).verdict = .allow ∧
          inEffect stack (resolve a stack).decidingLayer = some layer
      | none => (resolve a stack).verdict = .deny := by
  unfold resolve refused
  by_cases hinv : (inEffect stack "runtime-invariant").any fun layer => a.kind ∈ layer.denies
  · simp only [hinv, Bool.true_or, if_true]
  · simp only [hinv, Bool.false_eq_true, if_false, Bool.false_or]
    cases hfind : denyNames.find? fun name => (inEffect stack name).any (denying a) with
    | some name =>
      have hany : (denyNames.any fun name => (inEffect stack name).any (denying a)) = true :=
        List.any_eq_true.2 ⟨name, List.mem_of_find?_eq_some hfind,
          (List.find?_eq_some_iff_append.1 hfind).1⟩
      simp only [hany, if_true]
    | none =>
      have hany : (denyNames.any fun name => (inEffect stack name).any (denying a)) = false := by
        rw [List.any_eq_false]
        exact fun name hname => by simpa using List.find?_eq_none.1 hfind name hname
      simp only [hany, Bool.false_eq_true, if_false]
      unfold grantor
      cases hg : inEffect stack "explicit-user-grant" with
      | none => exact resolveDefaults_spec defaultNames
      | some layer =>
        by_cases hallow : allowing a layer
        · simp only [Option.any_some, hallow, if_true, Option.filter_some, Option.some_or]
          exact ⟨trivial, hg⟩
        · simp only [Option.any_some, hallow, Bool.false_eq_true, if_false, Option.filter_some,
            Option.none_or]
          exact resolveDefaults_spec defaultNames

theorem evaluate_deny (h : (resolve a stack).verdict = .deny) (mode : AutonomyMode) :
    (evaluate a stack mode).verdict = .deny := by
  rw [evaluate, if_pos (by rw [h]; decide), h]

end Shiroe
