import Shiroe.Handoff.Compiler
import Shiroe.Policy.Narrower
import Shiroe.Capabilities.Onboarding
import Shiroe.Verification.Review

/-!
# What may leave the device

`security/policy.py`.  Two things must agree before anything is sent: the scope that `PRIVACY.md`
states in its front matter, and the policy stack.

* `loadPrivacy` : the scope of a project, device-only unless the text says otherwise;
* `networkScope_iff` : **which texts open the network**;
* `egress_iff` : **what lets a destination be reached**, and what no grant can open.
-/

namespace Shiroe

/-! ### The front matter -/

/-- The characters at which `str.splitlines` ends a line. -/
def endsLine (c : Char) : Bool := [10, 11, 12, 13, 28, 29, 30, 133, 8232, 8233].contains c.toNat

/-- `s.splitlines()`. -/
def splitLines : List Char → List (List Char)
  | [] => []
  | '\r' :: '\n' :: s => [] :: splitLines s
  | c :: s =>
    if endsLine c then [] :: splitLines s
    else
      match splitLines s with
      | [] => [[c]]
      | l :: ls => (c :: l) :: ls

/-- What stands before the first `"\n---"`. -/
def untilFence : List Char → Option (List Char)
  | [] => none
  | c :: s =>
    if "\n---".toList.isPrefixOf (c :: s) then some [] else (untilFence s).map (c :: ·)

/-- The text between the two fences. -/
def frontMatter (text : String) : Option (List Char) :=
  if startsWith text "---" then untilFence (text.toList.drop 3) else none

/-- `s.strip(q)` for one character. -/
def stripChar (q : Char) (s : String) : String :=
  String.ofList (((s.toList.dropWhile (· = q)).reverse.dropWhile (· = q)).reverse)

/-- `s.strip('"').strip("'")`. -/
def unquote (s : String) : String := stripChar '\'' (stripChar '"' s)

/-- The value of a key that has one on its line. -/
def fieldValue (value : String) : Json :=
  let lowered := value.toList.flatMap lowerChars
  if lowered = "true".toList ∨ lowered = "false".toList then .bool (lowered = "true".toList)
  else if lowered = "on".toList ∨ lowered = "off".toList then .bool (lowered = "on".toList)
  else .str (unquote value)

/-- What `_parse_yaml_frontmatter` has read: `out`, and the key whose list is `current_list`. -/
structure FieldsRead where
  out : List (String × Json) := []
  current : Option String := none

/-- A line that is not indented: `key: value`. -/
def FieldsRead.field (m : FieldsRead) (line : List Char) : FieldsRead :=
  if line.contains ':' then
    let key := strip (String.ofList (line.takeWhile (· ≠ ':')))
    let value := strip (String.ofList ((line.dropWhile (· ≠ ':')).drop 1))
    if value = "" then { out := Json.dictInsert key (.arr []) m.out, current := some key }
    else { out := Json.dictInsert key (fieldValue value) m.out, current := none }
  else m

/-- An indented line: an item of the list that is open. -/
def FieldsRead.entry (m : FieldsRead) (stripped : List Char) : FieldsRead :=
  match m.current with
  | none => m
  | some key =>
    if "- ".toList.isPrefixOf stripped then
      match m.out.lookup key with
      | some (.arr l) =>
        let item := unquote (strip (String.ofList (stripped.drop 2)))
        { m with out := Json.dictInsert key (.arr (l ++ [.str item])) m.out }
      | _ => m
    else m

/-- A line of the front matter. -/
def FieldsRead.line (m : FieldsRead) (raw : List Char) : FieldsRead :=
  let line := (raw.reverse.dropWhile isSpace).reverse
  if line = [] ∨ line.head? = some '#' then m
  else
    let stripped := line.dropWhile isSpace
    if line.length - stripped.length = 0 then m.field stripped else m.entry stripped

/-- `_parse_yaml_frontmatter`. -/
def parseYamlFrontmatter (text : String) : Json :=
  match frontMatter text with
  | none => .mkObj []
  | some block => .obj ((splitLines block).foldl FieldsRead.line {}).out

/-- `_load_privacy`, over the text of `PRIVACY.md`: the mode and the scope of the network. -/
def loadPrivacy : Option String → String × String
  | none => ("abstract", "device-only")
  | some text =>
    let fm := parseYamlFrontmatter text
    let mode := strip (fm.getD "mode" (.str "abstract")).pyText
    let networkScope := strip (fm.getD "network_scope" (.str "device-only")).pyText
    (if mode ∈ ["abstract", "exact"] then mode else "abstract",
      if networkScope ∈ ["device-only", "tailnet", "external"] then networkScope else "device-only")

/-! ### The guard -/

/-- `NetworkDeniedError`, a `RuntimeError`. -/
def networkDenied (message : String) : Exc := .runtimeError message

/-- `_env_allow_network`. -/
def envAllowNetwork (value : Option String) : Bool :=
  ["1", "true", "yes", "on"].contains (strip (value.getD ""))

/-- `_env_allowed_connectors`, for the `str.lower` of the host. -/
def envAllowedConnectors (lower : String → String) (value : Option String) : List String :=
  (((value.getD "").toList.splitOn ',').filterMap fun c =>
    let name := strip (String.ofList c)
    if name = "" then none else some (lower name))

/-- `SecurityPolicy`, without the root that the stack is read from. -/
structure SecurityPolicy where
  contentMode : String
  networkScope : String
  /-- The connectors of `SHARING_POLICY.md`. -/
  connectors : List (String × Bool)

/-- `load_policy`, over the text of `PRIVACY.md` and the connectors. -/
def loadPolicy (privacy : Option String) (connectors : List (String × Bool)) : SecurityPolicy where
  contentMode := (loadPrivacy privacy).1
  networkScope := (loadPrivacy privacy).2
  connectors

/-- `Action(ActionKind.network, target=target or purpose)`. -/
def networkAction (purpose target : String) : Action :=
  ⟨.network, if target = "" then purpose else target⟩

/-- The layer that `SHIROE_ALLOW_NETWORK` adds. -/
def networkGrant (host : String) : PolicyLayer where
  name := "explicit-user-grant"
  allows := [.network]
  networkHosts := [host]

/-- `require_network`, over the stack that was loaded and the variable. -/
def requireNetwork (policy : SecurityPolicy) (stack : List PolicyLayer)
    (allowNetwork : Option String) (purpose target destinationScope : String) : Except Exc Unit :=
  let denied (why : String) : Except Exc Unit :=
    .error (networkDenied ("Network egress denied for " ++ purpose ++ why))
  if policy.networkScope = "device-only" then denied ": device-only scope"
  else if policy.networkScope = "tailnet" ∧ destinationScope = "external" then
    denied ": external destination outside tailnet scope"
  else if destinationScope ∉ ["tailnet", "external"] then
    denied (": unsupported destination scope " ++ pyRepr destinationScope)
  else
    let action := networkAction purpose target
    let stack :=
      if envAllowNetwork allowNetwork then stack ++ [networkGrant action.target] else stack
    let decision := resolve action stack
    if decision.verdict = .allow then .ok ()
    else denied (" to " ++ action.target ++ ": " ++ decision.reason)

/-- `require_connector`, over the two variables. -/
def requireConnector (lower : String → String) (policy : SecurityPolicy) (stack : List PolicyLayer)
    (allowConnector allowNetwork : Option String) (name purpose : String) : Except Exc Unit :=
  let name := lower (strip name)
  if name ∈ envAllowedConnectors lower allowConnector ∨
      (policy.connectors.lookup name).getD false then
    requireNetwork policy stack allowNetwork (name ++ ":" ++ purpose) name "external"
  else
    -- `ConnectorDisabledError`, a `RuntimeError`
    .error (.runtimeError ("Connector '" ++ name ++ "' disabled by SHARING_POLICY.md for " ++
      purpose ++ ". Enable it in SHARING_POLICY.md, or set SHIROE_ALLOW_CONNECTOR=" ++ name ++
      " for the session."))

/-! ### Which text opens the network -/

/-- The value that a line of the front matter states for a key, if it states one. -/
def statedValue (key : String) (raw : List Char) : Option String :=
  let line := (raw.reverse.dropWhile isSpace).reverse
  if line = [] ∨ line.head? = some '#' ∨ line.head?.any isSpace = true then none
  else if line.contains ':' = true ∧ strip (String.ofList (line.takeWhile (· ≠ ':'))) = key then
    some (strip (String.ofList ((line.dropWhile (· ≠ ':')).drop 1)))
  else none

/-- The last value that a text states for a key. -/
def lastStated (key text : String) : Option String :=
  (frontMatter text).bind fun block => ((splitLines block).filterMap (statedValue key)).getLast?

/-- What the parser holds for a key is what was stated. -/
structure FieldsRead.Holds (key : String) (m : FieldsRead) (stated : Option String) : Prop where
  missing : stated = none → m.out.lookup key = none
  listed : stated = some "" → ∃ l, m.out.lookup key = some (.arr l)
  given : ∀ v, stated = some v → v ≠ "" → m.out.lookup key = some (fieldValue v)
  current : m.current = some key → stated = some ""

namespace FieldsRead

variable {key : String} {m : FieldsRead} {stated : Option String}

theorem holds_empty : Holds key {} none where
  missing := fun _ => rfl
  listed := fun h => by cases h
  given := fun v h => by cases h
  current := fun h => by cases h

/-- Another key, and no list or the list of another key, leave what is held. -/
theorem Holds.other {m' : FieldsRead} (h : Holds key m stated)
    (hout : m'.out.lookup key = m.out.lookup key)
    (hcurrent : m'.current = some key → m.current = some key) : Holds key m' stated where
  missing := fun hs => hout ▸ h.missing hs
  listed := fun hs => hout ▸ h.listed hs
  given := fun v hs hv => hout ▸ h.given v hs hv
  current := fun hc => h.current (hcurrent hc)

theorem Holds.field (h : Holds key m stated) (line : List Char) :
    Holds key (m.field line)
      ((if line.contains ':' = true ∧ strip (String.ofList (line.takeWhile (· ≠ ':'))) = key then
        some (strip (String.ofList ((line.dropWhile (· ≠ ':')).drop 1))) else none).or stated) := by
  unfold FieldsRead.field
  by_cases hcolon : line.contains ':' = true
  · rw [if_pos hcolon]
    dsimp only
    generalize hname : strip (String.ofList (line.takeWhile (· ≠ ':'))) = name
    generalize strip (String.ofList ((line.dropWhile (· ≠ ':')).drop 1)) = value
    by_cases hkey : name = key
    · rw [if_pos (show line.contains ':' = true ∧ name = key from ⟨hcolon, hkey⟩),
        Option.some_or, hkey]
      by_cases hvalue : value = ""
      · rw [if_pos hvalue, hvalue]
        exact {
          missing := fun hs => by cases hs
          listed := fun _ => ⟨[], by rw [Json.lookup_dictInsert, if_pos rfl]⟩
          given := fun v hs hv => absurd (Option.some.inj hs).symm hv
          current := fun _ => rfl }
      · rw [if_neg hvalue]
        exact {
          missing := fun hs => by cases hs
          listed := fun hs => absurd (Option.some.inj hs) hvalue
          given := fun v hs _ => by
            rw [Json.lookup_dictInsert, if_pos rfl, Option.some.inj hs]
          current := fun hc => by cases hc }
    · rw [if_neg (show ¬ (line.contains ':' = true ∧ name = key) from fun hc => hkey hc.2),
        Option.none_or]
      split_ifs
      · exact h.other (by rw [Json.lookup_dictInsert, if_neg (Ne.symm hkey)])
          fun hc => absurd (Option.some.inj hc) hkey
      · exact h.other (by rw [Json.lookup_dictInsert, if_neg (Ne.symm hkey)]) fun hc => by cases hc
  · rw [if_neg hcolon, if_neg fun hc => hcolon hc.1, Option.none_or]
    exact h

theorem Holds.entry (h : Holds key m stated) (stripped : List Char) :
    Holds key (m.entry stripped) stated := by
  unfold FieldsRead.entry
  cases hcurrent : m.current with
  | none => exact h
  | some name =>
    dsimp only
    split_ifs with hitem
    · split
      · rename_i l hl
        by_cases hkey : name = key
        · have hs := h.current (hkey ▸ hcurrent)
          subst hkey
          exact {
            missing := fun hn => by rw [hs] at hn; cases hn
            listed := fun _ => ⟨_, by rw [Json.lookup_dictInsert, if_pos rfl]⟩
            given := fun v hv hne => absurd (Option.some.inj (hs.symm.trans hv)).symm hne
            current := fun _ => hs }
        · exact h.other (by rw [Json.lookup_dictInsert, if_neg (Ne.symm hkey)])
            fun hc => absurd (Option.some.inj hc) hkey
      · exact h
    · exact h

/-- A line is indented exactly if it starts with a blank. -/
theorem indent_eq_zero {line : List Char} :
    line.length - (line.dropWhile isSpace).length = 0 ↔ line.head?.any isSpace = false := by
  cases line with
  | nil => simp
  | cons c l =>
    cases hc : isSpace c with
    | true =>
      have hle := (List.dropWhile_suffix (l := l) isSpace).length_le
      have hpos : l.length + 1 - (l.dropWhile isSpace).length ≠ 0 := by omega
      simp only [List.dropWhile_cons, hc, if_true, List.length_cons, List.head?_cons,
        Option.any_some]
      exact iff_of_false hpos (by decide)
    | false => simp [hc]

theorem Holds.line (h : Holds key m stated) (raw : List Char) :
    Holds key (m.line raw) ((statedValue key raw).or stated) := by
  unfold FieldsRead.line statedValue
  generalize (raw.reverse.dropWhile isSpace).reverse = line
  dsimp only
  by_cases hskip : line = [] ∨ line.head? = some '#'
  · rw [if_pos hskip, if_pos (hskip.imp_right Or.inl), Option.none_or]
    exact h
  · rw [if_neg hskip]
    by_cases hindent : line.head?.any isSpace = true
    · rw [if_pos (Or.inr (Or.inr hindent)), Option.none_or, if_neg]
      · exact h.entry _
      · rw [indent_eq_zero, hindent]
        decide
    · have hfalse : line.head?.any isSpace = false := eq_false_of_ne_true hindent
      have hsame : line.dropWhile isSpace = line := by
        cases line with
        | nil => rfl
        | cons c l => rw [List.dropWhile_cons, if_neg (by simpa using hindent)]
      have hread : ¬ (line = [] ∨ line.head? = some '#' ∨ line.head?.any isSpace = true) := by
        rintro (h0 | h1 | h2)
        · exact hskip (Or.inl h0)
        · exact hskip (Or.inr h1)
        · exact hindent h2
      rw [if_neg hread, if_pos (indent_eq_zero.2 hfalse), hsame]
      exact h.field line

/-- **The last line that states a key decides it.** -/
theorem Holds.lines (h : Holds key m stated) (lines : List (List Char)) :
    Holds key (lines.foldl FieldsRead.line m)
      (((lines.filterMap (statedValue key)).getLast?).or stated) := by
  induction lines generalizing m stated with
  | nil => exact h
  | cons raw lines ih =>
    have hrest := ih (h.line raw)
    rw [List.foldl_cons, List.filterMap_cons]
    cases hraw : statedValue key raw with
    | none => rwa [hraw, Option.none_or] at hrest
    | some v =>
      rw [hraw, Option.some_or] at hrest
      dsimp only
      rw [List.getLast?_cons]
      cases hlast : (lines.filterMap (statedValue key)).getLast? with
      | none => rwa [hlast, Option.none_or] at hrest
      | some v' => rwa [hlast, Option.some_or] at hrest

end FieldsRead

/-- The scopes that open the network. -/
def Opens (scope : String) : Prop := scope = "tailnet" ∨ scope = "external"

theorem length_stripChar_le (q : Char) (s : String) :
    (stripChar q s).toList.length ≤ s.toList.length := by
  rw [stripChar, String.toList_ofList, List.length_reverse]
  have h1 := (List.dropWhile_suffix (l := (s.toList.dropWhile (· = q)).reverse)
    (· = q)).length_le
  have h2 := (List.dropWhile_suffix (l := s.toList) (· = q)).length_le
  rw [List.length_reverse] at h1
  exact h1.trans h2

theorem length_strip_le (s : String) : (strip s).toList.length ≤ s.toList.length := by
  rw [strip, String.toList_ofList, List.length_reverse]
  have h1 := (List.dropWhile_suffix (l := (s.toList.dropWhile isSpace).reverse) isSpace).length_le
  have h2 := (List.dropWhile_suffix (l := s.toList) isSpace).length_le
  rw [List.length_reverse] at h1
  exact h1.trans h2

theorem length_lowerChars (c : Char) : 1 ≤ (lowerChars c).length := by
  unfold lowerChars
  split_ifs <;> simp

theorem length_le_lowered (l : List Char) : l.length ≤ (l.flatMap lowerChars).length := by
  induction l with
  | nil => exact Nat.zero_le _
  | cons c l ih =>
    have hc := length_lowerChars c
    rw [List.flatMap_cons, List.length_append, List.length_cons]
    omega

/-- A flag is too short for a scope. -/
theorem scope_fieldValue {scope v : String} (hscope : Opens scope) :
    strip (fieldValue v).pyText = scope ↔ strip (unquote v) = scope := by
  have hlong : 7 ≤ scope.toList.length := by
    rcases hscope with rfl | rfl <;> decide
  have hshort : ∀ s : String, s.toList.length < 7 → strip s ≠ scope := fun s hs h => by
    have hle := length_strip_le s
    rw [h] at hle
    omega
  have hflag : ∀ w : String, w.toList.length < 7 → v.toList.flatMap lowerChars = w.toList →
      strip (unquote v) ≠ scope := fun w hw hv => by
    refine hshort _ ?_
    have h1 := length_le_lowered v.toList
    have h2 := length_stripChar_le '"' v
    have h3 := length_stripChar_le '\'' (stripChar '"' v)
    rw [hv] at h1
    unfold unquote
    omega
  have hbool : ∀ b : Bool, strip (Json.bool b).pyText ≠ scope := fun b =>
    hshort _ (by cases b <;> decide)
  unfold fieldValue
  dsimp only
  split_ifs with hbit hswitch
  · refine iff_of_false (hbool _) ?_
    rcases hbit with hv | hv
    · exact hflag "true" (by decide) hv
    · exact hflag "false" (by decide) hv
  · refine iff_of_false (hbool _) ?_
    rcases hswitch with hv | hv
    · exact hflag "on" (by decide) hv
    · exact hflag "off" (by decide) hv
  · rfl

/-- A list is no scope. -/
theorem scope_list {scope : String} (hscope : Opens scope) (l : List Json) :
    strip (Json.arr l).pyText ≠ scope := by
  have htext : (Json.arr l).pyText.toList =
      '[' :: ((String.intercalate ", " (Json.pyReprItems l)).toList ++ [']']) := by
    rw [Json.pyText, Json.pyRepr]
    · simp
    · intro s hs
      cases hs
  have hfirst : (strip (Json.arr l).pyText).toList.head? = some '[' := by
    rw [strip, htext, List.dropWhile_cons, if_neg (by decide), ← List.cons_append,
      List.reverse_append, List.reverse_singleton, List.singleton_append, List.dropWhile_cons,
      if_neg (by decide), String.toList_ofList]
    simp
  intro h
  rw [h] at hfirst
  rcases hscope with rfl | rfl <;> simp at hfirst

/-- The scope that the parser reads is the one stated last. -/
theorem networkScope_read {scope t : String} (hscope : Opens scope) :
    strip ((parseYamlFrontmatter t).getD "network_scope" (.str "device-only")).pyText = scope ↔
      ∃ v, lastStated "network_scope" t = some v ∧ strip (unquote v) = scope := by
  have hdefault : strip (Json.str "device-only").pyText ≠ scope := by
    rcases hscope with rfl | rfl <;> decide
  unfold parseYamlFrontmatter lastStated
  cases frontMatter t with
  | none => exact iff_of_false hdefault (by simp)
  | some block =>
    dsimp only
    rw [Option.bind_some]
    have hempty : FieldsRead.Holds "network_scope" {} none := FieldsRead.holds_empty
    have hholds := hempty.lines (splitLines block)
    rw [Option.or_none] at hholds
    generalize (splitLines block).foldl FieldsRead.line {} = m at hholds ⊢
    cases hlast : ((splitLines block).filterMap (statedValue "network_scope")).getLast? with
    | none =>
      rw [Json.getD, Json.has, hholds.missing hlast]
      exact iff_of_false hdefault (by simp)
    | some v =>
      simp only [Option.some.injEq, exists_eq_left']
      by_cases hv : v = ""
      · obtain ⟨l, hout⟩ := hholds.listed (hv ▸ hlast)
        have hblank : strip (unquote v) ≠ scope := by
          rw [hv]
          rcases hscope with rfl | rfl <;> decide
        rw [Json.getD, Json.has, Json.get, hout]
        exact iff_of_false (scope_list hscope l) hblank
      · rw [Json.getD, Json.has, Json.get, hholds.given v hlast hv]
        exact scope_fieldValue hscope

/-- **Which texts open the network**: those whose front matter states the scope last. -/
theorem networkScope_iff {text : Option String} {scope : String} (hscope : Opens scope) :
    (loadPrivacy text).2 = scope ↔
      ∃ t v, text = some t ∧ lastStated "network_scope" t = some v ∧ strip (unquote v) = scope := by
  have hdevice : "device-only" ≠ scope := by
    rcases hscope with rfl | rfl <;> decide
  have hknown : scope ∈ ["device-only", "tailnet", "external"] := by
    rcases hscope with rfl | rfl <;> decide
  cases text with
  | none => exact iff_of_false hdevice (by simp)
  | some t =>
    simp only [Option.some.injEq, exists_and_left, exists_eq_left']
    rw [← networkScope_read hscope, loadPrivacy]
    dsimp only
    split_ifs with hin
    · rfl
    · exact iff_of_false hdevice fun h => hin (h ▸ hknown)

/-! ### The guard over the policy stack -/

variable {a : Action} {stack : List PolicyLayer}

/-- A grant is not looked up under another name. -/
theorem inEffect_append_grant {host name : String} (hname : name ≠ "explicit-user-grant") :
    inEffect (stack ++ [networkGrant host]) name = inEffect stack name := by
  rw [inEffect, List.reverse_append, List.reverse_singleton, List.singleton_append,
    List.find?_cons_of_neg (by simp [networkGrant, Ne.symm hname]), inEffect]

theorem refused_append_grant {host : String} :
    refused a (stack ++ [networkGrant host]) = refused a stack := by
  have hdeny : ∀ name ∈ denyNames, inEffect (stack ++ [networkGrant host]) name =
      inEffect stack name := by
    intro name hname
    refine inEffect_append_grant ?_
    rintro rfl
    revert hname
    decide
  unfold refused
  rw [inEffect_append_grant (by decide)]
  congr 1
  rw [Bool.eq_iff_iff, List.any_eq_true, List.any_eq_true]
  refine exists_congr fun name => and_congr_right fun hname => ?_
  rw [hdeny name hname]

/-- The grant allows its host. -/
theorem grantor_append_grant {target : String} :
    grantor ⟨.network, target⟩ (stack ++ [networkGrant target]) = some (networkGrant target) := by
  have heffect : inEffect (stack ++ [networkGrant target]) "explicit-user-grant" =
      some (networkGrant target) := by
    rw [inEffect, List.reverse_append, List.reverse_singleton, List.singleton_append]
    exact List.find?_cons_of_pos (by simp [networkGrant])
  rw [grantor, heffect, Option.filter_some, if_pos, Option.some_or]
  simp [allowing, targetAllowed, networkGrant]

/-- What is allowed: no layer refuses it, and a layer grants it. -/
theorem resolve_allow_iff :
    (resolve a stack).verdict = .allow ↔
      refused a stack = false ∧ (grantor a stack).isSome = true := by
  have hspec := @resolve_spec a stack
  cases hrefused : refused a stack with
  | true =>
    rw [if_pos hrefused] at hspec
    exact iff_of_false (by simp [hspec]) (by simp)
  | false =>
    rw [if_neg (by simp [hrefused])] at hspec
    cases hgrantor : grantor a stack with
    | none =>
      rw [hgrantor] at hspec
      exact iff_of_false (by simp [hspec]) (by simp)
    | some layer =>
      rw [hgrantor] at hspec
      exact iff_of_true hspec.1 ⟨rfl, rfl⟩

/-- The destination lies within the scope. -/
def Within (scope destinationScope : String) : Prop :=
  destinationScope = "tailnet" ∧ Opens scope ∨ destinationScope = "external" ∧ scope = "external"

theorem networkScope_cases (privacy : Option String) :
    (loadPrivacy privacy).2 = "device-only" ∨ Opens (loadPrivacy privacy).2 := by
  cases privacy with
  | none => exact Or.inl rfl
  | some text =>
    unfold loadPrivacy
    dsimp only
    split_ifs with hin
    · simpa [Opens] using hin
    · exact Or.inl rfl

/-- What the guard asks of the scope, the stack and the variable. -/
theorem requireNetwork_eq_ok {policy : SecurityPolicy} {allowNetwork : Option String}
    {purpose target destinationScope : String}
    (hscope : policy.networkScope = "device-only" ∨ Opens policy.networkScope) :
    requireNetwork policy stack allowNetwork purpose target destinationScope = .ok () ↔
      Within policy.networkScope destinationScope ∧
        refused (networkAction purpose target) stack = false ∧
        (envAllowNetwork allowNetwork = true ∨
          (grantor (networkAction purpose target) stack).isSome = true) := by
  have hstack : (resolve (networkAction purpose target)
      (if envAllowNetwork allowNetwork = true then
        stack ++ [networkGrant (networkAction purpose target).target]
      else stack)).verdict = .allow ↔
      refused (networkAction purpose target) stack = false ∧
        (envAllowNetwork allowNetwork = true ∨
          (grantor (networkAction purpose target) stack).isSome = true) := by
    cases envAllowNetwork allowNetwork with
    | true =>
      have hgrant : grantor (networkAction purpose target)
          (stack ++ [networkGrant (networkAction purpose target).target]) = some _ :=
        grantor_append_grant
      rw [if_pos rfl, resolve_allow_iff, refused_append_grant, hgrant]
      simp
    | false => simp [resolve_allow_iff]
  unfold requireNetwork
  dsimp only
  generalize (if envAllowNetwork allowNetwork = true then
    stack ++ [networkGrant (networkAction purpose target).target]
  else stack) = effective at hstack ⊢
  split_ifs with hdevice htailnet hsupported hallow
  · refine iff_of_false (by simp) fun h => ?_
    rcases h.1 with ⟨_, hopens⟩ | ⟨_, hopens⟩
    · rw [hdevice] at hopens
      revert hopens
      simp [Opens]
    · simp [hdevice] at hopens
  · refine iff_of_false (by simp) fun h => ?_
    rcases h.1 with ⟨hdest, _⟩ | ⟨_, hopens⟩
    · simp [htailnet.2] at hdest
    · simp [htailnet.1] at hopens
  · have hwithin : Within policy.networkScope destinationScope := by
      have hopens := hscope.resolve_left hdevice
      have hdest : destinationScope = "tailnet" ∨ destinationScope = "external" := by
        simpa using hsupported
      rcases hdest with hdest | hdest
      · exact Or.inl ⟨hdest, hopens⟩
      · exact Or.inr ⟨hdest, hopens.resolve_left fun h => htailnet ⟨h, hdest⟩⟩
    exact iff_of_true rfl ⟨hwithin, hstack.1 hallow⟩
  · exact iff_of_false (by simp) fun h => hallow (hstack.2 h.2)
  · refine iff_of_false (by simp) fun h => hsupported ?_
    rcases h.1 with ⟨hdest, _⟩ | ⟨hdest, _⟩ <;> simp [hdest]

theorem within_iff {privacy : Option String} {destinationScope : String} :
    Within (loadPrivacy privacy).2 destinationScope ↔
      ∃ t v, privacy = some t ∧ lastStated "network_scope" t = some v ∧
        Within (strip (unquote v)) destinationScope := by
  have hof : ∀ {scope : String}, Within scope destinationScope → Opens scope := by
    rintro scope (⟨_, h⟩ | ⟨_, h⟩)
    · exact h
    · exact Or.inr h
  constructor
  · intro h
    obtain ⟨t, v, ht, hv, hs⟩ := (networkScope_iff (hof h)).1 rfl
    exact ⟨t, v, ht, hv, hs ▸ h⟩
  · rintro ⟨t, v, ht, hv, h⟩
    rw [(networkScope_iff (hof h)).2 ⟨t, v, ht, hv, rfl⟩]
    exact h

/-- **What lets a destination be reached**: the last `network_scope` of the front matter, read as a
text, covers it, no layer of the stack refuses it, and a layer or the variable grants it.  The
variable opens neither a scope nor a refusal. -/
theorem egress_iff (privacy : Option String) (connectors : List (String × Bool))
    (stack : List PolicyLayer) (allowNetwork : Option String)
    (purpose target destinationScope : String) :
    requireNetwork (loadPolicy privacy connectors) stack allowNetwork purpose target
        destinationScope = .ok () ↔
      (∃ t v, privacy = some t ∧ lastStated "network_scope" t = some v ∧
        Within (strip (unquote v)) destinationScope) ∧
      refused (networkAction purpose target) stack = false ∧
      (envAllowNetwork allowNetwork = true ∨
        (grantor (networkAction purpose target) stack).isSome = true) := by
  rw [requireNetwork_eq_ok (networkScope_cases privacy), loadPolicy, within_iff]

/-- A connector that is on reaches nothing but what the guard lets through. -/
theorem connector_iff (lower : String → String) (privacy : Option String)
    (connectors : List (String × Bool)) (stack : List PolicyLayer)
    (allowConnector allowNetwork : Option String) (name purpose : String) :
    requireConnector lower (loadPolicy privacy connectors) stack allowConnector allowNetwork name
        purpose = .ok () ↔
      (lower (strip name) ∈ envAllowedConnectors lower allowConnector ∨
        connectors.lookup (lower (strip name)) = some true) ∧
      requireNetwork (loadPolicy privacy connectors) stack allowNetwork
        (lower (strip name) ++ ":" ++ purpose) (lower (strip name)) "external" = .ok () := by
  have henabled :
      ((loadPolicy privacy connectors).connectors.lookup (lower (strip name))).getD false = true ↔
        connectors.lookup (lower (strip name)) = some true := by
    rw [loadPolicy]
    cases connectors.lookup (lower (strip name)) <;> simp
  unfold requireConnector
  dsimp only
  by_cases hon : lower (strip name) ∈ envAllowedConnectors lower allowConnector ∨
      connectors.lookup (lower (strip name)) = some true
  · rw [if_pos (hon.imp_right henabled.2)]
    exact ⟨fun h => ⟨hon, h⟩, And.right⟩
  · rw [if_neg fun h => hon (h.imp_right henabled.1)]
    exact iff_of_false (by simp) fun h => hon h.1

-- a text that opens with a comment has no front matter, and nothing is sent
example : loadPrivacy (some "<!-- notes -->\n---\nnetwork_scope: external\n---\n") =
    ("abstract", "device-only") := by decide +kernel

end Shiroe
