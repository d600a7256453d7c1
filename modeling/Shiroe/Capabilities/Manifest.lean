import Shiroe.Base

/-!
# Capability manifests

`capabilities/manifest.py` and the paths of the registry: the draft manifest of a source that
ships none, the checks on a manifest, and how paths are made relative to the project.
-/

namespace Shiroe

/-! ### Paths -/

/-- The parts of a path, without empty ones and dots. -/
def pathSegments (path : String) : List String :=
  ((path.toList.splitOn '/').filter fun part => part ≠ [] ∧ part ≠ ['.']).map String.ofList

/-- `Path.name`. -/
def pathName (path : String) : String := (pathSegments path).getLast?.getD ""

/-- `str` of the path with the given parts. -/
def joinPath (parts : List String) : String :=
  if parts = [] then "." else "/".intercalate parts

/-- The path starts with exactly two slashes, which is a root of its own. -/
def hasDoubleRoot (path : String) : Bool := startsWith path "//" && !startsWith path "///"

/-- `str(Path(location).relative_to(root))` for a location below the project root. -/
def relativeTo (H : Host) (location : String) : Option String :=
  if isAbsolute location ∧ hasDoubleRoot location = false ∧ H.root <+: pathSegments location then
    some (joinPath ((pathSegments location).drop H.root.length))
  else none

/-- `_relativize`. -/
def relativize (H : Host) (location : String) : String := (relativeTo H location).getD location

/-! ### Manifests -/

/-- `CAPABILITY_SCHEMA`. -/
def capabilitySchema : String := "shiroe.capability/v1"

/-- `_ALLOWED_TYPES`. -/
def allowedTypes : List String :=
  ["cli", "repository_tool", "script", "workflow", "evaluator", "api_service"]

/-- `_REQUIRED_TOP`. -/
def requiredTop : List String :=
  ["schema", "id", "name", "type", "version", "source", "entrypoint", "requires"]

/-- `_EXECUTABLE_ENTRYPOINT_KEYS`. -/
def executableEntrypointKeys : List String := ["command", "callable", "url"]

/-- A field that has to be an object. -/
def objectField (manifest : Json) (field : String) : Except Exc Json :=
  if (manifest.get field).isObj then .ok (manifest.get field)
  else .error (.manifest (.notObject field))

/-- `x in _ALLOWED_TYPES`: a list or a dict has no hash. -/
def isAllowedType : Json → Except Exc Bool
  | .str s => .ok (allowedTypes.contains s)
  | .arr _ => .error .typeError
  | .obj _ => .error .typeError
  | _ => .ok false

/-- Report a problem unless the check holds. -/
def ensure (check : Bool) (problem : ManifestProblem) : Except Exc Unit :=
  if check then .ok () else .error (.manifest problem)

@[simp] theorem ensure_true (problem : ManifestProblem) : ensure true problem = .ok () := rfl

@[simp] theorem ensure_false (problem : ManifestProblem) :
    ensure false problem = .error (.manifest problem) := rfl

/-- `validate_manifest`. -/
def validateManifest (manifest : Json) : Except Exc Unit := do
  ensure (manifest.get "schema" = .str capabilitySchema) (.wrongSchema (manifest.get "schema"))
  requiredTop.forM fun field => ensure (manifest.has field) (.missingField field)
  let allowed ← isAllowedType (manifest.get "type")
  ensure allowed (.unknownType (manifest.get "type"))
  let source ← objectField manifest "source"
  ensure (source.has "kind") (.requiredField "source.kind")
  let entrypoint ← objectField manifest "entrypoint"
  ensure (entrypoint.has "adapter") (.requiredField "entrypoint.adapter")
  ensure (executableEntrypointKeys.any fun k => (entrypoint.get k).truthy) .noEntrypoint
  let _ ← objectField manifest "requires"

/-- The draft for a source that ships no manifest; `isFile` says whether its path names a file. -/
def draftManifest (path : String) (isFile : Bool) (capabilityId name type : String) : Json :=
  .mkObj [
    ("schema", .str capabilitySchema),
    ("id", .str capabilityId),
    ("name", .str (if name = "" then pathName path else name)),
    ("type", .str type),
    ("version", .str "0.0.0-draft"),
    ("source", .mkObj [("kind", .str "local-directory"), ("location", .str path)]),
    ("entrypoint", .mkObj [("adapter", .str "cli"),
      ("command", .strs (if isFile then [path] else []))]),
    ("provides", .arr []),
    ("requires", .mkObj [
      ("filesystem", .mkObj [("read", .arr []), ("write", .arr [])]),
      ("network", .str "none"), ("secrets", .arr []), ("subprocess", .bool false),
      ("external_write", .bool false)]),
    ("trust", .mkObj [("lifecycle", .str "discovered"), ("approval_source", .null),
      ("benchmark_minimum", .float .zero)])]

/-- `infer_manifest`. -/
def inferManifest (path : String) (isFile : Bool) (capabilityId name type : String) :
    Except Exc Json :=
  if allowedTypes.contains type then .ok (draftManifest path isFile capabilityId name type)
  else .error (.manifest (.unknownType (.str type)))

/-- `_relativize` of a location in a manifest, which has to be a text. -/
def relativizeJson (H : Host) : Json → Except Exc Json
  | .str s => .ok (.str (relativize H s))
  | _ => .error .typeError

/-- `_relativize_manifest`: the location of the source and the first word of the command. -/
def relativizeManifest (H : Host) (manifest : Json) : Except Exc Json := do
  let m ← manifest.toDict
  let source := m.get "source"
  let m ← if source.isObj && source.has "location" then do
      let location ← relativizeJson H (source.get "location")
      pure (m.set "source" (source.set "location" location))
    else pure m
  let entrypoint := m.get "entrypoint"
  match entrypoint.get "command" with
  | .arr (first :: rest) =>
    if entrypoint.isObj then do
      let first ← relativizeJson H first
      return m.set "entrypoint" (entrypoint.set "command" (.arr (first :: rest)))
    else return m
  | _ => return m

/-- A draft passes the checks exactly when its path names a file. -/
theorem validateManifest_draftManifest {path capabilityId name type : String} {isFile : Bool}
    (htype : allowedTypes.contains type = true) :
    validateManifest (draftManifest path isFile capabilityId name type) = .ok () ↔
      isFile = true := by
  have hmem : decide (type ∈ allowedTypes) = true := by simpa using htype
  cases isFile <;>
    simp [validateManifest, draftManifest, requiredTop, isAllowedType, objectField, List.lookup,
      executableEntrypointKeys, Json.strs, Json.truthy, hmem, bind, Except.bind, pure, Except.pure]

end Shiroe
