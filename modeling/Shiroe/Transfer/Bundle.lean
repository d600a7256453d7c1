import Shiroe.Lib.FileTree
import Shiroe.Verification.Review

/-!
# Artifact bundles

`transfer/bundle.py`: the reading half of a bundle, and its extraction.  What `tarfile` makes of
the file is an arbitrary list of members, or an exception.  The extraction is a computation over
the file system in which any call may fail and leave its work half done (`Fault`).  A normalised
artifact path is kept as the list of its names; validating it again gives the same path.
-/

namespace Shiroe

open Act

/-! ### Reading a bundle -/

/-- `BundleError`, a `ValueError`. -/
def bundleError (message : String) : Exc := .valueError message

/-- What kind of thing a member of a tar file is. -/
inductive MemberKind where
  | file
  | folder
  | symlink
  | hardlink
  | device
  | other
  deriving DecidableEq

/-- A member of a tar file. -/
structure Member where
  name : String
  kind : MemberKind
  /-- What `extractfile(member)` reads, if it gives a handle. -/
  content : Except Exc (Option (List UInt8))

/-- `_read_member`. -/
def Member.read (m : Member) : Except Exc (List UInt8) := do
  match ← m.content with
  | none => .error (bundleError ("could not read bundle member " ++ m.name))
  | some data => .ok data

/-- `Path(path).parts`. -/
def posixParts (path : String) : TreePath :=
  ((path.toList.splitOn '/').map String.ofList).filter fun n => n ≠ "" ∧ n ≠ "."

/-- `Path.as_posix()` of a relative path. -/
def posix (path : TreePath) : String := String.intercalate "/" path

/-- `_validate_relative_path`. -/
def validateRelativePath (path : String) : Except Exc TreePath :=
  if path = "" ∨ isAbsolute path = true ∨ ".." ∈ posixParts path then
    .error (bundleError "artifact paths must be relative and stay inside the bundle")
  else if posixParts path = [] then
    .error (bundleError "artifact paths must be relative file paths")
  else .ok (posixParts path)

/-- `ARTIFACT_BUNDLE_SCHEMA`. -/
def artifactBundleSchema : String := "shiroe.artifact-bundle/v1"

/-- An entry of the `files` of a manifest. -/
structure FileEntry where
  path : TreePath
  sha256 : String
  /-- An integer that is not negative, or a truth value. -/
  size : Json
  deriving DecidableEq

/-- The dict of an entry. -/
def FileEntry.toJson (e : FileEntry) : Json :=
  .mkObj [("path", .str (posix e.path)), ("sha256", .str e.sha256), ("size", e.size)]

/-- `int(entry["size"])`. -/
def FileEntry.sizeInt (e : FileEntry) : ℤ :=
  match e.size with
  | .int n => n
  | .bool true => 1
  | _ => 0

/-- `ArtifactBundleManifest`. -/
structure ArtifactBundleManifest where
  schema : String
  files : List FileEntry
  manifestDigest : String
  deriving DecidableEq

variable (H : Host)

/-- `_digest_bytes`. -/
def digestBytes (data : List UInt8) : String := "sha256:" ++ hex (H.digest data)

/-- `isinstance(size, int) and size >= 0`. -/
def isSize : Json → Bool
  | .int n => 0 ≤ n
  | .bool _ => true
  | _ => false

/-- One entry of the manifest; the entries before it come last first. -/
def normalizeEntry (seen : List FileEntry) (entry : Json) : Except Exc (List FileEntry) := do
  if entry.isObj = false then
    .error (bundleError "artifact manifest file entry must be an object")
  else
    let path ← validateRelativePath ((entry.get "path").orElse (.str "")).pyText
    let sha256 := ((entry.get "sha256").orElse (.str "")).pyText
    if path ∈ seen.map (·.path) then
      .error (bundleError ("duplicate artifact path " ++ posix path))
    else if startsWith sha256 "sha256:" = false ∨ sha256.toList.length ≠ 71 then
      .error (bundleError ("artifact " ++ posix path ++ " missing sha256"))
    else if isSize (entry.get "size") = false then
      .error (bundleError ("artifact " ++ posix path ++ " has invalid size"))
    else .ok ({ path, sha256, size := entry.get "size" } :: seen)

/-- `json.loads(data.decode("utf-8"))`, and the `get` on it. -/
def parseManifest (data : List UInt8) : Except Exc Json :=
  let invalid : Exc := bundleError "artifact manifest is invalid JSON"
  match String.fromUTF8? ⟨data.toArray⟩ with
  | none => .error invalid
  | some text =>
    match Json.scan text.toList with
    | none => .error invalid
    | some .object =>
      match Json.loads (withoutBlanks false text.toList) with
      | none => .error invalid
      | some j => .ok j
    | some _ => .error .attributeError

/-- `_manifest_from_bytes`. -/
def manifestFromBytes (data : List UInt8) : Except Exc ArtifactBundleManifest := do
  let parsed ← parseManifest data
  if parsed.get "schema" ≠ .str artifactBundleSchema then
    .error (bundleError "artifact manifest has wrong schema")
  else
    match parsed.get "files" with
    | .arr entries => do
      let files := (← entries.foldlM normalizeEntry []).reverse
      let canonical := (Json.mkObj [("schema", .str artifactBundleSchema),
        ("files", .arr (files.map FileEntry.toJson))]).dumps false
      if H.encodes (String.ofList canonical) = false then
        .error (.unicodeEncode (String.ofList canonical))
      else .ok { schema := artifactBundleSchema, files,
                 manifestDigest := digestBytes H (utf8 canonical) }
    | _ => .error (bundleError "artifact manifest files must be a list")

/-- What `_read_bundle` has read. -/
structure BundleContent where
  names : List String := []
  /-- The payloads, the last one first. -/
  payloads : List (TreePath × List UInt8) := []
  manifest : Option (List UInt8) := none

/-- One member of the bundle. -/
def readBundleMember (c : BundleContent) (m : Member) : Except Exc BundleContent :=
  let next := { c with names := m.name :: c.names }
  if m.name ∈ c.names then .error (bundleError ("duplicate bundle member " ++ m.name))
  else if m.name = "manifest.json" then
    if m.kind ≠ .file then .error (bundleError "manifest.json must be a regular file")
    else do return { next with manifest := some (← m.read) }
  else if startsWith m.name "files/" = false then
    .error (bundleError ("unexpected bundle member " ++ m.name))
  else if m.kind ≠ .file then
    .error (bundleError ("artifact member " ++ m.name ++ " is not a regular file"))
  else do
    let rel ← validateRelativePath (removePrefix m.name "files/")
    return { next with payloads := (rel, ← m.read) :: c.payloads }

/-- `_read_bundle`, on what `tarfile` makes of the file. -/
def readBundle (bundle : Except Exc (List Member)) :
    Except Exc (ArtifactBundleManifest × List (TreePath × List UInt8)) := do
  let c ← (← bundle).foldlM readBundleMember {}
  match c.manifest with
  | none => .error (bundleError "missing artifact manifest")
  | some data => do
    let manifest ← manifestFromBytes H data
    let paths := manifest.files.map (·.path)
    if (∀ p ∈ c.payloads.map (·.1), p ∈ paths) ∧ ∀ p ∈ paths, p ∈ c.payloads.map (·.1) then
      .ok (manifest, c.payloads)
    else .error (bundleError "artifact bundle payload set does not match manifest")

/-- The checks that a payload passes before it is written. -/
def checkPayload (payloads : List (TreePath × List UInt8)) (e : FileEntry) :
    Except Exc (List UInt8) :=
  match payloads.lookup e.path with
  | none => .error (bundleError ("missing artifact payload for " ++ posix e.path))
  | some payload =>
    if (payload.length : ℤ) ≠ e.sizeInt then
      .error (bundleError ("artifact size mismatch for " ++ posix e.path))
    else if digestBytes H payload ≠ e.sha256 then
      .error (bundleError ("artifact hash mismatch for " ++ posix e.path))
    else .ok payload

/-! ### Extracting it -/

/-- The calls of `extract_artifact_bundle` to the file system, in the order of the source. -/
inductive FsCall where
  | readBundle
  /-- `tmp.mkdir(parents=True)`. -/
  | makeTmp
  /-- `path.parent.mkdir(parents=True, exist_ok=True)`. -/
  | makeParent (rel : TreePath)
  /-- `path.write_bytes(payload)`. -/
  | write (rel : TreePath)
  /-- `dest.exists()`. -/
  | destExists
  /-- `os.replace(dest, backup)`. -/
  | moveAside
  /-- `os.replace(tmp, dest)`. -/
  | install
  /-- `backup.exists()`. -/
  | backupExists
  /-- `shutil.rmtree(backup)`. -/
  | removeBackup
  /-- `tmp.exists()` of the handler. -/
  | tmpExists
  /-- `shutil.rmtree(tmp)` of the handler. -/
  | removeTmp
  /-- `backup.exists()` of the handler's `if`. -/
  | backupLeft
  /-- `dest.exists()` of the handler. -/
  | destGone
  /-- `os.replace(backup, dest)` of the handler. -/
  | restore
  /-- `backup.exists()` of the handler's `elif`. -/
  | backupStale
  /-- `shutil.rmtree(backup)` of the handler. -/
  | removeStale
  deriving DecidableEq

/-- The call that fails, and what it leaves. -/
structure Fault where
  call : FsCall
  /-- How many folders of its path a `mkdir` goes through. -/
  made : ℕ := 0
  /-- What a file holds that was not written to the end, if it was created. -/
  data : Option (List UInt8) := none
  /-- What an `rmtree` leaves. -/
  left : TreePath → Bool := fun _ => true

/-- A call of `extract_artifact_bundle`, and what the file system does about it. -/
structure Extraction where
  /-- What `tarfile` makes of the bundle. -/
  bundle : Except Exc (List Member)
  /-- `dest.parent`, every link on the way resolved. -/
  parent : TreePath
  resolved : ".." ∉ parent := by decide
  /-- `dest.name`. -/
  name : String
  /-- The two draws of `uuid.uuid4().hex`. -/
  tmpHex : String
  oldHex : String
  /-- Nothing can be created at the path: it is too long, or holds a NUL. -/
  refuses : TreePath → Bool := fun _ => false
  fault : Option Fault := none

namespace Extraction

variable (x : Extraction)

/-- The destination. -/
def dest : TreePath := x.parent ++ [x.name]

/-- Where the files are written first. -/
def tmp : TreePath := x.parent ++ ["." ++ x.name ++ ".tmp." ++ x.tmpHex]

/-- Where the old content of the destination goes. -/
def backup : TreePath := x.parent ++ ["." ++ x.name ++ ".old." ++ x.oldHex]

/-- A computation over the file system. -/
abbrev Files (α : Type) := Act Exc Disk α

/-- If the call is the one that fails, do what it still does, and raise. -/
def failing (c : FsCall) (partly : Fault → Files Unit) : Files Unit :=
  match x.fault with
  | some f => if f.call = c then do partly f; throw .osError else pure ()
  | none => pure ()

/-- `path.exists()`. -/
def exists? (c : FsCall) (p : TreePath) : Files Bool := do
  x.failing c fun _ => pure ()
  let d ← get
  return pathExists (d.entry p)

/-- `os.replace(src, dst)`. -/
def replace (c : FsCall) (src dst : TreePath) : Files Unit := do
  x.failing c fun _ => pure ()
  let d ← get
  if replaceable (d.entry src) (d.entry dst) then set (d.move src dst) else throw .osError

/-- `shutil.rmtree(p)`, which takes nothing but a folder. -/
def removeTree (c : FsCall) (p : TreePath) : Files Unit := do
  x.failing c fun f => modify (·.thin p f.left)
  let d ← get
  if d.entry p = some .folder then set (d.remove p) else throw .osError

/-- `tmp.mkdir(parents=True)`. -/
def makeTmp : Files Unit := do
  x.failing .makeTmp fun f => makeDirs x.refuses .osError [] (x.parent.take f.made)
  makeDirs x.refuses .osError [] x.parent
  let d ← get
  if (d.entry x.tmp).isSome then throw .osError
  makeDir x.refuses .osError x.tmp

/-- `path.write_bytes(payload)`. -/
def writeBytes (rel : TreePath) (payload : List UInt8) : Files Unit := do
  let path := follow x.tmp rel
  x.failing (.write rel) fun f =>
    match f.data with
    | none => pure ()
    | some data => modify (·.put path (.file data))
  let d ← get
  match d.entry path with
  | some .folder => throw .osError
  | some _ => set (d.put path (.file payload))
  | none => if x.refuses path then throw .osError else set (d.put path (.file payload))

variable (H : Host)

/-- The loop body: check a payload and write it. -/
def stage (payloads : List (TreePath × List UInt8)) (e : FileEntry) : Files Unit := do
  let payload ← Act.ofExcept (checkPayload H payloads e)
  x.failing (.makeParent e.path) fun f =>
    makeDirs x.refuses .osError x.tmp (e.path.dropLast.take f.made)
  makeDirs x.refuses .osError x.tmp e.path.dropLast
  x.writeBytes e.path payload

/-- `if backup.exists(): shutil.rmtree(backup)`, behind the renames. -/
def dropBackup : Files Unit := do
  if ← x.exists? .backupExists x.backup then x.removeTree .removeBackup x.backup

/-- The two renames and the removal of the backup. -/
def swap : Files Unit := do
  if ← x.exists? .destExists x.dest then x.replace .moveAside x.dest x.backup
  x.replace .install x.tmp x.dest
  x.dropBackup

/-- The body of the `try`. -/
def run : Files ArtifactBundleManifest := do
  x.failing .readBundle fun _ => pure ()
  let (manifest, payloads) ← Act.ofExcept (readBundle H x.bundle)
  x.makeTmp
  manifest.files.forM (x.stage H payloads)
  x.swap
  return manifest

/-- The `elif` of the handler. -/
def dropStale : Files Unit := do
  if ← x.exists? .backupStale x.backup then x.removeTree .removeStale x.backup

/-- `if tmp.exists(): shutil.rmtree(tmp)`. -/
def dropTmp : Files Unit := do
  if ← x.exists? .tmpExists x.tmp then x.removeTree .removeTmp x.tmp

/-- The `if` of the handler that puts the backup back, with its `elif`. -/
def putBack : Files Unit := do
  if ← x.exists? .backupLeft x.backup then
    if ← x.exists? .destGone x.dest then x.dropStale
    else x.replace .restore x.backup x.dest
  else x.dropStale

/-- The handler, before it raises again. -/
def recover : Files Unit := do
  x.dropTmp
  x.putBack

/-- `extract_artifact_bundle`. -/
def extractArtifactBundle : Files ArtifactBundleManifest :=
  Act.catching (fun _ => true) (x.run H) fun e => do
    x.recover
    throw e

end Extraction

end Shiroe
