import Shiroe.Base
import Shiroe.Policy.Schema

/-!
# What other processes and people change

Files that the program reads and never writes: capability sources, the policy of the project, and
what the adapters and remote workers answer.  They may change between any two operations.
-/

namespace Shiroe

/-- A regular file of a capability source. -/
structure SourceFile where
  /-- The path relative to the source; the name, where the source is the file itself. -/
  rel : String
  data : List UInt8
  /-- The walk through the source comes to the file: no folder above it is closed or a link. -/
  listed : Bool := true
  /-- The file can be read. -/
  readable : Bool := true
  /-- A path holds no NUL. -/
  noNul : '\x00' ∉ rel.toList := by decide

/-- A capability source on disk. -/
structure Source where
  /-- The source is a file, not a directory. -/
  isFile : Bool
  /-- The regular files of the source. -/
  files : List SourceFile
  /-- A path names one file. -/
  nodup : (files.map (·.rel)).Nodup
  /-- A source that is a file holds nothing else. -/
  single : isFile = true → files.length = 1
  /-- The project-relative path names a file from the working directory of the process. -/
  relIsFile : Bool := isFile
  /-- What `_detect_license` reads off the license file. -/
  license : Except Exc (Option String) := .ok none

/-- What `adapter.health()` reports. -/
structure Health where
  healthy : Bool
  /-- The enforcement level is `embedded` or `sidecar`. -/
  enforced : Bool
  failureReason : Option String := none
  deriving DecidableEq

/-- What an adapter or a remote worker returns. -/
structure AdapterResult where
  ok : Bool
  output : Json := .null
  error : Option String := none
  usage : Json := .null
  deriving DecidableEq

/-- `MemoryWrite`: a proposed memory record. -/
structure MemoryWrite where
  kind : String
  title : String
  claim : String
  sourceRefs : List String
  evidenceGrade : String
  summary : String := ""
  confidence : String := "unknown"
  privacyClass : String := "internal"
  /-- A number. -/
  authority : Json := .float .zero
  scope : String := "project"
  validFrom : Option String := none
  validUntil : Option String := none
  owner : String := "shiroe"
  tags : List String := []

/-- The surroundings of the program that change while it runs. -/
structure Outside where
  /-- The capability source at a location, resolved against the project root. -/
  source : String → Option Source
  /-- The health of the adapter registered under a name. -/
  adapter : String → Option Health
  /-- The stack `load_policy_stack` builds for the project. -/
  policy : List PolicyLayer
  /-- What the executors answer, call by call: a result, or an exception. -/
  answer : ℕ → Except Exc AdapterResult
  /-- Why the verification engine blocks a memory write, if it does. -/
  verify : MemoryWrite → Except Exc (Option String) := fun _ => .ok none

end Shiroe
