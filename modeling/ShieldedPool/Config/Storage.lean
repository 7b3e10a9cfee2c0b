/-
Configurations on disk.  What stands at the path of a configuration decides
how reading and writing end; the contents of a file are bytes until they are
read as text.
-/
import ShieldedPool.Config

namespace ShieldedPool

/-- What stands at a path. -/
inductive PathState
  /-- Nothing, and the directories above it exist or can be made. -/
  | vacant
  | file (contents : Bytes)
  | directory
  /-- Nothing, and a file stands where a directory above it would have to. -/
  | obstructed
deriving DecidableEq

namespace PathState

def occupied : PathState → Bool
  | file _ => true
  | directory => true
  | vacant => false
  | obstructed => false

def readText? : PathState → Option String
  | file contents => String.fromUTF8? (ByteArray.mk contents.toArray)
  | _ => none

end PathState

namespace Config

def load (path : PathState) : Except ConfigDefect Config :=
  match path.readText? with
  | none => .error .unreadable
  | some document => ofJson document

/-- Read the configuration at a path, or take the standard one where nothing
stands. -/
def loadOrDefault (path : PathState) : Except ConfigDefect Config :=
  if path.occupied then load path else .ok {}

/-- Write a valid configuration to a path; what stands there then. -/
def save (config : Config) (path : PathState) : Except ConfigDefect PathState :=
  match config.validate, path with
  | .error defect, _ => .error defect
  | .ok (), .obstructed => .error .cannotCreate
  | .ok (), .directory => .error .cannotWrite
  | .ok (), .vacant => .ok (.file config.toJson.toUTF8.toList)
  | .ok (), .file _ => .ok (.file config.toJson.toUTF8.toList)

end Config

end ShieldedPool
