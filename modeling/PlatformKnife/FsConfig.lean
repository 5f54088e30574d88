import PlatformKnife.Lib.Bytes

namespace FsConfig

-- `struct fs_path_config`, without the capabilities, which no caller stores.
structure FsPathConfig where
  mode : Nat
  uid : Nat
  gid : Nat
  pathPrefix : List UInt8
  deriving DecidableEq

-- One of the tables `android_dirs` and `android_files`. The last entry has no prefix, for paths that
-- match nothing.
structure Table where
  entries : List FsPathConfig
  mode : Nat
  uid : Nat
  gid : Nat

-- The tables that the tools were built with.
structure Tables where
  androidDirs  : Table
  androidFiles : Table

def slash : UInt8 := 47
def star : UInt8 := 42

-- A leading slash is not looked at.
def skipSlash : List UInt8 → List UInt8
  | c :: path => if c = slash then path else c :: path
  | [] => []

-- Whether an entry is for this path. For files, a final `*` is anything.
def FsPathConfig.fits (pc : FsPathConfig) (dir : Bool) (path : List UInt8) : Bool :=
  if dir then
    pc.pathPrefix.isPrefixOf path
  else if pc.pathPrefix.getLast? = some star then
    pc.pathPrefix.dropLast.isPrefixOf path
  else
    pc.pathPrefix == path

-- The owner, the group and the mode for a path.
def fsConfig (tables : Tables) (path : List UInt8) (dir : Bool) (mode : Nat) : Nat × Nat × Nat :=
  let table := if dir then tables.androidDirs else tables.androidFiles
  match table.entries.find? fun pc => pc.fits dir (skipSlash path) with
  | some pc => (pc.uid, pc.gid, mode - mode % 0o10000 ||| pc.mode)
  | none => (table.uid, table.gid, mode - mode % 0o10000 ||| table.mode)

end FsConfig
