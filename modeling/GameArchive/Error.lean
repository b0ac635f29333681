import GameArchive.Record.FieldKind
import GameArchive.Text.Quoted
import GameArchive.Text.Utf8
/-! Why an operation can fail, and how each cause is worded. -/
namespace GameArchive

open Text (hexNumber quoted)

/-- What is wrong with a header, a directory, a field or a request to change one. -/
inductive Malformation where
  | badMagic (expected found : List UInt8)
  | numberTooWide (value : Nat) (layout field : String)
  | integerTooWide (value : Int) (layout field : String)
  | wrongKind (layout field : String) (kind : FieldKind)
  | notEncodable (text : String)
  | textTooLong (text : String) (needed width : Nat)
  | unpairedSurrogate (offset : Nat)
  | ykcmpReserved (value : Nat)
  | ykcmpSizeTooSmall (size : Nat)
  | lzsSizeTooSmall (size : Nat)
  | blockTooLarge (size limit : Nat)
  | rangeOverflow (name : String)
  | overlap (first second : String)
  | sharedBytes (name other : String)
  | movedBeforeStart (name : String)
  | descendingOffsets (index offset next : Nat)
  | escapesFolder (name : String)
  | notFileName (name : String)
  | fileNameCount (names files : Nat)
  | folderNameCount (names folders : Nat)
  | unnamedId (what : String) (id : Int) (names : Nat)
  | chunkHeaderCrossesEnd (position limit : Nat)
  | chunkListTooLong (position length limit : Nat)
  | noChunkList (file : Int)
  | cyclicFolder (folder : Int)
  | unknownParent (folder parent : Int)
  | unknownFolder (name : String) (folder : Int)
  | duplicatePath (path : String)
  | offsetOverflow (path : String)
  deriving DecidableEq

namespace Malformation

/-- The wording of each cause. -/
def message : Malformation → String
  | badMagic expected found =>
    let e := quoted (Text.Utf8.decodeLossy expected)
    let f := quoted (Text.Utf8.decodeLossy found)
    s!"bad magic: expected {e}, found {f}"
  | numberTooWide value layout field =>
    s!"{hexNumber value} does not fit {layout}.{field}"
  | integerTooWide value layout field => s!"{value} does not fit {layout}.{field}"
  | wrongKind layout field kind =>
    s!"{layout}.{field} is stored as {kind.label}, which this accessor cannot read"
  | notEncodable text => s!"{quoted text} is not representable in Shift-JIS"
  | textTooLong text needed width =>
    s!"{quoted text} needs {needed} bytes but the field holds {width}"
  | unpairedSurrogate offset => s!"invalid UTF-16 name at {hexNumber offset}"
  | ykcmpReserved value => s!"YKCMP reserved field is {value}, expected 4"
  | ykcmpSizeTooSmall size => s!"YKCMP compressed size {size} is smaller than its header"
  | lzsSizeTooSmall size => s!"LZS compressed size {size} is smaller than its header"
  | blockTooLarge size limit => s!"zstd block of {size} bytes exceeds {limit}"
  | rangeOverflow name => s!"{quoted name} has an overflowing range"
  | overlap first second => s!"{quoted first} overlaps {quoted second}"
  | sharedBytes name other =>
    s!"cannot replace {quoted name}: its bytes are shared with {quoted other}"
  | movedBeforeStart name => s!"{quoted name} would move before the container start"
  | descendingOffsets index offset next =>
    s!"start.dat entry {index} at {hexNumber offset} starts after the next one ({hexNumber next})"
  | escapesFolder name => s!"{quoted name} escapes the output folder"
  | notFileName name => s!"{quoted name} is not a file name"
  | fileNameCount names files => s!"{names} file names for {files} files"
  | folderNameCount names folders => s!"{names} folder names for {folders} folders"
  | unnamedId what id names => s!"{what} id {id} has no entry among {names} names"
  | chunkHeaderCrossesEnd position limit =>
    let p := hexNumber position
    s!"chunk list header at {p} crosses the chunk table end {hexNumber limit}"
  | chunkListTooLong position length limit =>
    let p := hexNumber position
    let l := hexNumber limit
    s!"chunk list at {p} of {length} bytes does not fit the chunk table ending at {l}"
  | noChunkList file => s!"file id {file} has no chunk list"
  | cyclicFolder folder => s!"folder {folder} has a cyclic parent chain"
  | unknownParent folder parent => s!"folder {folder} has unknown parent {parent}"
  | unknownFolder name folder => s!"{quoted name} is in unknown folder {folder}"
  | duplicatePath path => s!"duplicate path {quoted path}"
  | offsetOverflow path => s!"{quoted path} has an overflowing offset"

end Malformation

/-- Features of the formats that are recognised and refused. -/
inductive Unsupported where
  | bigEndian (flag : Nat)
  | zlib (name : String) (file : Int) (flags : Nat)
  | dictionary (name : String) (file used : Int)
  | readOnly (name : String)
  deriving DecidableEq

namespace Unsupported

/-- The wording of each refusal. -/
def message : Unsupported → String
  | bigEndian flag => s!"big-endian NISPACK (flag {hexNumber flag})"
  | zlib name file flags =>
    s!"{quoted name} (id {file}) is zlib-compressed (flags {hexNumber flags})"
  | dictionary name file used => s!"{quoted name} (id {file}) uses zstd dictionary {used}"
  | readOnly name => s!"{quoted name} is in an archive that cannot be rebuilt"

end Unsupported

/-- Why an operation failed. -/
inductive Error where
  | malformed (cause : Malformation)
  /-- A range that does not lie below `limit`. -/
  | outOfBounds (offset length limit : Nat)
  /-- Two statements of one quantity that disagree. -/
  | sizeMismatch (what : String) (expected found : Nat)
  | notFound (name : String)
  | unsupported (feature : Unsupported)
  /-- A path that a file system cannot hold. -/
  | unwritable
  /-- A zstd frame that does not decode. -/
  | undecodable
  deriving DecidableEq

namespace Error

/-- The wording of each failure. -/
def message : Error → String
  | malformed cause => s!"malformed header: {cause.message}"
  | outOfBounds offset length limit =>
    let o := hexNumber offset
    s!"out of bounds: {length} bytes at {o} exceeds limit {hexNumber limit}"
  | sizeMismatch what expected found =>
    s!"size mismatch in {what}: expected {expected}, found {found}"
  | notFound name => s!"not found: {quoted name}"
  | unsupported feature => s!"unsupported feature: {feature.message}"
  | unwritable => "path cannot be written"
  | undecodable => "zstd frame does not decode"

end Error
end GameArchive
