import Packfile.Text.Hex

/-!
# What can go wrong

Errors are values that say what happened; the wording is in `Error.message` and the functions it
calls. `Error.isStorageFailure` tells the failures of the storage under an archive from the faults
of its contents: a walk over a damaged directory may give up on the latter and keep what it has,
and never on the former.
-/

namespace Packfile

/-- Why a file or a directory could not be reached. -/
inductive ResourceProblem where
  /-- There is nothing of that name. -/
  | notFound
  /-- Something of that name is there already. -/
  | alreadyExists
  /-- A file was wanted and a directory is there. -/
  | isDirectory
  /-- A directory was wanted and a file is there. -/
  | notDirectory
  /-- What is there is in use. -/
  | busy
  /-- The system does not permit it. -/
  | denied
  /-- There is no room left. -/
  | full
  deriving DecidableEq, Repr

/-- Why bytes that should be there could not be had. -/
inductive ReadFailure where
  /-- The data end inside an integer or a string. -/
  | unexpectedEnd
  /-- The storage itself failed. -/
  | disk
  /-- An entry yields fewer bytes than it declares. -/
  | endedEarly (missing : Nat)
  /-- Compressed data break the rules of their format. -/
  | corruptDeflate
  /-- Compressed data stop before their end. -/
  | incompleteDeflate
  /-- Content was written before any file was started. -/
  | noFileStarted
  /-- The system could not write them. -/
  | system (problem : ResourceProblem)
  deriving DecidableEq, Repr

/-- A construct that is well placed but that no rule of its format covers. -/
inductive Oddity where
  /-- An integer field of a width that integers do not have. -/
  | integerWidth (width : Nat)
  /-- An exclusive-or cipher without a key. -/
  | emptyXorKey
  /-- An RC4 key of a length that RC4 does not take. -/
  | rc4KeyLength (length : Nat)
  /-- An offset table that does not consist of whole offsets. -/
  | offsetTableSize (size : Nat)
  /-- A tree node that is neither a file nor a folder. -/
  | nodeKind (kind : Nat)
  /-- A tree whose root is not a folder. -/
  | rootNotFolder
  /-- An unknown version of the RPAK layout. -/
  | rpakVersion (version : Nat)
  /-- Unknown bits among the flags of an RPAK entry. -/
  | entryFlags (flags : Nat)
  /-- A folder whose parent is negative and not the mark of a top folder. -/
  | folderParent (folder : Nat) (parent : Int)
  /-- Unknown bits among the flags of an SPK file. -/
  | fileFlags (flags : Nat)
  /-- An entry in another part of an archive that has no path. -/
  | partWithoutPath (part : Nat)
  /-- An entry of another part, which cannot be written again. -/
  | entryInOtherPart
  /-- An oddity that only a caller's own record reader knows of. -/
  | other (text : String)
  deriving DecidableEq, Repr

/-- The ways an operation can fail. -/
inductive Error where
  /-- Bytes could not be read. -/
  | read (failure : ReadFailure)
  /-- Bytes could not be read inside a record that is read as a whole. -/
  | recordRead (failure : ReadFailure)
  /-- A record does not start with its magic. -/
  | badMagic (offset : Nat)
  /-- A field of a record holds none of the values it may hold. -/
  | noVariant (offset : Nat)
  /-- A value is out of bounds. -/
  | exceeds (what : String) (value bound : Nat)
  /-- A folder is reached a second time. -/
  | cycle (offset : Nat)
  /-- A construct that no rule covers. -/
  | odd (oddity : Oddity)
  /-- A file could not be reached. -/
  | resource (path : String) (problem : ResourceProblem)
  /-- There is no entry at an index. -/
  | noEntryAt (index : Nat)
  /-- There is no entry of a name. -/
  | noEntryNamed (name : String)
  /-- A format that cannot be written. -/
  | readOnly (format : String)
  /-- A name is given to an entry that has one. -/
  | alreadyNamed (offset : Nat) (name : String)
  /-- An entry that has to be written has no name. -/
  | unnamed (offset : Nat)
  /-- No format of that identifier is known. -/
  | unknownFormat (id : String)
  /-- An archive of several files was not opened from one. -/
  | notFromFile
  /-- A failure that only a caller's own format knows of. -/
  | custom (text : String)
  /-- A number that should stay within its width did not, or an index within its list. -/
  | overflow
  deriving DecidableEq, Repr

/-- Wording of the reason why a file is out of reach. -/
def ResourceProblem.message : ResourceProblem → String
  | notFound => "NotFound"
  | alreadyExists => "AlreadyExists"
  | isDirectory => "IsADirectory"
  | notDirectory => "NotADirectory"
  | busy => "ResourceBusy"
  | denied => "PermissionDenied"
  | full => "StorageFull"

/-- Wording of the same reason by the operating system. -/
def ResourceProblem.systemMessage : ResourceProblem → String
  | notFound => "No such file or directory (os error 2)"
  | alreadyExists => "File exists (os error 17)"
  | isDirectory => "Is a directory (os error 21)"
  | notDirectory => "Not a directory (os error 20)"
  | busy => "Device or resource busy (os error 16)"
  | denied => "Permission denied (os error 13)"
  | full => "No space left on device (os error 28)"

/-- Wording of a failed read. -/
def ReadFailure.message : ReadFailure → String
  | unexpectedEnd => "failed to fill whole buffer"
  | disk => "disk failure"
  | endedEarly missing => s!"entry data ended {missing} bytes early"
  | corruptDeflate => "corrupt deflate stream"
  | incompleteDeflate => "incomplete deflate stream"
  | noFileStarted => "No file has been started"
  | system problem => problem.systemMessage

/-- Wording of an oddity. -/
def Oddity.message : Oddity → String
  | integerWidth width => s!"{width} byte integer field"
  | emptyXorKey => "empty xor key"
  | rc4KeyLength length => s!"{length} byte rc4 key"
  | offsetTableSize size => s!"offset table size {size} is not a multiple of 4"
  | nodeKind kind => s!"unknown node kind {kind}"
  | rootNotFolder => "root node is not a folder"
  | rpakVersion version => s!"rpak version {version}"
  | entryFlags flags => "entry flags 0x" ++ Hex.ofNat flags
  | folderParent folder parent => s!"folder {folder} has parent {parent}"
  | fileFlags flags => "file flags 0x" ++ Hex.ofNat flags
  | partWithoutPath part => s!"part {part} has no path"
  | entryInOtherPart => "entries stored in other archive parts cannot be re-encoded"
  | other text => text

namespace Error

/-- Wording of an error. -/
def message : Error → String
  | read failure => failure.message
  | recordRead failure => "io: " ++ failure.message
  | badMagic offset => s!"bad magic at {offset}"
  | noVariant offset => s!"no variant match at {offset}"
  | exceeds what value bound => s!"{what} of {value} exceeds the limit of {bound}"
  | cycle offset => "folder at 0x" ++ Hex.ofNat offset ++ " is referenced more than once"
  | odd oddity => "unexpected format variant: " ++ oddity.message
  | resource path problem => "unable to access " ++ path ++ ": " ++ problem.message
  | noEntryAt index => s!"unable to find requested file: at index {index}"
  | noEntryNamed name => "unable to find requested file: by name " ++ name
  | readOnly format => s!"the {format} format cannot be written"
  | alreadyNamed offset name =>
    "entry at 0x" ++ Hex.ofNat offset ++ " is already named " ++ name
  | unnamed offset => "entry at 0x" ++ Hex.ofNat offset ++ " has no name"
  | unknownFormat id => "unknown format " ++ id
  | notFromFile => "spanned archives can only be opened from a file"
  | custom text => text
  | overflow => "arithmetic overflow"

/-- The failures that lie under the archive and not in its contents. -/
def isStorageFailure : Error → Bool
  | read _ => true
  | recordRead _ => true
  | resource _ _ => true
  | _ => false

/-- The failure of a computation that should stay within bounds. -/
def isOverflow : Error → Bool
  | overflow => true
  | _ => false

end Error

end Packfile
