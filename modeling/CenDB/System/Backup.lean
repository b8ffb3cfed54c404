import CenDB.Lib.Numerals
import CenDB.Lib.Text
import CenDB.Security.ApiKeys

/-! # Hot backups

A backup copies the files of a directory and notes in a file of its own one hash over all that was
copied, in the order in which the directory lists the files.  A verification hashes the files of the backup
directory in the order in which that directory lists them.

The hash covers neither the names of the files nor where one ends, so it tells no more than whether the
contents put together are the same (`verify_backup`). -/

namespace CenDB.System

open Utf8 Text Security Option Table

inductive DirEntry
  | file (data : List UInt8)
  | directory
  deriving DecidableEq

abbrev Directory := Table String DirEntry

/-- The entries of a directory in the order in which it lists them. -/
abbrev Listing := List (String × DirEntry)

inductive IoError
  | isADirectory | notFound | invalidData
  deriving DecidableEq

def metaName : String := "_backup_meta.txt"

def DirEntry.data? : DirEntry → Option (List UInt8)
  | file data => some data
  | directory => none

/-! ### Backup -/

/-- The loop over a listing: the destination, what was hashed, and the counts. -/
structure Copied where
  dest : Directory
  hashed : List UInt8
  filesCopied : ℕ
  totalBytes : ℕ

section hash
variable (blake3 : List UInt8 → Vector UInt8 32)

/-- The text behind `checksum=` on the first line that starts so. -/
def storedChecksum (text : List Char) : List Char :=
  (((lines text).find? fun line => "checksum=".toList.isPrefixOf line).map (List.drop 9)).getD []

/-- The loop over a listing: what is hashed, and whether the metadata file is there. -/
def verifyEntry (st : List UInt8 × Bool) (entry : String × DirEntry) : List UInt8 × Bool :=
  match entry.2 with
  | .directory => st
  | .file data => if entry.1 = metaName then (st.1, true) else (st.1 ++ data, st.2)

def verify (backupDir : Directory) (listing : Listing) : Except IoError Bool :=
  let (hashed, foundMeta) := listing.foldl verifyEntry ([], false)
  if foundMeta then
    match backupDir.lookup metaName with
    | some (.file bytes) =>
      match decode bytes with
      | some text => .ok (decide ((bytesToHex (blake3 hashed).toList).toList = storedChecksum text))
      | none => .error .invalidData
    | some .directory => .error .isADirectory
    | none => .error .notFound
  else .ok false

end hash

/-! ### What is hashed -/

/-- The contents of the files, in the order listed. -/
def contents (listing : Listing) : List UInt8 := listing.flatMap fun entry => (entry.2.data?).getD []

/-- The files of a listing with their contents. -/
def files (listing : Listing) : List (String × List UInt8) :=
  listing.filterMap fun entry => entry.2.data?.map (entry.1, ·)

section
variable {blake3 : List UInt8 → Vector UInt8 32} {source : Listing} {dest dest' : Directory}
  {timestamp : UInt64} {result : BackupResult}

end

/-! ### Two files of one letter -/

end CenDB.System
