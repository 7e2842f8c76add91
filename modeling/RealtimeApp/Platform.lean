import RealtimeApp.FileTree

/-!
# Platforms

A program makes directories and opens the files of its log by means of what it runs on.  How this
ends is up to the platform: nothing that uses one depends on which it is.  A disk is such a
platform.
-/

namespace RealtimeApp

/-- What makes directories and the files of a log. -/
structure Platform where
  /-- Make the directory that a path leads to and those around it, and say whether that went. -/
  makeDirectories : FileTree → Bytes → FileTree × Bool
  /-- Open a file that is rotated at a size, with so many older ones kept, and say whether that
  went. -/
  openRotating : FileTree → Bytes → UInt64 → UInt64 → FileTree × Bool
  /-- What is said about a path that is too long. -/
  tooLongText : Bytes → Bytes

/-- A platform that finds all it needs in the files.  It rotates no files of size nothing, and
keeps at most 200000 older ones. -/
def Platform.disk : Platform where
  makeDirectories := FileTree.makeDirectories
  openRotating files path maxSize maxFiles :=
    if maxSize = 0 ∨ 200000 < maxFiles then (files, false) else files.openToAppend path
  tooLongText path :=
    Bytes.ofString "filesystem error: status: File name too long [" ++ path ++ Bytes.ofString "]"

end RealtimeApp
