import Stencil.Command.Execute

/-!
# The program

Reads the files that a command line names into a tree, executes the command on
it, and writes the files that the command changed.  Folders are neither searched
nor watched from here: files have to be named, in or below the working folder.
-/

namespace Stencil.Command

/-- Bytes as the text they encode. -/
def textOf (text : Bytes) : String :=
  (String.fromUTF8? ⟨text.toArray⟩).getD ""

/-- The paths of the files a command may read. -/
def pathsOf (line : Line) : List Bytes :=
  let settings := line.settings
  let cacheFile :=
    if settings.cacheFolder.isEmpty then [] else [Cache.file { folder := settings.cacheFolder }]
  configPath settings.config :: line.arguments ++ cacheFile

/-- Adds a file to a tree, if there is one. -/
def loadFile (tree : Files.Node) (path : Bytes) : IO Files.Node := do
  try
    let content ← IO.FS.readBinFile (textOf path)
    return (Files.provide path content.toList tree).toOption.getD tree
  catch _ =>
    return tree

/-- Reads a stream to its end. -/
partial def readStream (stream : IO.FS.Stream) (done : ByteArray) : IO ByteArray := do
  let part ← stream.read 65536
  if part.isEmpty then return done else readStream stream (done ++ part)

/-- The files that are new or different in a tree. -/
def changedFiles (old new : Files.Node) : List (Bytes × Bytes) :=
  new.listing.filter fun file => !old.listing.contains file

/-- Writes a file and the folders it lies in. -/
def storeFile (path content : Bytes) : IO Unit := do
  IO.FS.createDirAll (textOf (Path.folder path))
  IO.FS.writeBinFile (textOf path) ⟨content.toArray⟩

/-- Writes to a stream. -/
def writeStream (stream : IO.FS.Stream) (text : Bytes) : IO Unit := do
  stream.write ⟨text.toArray⟩
  stream.flush

/-- Executes a command line on the files it names. -/
def executeOnDisk (arguments : List Bytes) : IO Reply := do
  let line := (Line.read arguments).toOption
  let paths := (line.map pathsOf).getD []
  let tree ← paths.foldlM loadFile (.folder [])
  let wantsInput := line.any fun line => line.verb == some .run && line.arguments.isEmpty
  let input ← if wantsInput then readStream (← IO.getStdin) .empty else pure .empty
  let color ← (← IO.getStdout).isTty
  let now ← IO.monoNanosNow
  let reply := execute { files := tree, input := input.toList, color, clock := fun _ => now }
    arguments
  for (path, content) in changedFiles tree reply.files do
    storeFile path content
  return reply

end Stencil.Command

/-- Executes the command line. -/
def main (arguments : List String) : IO UInt32 := do
  let arguments := arguments.map Stencil.bytes
  let reply ← Stencil.Command.executeOnDisk arguments
  Stencil.Command.writeStream (← IO.getStdout) reply.output
  Stencil.Command.writeStream (← IO.getStderr) (Stencil.Command.errorText arguments reply)
  return if reply.failure.isSome then 1 else 0
