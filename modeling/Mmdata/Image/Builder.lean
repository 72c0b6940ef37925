import Mmdata.Image.FileData

namespace Mmdata.Image
open Lib Malloc

structure DataImageBuildOptions where
  max_image_size : Int
  src_file : String
  dst_file : String
  dst_buf : Nat
  dst_buf_size : Nat
  int64 : -2 ^ 63 ≤ max_image_size ∧ max_image_size < 2 ^ 63

/-- The row type and its table: an entry is constructed with an allocator, of address 0
without a space, and a line is parsed into it; an entry is inserted into a table. -/
structure Rows where
  Entry : Type
  parse : Nat → List UInt8 → Code (Option Entry)
  insert : Nat → Entry → Code Unit

structure DataImageBuilder where
  err : String

/-- `table->Insert(entry)`. -/
def Rows.insertInto (E : Rows) (table : Nat) (entry : E.Entry) : Code Unit := do
  if table = 0 then trap .segv
  E.insert table entry

/-- What `Build` does with the lines of the source. -/
def insertLines (E : Rows) (table alloc : Nat) : List (List UInt8) → Code Unit
  | [] => return
  | line :: lines => do
    if line = [] then insertLines E table alloc lines
    else
      match ← E.parse alloc line with
      | some entry => do
        E.insertInto table entry
        insertLines E table alloc lines
      | none => insertLines E table alloc lines

/-- The table, the space of its allocator, and `mfile`. -/
def loadTable (K : Objects) (r : Reply) (o : DataImageBuildOptions) :
    Sys (Nat × Nat × MMFileData) := do
  let mfile := MMFileData.new o.dst_file o.max_image_size
  if o.dst_file ≠ "" then do
    let (table, mfile) ← mfile.loadRootWriteObject K r
    return (table, mfile.allocator_, mfile)
  else do
    let (table, mdata) ←
      inProcess (loadRootWriteObject K MMData.new o.dst_buf (toInt64 o.dst_buf_size))
    return (table, mdata.allocator_, mfile)

/-- The size of the image, which is cut to it where it is a file. -/
def imageSize (r : Reply) (o : DataImageBuildOptions) (alloc : Nat) (mfile : MMFileData) :
    Sys (Int × MMFileData) := do
  if o.dst_file ≠ "" then mfile.shrinkToFit r
  else do
    let used ← inProcess (usedSpace alloc)
    return (toInt64 used, mfile)

/-- `DataImageBuilder::Build`, where `source` gives the lines of the files that can be
opened for reading. -/
def DataImageBuilder.build (K : Objects) (E : Rows) (source : String → Option (List (List UInt8)))
    (r : Reply) (b : DataImageBuilder) (o : DataImageBuildOptions) : Sys (Int × DataImageBuilder) :=
  match source o.src_file with
  | none => return (-1, { b with err := "Open source file failed." })
  | some lines =>
    if o.dst_buf = 0 ∧ o.dst_file = "" then
      return (-1, { b with err := "No dst file or buf specified." })
    else do
      let (table, alloc, mfile) ← loadTable K r o
      inProcess (insertLines E table alloc lines)
      let (n, mfile) ← imageSize r o alloc mfile
      mfile.destroy
      return (n, b)

end Mmdata.Image
