import Mmdata.Image.Meta

namespace Mmdata.Image
open Lib Malloc

structure File where
  length : Nat
  byte : Nat → Cell

/-- The same bytes. -/
def File.Same (f g : File) : Prop := f.length = g.length ∧ ∀ i < f.length, f.byte i = g.byte i

/-- Cut to `n` bytes, or made `n` bytes long with zeros. -/
def File.resize (f : File) (n : Nat) : File :=
  ⟨n, fun i => if i < f.length then f.byte i else .known 0⟩

/-- Where the kernel may map a file: some pages away from address 0. -/
structure MapAddr where
  addr : Nat
  pos : 0 < addr
  aligned : addr % 4096 = 0

/-- What the system calls of one operation answer. -/
structure Reply where
  openFile : Except String Unit
  ftruncate : Except String Unit
  mmap : Except String MapAddr
  truncate : Bool

/-- What is recorded of a run: mappings of the file made and given up, the objects
constructed in them, with their types, and the pointers dereferenced or returned. -/
inductive Event
  | mmap (addr len : Nat) (writable : Bool)
  | munmap (addr len : Nat)
  | created (buf : Nat)
  | built (type root : Nat)
  | pointer (p : Nat)
deriving DecidableEq

/-- The process, with the file that an object is about, where it is mapped for
writing, and the record, the latest event first. -/
structure Process extends Globals where
  file : Option File
  shared : Option (Nat × Nat)
  log : List Event

abbrev World := Machine Process

abbrev Sys := Prog Process

/-- Code of the process that makes no system call. -/
def inProcess (x : Code α) : Sys α :=
  zoom Process.toGlobals (fun g p => { p with toGlobals := g }) x

def record (e : Event) : Sys Unit := do
  let p ← globals
  setGlobals { p with log := e :: p.log }

/-- What the file holds: where it is mapped for writing, what memory holds. -/
def contents (w : World) : Option File :=
  match w.glob.shared with
  | none => w.glob.file
  | some (a, n) => some ⟨n, fun i => w.byte (a + i)⟩

/-- `open`, with `O_CREAT` or without. -/
def sysOpen (r : Reply) (creat : Bool) : Sys (Except String Unit) := do
  match r.openFile with
  | .error e => return .error e
  | .ok () => do
    let p ← globals
    match p.file with
    | some _ => return .ok ()
    | none =>
      if creat then do
        setGlobals { p with file := some ⟨0, fun _ => .known 0⟩ }
        return .ok ()
      else return .error "No such file or directory"

/-- `st_size`. -/
def sysFstat : Sys Nat := do
  match (← globals).file with
  | some f => return f.length
  | none => return 0

def setFile (f : File) : Sys Unit := do
  let p ← globals
  setGlobals { p with file := some f }

def sysFtruncate (r : Reply) (n : Nat) : Sys (Except String Unit) := do
  match r.ftruncate with
  | .error e => return .error e
  | .ok () => do
    match (← globals).file with
    | some f => setFile (f.resize n)
    | none => pure ()
    return .ok ()

/-- The range now holds the bytes of the file. -/
def mapFile (a n : Nat) (writable : Bool) : Sys Unit := fun w =>
  .ok ((), ⟨fun b =>
      match w.glob.file with
      | some f => if a ≤ b ∧ b < a + n then f.byte (b - a) else w.byte b
      | none => w.byte b,
    (a, a + n) :: w.maps,
    { w.glob with shared := if writable then some (a, n) else w.glob.shared }⟩)

def sysMmap (r : Reply) (n : Nat) (writable : Bool) : Sys (Except String Nat) := do
  match r.mmap with
  | .error e => return .error e
  | .ok a => do
    mapFile a.addr n writable
    record (.mmap a.addr n writable)
    return .ok a.addr

/-- The range is no longer mapped; what was written to it is in the file. -/
def unmapFile (a n : Nat) : Sys Unit := fun w =>
  .ok ((), ⟨w.byte, w.maps.filter (· ≠ (a, a + n)),
    if w.glob.shared = some (a, n) then { w.glob with file := contents w, shared := none }
    else w.glob⟩)

def sysMunmap (a n : Nat) : Sys Unit := do
  unmapFile a n
  record (.munmap a n)

/-- `truncate`, whose answer nobody looks at. -/
def sysTruncate (r : Reply) (n : Nat) : Sys Unit := do
  if r.truncate then
    match (← globals).file with
    | some f => setFile (f.resize n)
    | none => pure ()

/-! `MMapBuf`. -/

structure MMapBuf where
  err_msg : String
  buf : Nat
  size : Nat
  atuoclose : Bool

/-- The constructor, with its default argument. -/
def MMapBuf.new : MMapBuf := ⟨"", 0, 0, true⟩

/-- What `snprintf` leaves in `tmp[1024]`. -/
def emptyFile (path : String) : String :=
  String.ofList (("Failed to open read empty mmap file:" ++ path).toList.take 1022)

def MMapBuf.map (b : MMapBuf) (r : Reply) (size : Nat) (readonly createFile : Bool) :
    Sys (Int × MMapBuf) := do
  match ← sysMmap r size (!readonly) with
  | .error e => return (-1, { b with err_msg := e })
  | .ok mbuf => return (if createFile then 1 else 0, { b with buf := mbuf, size := size })

/-- `MMapBuf::Init`. -/
def MMapBuf.init (b : MMapBuf) (r : Reply) (path : String) (size : Nat)
    (readonly create : Bool) : Sys (Int × MMapBuf) := do
  match ← sysOpen r (!readonly && create) with
  | .error e => return (-1, { b with err_msg := e })
  | .ok () => do
    let st_size ← sysFstat
    if readonly then
      if st_size = 0 then return (-1, { b with err_msg := emptyFile path })
      else b.map r st_size readonly false
    else if st_size ≠ size then
      match ← sysFtruncate r size with
      | .error e => return (-1, { b with err_msg := e })
      | .ok () => b.map r size readonly (st_size = 0)
    else b.map r size readonly false

def MMapBuf.openWrite (b : MMapBuf) (r : Reply) (path : String) (size : Int) (create : Bool) :
    Sys (Int × MMapBuf) :=
  b.init r path (toSizeT size) false create

def MMapBuf.openRead (b : MMapBuf) (r : Reply) (path : String) : Sys (Int × MMapBuf) :=
  b.init r path 0 true false

/-- `buf` and `size` stay as they are. -/
def MMapBuf.close (b : MMapBuf) : Sys Unit := sysMunmap b.buf b.size

def MMapBuf.destroy (b : MMapBuf) : Sys Unit := do
  if b.atuoclose then b.close

/-! `MMFileData`. -/

structure MMFileData extends MMData where
  file_ : String
  file_size_ : Int
  databuf_ : MMapBuf
  readonly_ : Bool

def MMFileData.new (f : String) (size : Int) : MMFileData :=
  { toMMData := MMData.new, file_ := f, file_size_ := size, databuf_ := .new, readonly_ := false }

def MMFileData.loadRootObject (d : MMFileData) (buf : Nat) : Sys (Nat × MMFileData) := do
  let (root, m) := Image.loadRootObject d.toMMData buf
  record (.pointer root)
  return (root, { d with toMMData := m })

/-- `MMData::LoadRootWriteObject` on the mapping. -/
def MMFileData.createRoot (K : Objects) (d : MMFileData) : Sys (Nat × MMFileData) := do
  let (rc, m) ← inProcess (createAllocator K d.toMMData d.databuf_.buf (toInt64 d.databuf_.size))
  if rc ≠ 0 then return (0, { d with toMMData := m })
  record (.created d.databuf_.buf)
  let (root, d) ← MMFileData.loadRootObject { d with toMMData := m } d.databuf_.buf
  inProcess (K.root root d.allocator_)
  record (.built 0 root)
  return (root, d)

def MMFileData.loadRootWriteObject (K : Objects) (r : Reply) (d : MMFileData) :
    Sys (Nat × MMFileData) := do
  if d.databuf_.buf ≠ 0 then d.loadRootObject d.databuf_.buf
  else if d.file_size_ ≤ 0 then
    return (0, { d with err := "MMap File size too small or negative." })
  else do
    let (rc, b) ← d.databuf_.openWrite r d.file_ d.file_size_ true
    if rc < 0 then return (0, { d with databuf_ := b, err := b.err_msg })
    else MMFileData.createRoot K { d with databuf_ := b, readonly_ := false }

def MMFileData.loadRootReadObject (r : Reply) (d : MMFileData) : Sys (Nat × MMFileData) := do
  if d.databuf_.buf ≠ 0 then d.loadRootObject d.databuf_.buf
  else do
    let (rc, b) ← d.databuf_.openRead r d.file_
    if rc < 0 then return (0, { d with databuf_ := b, err := b.err_msg })
    else MMFileData.loadRootObject { d with databuf_ := b, readonly_ := true } b.buf

/-! `LoadRootWriteObject<T>`, for any types and constructors that may throw. -/

/-- A type of root objects, by a number, and its constructor, given the addresses of the
object and of the space of its allocator: whether it returns. -/
structure RootType where
  type : Nat
  construct : Nat → Nat → Code Bool

/-- The one type of root objects of an image whose constructor returns. -/
def Objects.rootType (K : Objects) : RootType := ⟨0, fun root space => do
  K.root root space
  return true⟩

/-- `MMData::LoadRootWriteObject<T>` on the mapping. No root is an exception. -/
def MMFileData.createRootOf (K : Objects) (T : RootType) (d : MMFileData) :
    Sys (Option Nat × MMFileData) := do
  let (rc, m) ← inProcess (createAllocator K d.toMMData d.databuf_.buf (toInt64 d.databuf_.size))
  if rc ≠ 0 then return (some 0, { d with toMMData := m })
  record (.created d.databuf_.buf)
  let (root, d) ← MMFileData.loadRootObject { d with toMMData := m } d.databuf_.buf
  let returns ← inProcess (T.construct root d.allocator_)
  if returns then
    record (.built T.type root)
    return (some root, d)
  else return (none, d)

def MMFileData.loadRootWriteObjectOf (K : Objects) (T : RootType) (r : Reply) (d : MMFileData) :
    Sys (Option Nat × MMFileData) := do
  if d.databuf_.buf ≠ 0 then
    let (root, d) ← d.loadRootObject d.databuf_.buf
    return (some root, d)
  else if d.file_size_ ≤ 0 then
    return (some 0, { d with err := "MMap File size too small or negative." })
  else do
    let (rc, b) ← d.databuf_.openWrite r d.file_ d.file_size_ true
    if rc < 0 then return (some 0, { d with databuf_ := b, err := b.err_msg })
    else MMFileData.createRootOf K T { d with databuf_ := b, readonly_ := false }

/-- `GetNamingObject`, where `find` looks the name up in the table. -/
def MMFileData.getNamingObject (find : Nat → Nat → List UInt8 → Code Nat) (name : List UInt8)
    (d : MMFileData) : Sys Nat := do
  if d.meta_ = 0 then return 0
  record (.pointer (namingTable d.meta_))
  let v ← inProcess (find (namingTable d.meta_) d.allocator_ name)
  record (.pointer v)
  return v

def MMFileData.shrinkToFit (r : Reply) (d : MMFileData) : Sys (Int × MMFileData) := do
  if d.readonly_ then return (-1, { d with err := "MMFileData is in readonly mode." })
  else if d.databuf_.buf = 0 then return (-1, { d with err := "MMFileData is not opened." })
  else do
    record (.pointer (mspaceOffset d.allocator_))
    let used_space ← inProcess (usedSpace d.allocator_)
    d.databuf_.close
    sysTruncate r used_space
    return (toInt64 used_space, d)

def MMFileData.destroy (d : MMFileData) : Sys Unit := d.databuf_.destroy

end Mmdata.Image
