/-
System calls on files (sysfile.c, exec.c, file.c, proc.c), one process at a time.

- An argument that argstr, argint or argptr refuses is none. The result false stands for -1.
- begin_op and end_op are left out: the disk is what bread shows, and a call does not wait for the log here.
- exec: what the ELF headers say is read from the file; whether the page-table functions succeed is an argument.
- fork: whether kalloc and copyuvm succeed is an argument.
- A read or write of a pipe touches no table.
- `Call.take` and `Call.give` are the kalloc and kfree of the rest of the kernel: it gives back only what it has taken.
- A run is a sequence of calls that all return; a call that panics or waits for ever ends it.
-/
import Xv6.Sysfile.Ftable

namespace Xv6.Sysfile

open Fs Bytes

def O_WRONLY : UInt32 := 0x001
def O_RDWR : UInt32 := 0x002
def O_CREATE : UInt32 := 0x200

def has (omode flag : UInt32) : Bool := omode &&& flag ≠ 0

variable (sb : Super) (dev : Devsw)

/-! ## dup, close, read, write -/

def sysDup (i : Slot) (fd : ℤ) : SysM Bool := do
  match ← argfd i fd with
  | none => return false
  | some (_, f) =>
    match ← fdalloc i f with
    | none => return false
    | some _ =>
      filedup f
      return true

def sysClose (i : Slot) (fd : ℤ) : SysM Bool := do
  match ← argfd i fd with
  | none => return false
  | some (fd, f) =>
    setOfile i fd none
    fileclose sb f
    return true

def addOff (f : Filp) (r : ℕ) : SysM Unit := modifyFile f fun g => { g with off := uint32 (g.off + r) }

def fileread (f : Filp) (n : ℕ) : SysM Bool := do
  let g := (← get).file f
  if ¬ g.readable then return false
  match g.type with
  | .pipe => return true
  | .inode =>
    onFs (ilock sb g.ip)
    let r ← onFs (onInode g.ip (readi sb dev g.off n))
    addOff f ((r.map List.length).getD 0)
    onFs (iunlock g.ip)
    return r.isSome
  | .none => throw (.panic "fileread")

/-- `((MAXOPBLOCKS-1-1-2) / 2) * 512` -/
def maxWrite : ℕ := 1536

/-- filewrite's loop -/
def writeChunks (f : Filp) (ip : Ino) : ℕ → List UInt8 → SysM Bool
  | 0, _ => return true
  | k + 1, src => do
    if src = [] then return true
    onFs (ilock sb ip)
    let r ← onFs (onInode ip (writei sb dev (src.take maxWrite) ((← get).file f).off))
    addOff f (r.getD 0)
    onFs (iunlock ip)
    match r with
    | none => return false
    | some r =>
      if r ≠ (src.take maxWrite).length then throw (.panic "short filewrite")
      writeChunks f ip k (src.drop maxWrite)

def filewrite (f : Filp) (src : List UInt8) : SysM Bool := do
  let g := (← get).file f
  if ¬ g.writable then return false
  match g.type with
  | .pipe => return true
  | .inode => writeChunks sb dev f g.ip src.length src
  | .none => throw (.panic "filewrite")

def sysRead (i : Slot) (fd : ℤ) (n : UInt32) : SysM Bool := do
  match ← argfd i fd with
  | none => return false
  | some (_, f) => fileread sb dev f n.toNat

def sysWrite (i : Slot) (fd : ℤ) (src : List UInt8) : SysM Bool := do
  match ← argfd i fd with
  | none => return false
  | some (_, f) => filewrite sb dev f src

/-! ## open -/

/-- sys_open up to the locked inode -/
def openInode (i : Slot) (path : Fs.Path) (omode : UInt32) : SysM (Option Ino) := do
  let c ← cwd i
  if has omode O_CREATE then
    onFs (create sb dev c path T_FILE 0 0)
  else
    match ← onFs (namei sb dev c path) with
    | none => return none
    | some ip =>
      onFs (ilock sb ip)
      if ((← get).fs.inode ip).din.type = T_DIR ∧ omode ≠ 0 then
        onFs (iunlockput sb ip)
        return none
      return some ip

/-- sys_open when there is no entry or no descriptor left -/
def openBad (f : Option Filp) (ip : Ino) : SysM Bool := do
  closeSome sb f
  onFs (iunlockput sb ip)
  return false

/-- sys_open from filealloc on -/
def openFile (i : Slot) (ip : Ino) (omode : UInt32) : SysM Bool := do
  match ← filealloc with
  | none => openBad sb none ip
  | some f =>
    match ← fdalloc i f with
    | none => openBad sb (some f) ip
    | some _ =>
      onFs (iunlock ip)
      modifyFile f fun g =>
        { g with
          type := .inode, ip := ip, off := 0, readable := ¬ has omode O_WRONLY
          writable := has omode O_WRONLY ∨ has omode O_RDWR }
      return true

def sysOpen (i : Slot) (path : Option Fs.Path) (omode : UInt32) : SysM Bool := do
  match path with
  | none => return false
  | some path =>
    match ← openInode sb dev i path omode with
    | none => return false
    | some ip => openFile sb i ip omode

/-! ## pipe -/

def sysPipe (i : Slot) (argptr : Bool) : SysM Bool := do
  if ¬ argptr then return false
  match ← pipealloc sb with
  | none => return false
  | some (rf, wf) =>
    match ← fdalloc i rf with
    | none =>
      fileclose sb rf
      fileclose sb wf
      return false
    | some fd0 =>
      match ← fdalloc i wf with
      | none =>
        setOfile i fd0 none
        fileclose sb rf
        fileclose sb wf
        return false
      | some _ => return true

/-! ## Calls that only use the file system -/

def sysLink (i : Slot) (paths : Option (Fs.Path × Fs.Path)) : SysM Bool := do
  match paths with
  | none => return false
  | some (old, new) => onFs (link sb dev (← cwd i) old new)

def sysUnlink (i : Slot) (path : Option Fs.Path) : SysM Bool := do
  match path with
  | none => return false
  | some path =>
    match ← onFs (nameiparent sb dev (← cwd i) path) with
    | none => return false
    | some (dp, name) => onFs (unlink sb dev dp name)

/-- mkdir and mknod: make a file and let go of it -/
def createPut (i : Slot) (path : Fs.Path) (type major minor : ℕ) : SysM Bool := do
  match ← onFs (create sb dev (← cwd i) path type major minor) with
  | none => return false
  | some ip =>
    onFs (iunlockput sb ip)
    return true

def sysMkdir (i : Slot) (path : Option Fs.Path) : SysM Bool := do
  match path with
  | none => return false
  | some path => createPut sb dev i path T_DIR 0 0

def sysMknod (i : Slot) (args : Option (Fs.Path × UInt16 × UInt16)) : SysM Bool := do
  match args with
  | none => return false
  | some (path, major, minor) => createPut sb dev i path T_DEV major.toNat minor.toNat

def sysChdir (i : Slot) (path : Option Fs.Path) : SysM Bool := do
  match path with
  | none => return false
  | some path =>
    let c ← cwd i
    match ← onFs (namei sb dev c path) with
    | none => return false
    | some ip =>
      onFs (ilock sb ip)
      if ((← get).fs.inode ip).din.type ≠ T_DIR then
        onFs (iunlockput sb ip)
        return false
      onFs (iunlock ip)
      onFs (iput sb c)
      modifyProc i fun p => { p with cwd := some ip }
      return true

/-! ## exec -/

abbrev PGSIZE : ℕ := 4096
def ELF_MAGIC : ℕ := 0x464C457F

/-- which of the page-table functions of exec succeed: setupkvm, allocuvm for each segment, and what follows -/
structure ExecMem where
  setupkvm : Bool
  segment : ℕ → Bool
  stack : Bool

/-- a field of k bytes at off -/
def field (bs : List UInt8) (off k : ℕ) : ℕ := le ((bs.drop off).take k)

/-- loaduvm: n bytes from off on, in at most k pages -/
def loaduvm : ℕ → ℕ → ℕ → FileM Bool
  | 0, _, _ => return true
  | k + 1, off, n => do
    if n = 0 then return true
    let m := min n PGSIZE
    match ← readi sb dev off m with
    | none => return false
    | some bs => if bs.length ≠ m then return false else loaduvm k (uint32 (off + m)) (n - m)

/-- exec's loop over the program headers, k more from off on -/
def loadSegments (mem : ℕ → Bool) : ℕ → ℕ → FileM Bool
  | 0, _ => return true
  | k + 1, off => do
    match ← readi sb dev off 32 with
    | none => return false
    | some ph =>
      let vaddr := field ph 8 4
      let filesz := field ph 16 4
      let memsz := field ph 20 4
      if ph.length ≠ 32 then return false
      -- only ELF_PROG_LOAD
      if field ph 0 4 ≠ 1 then loadSegments mem k (uint32 (off + 32))
      else if memsz < filesz ∨ uint32 (vaddr + memsz) < vaddr ∨ ¬ mem k ∨ vaddr % PGSIZE ≠ 0 then return false
      else if ¬ (← loaduvm sb dev filesz (field ph 4 4) filesz) then return false
      else loadSegments mem k (uint32 (off + 32))

/-- exec while the inode is locked -/
def execLoad (mem : ExecMem) : FileM Bool := do
  match ← readi sb dev 0 52 with
  | none => return false
  | some elf =>
    if elf.length ≠ 52 ∨ field elf 0 4 ≠ ELF_MAGIC ∨ ¬ mem.setupkvm then return false
    loadSegments sb dev mem.segment (field elf 44 2) (field elf 28 4)

def exec (cwd : Ino) (path : Fs.Path) (mem : ExecMem) : FsM Bool := do
  match ← namei sb dev cwd path with
  | none => return false
  | some ip =>
    ilock sb ip
    let ok ← onInode ip (execLoad sb dev mem)
    -- on the way out and at `bad`
    iunlockput sb ip
    return ok && mem.stack

def sysExec (i : Slot) (path : Option Fs.Path) (mem : ExecMem) : SysM Bool := do
  match path with
  | none => return false
  | some path => onFs (exec sb dev (← cwd i) path mem)

/-! ## fork, exit, wait -/

/-- fork's loop over the descriptors -/
def forkFiles (i j : Slot) : List Fd → SysM Unit
  | [] => pure ()
  | fd :: fds => do
    if let some f := ((← get).proc i).ofile fd then
      filedup f
      setOfile j fd (some f)
    forkFiles i j fds

def sysFork (i : Slot) (memory : Bool) : SysM Bool := do
  let s ← get
  match (List.finRange NPROC).find? fun j => (s.proc j).life = .unused with
  | none => return false
  | some j =>
    if ¬ memory then return false
    forkFiles i j (List.finRange NOFILE)
    let c ← cwd i
    onFs (idup c)
    modifyProc j fun p => { p with life := .used, cwd := some c }
    return true

/-- exit's loop over the descriptors -/
def exitFiles (i : Slot) : List Fd → SysM Unit
  | [] => pure ()
  | fd :: fds => do
    if let some f := ((← get).proc i).ofile fd then
      fileclose sb f
      setOfile i fd none
    exitFiles i fds

def initproc : Slot := 0

def sysExit (i : Slot) : SysM Bool := do
  if i = initproc then throw (.panic "init exiting")
  exitFiles sb i (List.finRange NOFILE)
  onFs (iput sb (← cwd i))
  modifyProc i fun p => { p with life := .zombie, cwd := none }
  return true

/-- the parent of j finds it -/
def sysWait (j : Slot) : SysM Bool := do
  if ((← get).proc j).life ≠ .zombie then throw .idle
  modifyProc j fun p => { p with life := .unused }
  return true

/-! ## Runs -/

inductive Call where
  | fork (memory : Bool)
  | exit
  | open (path : Option Fs.Path) (omode : UInt32)
  | close (fd : ℤ)
  | dup (fd : ℤ)
  | pipe (argptr : Bool)
  | read (fd : ℤ) (n : UInt32)
  | write (fd : ℤ) (src : List UInt8)
  | chdir (path : Option Fs.Path)
  | link (paths : Option (Fs.Path × Fs.Path))
  | unlink (path : Option Fs.Path)
  | mkdir (path : Option Fs.Path)
  | mknod (args : Option (Fs.Path × UInt16 × UInt16))
  | exec (path : Option Fs.Path) (mem : ExecMem)

def syscall (i : Slot) : Call → SysM Bool
  | .fork memory => sysFork i memory
  | .exit => sysExit sb i
  | .open path omode => sysOpen sb dev i path omode
  | .close fd => sysClose sb i fd
  | .dup fd => sysDup i fd
  | .pipe argptr => sysPipe sb i argptr
  | .read fd n => sysRead sb dev i fd n
  | .write fd src => sysWrite sb dev i fd src
  | .chdir path => sysChdir sb dev i path
  | .link paths => sysLink sb dev i paths
  | .unlink path => sysUnlink sb dev i path
  | .mkdir path => sysMkdir sb dev i path
  | .mknod args => sysMknod sb dev i args
  | .exec path mem => sysExec sb dev i path mem

inductive Event where
  | call (i : Slot) (c : Call)
  | wait (j : Slot)
  | take
  | give (q : Page)

/-- the rest of the kernel gets a page -/
def takePage : SysM Bool := do
  match ← kalloc with
  | none => return false
  | some q =>
    modify fun s => { s with taken := q :: s.taken }
    return true

/-- the rest of the kernel gives a page back -/
def givePage (q : Page) : SysM Bool := do
  if q ∉ (← get).taken then throw .idle
  modify fun s => { s with taken := s.taken.erase q }
  kfree q
  return true

def sysStep : Event → SysM Bool
  | .call i c => do
    if ((← get).proc i).life ≠ .used then throw .idle
    syscall sb dev i c
  | .wait j => sysWait j
  | .take => takePage
  | .give q => givePage q

/-- the state after the events, if each of them completes -/
def sysRun (s : Sys) (events : List Event) : Except Halt Sys :=
  events.foldlM (fun s ev => (sysStep sb dev ev s).map Prod.snd) s

/-- userinit: the first process, in the root directory. freerange has freed every page, each one once -/
def Sys.boot (d : Disk) (npages : ℕ) : Sys where
  fs := (Icache.boot d).setInode 0 { (Icache.boot d).inode 0 with inum := ROOTINO, ref := 1 }
  file := fun _ => ⟨.none, 0, false, false, 0, 0, 0⟩
  proc := fun i => ⟨if i = initproc then .used else .unused, if i = initproc then some 0 else none, fun _ => none⟩
  pipe := fun _ => none
  freelist := (List.range npages).reverse
  taken := []
  allocs := fun _ => 0
  frees := fun _ => 0

end Xv6.Sysfile
