/-
The file table (file.c), the descriptor tables of the processes and the pages of the pipes (pipe.c, kalloc.c).

- `Sys`: the inode cache and the disk, `ftable`, the cwd and the ofile table of each process, the pipes that are alive,
  and the free list of kalloc. A pipe is known by its page.
- Of a pipe only readopen and writeopen are here; its data is in `Sync.Pipe`.
- `taken`: pages that the rest of the kernel got from kalloc.
- `allocs`, `frees`: how often pipealloc got a page and pipeclose gave it back. No function reads them.
- A panic of fs.c and a wait for an inode lock are `Halt.fs`. A pointer that does not point to what it should is
  `Halt.wild`.
-/
import Xv6.Fs.Path
import Xv6.Proc.Basic

namespace Xv6.Sysfile

open Fs Function

abbrev NFILE : ℕ := 100
abbrev NOFILE : ℕ := 16

abbrev Filp := Fin NFILE
abbrev Fd := Fin NOFILE
abbrev Page := ℕ

inductive FdType where
  | none
  | pipe
  | inode
deriving DecidableEq

/-- `struct file` -/
structure OpenFile where
  type : FdType
  ref : ℕ
  readable : Bool
  writable : Bool
  pipe : Page
  ip : Ino
  off : ℕ
deriving DecidableEq

structure Ends where
  readopen : Bool
  writeopen : Bool
deriving DecidableEq

inductive Life where
  | unused
  | used
  | zombie
deriving DecidableEq

structure Process where
  life : Life
  cwd : Option Ino
  ofile : Fd → Option Filp

structure Sys where
  fs : Icache
  file : Filp → OpenFile
  proc : Slot → Process
  pipe : Page → Option Ends
  freelist : List Page
  taken : List Page
  allocs : Page → ℕ
  frees : Page → ℕ

inductive Halt where
  | fs (stop : Stop)
  | panic (msg : String)
  | wild
  /-- the process is not there to make a call -/
  | idle
deriving DecidableEq

abbrev SysM := StateT Sys (Except Halt)

/-- a function of fs.c -/
def onFs {α : Type} (m : FsM α) : SysM α := do
  let s ← get
  match m s.fs with
  | .ok (a, fs) =>
    set { s with fs := fs }
    return a
  | .error stop => throw (.fs stop)

def modifyFile (f : Filp) (g : OpenFile → OpenFile) : SysM Unit :=
  modify fun s => { s with file := update s.file f (g (s.file f)) }

def modifyProc (i : Slot) (g : Process → Process) : SysM Unit :=
  modify fun s => { s with proc := update s.proc i (g (s.proc i)) }

def setOfile (i : Slot) (fd : Fd) (f : Option Filp) : SysM Unit :=
  modifyProc i fun p => { p with ofile := update p.ofile fd f }

/-! ## Pages -/

def kalloc : SysM (Option Page) := do
  match (← get).freelist with
  | [] => return none
  | q :: rest =>
    modify fun s => { s with freelist := rest }
    return some q

def kfree (q : Page) : SysM Unit := modify fun s => { s with freelist := q :: s.freelist }

/-! ## file.c -/

def filealloc : SysM (Option Filp) := do
  let s ← get
  match (List.finRange NFILE).find? fun f => (s.file f).ref = 0 with
  | some f =>
    modifyFile f fun g => { g with ref := 1 }
    return some f
  | none => return none

def filedup (f : Filp) : SysM Unit := do
  if ((← get).file f).ref < 1 then throw (.panic "filedup")
  modifyFile f fun g => { g with ref := g.ref + 1 }

def Ends.close (p : Ends) (writable : Bool) : Ends :=
  if writable then { p with writeopen := false } else { p with readopen := false }

def pipeclose (q : Page) (writable : Bool) : SysM Unit := do
  match (← get).pipe q with
  | none => throw .wild
  | some p =>
    let p := p.close writable
    if ¬ p.readopen ∧ ¬ p.writeopen then
      modify fun s => { s with pipe := update s.pipe q none, frees := update s.frees q (s.frees q + 1) }
      kfree q
    else
      modify fun s => { s with pipe := update s.pipe q (some p) }

variable (sb : Super)

/-- fileclose after `--f->ref` gave 0; ff is what the entry was -/
def closeLast (ff : OpenFile) : SysM Unit := do
  match ff.type with
  | .pipe => pipeclose ff.pipe ff.writable
  | .inode => onFs (iput sb ff.ip)
  | .none => pure ()

def fileclose (f : Filp) : SysM Unit := do
  let ff := (← get).file f
  if ff.ref < 1 then throw (.panic "fileclose")
  if 0 < ff.ref - 1 then
    modifyFile f fun g => { g with ref := g.ref - 1 }
  else
    modifyFile f fun g => { g with ref := 0, type := .none }
    closeLast sb ff

/-- `if(f) fileclose(f)` -/
def closeSome (f : Option Filp) : SysM Unit :=
  match f with
  | some f => fileclose sb f
  | none => pure ()

/-! ## pipealloc -/

/-- pipealloc's failure: no page has been allocated yet -/
def pipeBad (f0 f1 : Option Filp) : SysM (Option (Filp × Filp)) := do
  closeSome sb f0
  closeSome sb f1
  return none

/-- what pipealloc stores -/
def pipeInit (q : Page) (f0 f1 : Filp) : SysM Unit := do
  modify fun s =>
    { s with pipe := update s.pipe q (some ⟨true, true⟩), allocs := update s.allocs q (s.allocs q + 1) }
  modifyFile f0 fun g => { g with type := .pipe, readable := true, writable := false, pipe := q }
  modifyFile f1 fun g => { g with type := .pipe, readable := false, writable := true, pipe := q }

def pipealloc : SysM (Option (Filp × Filp)) := do
  match ← filealloc with
  | none => pipeBad sb none none
  | some f0 =>
    match ← filealloc with
    | none => pipeBad sb (some f0) none
    | some f1 =>
      match ← kalloc with
      | none => pipeBad sb (some f0) (some f1)
      | some q =>
        pipeInit q f0 f1
        return some (f0, f1)

/-! ## Descriptors -/

/-- `myproc()->cwd` -/
def cwd (i : Slot) : SysM Ino := do
  match ((← get).proc i).cwd with
  | some e => return e
  | none => throw .wild

def argfd (i : Slot) (fd : ℤ) : SysM (Option (Fd × Filp)) := do
  if h : 0 ≤ fd ∧ fd.toNat < NOFILE then
    return (((← get).proc i).ofile ⟨fd.toNat, h.2⟩).map fun f => (⟨fd.toNat, h.2⟩, f)
  else return none

def fdalloc (i : Slot) (f : Filp) : SysM (Option Fd) := do
  let p := (← get).proc i
  match (List.finRange NOFILE).find? fun fd => p.ofile fd = none with
  | some fd =>
    setOfile i fd (some f)
    return some fd
  | none => return none

end Xv6.Sysfile
