/-
The buffer cache (bio.c) over the disk (memide.c), used by any number of processes and by the log.

- A bread is two steps: bget's critical section on bcache.lock, then acquiresleep with the read that may follow it. So is a
  brelse: releasesleep, then its critical section. In between (`Call`) the process does nothing else.
- The disk reads and writes of a process that holds a buffer's lock are one step each.
- `LogSys`, the log protocol, is a part of the state: a process changes a buffer in place only in an operation and hands it
  to log_write before it releases it or ends the operation. Commit alone uses bwrite: each of its stages is a script of
  `LogAct`s, and other processes can read in between.
- `touched`: the buffers that were changed in place and neither logged nor written yet. `given`: the contents that operations
  have given to blocks, in order. The code does not read them.
- The disk has one device, number 1. Buffers start out with device number 0.
-/
import Xv6.Fs.Log
import Xv6.Fs.Group

namespace Xv6.Fs

open Writes Function

/-! ## The state -/

/-- `struct buf`; lock is the process that holds it -/
structure Buffer where
  dev : ℕ
  blockno : ℕ
  valid : Bool
  dirty : Bool
  refcnt : ℕ
  lock : Option ℕ
  data : Block

inductive Call where
  | idle
  /-- in bread of x, about to take the lock of buffer i -/
  | waits (i : Fin NBUF) (x : ℕ)
  /-- in brelse, about to give up buffer i -/
  | leaves (i : Fin NBUF)
  | panicked (msg : String)
deriving DecidableEq

/-- what the log code does with the blocks of the disk -/
inductive LogAct where
  | bread (x : ℕ)
  /-- memmove from the buffer of src to the buffer of dst -/
  | copy (src dst : ℕ)
  /-- the stores of write_head -/
  | head (lh : List ℕ)
  | bwrite (x : ℕ)
  | brelse (x : ℕ)

structure CacheSys where
  log : LogSys
  /-- log.start -/
  start : ℕ
  disksize : ℕ
  buf : Fin NBUF → Buffer
  /-- the list through next, from head.next on -/
  order : List (Fin NBUF)
  disk : Disk
  call : ℕ → Call
  /-- what is left of the stage of commit -/
  script : ℕ → List LogAct
  touched : Fin NBUF → Bool
  given : List (ℕ × Block)

/-- after binit, and with an empty log of size blocks -/
def CacheSys.boot (start : ℕ) (size : Int) (disksize : ℕ) (d : Disk) : CacheSys where
  log := LogSys.boot size
  start := start
  disksize := disksize
  buf := fun _ => ⟨0, 0, false, false, 0, none, fun _ => 0⟩
  order := (List.finRange NBUF).reverse
  disk := d
  call := fun _ => .idle
  script := fun _ => []
  touched := fun _ => false
  given := []

def CacheSys.modBuf (s : CacheSys) (i : Fin NBUF) (f : Buffer → Buffer) : CacheSys :=
  { s with buf := update s.buf i (f (s.buf i)) }

def CacheSys.setCall (s : CacheSys) (p : ℕ) (c : Call) : CacheSys := { s with call := update s.call p c }

/-- p goes on with the result of a call, or stays in its panic -/
def CacheSys.orPanic (s : CacheSys) (p : ℕ) : Except String CacheSys → CacheSys
  | .ok s' => s'
  | .error m => s.setCall p (.panicked m)

/-! ## memide.c -/

def CacheSys.iderw (s : CacheSys) (p : ℕ) (i : Fin NBUF) : Except String CacheSys :=
  if (s.buf i).lock ≠ some p then .error "iderw: buf not locked"
  else if (s.buf i).valid ∧ ¬ (s.buf i).dirty then .error "iderw: nothing to do"
  else if (s.buf i).dev ≠ 1 then .error "iderw: request not for disk 1"
  else if s.disksize ≤ (s.buf i).blockno then .error "iderw: block out of range"
  else if (s.buf i).dirty then
    .ok { s.modBuf i ({ · with dirty := false, valid := true }) with
      disk := update s.disk (s.buf i).blockno (s.buf i).data
      touched := update s.touched i false }
  else .ok (s.modBuf i ({ · with data := s.disk (s.buf i).blockno, valid := true }))

/-! ## bio.c -/

/-- bget's first loop -/
def CacheSys.cached (s : CacheSys) (x : ℕ) : Option (Fin NBUF) :=
  s.order.find? fun i => (s.buf i).dev = 1 ∧ (s.buf i).blockno = x

/-- bget's second loop -/
def CacheSys.unused (s : CacheSys) : Option (Fin NBUF) :=
  s.order.reverse.find? fun i => (s.buf i).refcnt = 0 ∧ ¬ (s.buf i).dirty

/-- bget's critical section -/
def CacheSys.bget (s : CacheSys) (p x : ℕ) : CacheSys :=
  match s.cached x with
  | some i => (s.modBuf i fun b => { b with refcnt := b.refcnt + 1 }).setCall p (.waits i x)
  | none =>
    match s.unused with
    | some i =>
      (s.modBuf i ({ · with dev := 1, blockno := x, valid := false, dirty := false, refcnt := 1 })).setCall p (.waits i x)
    | none => s.setCall p (.panicked "bget: no buffers")

/-- the rest of bread, once acquiresleep gets the lock -/
def CacheSys.breadLocked (s : CacheSys) (p : ℕ) (i : Fin NBUF) : CacheSys :=
  if (s.buf i).lock = none then
    let s := (s.modBuf i ({ · with lock := some p })).setCall p .idle
    if (s.buf i).valid then s else s.orPanic p (s.iderw p i)
  else s

def CacheSys.bwrite (s : CacheSys) (p : ℕ) (i : Fin NBUF) : CacheSys :=
  if (s.buf i).lock ≠ some p then s.setCall p (.panicked "bwrite")
  else
    let s := s.modBuf i ({ · with dirty := true })
    s.orPanic p (s.iderw p i)

/-- brelse up to releasesleep -/
def CacheSys.brelse (s : CacheSys) (p : ℕ) (i : Fin NBUF) : CacheSys :=
  if (s.buf i).lock ≠ some p then s.setCall p (.panicked "brelse")
  else (s.modBuf i ({ · with lock := none })).setCall p (.leaves i)

/-- brelse's critical section -/
def CacheSys.drop (s : CacheSys) (p : ℕ) (i : Fin NBUF) : CacheSys :=
  let s := (s.modBuf i fun b => { b with refcnt := b.refcnt - 1 }).setCall p .idle
  if (s.buf i).refcnt = 0 then { s with order := i :: s.order.erase i } else s

/-! ## The log code -/

/-- write_log -/
def writeLogActs (start : ℕ) : List ℕ → ℕ → List LogAct
  | [], _ => []
  | b :: lh, tail => [.bread (start + tail + 1), .bread b, .copy b (start + tail + 1), .bwrite (start + tail + 1),
      .brelse b, .brelse (start + tail + 1)] ++ writeLogActs start lh (tail + 1)

/-- install_trans -/
def installActs (start : ℕ) : List ℕ → ℕ → List LogAct
  | [], _ => []
  | b :: lh, tail => [.bread (start + tail + 1), .bread b, .copy (start + tail + 1) b, .bwrite b,
      .brelse (start + tail + 1), .brelse b] ++ installActs start lh (tail + 1)

/-- write_head -/
def writeHeadActs (start : ℕ) (lh : List ℕ) : List LogAct := [.bread start, .head lh, .bwrite start, .brelse start]

def stageActs (start : ℕ) (lh : List ℕ) : Stage → List LogAct
  | .writeLog => writeLogActs start lh 0
  | .writeHead | .eraseHead => writeHeadActs start lh
  | .installTrans => installActs start lh 0
  | .test | .clear | .finish => []

/-- the buffer of block x, if p has its lock -/
def CacheSys.held (s : CacheSys) (p x : ℕ) : Option (Fin NBUF) :=
  (s.cached x).filter fun i => (s.buf i).lock = some p

/-- a change of buffer i in place -/
def CacheSys.store (s : CacheSys) (i : Fin NBUF) (data : Block) : CacheSys :=
  { s.modBuf i ({ · with data := data }) with touched := update s.touched i true }

def CacheSys.act (s : CacheSys) (p : ℕ) : LogAct → Option CacheSys
  | .bread x => some (s.bget p x)
  | .copy src dst => do
    let i ← s.held p src
    let j ← s.held p dst
    return s.store j (s.buf i).data
  | .head lh => do
    let i ← s.held p s.start
    return s.store i (putHead (s.buf i).data lh)
  | .bwrite x => do
    let i ← s.held p x
    return s.bwrite p i
  | .brelse x => do
    let i ← s.held p x
    return s.brelse p i

/-! ## Steps -/

inductive CacheOp where
  /-- a bread begins -/
  | bread (p x : ℕ)
  /-- it gets the buffer's lock -/
  | lock (p : ℕ)
  | brelse (p : ℕ) (i : Fin NBUF)
  /-- a brelse ends -/
  | drop (p : ℕ)
  | modify (p : ℕ) (i : Fin NBUF) (data : Block)
  | logWrite (p : ℕ) (i : Fin NBUF)
  | logAppend (p : ℕ) (i : Fin NBUF)
  | beginOp (p : ℕ)
  | wake (p : ℕ)
  | endOp (p : ℕ)
  | commit (p : ℕ)

/-- p is in user code or in an operation, and in no call of bio.c or log.c -/
def CacheSys.free (s : CacheSys) (p : ℕ) : Bool :=
  s.call p = .idle && match s.log.phase p with
    | .idle | .inOp _ => true
    | _ => false

def CacheSys.logged (s : CacheSys) (op : LogOp) : CacheSys := { s with log := logStep s.log op }

/-- the script of the stage that p is at -/
def CacheSys.acts (s : CacheSys) (p : ℕ) : List LogAct :=
  match s.log.phase p with
  | .committing st => stageActs s.start s.log.lh st
  | _ => []

/-- p goes on with commit: with the rest of its stage, or to the next one -/
def CacheSys.commit (s : CacheSys) (p : ℕ) : CacheSys :=
  match s.script p with
  | [] =>
    let s := s.logged (.commit p)
    { s with script := update s.script p (s.acts p) }
  | a :: rest =>
    match s.act p a with
    | some s' => { s' with script := update s'.script p rest }
    | none => s

/-- block x may be logged: it lies outside the log area -/
def CacheSys.home (s : CacheSys) (x : ℕ) : Prop := x < s.start ∨ s.start + s.log.size ≤ x

instance (s : CacheSys) (x : ℕ) : Decidable (s.home x) := inferInstanceAs (Decidable (_ ∨ _))

def cacheStep (s : CacheSys) : CacheOp → CacheSys
  | .bread p x => if s.free p then s.bget p x else s
  | .lock p =>
    match s.call p with
    | .waits i _ => s.breadLocked p i
    | _ => s
  | .brelse p i => if s.free p ∧ s.touched i = false then s.brelse p i else s
  | .drop p =>
    match s.call p with
    | .leaves i => s.drop p i
    | _ => s
  | .modify p i data =>
    if s.free p ∧ s.log.phase p ≠ .idle ∧ (s.buf i).lock = some p ∧ s.home (s.buf i).blockno then
      { s.store i data with given := s.given ++ [((s.buf i).blockno, data)] }
    else s
  | .logWrite p i =>
    if s.free p ∧ (s.buf i).lock = some p ∧ s.home (s.buf i).blockno then s.logged (.logWrite p (s.buf i).blockno) else s
  | .logAppend p i =>
    match s.log.phase p with
    | .logging _ b =>
      if (s.buf i).lock = some p ∧ (s.buf i).blockno = b then
        { (s.logged (.logAppend p)).modBuf i ({ · with dirty := true }) with touched := update s.touched i false }
      else s
    | _ => s
  | .beginOp p => if s.call p = .idle then s.logged (.beginOp p) else s
  | .wake p => s.logged (.wake p)
  | .endOp p => if s.free p ∧ ∀ i, (s.buf i).lock = some p → s.touched i = false then s.logged (.endOp p) else s
  | .commit p =>
    match s.log.phase p with
    | .committing _ => if s.call p = .idle then s.commit p else s
    | _ => s

def cacheRun (s : CacheSys) (ops : List CacheOp) : CacheSys := ops.foldl cacheStep s

end Xv6.Fs
