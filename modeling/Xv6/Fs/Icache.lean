/-
The inode cache (fs.c): iget, idup, ilock, iunlock, iput, ialloc; dirlookup and dirlink; and unlink (sysfile.c).

- `Inode`: an entry of the cache; its reference count, its sleep-lock, and the copy of the inode while valid is set.
- A step of the machine is one call of an fs.c function. A call that has to wait for a sleep-lock is no step, nor is one
  on an inode whose lock the caller would have to hold. iput is two steps: others may run between the release of the lock
  and the decrement. dirlink and unlink are steps too, and so are their parts.
- Every inode is on the root device: iget is called with ROOTDEV or with the device of an inode.
- The reference counts do not wrap around.
- The disk is what bread shows, as in `Fs.Inode`.
-/
import Xv6.Fs.Dir

namespace Xv6.Fs

abbrev NINODE : ℕ := 50

structure Inode where
  inum : ℕ
  ref : ℕ
  locked : Bool
  valid : Bool
  din : Dinode

structure Icache where
  disk : Disk
  inode : Fin NINODE → Inode

inductive Stop where
  | panic (msg : String)
  /-- the caller waits for a sleep-lock -/
  | wait
deriving DecidableEq

abbrev FsM := StateT Icache (Except Stop)

abbrev Ino := Fin NINODE

instance : NeZero NINODE := ⟨by decide⟩

/-- no inode is cached -/
def Icache.boot (d : Disk) : Icache := ⟨d, fun _ => ⟨0, 0, false, false, ⟨0, 0, 0, 0, 0, fun _ => 0⟩⟩⟩

def Icache.setInode (s : Icache) (e : Ino) (ip : Inode) : Icache := { s with inode := Function.update s.inode e ip }

def modifyInode (e : Ino) (g : Inode → Inode) : FsM Unit := modify fun s => s.setInode e (g (s.inode e))

/-- the inode of an entry next to the disk -/
def Icache.file (s : Icache) (e : Ino) : File := ⟨s.disk, (s.inode e).inum, (s.inode e).din⟩

def Icache.setFile (s : Icache) (e : Ino) (f : File) : Icache :=
  { s.setInode e { s.inode e with din := f.ip } with disk := f.disk }

/-- a function of fs.c on the inode of an entry -/
def onInode {α : Type} (e : Ino) (m : FileM α) : FsM α := do
  let s ← get
  match m (s.file e) with
  | .ok (a, f) =>
    set (s.setFile e f)
    return a
  | .error msg => throw (.panic msg)

variable (sb : Super) (dev : Devsw)

/-! ## References and locks -/

def iget (inum : ℕ) : FsM Ino := do
  let s ← get
  match (List.finRange NINODE).find? fun e => 0 < (s.inode e).ref ∧ (s.inode e).inum = inum with
  | some e =>
    modifyInode e fun ip => { ip with ref := ip.ref + 1 }
    return e
  | none =>
    match (List.finRange NINODE).find? fun e => (s.inode e).ref = 0 with
    | some e =>
      modifyInode e fun ip => { ip with inum := inum, ref := 1, valid := false }
      return e
    | none => throw (.panic "iget: no inodes")

def idup (e : Ino) : FsM Unit := modifyInode e fun ip => { ip with ref := ip.ref + 1 }

def ilock (e : Ino) : FsM Unit := do
  let s ← get
  if (s.inode e).ref < 1 then throw (.panic "ilock")
  if (s.inode e).locked then throw .wait
  if (s.inode e).valid then
    modifyInode e fun ip => { ip with locked := true }
  else
    let din := inodeOf sb s.disk (s.inode e).inum
    if din.type = 0 then throw (.panic "ilock: no type")
    modifyInode e fun ip => { ip with locked := true, valid := true, din := din }

def iunlock (e : Ino) : FsM Unit := do
  let s ← get
  if ¬ (s.inode e).locked ∨ (s.inode e).ref < 1 then throw (.panic "iunlock")
  modifyInode e fun ip => { ip with locked := false }

/-- iput up to releasesleep -/
def iputFree (e : Ino) : FsM Unit := do
  let s ← get
  if (s.inode e).locked then throw .wait
  if (s.inode e).valid ∧ (s.inode e).din.nlink = 0 ∧ (s.inode e).ref = 1 then
    onInode e (itrunc sb)
    onInode e do
      modify fun f => { f with ip := { f.ip with type := 0 } }
      iupdate sb
    modifyInode e fun ip => { ip with valid := false }

/-- `ip->ref--` -/
def iputDrop (e : Ino) : FsM Unit := modifyInode e fun ip => { ip with ref := ip.ref - 1 }

def iput (e : Ino) : FsM Unit := do
  iputFree sb e
  iputDrop e

def iunlockput (e : Ino) : FsM Unit := do
  iunlock e
  iput sb e

/-- ialloc's loop -/
def freeInode (d : Disk) : Option ℕ :=
  (List.range sb.ninodes).find? fun inum => 1 ≤ inum ∧ (inodeOf sb d inum).type = 0

def ialloc (type : ℕ) : FsM Ino := do
  match freeInode sb (← get).disk with
  | some inum =>
    modify fun s => { s with disk := setInode sb s.disk inum ⟨type, 0, 0, 0, 0, fun _ => 0⟩ }
    iget inum
  | none => throw (.panic "ialloc: no inodes")

/-- changes of major, minor and nlink with the iupdate that follows them -/
def updateFields (e : Ino) (major minor nlink : ℕ) : FsM Unit := onInode e do
  modify fun f => { f with ip := { f.ip with major := major, minor := minor, nlink := nlink } }
  iupdate sb

/-! ## Directories -/

def dirlookup (dp : Ino) (name : Name) : FsM (Option (Ino × ℕ)) := do
  match ← onInode dp (lookupEntry sb dev name) with
  | some (inum, off) => return some (← iget inum, off)
  | none => return none

/-- false stands for -1 -/
def dirlink (dp : Ino) (name : Name) (inum : ℕ) : FsM Bool := do
  match ← dirlookup sb dev dp name with
  | some (ip, _) =>
    iput sb ip
    return false
  | none =>
    onInode dp (addEntry sb dev name inum)
    return true

/-! ## unlink -/

/-- `nlink < 1`, as a short -/
def noLinks (nlink : ℕ) : Prop := nlink = 0 ∨ 2 ^ 15 ≤ nlink

instance (nlink : ℕ) : Decidable (noLinks nlink) := inferInstanceAs (Decidable (_ ∨ _))

/-- `ip->nlink--; iupdate(ip)` -/
def dropLink (e : Ino) : FsM Unit := do
  let din := ((← get).inode e).din
  updateFields sb e din.major din.minor ((din.nlink + (2 ^ 16 - 1)) % 2 ^ 16)

def dot : Name := [46]
def dotdot : Name := [46, 46]

/-- sys_unlink, from the parent directory that nameiparent returns -/
def unlink (dp : Ino) (name : Name) : FsM Bool := do
  ilock sb dp
  if namecmp name dot ∨ namecmp name dotdot then
    iunlockput sb dp
    return false
  match ← dirlookup sb dev dp name with
  | none =>
    iunlockput sb dp
    return false
  | some (ip, off) =>
    ilock sb ip
    let din := ((← get).inode ip).din
    if noLinks din.nlink then throw (.panic "unlink: nlink < 1")
    let empty ← if din.type = T_DIR then onInode ip (isdirempty sb dev) else pure true
    if ¬ empty then
      iunlockput sb ip
      iunlockput sb dp
      return false
    onInode dp (writeDirent sb dev "unlink: writei" off emptyDirent)
    if din.type = T_DIR then dropLink sb dp
    iunlockput sb dp
    dropLink sb ip
    iunlockput sb ip
    return true

/-! ## The machine -/

/-- the caller holds the lock -/
def holding (e : Ino) : FsM Unit := do
  if ¬ ((← get).inode e).locked then throw .wait

inductive FsOp where
  /-- namex's `iget(ROOTDEV, ROOTINO)` -/
  | root
  | idup (e : Ino)
  | ilock (e : Ino)
  | iunlock (e : Ino)
  | iputFree (e : Ino)
  | iputDrop (e : Ino)
  | ialloc (type : UInt16)
  | readi (e : Ino) (off n : UInt32)
  | writei (e : Ino) (src : List UInt8) (off : UInt32)
  | itrunc (e : Ino)
  | updateFields (e : Ino) (major minor nlink : UInt16)
  | dirlookup (dp : Ino) (name : Name)
  | addEntry (dp : Ino) (name : Name) (ip : Ino)
  | clearEntry (dp : Ino) (name : Name)
  | dirlink (dp : Ino) (name : Name) (ip : Ino)
  | unlink (dp : Ino) (name : Name)

/-- one call -/
def fsCall : FsOp → FsM Unit
  | .root => do _ ← iget ROOTINO
  | .idup e => do
    -- the caller has a reference
    if ((← get).inode e).ref = 0 then throw .wait
    idup e
  | .ilock e => ilock sb e
  | .iunlock e => iunlock e
  | .iputFree e => iputFree sb e
  | .iputDrop e => do
    -- the caller has a reference, and so has the holder of the lock
    let ip := (← get).inode e
    if ip.ref = 0 ∨ ip.locked ∧ ip.ref = 1 then throw .wait
    iputDrop e
  | .ialloc type => do _ ← ialloc sb type.toNat
  | .readi e off n => do
    holding e
    _ ← onInode e (readi sb dev off.toNat n.toNat)
  | .writei e src off => do
    holding e
    -- sys_open does not open a directory for writing
    if ((← get).inode e).din.type = T_DIR then throw .wait
    _ ← onInode e (writei sb dev src off.toNat)
  | .itrunc e => do
    holding e
    onInode e (itrunc sb)
  | .updateFields e major minor nlink => do
    holding e
    updateFields sb e major.toNat minor.toNat nlink.toNat
  | .dirlookup dp name => do
    holding dp
    _ ← dirlookup sb dev dp name
  | .addEntry dp name ip => do
    holding dp
    let s ← get
    if (s.inode dp).din.type ≠ T_DIR ∨ (s.inode ip).ref = 0 then throw .wait
    onInode dp (addEntry sb dev name (s.inode ip).inum)
  | .clearEntry dp name => do
    holding dp
    match ← onInode dp (lookupEntry sb dev name) with
    | some (_, off) => onInode dp (writeDirent sb dev "unlink: writei" off emptyDirent)
    | none => throw .wait
  | .dirlink dp name ip => do
    holding dp
    let s ← get
    if (s.inode ip).ref = 0 then throw .wait
    _ ← dirlink sb dev dp name (s.inode ip).inum
  | .unlink dp name => do _ ← unlink sb dev dp name

/-- a call that has to wait is no step -/
def fsStep (s : Icache) (op : FsOp) : Except String Icache :=
  match fsCall sb dev op s with
  | .ok (_, s') => .ok s'
  | .error .wait => .ok s
  | .error (.panic msg) => .error msg

def fsRun (s : Icache) (ops : List FsOp) : Except String Icache := ops.foldlM (fsStep sb dev) s

end Xv6.Fs
