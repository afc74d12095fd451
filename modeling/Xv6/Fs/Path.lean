/-
Paths (fs.c) and the calls that make and link files (sysfile.c): skipelem, namex, create, link.

- A path is the bytes before its NUL. skipelem takes one element off, cut to DIRSIZ bytes; `elems` are the elements that
  namex's loop goes through.
- namex starts at the root or at the directory of the process, with one reference to it, and returns an inode with one
  reference.
- create and link are what sysfile.c does between begin_op and end_op. The results -1 and 0 are false and true.

`elems_eq`: the elements are those that skipelem takes off one after the other.
-/
import Mathlib.Data.List.TakeWhile
import Xv6.Fs.Icache

namespace Xv6.Fs

open List

abbrev Path := List UInt8

/-! ## Elements -/

def slash : UInt8 := 47

/-- the element, at most DIRSIZ bytes of it, and the path after it -/
def skipelem (path : Path) : Option (Name × Path) :=
  let s := path.dropWhile (· = slash)
  if s = [] then none
  else some ((s.takeWhile (· ≠ slash)).take DIRSIZ, (s.dropWhile (· ≠ slash)).dropWhile (· = slash))

/-- the elements that skipelem takes off in at most k turns -/
def elemsUpTo : ℕ → Path → List Name
  | 0, _ => []
  | k + 1, path =>
    match skipelem path with
    | some (name, rest) => name :: elemsUpTo k rest
    | none => []

def elems (path : Path) : List Name := elemsUpTo path.length path

variable {path rest : Path} {name : Name} {k k' : ℕ}

theorem skipelem_shorter (h : skipelem path = some (name, rest)) : rest.length < path.length := by
  rw [skipelem] at h
  split_ifs at h with hs
  simp only [Option.some.injEq, Prod.mk.injEq] at h
  obtain ⟨-, rfl⟩ := h
  have hle : (path.dropWhile (· = slash)).length ≤ path.length := length_dropWhile_le ..
  cases hd : path.dropWhile (· = slash) with
  | nil => exact absurd hd hs
  | cons c cs =>
    have hc : c ≠ slash := by
      have := head_dropWhile_not (· = slash) hs
      simpa [hd] using this
    rw [hd, length_cons] at hle
    rw [dropWhile_cons_of_pos (by simpa using hc)]
    have h1 : (cs.dropWhile (· ≠ slash)).length ≤ cs.length := length_dropWhile_le ..
    have h2 : ((cs.dropWhile (· ≠ slash)).dropWhile (· = slash)).length ≤ (cs.dropWhile (· ≠ slash)).length :=
      length_dropWhile_le ..
    omega

/-- more turns than bytes change nothing -/
theorem elemsUpTo_enough (h : path.length ≤ k) (h' : path.length ≤ k') : elemsUpTo k path = elemsUpTo k' path := by
  induction k generalizing path k' with
  | zero =>
    have hpath : path = [] := length_eq_zero_iff.1 (Nat.le_zero.1 h)
    subst hpath
    cases k' <;> rfl
  | succ k ih =>
    cases k' with
    | zero =>
      have hpath : path = [] := length_eq_zero_iff.1 (Nat.le_zero.1 h')
      subst hpath
      rfl
    | succ k' =>
      simp only [elemsUpTo]
      cases hskip : skipelem path with
      | none => rfl
      | some p =>
        have hlt : p.2.length < path.length := skipelem_shorter hskip
        have hrest : elemsUpTo k p.2 = elemsUpTo k' p.2 := ih (by omega) (by omega)
        simp only [hrest]

/-- **The elements are those that skipelem takes off.** -/
theorem elems_eq (path : Path) :
    elems path = match skipelem path with
      | some (name, rest) => name :: elems rest
      | none => [] := by
  cases hskip : skipelem path with
  | none =>
    rw [elems]
    cases path.length with
    | zero => rfl
    | succ k => simp only [elemsUpTo, hskip]
  | some p =>
    have hlt : p.2.length < path.length := skipelem_shorter hskip
    have hmore : elemsUpTo path.length path = elemsUpTo (path.length + 1) path := elemsUpTo_enough le_rfl (by omega)
    have hrest : elemsUpTo path.length p.2 = elemsUpTo p.2.length p.2 := elemsUpTo_enough (by omega) le_rfl
    rw [elems, hmore]
    simp only [elemsUpTo, hskip, elems, hrest]

example : elems [47, 97, 47, 47, 98, 98] = [[97], [98, 98]] := by decide

/-! ## Path lookup -/

variable (sb : Super) (dev : Devsw)

/-- namex's loop -/
def namexLoop (parent : Bool) : Ino → List Name → FsM (Option (Ino × Name))
  | ip, [] => do
    if parent then
      iput sb ip
      return none
    return some (ip, [])
  | ip, name :: rest => do
    ilock sb ip
    if ((← get).inode ip).din.type ≠ T_DIR then
      iunlockput sb ip
      return none
    -- stop one level early
    if parent ∧ rest = [] then
      iunlock ip
      return some (ip, name)
    match ← dirlookup sb dev ip name with
    | none =>
      iunlockput sb ip
      return none
    | some (next, _) =>
      iunlockput sb ip
      namexLoop parent next rest

/-- where a lookup starts -/
def namexStart (cwd : Ino) (path : Path) : FsM Ino := do
  if path.head? = some slash then
    iget ROOTINO
  else
    idup cwd
    return cwd

def namex (cwd : Ino) (path : Path) (parent : Bool) : FsM (Option (Ino × Name)) := do
  let ip ← namexStart cwd path
  namexLoop sb dev parent ip (elems path)

def namei (cwd : Ino) (path : Path) : FsM (Option Ino) := do
  return (← namex sb dev cwd path false).map Prod.fst

def nameiparent (cwd : Ino) (path : Path) : FsM (Option (Ino × Name)) := namex sb dev cwd path true

/-! ## create -/

/-- `ip->nlink++; iupdate(ip)` -/
def addLink (e : Ino) : FsM Unit := do
  let din := ((← get).inode e).din
  updateFields sb e din.major din.minor ((din.nlink + 1) % 2 ^ 16)

/-- create's entries in a new directory -/
def createDots (dp ip : Ino) : FsM Unit := do
  addLink sb dp
  let s ← get
  if ¬ (← dirlink sb dev ip dot (s.inode ip).inum) then throw (.panic "create dots")
  if ¬ (← dirlink sb dev ip dotdot (s.inode dp).inum) then throw (.panic "create dots")

/-- create, once the name is known to be new -/
def createNew (dp : Ino) (name : Name) (type major minor : ℕ) : FsM Ino := do
  let ip ← ialloc sb type
  ilock sb ip
  updateFields sb ip major minor 1
  if type = T_DIR then createDots sb dev dp ip
  if ¬ (← dirlink sb dev dp name ((← get).inode ip).inum) then throw (.panic "create: dirlink")
  iunlockput sb dp
  return ip

/-- the inode is locked -/
def create (cwd : Ino) (path : Path) (type major minor : ℕ) : FsM (Option Ino) := do
  match ← nameiparent sb dev cwd path with
  | none => return none
  | some (dp, name) =>
    ilock sb dp
    match ← dirlookup sb dev dp name with
    | some (ip, _) =>
      iunlockput sb dp
      ilock sb ip
      if type = T_FILE ∧ ((← get).inode ip).din.type = T_FILE then return some ip
      iunlockput sb ip
      return none
    | none => return some (← createNew sb dev dp name type major minor)

/-! ## link -/

/-- link's end when it fails -/
def linkBad (ip : Ino) : FsM Bool := do
  ilock sb ip
  dropLink sb ip
  iunlockput sb ip
  return false

def link (cwd : Ino) (old new : Path) : FsM Bool := do
  match ← namei sb dev cwd old with
  | none => return false
  | some ip =>
    ilock sb ip
    if ((← get).inode ip).din.type = T_DIR then
      iunlockput sb ip
      return false
    addLink sb ip
    iunlock ip
    match ← nameiparent sb dev cwd new with
    | none => linkBad sb ip
    | some (dp, name) =>
      ilock sb dp
      -- every inode is on the same device
      if ¬ (← dirlink sb dev dp name ((← get).inode ip).inum) then
        iunlockput sb dp
        linkBad sb ip
      else
        iunlockput sb dp
        iput sb ip
        return true

end Xv6.Fs
