/-
Directories (fs.c, sysfile.c): the entries of a directory, read and written by readi and writei.

- `struct dirent`: a 2-byte inode number and a name of DIRSIZ bytes. Number 0 is an empty entry.
- A name is a sequence of bytes; only those before a NUL, and at most DIRSIZ, count.
- dirlookup, dirlink and isdirempty go through the directory entry by entry; a short read is a panic. A lookup returns
  the number that it finds; the caller gets the inode (`Fs.Icache`).
-/
import Xv6.Fs.Inode

namespace Xv6.Fs

open Bytes

abbrev DIRSIZ : ℕ := 14
/-- `sizeof(struct dirent)` -/
abbrev DESIZE : ℕ := 16

theorem DESIZE_eq : DESIZE = 16 := rfl

abbrev Name := List UInt8

/-- what strncmp and strncpy with DIRSIZ look at -/
def Name.cut (name : Name) : Name := (name.take DIRSIZ).takeWhile (· ≠ 0)

/-- `namecmp(s, t) == 0` -/
def namecmp (s t : Name) : Bool := s.cut = Name.cut t

structure Dirent where
  inum : ℕ
  name : Name
deriving DecidableEq

def direntOf (bs : List UInt8) : Dirent := ⟨le (bs.take 2), bs.drop 2⟩

def Dirent.bytes (de : Dirent) : List UInt8 := leBytes 2 de.inum ++ de.name

/-- `strncpy(de.name, name, DIRSIZ); de.inum = inum` -/
def dirent (name : Name) (inum : ℕ) : Dirent :=
  ⟨inum % 2 ^ 16, name.cut ++ List.replicate (DIRSIZ - name.cut.length) 0⟩

/-- `memset(&de, 0, sizeof(de))` -/
def emptyDirent : Dirent := ⟨0, List.replicate DIRSIZ 0⟩

variable (sb : Super) (dev : Devsw)

/-- `readi(dp, &de, off, sizeof(de)) != sizeof(de)` panics -/
def readDirent (msg : String) (off : ℕ) : FileM Dirent := do
  match ← readi sb dev off DESIZE with
  | some bs => if bs.length = DESIZE then return direntOf bs else throw msg
  | none => throw msg

/-- `writei(dp, &de, off, sizeof(de)) != sizeof(de)` panics -/
def writeDirent (msg : String) (off : ℕ) (de : Dirent) : FileM Unit := do
  if (← writei sb dev de.bytes off) ≠ some DESIZE then throw msg

/-- dirlookup's loop, for k more entries: the number and the offset of the entry -/
def findEntry (name : Name) : ℕ → ℕ → FileM (Option (ℕ × ℕ))
  | 0, _ => return none
  | k + 1, off => do
    if (← get).ip.size ≤ off then return none
    let de ← readDirent sb dev "dirlookup read" off
    if de.inum ≠ 0 ∧ namecmp name de.name then return some (de.inum, off)
    findEntry name k (off + DESIZE)

/-- how many turns a loop over the entries takes at most -/
def entryCount (size : ℕ) : ℕ := size / DESIZE + 1

/-- dirlookup up to its iget -/
def lookupEntry (name : Name) : FileM (Option (ℕ × ℕ)) := do
  let ip := (← get).ip
  if ip.type ≠ T_DIR then throw "dirlookup not DIR"
  findEntry sb dev name (entryCount ip.size) 0

/-- dirlink's loop: the offset of an empty entry, or the end -/
def emptyEntry : ℕ → ℕ → FileM ℕ
  | 0, off => return off
  | k + 1, off => do
    if (← get).ip.size ≤ off then return off
    let de ← readDirent sb dev "dirlink read" off
    if de.inum = 0 then return off
    emptyEntry k (off + DESIZE)

/-- dirlink, once the name is known to be new -/
def addEntry (name : Name) (inum : ℕ) : FileM Unit := do
  let off ← emptyEntry sb dev (entryCount (← get).ip.size) 0
  writeDirent sb dev "dirlink" off (dirent name inum)

/-- isdirempty's loop -/
def emptyFrom : ℕ → ℕ → FileM Bool
  | 0, _ => return true
  | k + 1, off => do
    if (← get).ip.size ≤ off then return true
    let de ← readDirent sb dev "isdirempty: readi" off
    if de.inum ≠ 0 then return false
    emptyFrom k (off + DESIZE)

def isdirempty : FileM Bool := do emptyFrom sb dev (entryCount (← get).ip.size) (2 * DESIZE)

end Xv6.Fs
