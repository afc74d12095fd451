/-
exec (exec.c) on a regular file.

- `Proghdr`, `readPh`: a program header, and reading one from the file (elf.h).
- `loadSegs`: the loop over the program headers; none is `goto bad`.
- `load`: the program in memory, with its guard page and its stack.
- `pushStrings`, `pushArgs`: the argument strings and the frame of main on the stack.
- `exec`: everything. The file is given by its bytes; that namei finds none is `none`. The inode lock and the log are not
  modelled here.
- `segByte`: the byte that the segments of a file put at an address.
-/
import Xv6.Vm.Copy

namespace Xv6.Vm

open Bytes

abbrev MAXARG : ℕ := 32
abbrev ELF_MAGIC : ℕ := 0x464C457F
abbrev ELF_PROG_LOAD : ℕ := 1

/-! ## The file -/

/-- a field of k bytes at off -/
def field (bs : List UInt8) (off k : ℕ) : ℕ := le ((bs.drop off).take k)

structure Proghdr where
  type : ℕ
  off : ℕ
  vaddr : ℕ
  filesz : ℕ
  memsz : ℕ
deriving DecidableEq, Repr

/-- the program header at off; none if it cannot be read -/
def readPh (c : List UInt8) (off : ℕ) : Option Proghdr :=
  match readi c off 32 with
  | none => none
  | some bs => if bs.length ≠ 32 then none else some ⟨field bs 0 4, field bs 4 4, field bs 8 4, field bs 16 4, field bs 20 4⟩

def loadSegs (L : Link) (c : List UInt8) (pgdir : ℕ) : ℕ → ℕ → ℕ → M (Option ℕ)
  | 0, _, sz => return some sz
  | k + 1, off, sz => do
    match readPh c off with
    | none => return none
    | some ph =>
      if ph.type ≠ ELF_PROG_LOAD then loadSegs L c pgdir k (uint32 (off + 32)) sz
      else if ph.memsz < ph.filesz then return none
      else if uint32 (ph.vaddr + ph.memsz) < ph.vaddr then return none
      else
        let sz ← allocuvm L pgdir sz (uint32 (ph.vaddr + ph.memsz))
        if sz = 0 then return none
        else if ph.vaddr % PGSIZE ≠ 0 then return none
        else if ← loaduvm c pgdir ph.vaddr ph.off ph.filesz then loadSegs L c pgdir k (uint32 (off + 32)) sz
        else return none

/-- the program, from the headers on, the inaccessible page and the stack: the new size -/
def load (L : Link) (c elf : List UInt8) (pgdir : ℕ) : M (Option ℕ) := do
  match ← loadSegs L c pgdir (field elf 44 2) (field elf 28 4) 0 with
  | none => return none
  | some sz =>
    let sz ← allocuvm L pgdir (PGROUNDUP sz) (uint32 (PGROUNDUP sz + 2 * PGSIZE))
    if sz = 0 then return none
    else
      clearpteu pgdir (uint32 (sz + (2 ^ 32 - 2 * PGSIZE)))
      return some sz

/-! ## The arguments -/

/-- `(sp - n) & ~3` -/
def down (sp n : ℕ) : ℕ := uint32 (sp + (2 ^ 32 - uint32 n)) / 4 * 4

/-- the strings, with argc of them pushed already at the addresses ptrs -/
def pushStrings (pgdir : ℕ) : List (List UInt8) → ℕ → ℕ → List ℕ → M (Option (ℕ × List ℕ))
  | [], _, sp, ptrs => return some (sp, ptrs)
  | s :: argv, argc, sp, ptrs => do
    if MAXARG ≤ argc then return none
    else if ← copyout pgdir (down sp (s.length + 1)) (s ++ [0]) then
      pushStrings pgdir argv (argc + 1) (down sp (s.length + 1)) (ptrs ++ [down sp (s.length + 1)])
    else return none

/-- `ustack` -/
def ustack (sp : ℕ) (ptrs : List ℕ) : List ℕ :=
  [0xffffffff, ptrs.length, uint32 (sp + (2 ^ 32 - (ptrs.length + 1) * 4))] ++ ptrs ++ [0]

def wordBytes (ws : List ℕ) : List UInt8 := ws.flatMap (leBytes 4)

/-- the final stack pointer -/
def pushArgs (pgdir : ℕ) (argv : List (List UInt8)) (sz : ℕ) : M (Option ℕ) := do
  match ← pushStrings pgdir argv 0 sz [] with
  | none => return none
  | some (sp, ptrs) =>
    let sp' := uint32 (sp + (2 ^ 32 - (3 + ptrs.length + 1) * 4))
    if ← copyout pgdir sp' (wordBytes (ustack sp ptrs)) then return some sp' else return none

/-! ## exec -/

/-- the part of the path behind its last slash, cut to the size of p->name -/
def lastName (path : List UInt8) : List UInt8 := ((path.reverse.takeWhile fun b => b ≠ 47).reverse).take 15

/-- the new image in pgdir: its size and its stack pointer; none is `goto bad` -/
def build (L : Link) (c elf : List UInt8) (argv : List (List UInt8)) (pgdir : ℕ) : M (Option (ℕ × ℕ)) := do
  match ← load L c elf pgdir with
  | none => return none
  | some sz =>
    match ← pushArgs pgdir argv sz with
    | none => return none
    | some sp => return some (sz, sp)

/-- the process after a successful exec -/
def Uproc.image (p : Uproc) (path elf : List UInt8) (pgdir sz sp : ℕ) : Uproc :=
  { p with
    name := lastName path
    schedClass := if p.pid = 1 ∨ p.pid = 2 then 2 else p.schedClass
    schedLevel := if p.pid = 1 ∨ p.pid = 2 then 1 else p.schedLevel
    pgdir := pgdir
    sz := sz
    eip := field elf 24 4
    esp := sp }

/-- exec: true for 0, false for -1 -/
def exec (L : Link) (file : Option (List UInt8)) (path : List UInt8) (argv : List (List UInt8)) (p : Uproc) :
    M (Bool × Uproc) := do
  match file with
  | none => return (false, p)
  | some c =>
    match readi c 0 52 with
    | none => return (false, p)
    | some elf =>
      if elf.length ≠ 52 ∨ field elf 0 4 ≠ ELF_MAGIC then return (false, p)
      else
        match ← setupkvm L with
        | none => return (false, p)
        | some pgdir =>
          match ← build L c elf argv pgdir with
          | none =>
            freevm L (some pgdir)
            return (false, p)
          | some (sz, sp) =>
            freevm L (some p.pgdir)
            return (true, p.image path elf pgdir sz sp)

/-! ## What a process sees -/

/-- the loadable ones among the k headers from off on -/
def loadable (c : List UInt8) : ℕ → ℕ → List Proghdr
  | 0, _ => []
  | k + 1, off =>
    match readPh c off with
    | none => []
    | some ph =>
      if ph.type ≠ ELF_PROG_LOAD then loadable c k (uint32 (off + 32)) else ph :: loadable c k (uint32 (off + 32))

/-- the segments of a file -/
def segments (c : List UInt8) : List Proghdr :=
  match readi c 0 52 with
  | none => []
  | some elf => loadable c (field elf 44 2) (field elf 28 4)

/-- a segment over the bytes b -/
def overlay (c : List UInt8) (b : ℕ → UInt8) (ph : Proghdr) : ℕ → UInt8 :=
  fun a => if ph.vaddr ≤ a ∧ a < ph.vaddr + ph.filesz then c.getD (ph.off + (a - ph.vaddr)) 0 else b a

/-- the bytes of a program: its segments in order, over zeros -/
def segByte (c : List UInt8) (segs : List Proghdr) : ℕ → UInt8 := segs.foldl (overlay c) fun _ => 0

end Xv6.Vm
