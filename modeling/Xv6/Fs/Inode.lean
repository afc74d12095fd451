/-
Blocks and inode contents (fs.c): balloc, bfree, iupdate, bmap, itrunc, readi, writei.

- The disk is what bread shows: the functions run inside a transaction, or only read.
- `File`: a locked inode, its fields in memory (`struct inode`) next to the disk. Only iupdate copies them to the disk.
- Offsets and counts are `uint`s. A panic is an error.
- `Devsw`: what the device drivers return; they do not touch the file system.
-/
import Xv6.Lib.Words
import Xv6.Fs.Format

namespace Xv6.Fs

open Bytes Function

abbrev NDEV : ℕ := 10

structure Devsw where
  read : ℕ → Option (ℕ → List UInt8)
  write : ℕ → Option (List UInt8 → ℕ)

structure File where
  disk : Disk
  inum : ℕ
  ip : Dinode

abbrev FileM := StateT File (Except String)

variable (sb : Super)

/-! ## Blocks -/

/-- balloc's loops: the first block whose bit is clear, as the first block of its map block and the bit in it -/
def ballocScan (d : Disk) : Option (ℕ × ℕ) :=
  (List.range ((sb.size + BPB - 1) / BPB)).findSome? fun k =>
    let b := k * BPB
    (List.range BPB).findSome? fun bi =>
      if b + bi < sb.size ∧ ¬ bit (d (sb.bblock b)) bi then some (b, bi) else none

def bzero (b : ℕ) : FileM Unit := modify fun f => { f with disk := update f.disk b fun _ => 0 }

def balloc : FileM ℕ := do
  match ballocScan sb (← get).disk with
  | some (b, bi) =>
    modify fun f => { f with disk := update f.disk (sb.bblock b) (setBit (f.disk (sb.bblock b)) bi) }
    bzero (b + bi)
    return b + bi
  | none => throw "balloc: out of blocks"

def bfree (b : ℕ) : FileM Unit := do
  if ¬ bit ((← get).disk (sb.bblock b)) (b % BPB) then throw "freeing free block"
  modify fun f => { f with disk := update f.disk (sb.bblock b) (clearBit (f.disk (sb.bblock b)) (b % BPB)) }

/-! ## Inode contents -/

def iupdate : FileM Unit := modify fun f => { f with disk := setInode sb f.disk f.inum f.ip }

/-- `ip->addrs[k] = addr` -/
def setAddr (k : Fin (NDIRECT + 1)) (addr : ℕ) : FileM Unit :=
  modify fun f => { f with ip := { f.ip with addrs := update f.ip.addrs k addr } }

/-- the block in slot k of the inode, allocated if there is none -/
def slotBlock (k : Fin (NDIRECT + 1)) : FileM ℕ := do
  let addr := (← get).ip.addrs k
  if addr = 0 then
    let addr ← balloc sb
    setAddr k addr
    return addr
  return addr

/-- slot NDIRECT -/
def indirectSlot : Fin (NDIRECT + 1) := Fin.last NDIRECT

def bmap (bn : ℕ) : FileM ℕ := do
  if h : bn < NDIRECT then
    slotBlock sb ⟨bn, Nat.lt_succ_of_lt h⟩
  else if bn - NDIRECT < NINDIRECT then
    let ind ← slotBlock sb indirectSlot
    let addr := word 4 ((← get).disk ind) (4 * (bn - NDIRECT))
    if addr = 0 then
      let addr ← balloc sb
      modify fun f => { f with disk := update f.disk ind (putWord 4 (f.disk ind) (4 * (bn - NDIRECT)) addr) }
      return addr
    return addr
  else throw "bmap: out of range"

/-- itrunc's first loop, over the slots ks -/
def freeDirect : List (Fin (NDIRECT + 1)) → FileM Unit
  | [] => pure ()
  | k :: ks => do
    let addr := (← get).ip.addrs k
    if addr ≠ 0 then
      bfree sb addr
      setAddr k 0
    freeDirect ks

/-- itrunc's second loop, over the entries js of the indirect block -/
def freeEntries (ind : ℕ) : List ℕ → FileM Unit
  | [] => pure ()
  | j :: js => do
    let addr := word 4 ((← get).disk ind) (4 * j)
    if addr ≠ 0 then bfree sb addr
    freeEntries ind js

def directSlots : List (Fin (NDIRECT + 1)) := (List.finRange NDIRECT).map Fin.castSucc

def itrunc : FileM Unit := do
  freeDirect sb directSlots
  let ind := (← get).ip.addrs indirectSlot
  if ind ≠ 0 then
    freeEntries sb ind (List.range NINDIRECT)
    bfree sb ind
    setAddr indirectSlot 0
  modify fun f => { f with ip := { f.ip with size := 0 } }
  iupdate sb

/-- how much of the next n bytes is in the block of off -/
def chunk (off n : ℕ) : ℕ := min n (BSIZE - off % BSIZE)

/-- readi's loop: n bytes from off on, in at most k turns -/
def readLoop : ℕ → ℕ → ℕ → FileM (List UInt8)
  | 0, _, _ => return []
  | k + 1, off, n => do
    if n = 0 then return []
    let b ← bmap sb (off / BSIZE)
    let m := chunk off n
    let bytes := slice ((← get).disk b) (off % BSIZE) m
    let rest ← readLoop k (off + m) (n - m)
    return bytes ++ rest

/-- none stands for -1 -/
def readi (dev : Devsw) (off n : ℕ) : FileM (Option (List UInt8)) := do
  let ip := (← get).ip
  if ip.type = T_DEV then
    -- a negative major number is a large one here
    if NDEV ≤ ip.major then return none
    return (dev.read ip.major).map fun read => read n
  if ip.size < off ∨ uint32 (off + n) < off then return none
  let n := if ip.size < uint32 (off + n) then ip.size - off else n
  return some (← readLoop sb n off n)

/-- writei's loop -/
def writeLoop : ℕ → ℕ → List UInt8 → FileM Unit
  | 0, _, _ => return ()
  | k + 1, off, src => do
    if src = [] then return ()
    let b ← bmap sb (off / BSIZE)
    let m := chunk off src.length
    modify fun f => { f with disk := update f.disk b (patch (f.disk b) (off % BSIZE) (src.take m)) }
    writeLoop k (off + m) (src.drop m)

def writei (dev : Devsw) (src : List UInt8) (off : ℕ) : FileM (Option ℕ) := do
  let ip := (← get).ip
  if ip.type = T_DEV then
    if NDEV ≤ ip.major then return none
    return (dev.write ip.major).map fun write => write src
  if ip.size < off ∨ uint32 (off + src.length) < off then return none
  if MAXFILE * BSIZE < uint32 (off + src.length) then return none
  writeLoop sb src.length off src
  if 0 < src.length ∧ (← get).ip.size < off + src.length then
    modify fun f => { f with ip := { f.ip with size := off + src.length } }
    iupdate sb
  return some src.length

end Xv6.Fs
