/-
The on-disk format (fs.h): the superblock, inodes, the free bitmap, directory entries.

- Disk layout: boot block, super block, log, inode blocks, free bit map, data blocks. The data blocks are the last nblocks.
- A `short` or `uint` field is the number that its bytes stand for; `Dinode.Wf` says that the numbers fit.
- `inodeOf`, `setInode`: inode i is the struct dinode at slot i % IPB of block IBLOCK(i).
- `usedBit`, `markUsed`, `markFree`: the bit of block b is bit b % BPB of block BBLOCK(b).

Results:
- `inodeOf_setInode`, `inodeOf_setInode_ne`: inodes in their slots do not disturb each other;
- `usedBit_markUsed`, `usedBit_markFree`: nor do the bits of the map.
-/
import Xv6.Fs.Layout

namespace Xv6.Fs

open Bytes Function

abbrev NDIRECT : ℕ := 12
abbrev NINDIRECT : ℕ := BSIZE / 4
abbrev MAXFILE : ℕ := NDIRECT + NINDIRECT
/-- inodes per block -/
abbrev IPB : ℕ := BSIZE / 64
/-- bitmap bits per block -/
abbrev BPB : ℕ := BSIZE * 8
abbrev ROOTINO : ℕ := 1
abbrev T_DIR : ℕ := 1
abbrev T_FILE : ℕ := 2
abbrev T_DEV : ℕ := 3

theorem NINDIRECT_eq : NINDIRECT = 128 := rfl
theorem MAXFILE_eq : MAXFILE = 140 := rfl
theorem IPB_eq : IPB = 8 := rfl
theorem BPB_eq : BPB = 4096 := rfl

structure Super where
  size : ℕ
  nblocks : ℕ
  ninodes : ℕ
  nlog : ℕ
  logstart : ℕ
  inodestart : ℕ
  bmapstart : ℕ
deriving DecidableEq

/-- `IBLOCK(i, sb)` -/
def Super.iblock (sb : Super) (i : ℕ) : ℕ := i / IPB + sb.inodestart

/-- `BBLOCK(b, sb)` -/
def Super.bblock (sb : Super) (b : ℕ) : ℕ := b / BPB + sb.bmapstart

/-- the first data block -/
def Super.dataStart (sb : Super) : ℕ := sb.size - sb.nblocks

/-- the areas of the disk come in their order -/
structure Super.Ok (sb : Super) : Prop where
  inodes : ∀ i, i < sb.ninodes → sb.iblock i < sb.bmapstart
  bitmap : ∀ b, b < sb.size → sb.bblock b < sb.dataStart
  data : sb.dataStart ≤ sb.size
  map : sb.bmapstart < sb.dataStart
  word : sb.size < 2 ^ 32
  root : ROOTINO < sb.ninodes

variable {sb : Super} {d e : Disk} {b c : Block} {i j x y off off' : ℕ}

/-! ## struct dinode -/

structure Dinode where
  type : ℕ
  major : ℕ
  minor : ℕ
  nlink : ℕ
  size : ℕ
  addrs : Fin (NDIRECT + 1) → ℕ
deriving DecidableEq

structure Dinode.Wf (di : Dinode) : Prop where
  type : di.type < 2 ^ 16
  major : di.major < 2 ^ 16
  minor : di.minor < 2 ^ 16
  nlink : di.nlink < 2 ^ 16
  size : di.size < 2 ^ 32
  addrs : ∀ k, di.addrs k < 2 ^ 32

variable {di : Dinode}

def Dinode.bytes (di : Dinode) : List UInt8 :=
  leBytes 2 di.type ++ leBytes 2 di.major ++ leBytes 2 di.minor ++ leBytes 2 di.nlink ++ leBytes 4 di.size ++
    (List.ofFn di.addrs).flatMap (leBytes 4)

def dinodeAt (b : Block) (off : ℕ) : Dinode where
  type := word 2 b off
  major := word 2 b (off + 2)
  minor := word 2 b (off + 4)
  nlink := word 2 b (off + 6)
  size := word 4 b (off + 8)
  addrs := fun k => word 4 b (off + (12 + 4 * k.val))

def putDinode (b : Block) (off : ℕ) (di : Dinode) : Block := patch b off di.bytes

theorem bytes_length (di : Dinode) : di.bytes.length = 64 := by
  simp [Dinode.bytes, List.ofFn_succ]

theorem dinodeAt_wf (b : Block) (off : ℕ) : (dinodeAt b off).Wf :=
  ⟨word_lt 2 b _, word_lt 2 b _, word_lt 2 b _, word_lt 2 b _, word_lt 4 b _, fun _ => word_lt 4 b _⟩

/-- a field of what was put -/
theorem word_putDinode {o k v : ℕ} (h : off + 64 ≤ BSIZE) (ho : o + k ≤ 64) (hv : v < 256 ^ k)
    (e : (di.bytes.drop o).take k = leBytes k v) : word k (putDinode b off di) (off + o) = v := by
  have hl := bytes_length di
  rw [word, putDinode, slice_patch_within (by omega) (by omega), e, le_leBytes, Nat.mod_eq_of_lt hv]

theorem dinodeAt_putDinode (h : off + 64 ≤ BSIZE) (hw : di.Wf) : dinodeAt (putDinode b off di) off = di := by
  have htype : word 2 (putDinode b off di) (off + 0) = di.type := word_putDinode h (by omega) hw.type rfl
  have hmajor : word 2 (putDinode b off di) (off + 2) = di.major := word_putDinode h (by omega) hw.major rfl
  have hminor : word 2 (putDinode b off di) (off + 4) = di.minor := word_putDinode h (by omega) hw.minor rfl
  have hnlink : word 2 (putDinode b off di) (off + 6) = di.nlink := word_putDinode h (by omega) hw.nlink rfl
  have hsize : word 4 (putDinode b off di) (off + 8) = di.size := word_putDinode h (by omega) hw.size rfl
  have haddrs : ∀ k : Fin (NDIRECT + 1), word 4 (putDinode b off di) (off + (12 + 4 * k.val)) = di.addrs k := by
    intro k
    have hk : k.val < 13 := k.isLt
    refine word_putDinode h (by omega) (hw.addrs k) ?_
    fin_cases k <;> rfl
  rw [Nat.add_zero] at htype
  simp only [dinodeAt, htype, hmajor, hminor, hnlink, hsize, haddrs]

theorem dinodeAt_congr (h : ∀ o m, o + m ≤ 64 → slice b (off + o) m = slice c (off + o) m) : dinodeAt b off = dinodeAt c off := by
  have hw : ∀ k o, o + k ≤ 64 → word k b (off + o) = word k c (off + o) := by
    intro k o ho
    rw [word, word, h o k ho]
  have htype : word 2 b (off + 0) = word 2 c (off + 0) := hw 2 0 (by omega)
  simp only [dinodeAt, Nat.add_zero] at htype ⊢
  rw [htype, hw 2 2 (by omega), hw 2 4 (by omega), hw 2 6 (by omega), hw 4 8 (by omega)]
  congr 1
  funext k
  have hk : k.val < 13 := k.isLt
  exact hw 4 _ (by omega)

/-- a change elsewhere in the block -/
theorem dinodeAt_patch_disjoint {bs : List UInt8} (h : off' + 64 ≤ off ∨ off + bs.length ≤ off') :
    dinodeAt (patch b off bs) off' = dinodeAt b off' := by
  refine dinodeAt_congr fun o m hm => slice_patch_disjoint ?_
  omega

/-! ## Inodes on the disk -/

/-- where inode i is in its block -/
def islot (i : ℕ) : ℕ := i % IPB * 64

theorem islot_le (i : ℕ) : islot i + 64 ≤ BSIZE := by
  have hi := IPB_eq
  have hb := BSIZE_eq
  rw [islot, hi, hb]
  omega

/-- inode i as it is on the disk -/
def inodeOf (sb : Super) (d : Disk) (i : ℕ) : Dinode := dinodeAt (d (sb.iblock i)) (islot i)

def setInode (sb : Super) (d : Disk) (i : ℕ) (di : Dinode) : Disk :=
  update d (sb.iblock i) (putDinode (d (sb.iblock i)) (islot i) di)

theorem inodeOf_wf (sb : Super) (d : Disk) (i : ℕ) : (inodeOf sb d i).Wf := dinodeAt_wf _ _

theorem inodeOf_congr (h : d (sb.iblock i) = e (sb.iblock i)) : inodeOf sb d i = inodeOf sb e i := by
  rw [inodeOf, inodeOf, h]

theorem inodeOf_setInode (hw : di.Wf) : inodeOf sb (setInode sb d i di) i = di := by
  rw [inodeOf, setInode, update_self]
  exact dinodeAt_putDinode (islot_le i) hw

theorem inodeOf_setInode_ne (h : j ≠ i) : inodeOf sb (setInode sb d i di) j = inodeOf sb d j := by
  by_cases hblock : sb.iblock j = sb.iblock i
  · rw [inodeOf, setInode, hblock, update_self, inodeOf, hblock]
    refine dinodeAt_patch_disjoint ?_
    -- two inodes of one block are in different slots
    have hne : j % IPB ≠ i % IPB := by
      intro hmod
      have hi := IPB_eq
      rw [Super.iblock, Super.iblock, hi] at hblock
      rw [hi] at hmod
      omega
    have hl := bytes_length di
    rw [hl, islot, islot]
    omega
  · rw [inodeOf, inodeOf, setInode, update_of_ne hblock]

theorem setInode_other (h : x ≠ sb.iblock i) : setInode sb d i di x = d x := update_of_ne h ..

/-! ## The free bit map -/

/-- the bit of block x -/
def usedBit (sb : Super) (d : Disk) (x : ℕ) : Bool := bit (d (sb.bblock x)) (x % BPB)

def markUsed (sb : Super) (d : Disk) (x : ℕ) : Disk :=
  update d (sb.bblock x) (setBit (d (sb.bblock x)) (x % BPB))

def markFree (sb : Super) (d : Disk) (x : ℕ) : Disk :=
  update d (sb.bblock x) (clearBit (d (sb.bblock x)) (x % BPB))

theorem bit_fits (x : ℕ) : x % BPB / 8 < BSIZE := by
  have hb := BSIZE_eq
  have hp := BPB_eq
  rw [hp, hb]
  omega

/-- the map's block and bit tell the block -/
theorem bblock_inj (hb : sb.bblock x = sb.bblock y) (hm : x % BPB = y % BPB) : x = y := by
  have hp := BPB_eq
  rw [Super.bblock, Super.bblock, hp] at hb
  rw [hp] at hm
  omega

theorem usedBit_congr (h : d (sb.bblock x) = e (sb.bblock x)) : usedBit sb d x = usedBit sb e x := by
  rw [usedBit, usedBit, h]

theorem usedBit_markUsed : usedBit sb (markUsed sb d x) y = (usedBit sb d y || decide (y = x)) := by
  by_cases hb : sb.bblock y = sb.bblock x
  · rw [usedBit, markUsed, hb, update_self, bit_setBit (bit_fits x), usedBit, hb]
    congr 2
    exact propext ⟨fun hm => bblock_inj hb hm, fun e => by rw [e]⟩
  · have hne : y ≠ x := by
      rintro rfl
      exact hb rfl
    rw [usedBit, markUsed, update_of_ne hb, usedBit]
    simp [hne]

theorem usedBit_markFree : usedBit sb (markFree sb d x) y = (usedBit sb d y && decide (y ≠ x)) := by
  by_cases hb : sb.bblock y = sb.bblock x
  · rw [usedBit, markFree, hb, update_self, bit_clearBit (bit_fits x), usedBit, hb]
    congr 2
    exact propext (not_congr ⟨fun hm => bblock_inj hb hm, fun e => by rw [e]⟩)
  · have hne : y ≠ x := by
      rintro rfl
      exact hb rfl
    rw [usedBit, markFree, update_of_ne hb, usedBit]
    simp [hne]

end Xv6.Fs
