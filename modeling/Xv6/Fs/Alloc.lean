/-
Which blocks the inodes hold, and the bit map.

- `Image`: a disk as its inodes, the bits of its map and its blocks.
- A block number is stored in a slot of an inode or in an entry of its indirect block (`Spot`).
- `Alloc`: every block number is stored in at most one place of all allocated inodes; the data blocks whose bit is set are
  those that are stored; the blocks before the data area are not free.
- `Apart i v w`: from v to w only inode i has changed, and no block of another inode.

Results:
- `placed_slot`, `placed_entry`: a free block goes to an empty place;
- `alloc_dropSlot`, `alloc_dropEntry`: a place gives its block back;
- `alloc_write`: a data block is written;
- `apart_stored`, `apart_trans`: what the other inodes store.
-/
import Xv6.Lib.Owners
import Xv6.Fs.Inode

namespace Xv6.Fs

open Bytes Owners Function

/-! ## Images -/

structure Image where
  inode : ℕ → Dinode
  used : ℕ → Bool
  block : ℕ → Block

namespace Image

def setInode (v : Image) (i : ℕ) (di : Dinode) : Image := { v with inode := update v.inode i di }

def setUsed (v : Image) (x : ℕ) (b : Bool) : Image := { v with used := update v.used x b }

def setBlock (v : Image) (x : ℕ) (c : Block) : Image := { v with block := update v.block x c }

/-- entry j of the indirect block b -/
def entry (v : Image) (b j : ℕ) : ℕ := word 4 (v.block b) (4 * j)

end Image

/-- where an inode stores a block number -/
inductive Spot where
  | slot (k : Fin (NDIRECT + 1))
  | entry (j : ℕ)
deriving DecidableEq

/-- where the number of block bn of a file is stored -/
def Spot.of (bn : ℕ) : Option Spot :=
  if h : bn < NDIRECT then some (.slot ⟨bn, Nat.lt_succ_of_lt h⟩)
  else if bn - NDIRECT < NINDIRECT then some (.entry (bn - NDIRECT))
  else none

/-- 0 is no block -/
def blockNo (x : ℕ) : Option ℕ := if x = 0 then none else some x

/-- the block number that the inode di stores in a place -/
def storedIn (v : Image) (di : Dinode) : Spot → Option ℕ
  | .slot k => blockNo (di.addrs k)
  | .entry j =>
    if di.addrs indirectSlot ≠ 0 ∧ j < NINDIRECT then blockNo (v.entry (di.addrs indirectSlot) j) else none

variable {sb : Super} {u v w : Image} {di : Dinode} {i j x y bn : ℕ} {k : Fin (NDIRECT + 1)} {s : Spot} {c : Block}
  {p : ℕ × Spot}

def allocated (sb : Super) (v : Image) (i : ℕ) : Prop := i < sb.ninodes ∧ (v.inode i).type ≠ 0

instance : Decidable (allocated sb v i) := inferInstanceAs (Decidable (_ ∧ _))

def stored (sb : Super) (v : Image) (p : ℕ × Spot) : Option ℕ :=
  if allocated sb v p.1 then storedIn v (v.inode p.1) p.2 else none

/-- x is a data block whose bit is set -/
def inUse (sb : Super) (v : Image) (x : ℕ) : Prop := sb.dataStart ≤ x ∧ x < sb.size ∧ v.used x = true

structure Alloc (sb : Super) (v : Image) : Prop where
  exact : Exact (stored sb v) (inUse sb v)
  /-- the blocks before the data area are not free -/
  low : ∀ x, x < sb.dataStart → v.used x = true

theorem blockNo_eq_some : blockNo x = some y ↔ x = y ∧ y ≠ 0 := by
  rw [blockNo]
  split_ifs with h
  · constructor
    · intro e; cases e
    · rintro ⟨rfl, hy⟩; exact absurd h hy
  · constructor
    · intro e
      rw [Option.some.injEq] at e
      exact ⟨e, e ▸ h⟩
    · rintro ⟨rfl, -⟩; rfl

@[simp] theorem blockNo_zero : blockNo 0 = none := rfl

theorem blockNo_pos (h : x ≠ 0) : blockNo x = some x := if_neg h

theorem stored_eq (h : allocated sb v i) : stored sb v (i, s) = storedIn v (v.inode i) s := if_pos h

theorem stored_free (h : ¬ allocated sb v i) : stored sb v (i, s) = none := if_neg h

theorem storedIn_entry {a : Dinode} (h0 : a.addrs indirectSlot ≠ 0) (hj : j < NINDIRECT) :
    storedIn v a (.entry j) = blockNo (v.entry (a.addrs indirectSlot) j) := if_pos ⟨h0, hj⟩

theorem storedIn_entry_none {a : Dinode} (h0 : a.addrs indirectSlot = 0) : storedIn v a (.entry j) = none :=
  if_neg fun h => h.1 h0

theorem storedIn_congr (h : di.addrs indirectSlot ≠ 0 → v.block (di.addrs indirectSlot) = w.block (di.addrs indirectSlot))
    (s : Spot) : storedIn v di s = storedIn w di s := by
  cases s with
  | slot k => rfl
  | entry j =>
    by_cases h0 : di.addrs indirectSlot = 0
    · rw [storedIn_entry_none h0, storedIn_entry_none h0]
    · rw [storedIn, storedIn, Image.entry, Image.entry, h h0]

/-- an indirect block is stored in its slot -/
theorem stored_indirect (h : allocated sb v i) (h0 : (v.inode i).addrs indirectSlot ≠ 0) :
    stored sb v (i, .slot indirectSlot) = some ((v.inode i).addrs indirectSlot) := by
  rw [stored_eq h]
  exact blockNo_pos h0

/-- an indirect block belongs to one inode -/
theorem indirect_inj (h : Alloc sb v) (ha : allocated sb v i) (hb : allocated sb v j)
    (h0 : (v.inode i).addrs indirectSlot ≠ 0) (e : (v.inode i).addrs indirectSlot = (v.inode j).addrs indirectSlot) : i = j := by
  have hi := stored_indirect ha h0
  have hj := stored_indirect hb (e ▸ h0)
  rw [← e] at hj
  exact congrArg Prod.fst (h.exact.inj _ _ _ hi hj)

namespace Alloc

theorem range (h : Alloc sb v) (hp : stored sb v p = some x) : sb.dataStart ≤ x ∧ x < sb.size := by
  have hu := (h.exact.used x).2 ⟨p, hp⟩
  exact ⟨hu.1, hu.2.1⟩

theorem used (h : Alloc sb v) (hp : stored sb v p = some x) : v.used x = true := ((h.exact.used x).2 ⟨p, hp⟩).2.2

/-- a free block is a data block -/
theorem fresh_data (h : Alloc sb v) (hfree : v.used x = false) : sb.dataStart ≤ x := by
  by_contra hlt
  rw [h.low x (not_le.1 hlt)] at hfree
  cases hfree

/-- a free block is stored nowhere -/
theorem fresh_stored (h : Alloc sb v) (hfree : v.used x = false) (p : ℕ × Spot) : stored sb v p ≠ some x := by
  intro hp
  rw [h.used hp] at hfree
  cases hfree

end Alloc

/-! ## What is stored after a change -/

/-- an inode stores what it stored when it and its indirect block are as they were -/
theorem stored_same (hi : w.inode i = v.inode i)
    (hb : allocated sb v i → (v.inode i).addrs indirectSlot ≠ 0 →
      w.block ((v.inode i).addrs indirectSlot) = v.block ((v.inode i).addrs indirectSlot)) (s : Spot) :
    stored sb w (i, s) = stored sb v (i, s) := by
  have hal : allocated sb w i ↔ allocated sb v i := by rw [allocated, allocated, hi]
  by_cases ha : allocated sb v i
  · rw [stored_eq (hal.2 ha), stored_eq ha, hi]
    exact storedIn_congr (hb ha) s
  · rw [stored_free fun h => ha (hal.1 h), stored_free ha]

theorem setBlock_self : (v.setBlock x c).block x = c := update_self ..

theorem setBlock_ne (h : y ≠ x) : (v.setBlock x c).block y = v.block y := update_of_ne h ..

/-- a block that is no indirect block -/
theorem stored_setBlock (h : ∀ i, stored sb v (i, .slot indirectSlot) ≠ some x) (p : ℕ × Spot) :
    stored sb (v.setBlock x c) p = stored sb v p := by
  refine stored_same (v := v) (w := v.setBlock x c) (i := p.1) rfl (fun ha h0 => setBlock_ne ?_) p.2
  intro e
  exact h p.1 (by rw [stored_indirect ha h0, e])

theorem setInode_self : (v.setInode i di).inode i = di := update_self ..

theorem setInode_ne (h : j ≠ i) : (v.setInode i di).inode j = v.inode j := update_of_ne h ..

theorem stored_setInode_ne (h : j ≠ i) : stored sb (v.setInode i di) (j, s) = stored sb v (j, s) :=
  stored_same (setInode_ne h) (fun _ _ => rfl) s

theorem stored_setInode (hi : i < sb.ninodes) (ht : di.type ≠ 0) : stored sb (v.setInode i di) (i, s) = storedIn v di s := by
  have ha : allocated sb (v.setInode i di) i := by
    rw [allocated, setInode_self]
    exact ⟨hi, ht⟩
  rw [stored_eq ha, setInode_self]
  rfl

/-! ## The invariant after a change -/

/-- a free block goes to an empty place -/
theorem alloc_put (h : Alloc sb v) (hp : stored sb v p = none) (hx : x < sb.size) (hfree : v.used x = false)
    (hs : ∀ q, stored sb w q = update (stored sb v) p (some x) q)
    (hu : w.used = update v.used x true) : Alloc sb w := by
  have hdata := h.fresh_data hfree
  have hput := exact_put h.exact hp fun hu => by rw [hu.2.2] at hfree; cases hfree
  refine ⟨exact_same hput hs fun y => ?_, fun y hy => ?_⟩
  · rw [inUse, inUse, hu]
    by_cases hy : y = x
    · subst hy; simp [hdata, hx]
    · simp [hy]
  · rw [hu, update_of_ne (by omega)]
    exact h.low y hy

/-- a place gives its block back -/
theorem alloc_drop (h : Alloc sb v) (hp : stored sb v p = some x)
    (hs : ∀ q, stored sb w q = update (stored sb v) p none q)
    (hu : w.used = update v.used x false) : Alloc sb w := by
  have hdata := h.range hp
  refine ⟨exact_same (exact_drop h.exact hp) hs fun y => ?_, fun y hy => ?_⟩
  · rw [inUse, inUse, hu]
    by_cases hy : y = x
    · subst hy; simp
    · simp [hy]
  · rw [hu, update_of_ne (by omega)]
    exact h.low y hy

theorem alloc_congr (h : Alloc sb v) (hs : ∀ q, stored sb w q = stored sb v q) (hu : w.used = v.used) : Alloc sb w := by
  refine ⟨exact_same h.exact hs fun y => ?_, fun y hy => ?_⟩
  · rw [inUse, inUse, hu]
  · rw [hu]
    exact h.low y hy

/-- **Writing a block** that is no indirect block. -/
theorem alloc_write (h : Alloc sb v) (hx : ∀ i, stored sb v (i, .slot indirectSlot) ≠ some x) : Alloc sb (v.setBlock x c) :=
  alloc_congr h (stored_setBlock hx) rfl

/-- an inode that stores what it stored -/
theorem alloc_setInode (h : Alloc sb v) (hs : ∀ s, stored sb (v.setInode i di) (i, s) = stored sb v (i, s)) :
    Alloc sb (v.setInode i di) := by
  refine alloc_congr h ?_ rfl
  rintro ⟨j, s⟩
  by_cases hj : j = i
  · rw [hj]; exact hs s
  · exact stored_setInode_ne hj

/-- an inode with no addresses, in place of one that stores nothing -/
theorem alloc_empty (h : Alloc sb v) (h0 : ∀ s, stored sb v (i, s) = none) (hd : ∀ k, di.addrs k = 0) :
    Alloc sb (v.setInode i di) := by
  refine alloc_setInode h fun s => ?_
  rw [h0]
  by_cases ha : allocated sb (v.setInode i di) i
  · rw [stored_eq ha, setInode_self]
    cases s with
    | slot k => rw [storedIn, hd, blockNo_zero]
    | entry j => exact storedIn_entry_none (hd indirectSlot)
  · exact stored_free ha

/-! ## The other inodes -/

/-- from v to w only inode i has changed, and no block of another inode -/
structure Apart (sb : Super) (i : ℕ) (v w : Image) : Prop where
  inode : ∀ j, j ≠ i → w.inode j = v.inode j
  block : ∀ j s x, j ≠ i → stored sb v (j, s) = some x → w.block x = v.block x

theorem apart_refl : Apart sb i v v := ⟨fun _ _ => rfl, fun _ _ _ _ _ => rfl⟩

theorem apart_stored (h : Apart sb i v w) (hj : j ≠ i) : stored sb w (j, s) = stored sb v (j, s) :=
  stored_same (h.inode j hj) (fun ha h0 => h.block j (.slot indirectSlot) _ hj (stored_indirect ha h0)) s

theorem apart_trans (h : Apart sb i u v) (h' : Apart sb i v w) : Apart sb i u w := by
  refine ⟨fun j hj => (h'.inode j hj).trans (h.inode j hj), fun j s x hj hs => ?_⟩
  rw [h'.block j s x hj ((apart_stored h hj).trans hs), h.block j s x hj hs]

theorem apart_setInode : Apart sb i v (v.setInode i di) := ⟨fun _ hj => setInode_ne hj, fun _ _ _ _ _ => rfl⟩

theorem apart_setUsed (b : Bool) : Apart sb i v (v.setUsed x b) := ⟨fun _ _ => rfl, fun _ _ _ _ _ => rfl⟩

/-- a block that no other inode stores is written -/
theorem apart_setBlock (h : ∀ j s, j ≠ i → stored sb v (j, s) ≠ some x) : Apart sb i v (v.setBlock x c) := by
  refine ⟨fun _ _ => rfl, fun j s y hj hs => setBlock_ne ?_⟩
  rintro rfl
  exact h j s hj hs

/-- a block of the inode itself is written -/
theorem apart_own (h : Alloc sb v) (hs : stored sb v (i, s) = some x) : Apart sb i v (v.setBlock x c) :=
  apart_setBlock fun _ _ hj hs' => hj (congrArg Prod.fst (h.exact.inj _ _ _ hs' hs))

/-! ## Taking a block -/

/-- `ip->addrs[k] = addr` -/
def Dinode.setAddr (di : Dinode) (k : Fin (NDIRECT + 1)) (addr : ℕ) : Dinode :=
  { di with addrs := update di.addrs k addr }

@[simp] theorem setAddr_self : (di.setAddr k x).addrs k = x := update_self ..

theorem setAddr_ne {k' : Fin (NDIRECT + 1)} (h : k' ≠ k) : (di.setAddr k x).addrs k' = di.addrs k' :=
  update_of_ne h ..

/-- the block that balloc returns -/
def Image.take (v : Image) (x : ℕ) : Image := (v.setUsed x true).setBlock x fun _ => 0

def Image.putSlot (v : Image) (i : ℕ) (k : Fin (NDIRECT + 1)) (x : ℕ) : Image :=
  (v.take x).setInode i ((v.inode i).setAddr k x)

def Image.putEntry (v : Image) (ind j x : ℕ) : Image :=
  (v.take x).setBlock ind (putWord 4 ((v.take x).block ind) (4 * j) x)

theorem take_block_ne (h : y ≠ x) : (v.take x).block y = v.block y := setBlock_ne h

theorem entry_zero {b : ℕ} (h : v.block b = fun _ => 0) : v.entry b j = 0 := by
  rw [Image.entry, h]
  simp [word, slice, byteAt, le]

/-- one entry of an indirect block set -/
theorem entry_putWord {b n : ℕ} (hj : j < NINDIRECT) (hx : x < 256 ^ 4) :
    (v.setBlock b (putWord 4 (v.block b) (4 * j) x)).entry b n = if n = j then x else v.entry b n := by
  have hN := NINDIRECT_eq
  have hb := BSIZE_eq
  rw [Image.entry, setBlock_self]
  by_cases hn : n = j
  · rw [if_pos hn, hn, word_putWord (by omega) hx]
  · rw [if_neg hn, word_putWord_disjoint (by omega), Image.entry]

/-- an entry of the indirect block of i is written, where the indirect blocks of u are those of v -/
theorem stored_putWord {u : Image} (h : Alloc sb v) (ha : allocated sb v i) (h0 : (v.inode i).addrs indirectSlot ≠ 0)
    (hj : j < NINDIRECT) (hx : x < 256 ^ 4) (hin : u.inode = v.inode)
    (hblock : ∀ i, allocated sb v i → (v.inode i).addrs indirectSlot ≠ 0 →
      u.block ((v.inode i).addrs indirectSlot) = v.block ((v.inode i).addrs indirectSlot)) (p : ℕ × Spot) :
    stored sb (u.setBlock ((v.inode i).addrs indirectSlot) (putWord 4 (u.block ((v.inode i).addrs indirectSlot)) (4 * j) x)) p =
      update (stored sb v) (i, .entry j) (blockNo x) p := by
  obtain ⟨i', s⟩ := p
  by_cases hi : i' = i
  · subst hi
    have ha' : allocated sb u i' := by rw [allocated, hin]; exact ha
    rw [stored_eq (by exact ha')]
    change storedIn _ (u.inode i') s = _
    rw [hin]
    cases s with
    | slot k =>
      rw [update_of_ne (by simp), stored_eq ha]
      rfl
    | entry j' =>
      by_cases hlt : j' < NINDIRECT
      · rw [storedIn_entry h0 hlt, entry_putWord hj hx, Image.entry, hblock i' ha h0]
        by_cases hj' : j' = j
        · rw [if_pos hj', hj', update_self]
        · rw [if_neg hj', update_of_ne (by simp [hj']), stored_eq ha, storedIn_entry h0 hlt, Image.entry]
      · have hj' : j' ≠ j := by omega
        rw [update_of_ne (by simp [hj']), stored_eq ha, storedIn, storedIn, if_neg fun hc => hlt hc.2,
          if_neg fun hc => hlt hc.2]
  · rw [update_of_ne (by simp [hi])]
    refine stored_same (v := v) (w := u.setBlock _ _) (congrFun hin i') (fun ha' h0' => ?_) s
    rw [setBlock_ne fun e => hi (indirect_inj h ha' ha h0' e)]
    exact hblock i' ha' h0'

section Take

variable (h : Alloc sb v) (hfree : v.used x = false) (ha : allocated sb v i)
include h hfree

theorem stored_take (p : ℕ × Spot) : stored sb (v.take x) p = stored sb v p :=
  stored_setBlock (v := v.setUsed x true) (fun i => h.fresh_stored hfree (i, .slot indirectSlot)) p

/-- the indirect block of an inode is not the free one -/
theorem indirect_ne (ha : allocated sb v i) (h0 : (v.inode i).addrs indirectSlot ≠ 0) : (v.inode i).addrs indirectSlot ≠ x := by
  intro e
  exact h.fresh_stored hfree (i, .slot indirectSlot) (by rw [stored_indirect ha h0, e])

theorem fresh_pos (hsb : sb.Ok) : x ≠ 0 := by
  have := h.fresh_data hfree
  have := hsb.map
  omega

include ha

theorem stored_putSlot (hsb : sb.Ok) (h0 : (v.inode i).addrs k = 0) (p : ℕ × Spot) :
    stored sb (v.putSlot i k x) p = update (stored sb v) (i, .slot k) (some x) p := by
  obtain ⟨j, s⟩ := p
  by_cases hj : j = i
  · rw [hj, Image.putSlot, stored_setInode ha.1 (by exact ha.2)]
    cases s with
    | slot k' =>
      by_cases hk : k' = k
      · rw [hk, update_self, storedIn, setAddr_self, blockNo_pos (fresh_pos h hfree hsb)]
      · rw [update_of_ne (by simp [hk]), stored_eq ha, storedIn, storedIn, setAddr_ne hk]
    | entry j =>
      rw [update_of_ne (by simp), stored_eq ha]
      by_cases hk : indirectSlot = k
      · -- a new indirect block is empty
        rw [storedIn_entry_none (a := v.inode i) (by rw [hk, h0]), storedIn, hk, setAddr_self,
          entry_zero (v := v.take x) (update_self ..), blockNo_zero, ite_self]
      · rw [storedIn, storedIn, setAddr_ne hk]
        by_cases hz : (v.inode i).addrs indirectSlot = 0
        · rw [if_neg fun hc => hc.1 hz, if_neg fun hc => hc.1 hz]
        · rw [Image.entry, take_block_ne (indirect_ne h hfree ha hz)]
          rfl
  · rw [Image.putSlot, stored_setInode_ne hj, stored_take h hfree, update_of_ne (by simp [hj])]

theorem stored_putEntry (hsb : sb.Ok) (hx : x < sb.size) (h0 : (v.inode i).addrs indirectSlot ≠ 0) (hj : j < NINDIRECT)
    (p : ℕ × Spot) : stored sb (v.putEntry ((v.inode i).addrs indirectSlot) j x) p =
      update (stored sb v) (i, .entry j) (some x) p := by
  have hput := stored_putWord (u := v.take x) h ha h0 hj (hx.trans hsb.word) rfl
    (fun _ ha' h0' => take_block_ne (indirect_ne h hfree ha' h0')) p
  rwa [blockNo_pos (fresh_pos h hfree hsb)] at hput

end Take

theorem apart_take (h : Alloc sb v) (hfree : v.used x = false) : Apart sb i v (v.take x) :=
  apart_trans (apart_setUsed true) (apart_setBlock (v := v.setUsed x true) fun j s _ => h.fresh_stored hfree (j, s))

/-- w is v with the fresh block x stored in a place of inode i -/
structure Placed (sb : Super) (v w : Image) (i : ℕ) (s : Spot) (x : ℕ) : Prop where
  alloc : Alloc sb w
  apart : Apart sb i v w
  fields : w.inode i = { v.inode i with addrs := (w.inode i).addrs }
  stored : ∀ p, stored sb w p = update (stored sb v) (i, s) (some x) p
  zero : w.block x = fun _ => 0
  /-- the data blocks stay -/
  data : ∀ p y, p.2 ≠ .slot indirectSlot → Fs.stored sb v p = some y → w.block y = v.block y

section Placed

variable (hsb : sb.Ok) (h : Alloc sb v) (ha : allocated sb v i) (hx : x < sb.size) (hfree : v.used x = false)
include hsb h ha hx hfree

/-- **A free block goes to an empty slot.** -/
theorem placed_slot (h0 : (v.inode i).addrs k = 0) : Placed sb v (v.putSlot i k x) i (.slot k) x where
  alloc := by
    refine alloc_put h (p := (i, .slot k)) ?_ hx hfree (stored_putSlot h hfree ha hsb h0) rfl
    rw [stored_eq ha, storedIn, h0, blockNo_zero]
  apart := apart_trans (apart_take h hfree) apart_setInode
  fields := by
    rw [Image.putSlot, setInode_self]
    rfl
  stored := stored_putSlot h hfree ha hsb h0
  zero := setBlock_self
  data := by
    intro p y _ hp
    exact take_block_ne fun e => h.fresh_stored hfree p (e ▸ hp)

/-- **A free block goes to an empty entry** of the indirect block. -/
theorem placed_entry (h0 : (v.inode i).addrs indirectSlot ≠ 0) (hj : j < NINDIRECT)
    (hz : v.entry ((v.inode i).addrs indirectSlot) j = 0) :
    Placed sb v (v.putEntry ((v.inode i).addrs indirectSlot) j x) i (.entry j) x where
  alloc := by
    refine alloc_put h (p := (i, .entry j)) ?_ hx hfree (stored_putEntry h hfree ha hsb hx h0 hj) rfl
    rw [stored_eq ha, storedIn_entry h0 hj, hz, blockNo_zero]
  apart := by
    have hind := stored_indirect ha h0
    refine apart_trans (apart_take h hfree) (apart_setBlock fun j s hj hs => hj ?_)
    rw [stored_take h hfree] at hs
    exact congrArg Prod.fst (h.exact.inj _ _ _ hs hind)
  fields := rfl
  stored := stored_putEntry h hfree ha hsb hx h0 hj
  zero := (setBlock_ne (indirect_ne h hfree ha h0).symm).trans setBlock_self
  data := by
    intro p y hs hp
    have hind := stored_indirect ha h0
    have hne : y ≠ (v.inode i).addrs indirectSlot := by
      rintro rfl
      exact hs (congrArg Prod.snd (h.exact.inj _ _ _ hp hind))
    rw [Image.putEntry, setBlock_ne hne]
    exact take_block_ne fun e => h.fresh_stored hfree p (e ▸ hp)

end Placed

/-! ## Giving a block back -/

def Image.dropSlot (v : Image) (i : ℕ) (k : Fin (NDIRECT + 1)) : Image :=
  (v.setUsed ((v.inode i).addrs k) false).setInode i ((v.inode i).setAddr k 0)

def Image.dropEntry (v : Image) (ind j : ℕ) : Image :=
  (v.setUsed (v.entry ind j) false).setBlock ind (putWord 4 (v.block ind) (4 * j) 0)

section Drop

variable (h : Alloc sb v) (ha : allocated sb v i)
include h ha

/-- **A slot gives its block back.** An indirect block has no entries left. -/
theorem alloc_dropSlot (h0 : (v.inode i).addrs k ≠ 0)
    (hent : k = indirectSlot → ∀ j, j < NINDIRECT → v.entry ((v.inode i).addrs k) j = 0) : Alloc sb (v.dropSlot i k) := by
  have hheld : stored sb v (i, .slot k) = some ((v.inode i).addrs k) := by
    rw [stored_eq ha, storedIn, blockNo_pos h0]
  refine alloc_drop h hheld ?_ rfl
  rintro ⟨i', s⟩
  by_cases hi : i' = i
  · rw [hi, Image.dropSlot, stored_setInode ha.1 (by exact ha.2)]
    cases s with
    | slot k' =>
      by_cases hk : k' = k
      · rw [hk, update_self, storedIn, setAddr_self, blockNo_zero]
      · rw [update_of_ne (by simp [hk]), stored_eq ha, storedIn, storedIn, setAddr_ne hk]
    | entry j =>
      rw [update_of_ne (by simp), stored_eq ha]
      by_cases hk : indirectSlot = k
      · rw [storedIn_entry_none (by rw [hk, setAddr_self]), storedIn, hk]
        by_cases hj : j < NINDIRECT
        · rw [hent hk.symm j hj, blockNo_zero, ite_self]
        · rw [if_neg fun hc => hj hc.2]
      · rw [storedIn, storedIn, setAddr_ne hk]
        rfl
  · rw [Image.dropSlot, stored_setInode_ne hi, update_of_ne (by simp [hi])]
    rfl

/-- **An entry gives its block back.** -/
theorem alloc_dropEntry (h0 : (v.inode i).addrs indirectSlot ≠ 0) (hj : j < NINDIRECT)
    (hz : v.entry ((v.inode i).addrs indirectSlot) j ≠ 0) : Alloc sb (v.dropEntry ((v.inode i).addrs indirectSlot) j) := by
  have hheld : stored sb v (i, .entry j) = some (v.entry ((v.inode i).addrs indirectSlot) j) := by
    rw [stored_eq ha, storedIn_entry h0 hj, blockNo_pos hz]
  refine alloc_drop h hheld (fun p => ?_) rfl
  have hput := stored_putWord (x := 0) (u := v.setUsed (v.entry ((v.inode i).addrs indirectSlot) j) false) h ha h0 hj (by norm_num) rfl
    (fun _ _ _ => rfl) p
  rwa [blockNo_zero] at hput

end Drop

end Xv6.Fs
