/-
The directory tree of an image.

- `Tree`: the type and the link count of each inode, and what each slot of each directory names.
- `treeOf v`: the tree of an image. Sizes, blocks and the contents of files are not in it.
- `Filled v w d t x`: w is v with x in slot t of directory d.

Results: `fileByte_fields`, `slot_fields`, `lookup_congr`: what bytes, slots and lookups depend on.
-/
import Xv6.Fs.Icache
import Xv6.Fs.Slots

namespace Xv6.Fs

open Fallible

/-! ## Trees -/

@[ext] structure Tree where
  type : ℕ → ℕ
  nlink : ℕ → ℕ
  slot : ℕ → ℕ → Option (ℕ × Name)

variable {sb : Super} {v w : Image} {f g : File} {d n t k : ℕ} {di : Dinode} {x : Option (ℕ × Name)} {name : Name}

def isDir (sb : Super) (v : Image) (d : ℕ) : Prop := allocated sb v d ∧ (v.inode d).type = T_DIR

instance : Decidable (isDir sb v d) := inferInstanceAs (Decidable (_ ∧ _))

def treeOf (sb : Super) (v : Image) : Tree where
  type := fun n => (v.inode n).type
  nlink := fun n => (v.inode n).nlink
  slot := fun d t => if isDir sb v d then slot sb v d t else none

/-! ## Changes of an image -/

/-- the bytes of a file depend on its type and its addresses -/
theorem fileByte_fields (hal : allocated sb v n) (ht : di.type = (v.inode n).type) (ha : di.addrs = (v.inode n).addrs) (o : ℕ) :
    fileByte sb (v.setInode n di) n o = fileByte sb v n o := by
  have hstored : ∀ s, stored sb (v.setInode n di) (n, s) = stored sb v (n, s) := by
    intro s
    rw [stored_setInode hal.1 (by rw [ht]; exact hal.2), stored_eq hal]
    cases s with
    | slot k | entry j => rw [storedIn, storedIn, ha]
  rw [fileByte, fileByte, fileBlock, fileBlock]
  simp only [hstored]
  rfl

theorem slot_fields (hal : allocated sb v n) (ht : di.type = (v.inode n).type) (hs : di.size = (v.inode n).size)
    (ha : di.addrs = (v.inode n).addrs) : slot sb (v.setInode n di) n t = slot sb v n t := by
  rw [slot, slot, setInode_self, hs, direntAt, direntAt, fileBytes, fileBytes]
  simp only [fileByte_fields hal ht ha]

/-- a directory without entries -/
theorem slot_empty (h : (v.inode n).size = 0) : slot sb v n t = none := by
  have hD := DESIZE_eq
  rw [slot, if_neg (by omega)]

/-- an entry of a directory is written -/
structure Filled (sb : Super) (v w : Image) (d t : ℕ) (x : Option (ℕ × Name)) : Prop where
  apart : Apart sb d v w
  inside : DESIZE * t ≤ (v.inode d).size
  fields : w.inode d = { v.inode d with addrs := (w.inode d).addrs, size := max (v.inode d).size (DESIZE * t + DESIZE) }
  slots : ∀ t', slot sb w d t' = if t' = t then x else slot sb v d t'

theorem filled_of_set (h : SlotSet sb f g t x) : Filled sb (f.image sb) (g.image sb) f.inum t x := by
  have hnum : (g.image sb).inode f.inum = g.ip := by rw [← h.kept.inum, image_inode]
  exact ⟨h.kept.apart, by rw [image_inode]; exact h.inside, by rw [hnum, image_inode]; exact h.fields, h.slots⟩

/-! ## Lookups -/

/-- a lookup depends on the slots and the size -/
theorem lookup_congr (hs : (w.inode d).size = (v.inode d).size) (h : ∀ t, slot sb w d t = slot sb v d t) (name : Name) :
    lookup sb w d name = lookup sb v d name := by
  rw [lookup, lookup, hs]
  congr 1
  funext t
  rw [hit, hit, h t]

end Xv6.Fs
