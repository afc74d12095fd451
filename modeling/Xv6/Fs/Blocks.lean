/-
The block functions of fs.c keep the allocation (balloc, bfree, bmap, itrunc).

- `imageOf sb d`: the image of a disk. Only its inodes, the bits of its blocks and its data blocks count.
- `File.image`: the image of a disk with a locked inode as it is in memory. iupdate does not change it.
- `FileOk`: what holds of a locked inode; `Grows f g`: from f to g the inode has gained blocks.
- `notFreed`: every panic but the one of bfree.

Results:
- `balloc_spec`, `bfree_spec`, `bmap_spec`, `itrunc_spec`: one for each function.
-/
import Xv6.Lib.Fallible
import Xv6.Fs.Alloc

namespace Xv6.Fs

open Bytes Owners Fallible Function List

/-! ## The image of a disk -/

def imageOf (sb : Super) (d : Disk) : Image where
  inode := fun i => if i < sb.ninodes then inodeOf sb d i else ⟨0, 0, 0, 0, 0, fun _ => 0⟩
  used := fun x => decide (x < sb.size) && usedBit sb d x
  block := fun x => if sb.dataStart ≤ x then d x else fun _ => 0

variable {sb : Super} {d : Disk} {di : Dinode} {i j x y bn : ℕ} {k : Fin (NDIRECT + 1)} {s : Spot} {c : Block} {v w : Image}

theorem imageOf_inode (hi : i < sb.ninodes) : (imageOf sb d).inode i = inodeOf sb d i := if_pos hi

theorem imageOf_used (hx : x < sb.size) : (imageOf sb d).used x = usedBit sb d x := by simp [imageOf, hx]

theorem imageOf_block (hx : sb.dataStart ≤ x) : (imageOf sb d).block x = d x := if_pos hx

theorem Image.ext_iff' (hi : v.inode = w.inode) (hu : v.used = w.used) (hb : v.block = w.block) : v = w := by
  cases v; cases w
  simp only at hi hu hb
  rw [hi, hu, hb]

theorem Super.bblock_ge (sb : Super) (x : ℕ) : sb.bmapstart ≤ sb.bblock x := Nat.le_add_left ..

/-- a data block is written -/
theorem imageOf_write (hsb : sb.Ok) (hx : sb.dataStart ≤ x) :
    imageOf sb (update d x c) = (imageOf sb d).setBlock x c := by
  refine Image.ext_iff' (funext fun i => ?_) (funext fun y => ?_) (funext fun y => ?_)
  · simp only [imageOf, Image.setBlock]
    split_ifs with hi
    · refine inodeOf_congr (update_of_ne ?_ ..)
      have := hsb.inodes i hi
      have := hsb.map
      omega
    · rfl
  · simp only [imageOf, Image.setBlock]
    by_cases hy : y < sb.size
    · have := hsb.bitmap y hy
      rw [usedBit_congr (d := update d x c) (e := d) (update_of_ne (by omega) ..)]
    · simp [hy]
  · by_cases hy : y = x
    · subst hy
      rw [setBlock_self, imageOf_block hx, update_self]
    · rw [setBlock_ne hy]
      simp only [imageOf, update_of_ne hy]

/-- a block of the map is written -/
theorem imageOf_map (hsb : sb.Ok) (hx : x < sb.size) {b : Bool}
    (hbit : ∀ y, usedBit sb (update d (sb.bblock x) c) y = if y = x then b else usedBit sb d y) :
    imageOf sb (update d (sb.bblock x) c) = (imageOf sb d).setUsed x b := by
  have hlt := hsb.bitmap x hx
  refine Image.ext_iff' (funext fun i => ?_) (funext fun y => ?_) (funext fun y => ?_)
  · simp only [imageOf, Image.setUsed]
    split_ifs with hi
    · refine inodeOf_congr (update_of_ne ?_ ..)
      have := hsb.inodes i hi
      have := sb.bblock_ge x
      omega
    · rfl
  · simp only [imageOf, Image.setUsed, hbit]
    by_cases hy : y = x
    · subst hy; simp [hx]
    · simp [hy]
  · simp only [imageOf, Image.setUsed]
    split_ifs with hy
    · exact update_of_ne (by omega) ..
    · rfl

theorem imageOf_markUsed (hsb : sb.Ok) (hx : x < sb.size) : imageOf sb (markUsed sb d x) = (imageOf sb d).setUsed x true := by
  refine imageOf_map hsb hx fun y => ?_
  refine usedBit_markUsed.trans ?_
  by_cases hy : y = x <;> simp [hy]

theorem imageOf_markFree (hsb : sb.Ok) (hx : x < sb.size) : imageOf sb (markFree sb d x) = (imageOf sb d).setUsed x false := by
  refine imageOf_map hsb hx fun y => ?_
  refine usedBit_markFree.trans ?_
  by_cases hy : y = x <;> simp [hy]

/-- an inode is written -/
theorem imageOf_setInode (hsb : sb.Ok) (hi : i < sb.ninodes) (hw : di.Wf) :
    imageOf sb (setInode sb d i di) = (imageOf sb d).setInode i di := by
  have hlt := hsb.inodes i hi
  refine Image.ext_iff' (funext fun j => ?_) (funext fun y => ?_) (funext fun y => ?_)
  · by_cases hj : j = i
    · rw [hj, setInode_self, imageOf_inode hi, inodeOf_setInode hw]
    · rw [setInode_ne hj]
      simp only [imageOf, inodeOf_setInode_ne hj]
  · simp only [imageOf, Image.setInode]
    rw [usedBit_congr (setInode_other ?_)]
    have := sb.bblock_ge y
    omega
  · simp only [imageOf, Image.setInode]
    split_ifs with hy
    · refine setInode_other ?_
      have := hsb.map
      omega
    · rfl

/-! ## A locked inode -/

def File.image (sb : Super) (f : File) : Image := (imageOf sb f.disk).setInode f.inum f.ip

structure FileOk (sb : Super) (f : File) : Prop where
  inum : f.inum < sb.ninodes
  wf : f.ip.Wf
  type : f.ip.type ≠ 0
  alloc : Alloc sb (f.image sb)

variable {f g h : File} {n : ℕ}

theorem image_inode : (f.image sb).inode f.inum = f.ip := setInode_self

theorem FileOk.allocated (hf : FileOk sb f) : allocated sb (f.image sb) f.inum := by
  rw [Fs.allocated, image_inode]
  exact ⟨hf.inum, hf.type⟩

/-- the block with number bn of a file -/
def fileBlock (sb : Super) (v : Image) (i bn : ℕ) : Option ℕ := (Spot.of bn).bind fun s => stored sb v (i, s)

theorem setInode_setInode {v : Image} {di' : Dinode} : (v.setInode i di).setInode i di' = v.setInode i di' := by
  simp only [Image.setInode, update_idem]

theorem wf_setAddr (hw : di.Wf) (hx : x < 2 ^ 32) : (di.setAddr k x).Wf := by
  refine ⟨hw.type, hw.major, hw.minor, hw.nlink, hw.size, fun k' => ?_⟩
  by_cases hk : k' = k
  · rw [hk, setAddr_self]; exact hx
  · rw [setAddr_ne hk]; exact hw.addrs k'

/-! ## iupdate -/

/-- the inode di, in memory and on the disk -/
def File.put (sb : Super) (f : File) (di : Dinode) : File := { f with disk := Fs.setInode sb f.disk f.inum di, ip := di }

section Put

variable (hsb : sb.Ok) (hf : FileOk sb f) (hw : di.Wf)
include hsb hf hw

theorem put_disk : imageOf sb (f.put sb di).disk = (imageOf sb f.disk).setInode f.inum di := imageOf_setInode hsb hf.inum hw

theorem put_image : (f.put sb di).image sb = (f.image sb).setInode f.inum di := by
  have himg : (f.put sb di).image sb = (imageOf sb (f.put sb di).disk).setInode f.inum di := rfl
  rw [himg, put_disk hsb hf hw, setInode_setInode, File.image, setInode_setInode]

theorem put_synced : imageOf sb (f.put sb di).disk = (f.put sb di).image sb := by
  rw [put_disk hsb hf hw, put_image hsb hf hw, File.image, setInode_setInode]

theorem put_apart : Apart sb f.inum (f.image sb) ((f.put sb di).image sb) := by
  rw [put_image hsb hf hw]
  exact apart_setInode

variable (ht : di.type ≠ 0) (hd : di.addrs = f.ip.addrs)
include ht hd

/-- an inode with the same addresses stores the same blocks -/
theorem put_stored (p : ℕ × Spot) : stored sb ((f.put sb di).image sb) p = stored sb (f.image sb) p := by
  obtain ⟨j, s⟩ := p
  rw [put_image hsb hf hw]
  by_cases hj : j = f.inum
  · rw [hj, stored_setInode hf.inum ht, stored_eq hf.allocated, image_inode]
    cases s with
    | slot k | entry n => rw [storedIn, storedIn, hd]
  · exact stored_setInode_ne hj

theorem put_ok : FileOk sb (f.put sb di) :=
  ⟨hf.inum, hw, ht, alloc_congr hf.alloc (put_stored hsb hf hw ht hd) (by rw [put_image hsb hf hw]; rfl)⟩

theorem put_fileBlock (i n : ℕ) : fileBlock sb ((f.put sb di).image sb) i n = fileBlock sb (f.image sb) i n := by
  rw [fileBlock, fileBlock]
  congr 1
  funext s
  exact put_stored hsb hf hw ht hd _

end Put

/-- every panic but the one of bfree -/
def notFreed (e : String) : Prop := e ≠ "freeing free block"

/-! ## balloc and bfree -/

/-- the bit that balloc finds is that of a free block -/
theorem ballocScan_some {b bi : ℕ} (h : ballocScan sb d = some (b, bi)) :
    b + bi < sb.size ∧ sb.bblock b = sb.bblock (b + bi) ∧ bi = (b + bi) % BPB ∧ usedBit sb d (b + bi) = false := by
  obtain ⟨k, -, hk⟩ := exists_of_findSome?_eq_some h
  obtain ⟨n, hn, hbi⟩ := exists_of_findSome?_eq_some hk
  have hlt : n < BPB := mem_range.1 hn
  have hp := BPB_eq
  split_ifs at hbi with hc
  simp only [Option.some.injEq, Prod.mk.injEq] at hbi
  obtain ⟨rfl, rfl⟩ := hbi
  have hblock : sb.bblock (k * BPB) = sb.bblock (k * BPB + n) := by
    rw [Super.bblock, Super.bblock, hp]
    omega
  have hmod : n = (k * BPB + n) % BPB := by
    rw [hp] at hlt ⊢
    omega
  refine ⟨hc.1, hblock, hmod, ?_⟩
  rw [usedBit, ← hblock, ← hmod]
  simpa using hc.2

theorem balloc_spec (hsb : sb.Ok) (hf : Alloc sb (f.image sb)) :
    wp notFreed (balloc sb) (fun x g => x < sb.size ∧ (f.image sb).used x = false ∧
      g.image sb = (f.image sb).take x ∧ imageOf sb g.disk = (imageOf sb f.disk).take x ∧ g.inum = f.inum ∧ g.ip = f.ip) f := by
  simp only [balloc, wp_bind, wp_get]
  cases hscan : ballocScan sb f.disk with
  | none => simp [notFreed]
  | some p =>
    obtain ⟨b, bi⟩ := p
    obtain ⟨hlt, hblock, hmod, hfree⟩ := ballocScan_some hscan
    have hused : (f.image sb).used (b + bi) = false := (imageOf_used hlt).trans hfree
    have hdisk : imageOf sb (update (markUsed sb f.disk (b + bi)) (b + bi) fun _ => 0) =
        (imageOf sb f.disk).take (b + bi) := by
      rw [imageOf_write hsb (hf.fresh_data hused), imageOf_markUsed hsb hlt, Image.take]
    have hmark : update f.disk (sb.bblock b) (setBit (f.disk (sb.bblock b)) bi) = markUsed sb f.disk (b + bi) := by
      rw [markUsed, ← hblock, ← hmod]
    simp only [bzero, wp_bind, wp_modify, wp_pure, hmark]
    refine ⟨hlt, hused, ?_, hdisk, trivial, trivial⟩
    rw [File.image, hdisk]
    rfl

theorem bfree_spec (hsb : sb.Ok) (hx : x < sb.size) (hu : (f.image sb).used x = true) :
    wp notFreed (bfree sb x) (fun _ g => g.image sb = (f.image sb).setUsed x false ∧
      imageOf sb g.disk = (imageOf sb f.disk).setUsed x false ∧ g.inum = f.inum ∧ g.ip = f.ip) f := by
  have hbit : bit (f.disk (sb.bblock x)) (x % BPB) = true := (imageOf_used hx).symm.trans hu
  have hdisk : imageOf sb (markFree sb f.disk x) = (imageOf sb f.disk).setUsed x false := imageOf_markFree hsb hx
  simp only [bfree, wp_bind, wp_get, wp_ite, hbit, not_true_eq_false, false_implies, not_false_eq_true, forall_const,
    true_and, wp_modify]
  refine ⟨?_, hdisk, trivial⟩
  rw [File.image]
  exact congrArg (fun v => Image.setInode v f.inum f.ip) hdisk

/-! ## Places of a file -/

theorem Spot.of_direct (h : bn < NDIRECT) : Spot.of bn = some (.slot ⟨bn, Nat.lt_succ_of_lt h⟩) := dif_pos h

theorem Spot.of_indirect (h : ¬ bn < NDIRECT) (h' : bn - NDIRECT < NINDIRECT) : Spot.of bn = some (.entry (bn - NDIRECT)) := by
  rw [Spot.of, dif_neg h, if_pos h']

/-- no block of a file is stored in the indirect slot -/
theorem Spot.of_ne_indirect (h : Spot.of bn = some s) : s ≠ .slot indirectSlot := by
  rw [Spot.of] at h
  split_ifs at h with h1 h2
  · rw [Option.some.injEq] at h
    subst h
    intro e
    rw [Spot.slot.injEq, Fin.ext_iff] at e
    exact absurd e (Nat.ne_of_lt h1)
  · rw [Option.some.injEq] at h
    subst h
    simp

/-- the block whose number is stored in a place -/
def Spot.index : Spot → ℕ
  | .slot k => k
  | .entry j => NDIRECT + j

theorem Spot.index_of (h : Spot.of bn = some s) : s.index = bn := by
  rw [Spot.of] at h
  split_ifs at h with h1 h2
  · rw [Option.some.injEq] at h
    subst h
    rfl
  · rw [Option.some.injEq] at h
    subst h
    exact Nat.add_sub_cancel' (not_lt.1 h1)

theorem Spot.of_inj {m n : ℕ} (hm : Spot.of m = some s) (hn : Spot.of n = some s) : m = n :=
  (Spot.index_of hm).symm.trans (Spot.index_of hn)

theorem fileBlock_eq (h : Spot.of bn = some s) (v : Image) : fileBlock sb v i bn = stored sb v (i, s) := by
  rw [fileBlock, h]
  rfl

/-- a block stays in its place when another place gains one -/
theorem fileBlock_placed (hp : Placed sb v w i s x) (h0 : stored sb v (i, s) = none)
    (hn : fileBlock sb v i n = some y) : fileBlock sb w i n = some y ∧ w.block y = v.block y := by
  cases ht : Spot.of n with
  | none => rw [fileBlock, ht] at hn; cases hn
  | some t =>
    rw [fileBlock_eq ht] at hn ⊢
    have hne : t ≠ s := by
      rintro rfl
      rw [h0] at hn; cases hn
    refine ⟨?_, hp.data (i, t) y (Spot.of_ne_indirect ht) hn⟩
    rw [hp.stored, update_of_ne (by simp [hne]), hn]

/-- the blocks in other places -/
theorem fileBlock_placed_ne (hp : Placed sb v w i s x) (hn : Spot.of n ≠ some s) :
    fileBlock sb w i n = fileBlock sb v i n := by
  cases ht : Spot.of n with
  | none => rw [fileBlock, fileBlock, ht]; rfl
  | some t =>
    have hne : t ≠ s := by
      rintro rfl
      exact hn ht
    rw [fileBlock_eq ht, fileBlock_eq ht, hp.stored, update_of_ne (by simp [hne])]

/-! ## bmap -/

/-- from f to g the place s of the inode has gained the block b, if it had none -/
structure Gains (sb : Super) (f g : File) (s : Spot) (b : ℕ) : Prop where
  inum : g.inum = f.inum
  wf : g.ip.Wf
  disk : (imageOf sb g.disk).inode = (imageOf sb f.disk).inode
  cases : stored sb (f.image sb) (f.inum, s) = some b ∧ g = f ∨
    stored sb (f.image sb) (f.inum, s) = none ∧ Placed sb (f.image sb) (g.image sb) f.inum s b

/-- from f to g only the addresses of the inode and its blocks have changed -/
structure Changes (sb : Super) (f g : File) : Prop where
  inum : g.inum = f.inum
  fields : g.ip = { f.ip with addrs := g.ip.addrs }
  disk : (imageOf sb g.disk).inode = (imageOf sb f.disk).inode
  apart : Apart sb f.inum (f.image sb) (g.image sb)

/-- from f to g the inode has gained blocks -/
structure Grows (sb : Super) (f g : File) : Prop extends Changes sb f g where
  ok : FileOk sb g
  keeps : ∀ n x, fileBlock sb (f.image sb) f.inum n = some x → fileBlock sb (g.image sb) f.inum n = some x

theorem changes_refl : Changes sb f f := ⟨rfl, rfl, rfl, apart_refl⟩

theorem changes_trans (hfg : Changes sb f g) (hgh : Changes sb g h) : Changes sb f h where
  inum := hgh.inum.trans hfg.inum
  fields := by
    have e1 := hfg.fields
    have e2 := hgh.fields
    rw [e1] at e2
    exact e2
  disk := hgh.disk.trans hfg.disk
  apart := apart_trans hfg.apart (hfg.inum ▸ hgh.apart)

theorem grows_refl (hf : FileOk sb f) : Grows sb f f := ⟨changes_refl, hf, fun _ _ h => h⟩

theorem grows_trans (hfg : Grows sb f g) (hgh : Grows sb g h) : Grows sb f h where
  toChanges := changes_trans hfg.toChanges hgh.toChanges
  ok := hgh.ok
  keeps := by
    intro n x hn
    have h1 := hfg.keeps n x hn
    rw [← hfg.inum] at h1 ⊢
    exact hgh.keeps n x h1

theorem gains_grows (hf : FileOk sb f) (hg : Gains sb f g s x) : Grows sb f g := by
  rcases hg.cases with ⟨-, rfl⟩ | ⟨h0, hp⟩
  · exact grows_refl hf
  · have hfields : g.ip = { f.ip with addrs := g.ip.addrs } := by
      have e := hp.fields
      rw [← hg.inum, image_inode, hg.inum, image_inode] at e
      exact e
    refine ⟨⟨hg.inum, hfields, hg.disk, hp.apart⟩, ⟨hg.inum ▸ hf.inum, hg.wf, ?_, hp.alloc⟩,
      fun n y hn => (fileBlock_placed hp h0 hn).1⟩
    rw [hfields]
    exact hf.type

/-- the place holds the block now -/
theorem gains_stored (hg : Gains sb f g s x) : stored sb (g.image sb) (f.inum, s) = some x := by
  rcases hg.cases with ⟨h0, rfl⟩ | ⟨-, hp⟩
  · exact h0
  · rw [hp.stored, update_self]

theorem gains_other (hg : Gains sb f g s x) (hn : Spot.of n ≠ some s) :
    fileBlock sb (g.image sb) f.inum n = fileBlock sb (f.image sb) f.inum n := by
  rcases hg.cases with ⟨-, rfl⟩ | ⟨-, hp⟩
  · rfl
  · exact fileBlock_placed_ne hp hn

/-- the data blocks stay -/
theorem gains_data (hg : Gains sb f g s x) (hn : fileBlock sb (f.image sb) f.inum n = some y) :
    (g.image sb).block y = (f.image sb).block y := by
  rcases hg.cases with ⟨-, rfl⟩ | ⟨h0, hp⟩
  · rfl
  · exact (fileBlock_placed hp h0 hn).2

theorem slotBlock_spec (hsb : sb.Ok) (hf : FileOk sb f) (k : Fin (NDIRECT + 1)) :
    wp notFreed (slotBlock sb k) (fun b g => Gains sb f g (.slot k) b) f := by
  have hal := hf.allocated
  have hstored : stored sb (f.image sb) (f.inum, .slot k) = blockNo (f.ip.addrs k) := by
    rw [stored_eq hal, image_inode, storedIn]
  simp only [slotBlock, wp_bind, wp_get, wp_ite, wp_pure]
  refine ⟨fun h0 => ?_, fun h0 => ⟨rfl, hf.wf, rfl, .inl ⟨by rw [hstored, blockNo_pos h0], rfl⟩⟩⟩
  refine wp_mono (balloc_spec hsb hf.alloc) ?_
  rintro x g ⟨hx, hfree, himg, hdisk, hinum, hip⟩
  have himg' : File.image sb { g with ip := f.ip.setAddr k x } = (f.image sb).putSlot f.inum k x := by
    rw [Image.putSlot, image_inode, ← himg, File.image, File.image, hinum, setInode_setInode]
  have hp := placed_slot hsb hf.alloc hal hx hfree (k := k) (by rw [image_inode]; exact h0)
  rw [← himg'] at hp
  rw [← hip] at hp
  simp only [setAddr, wp_modify]
  refine ⟨hinum, wf_setAddr (hip ▸ hf.wf) (hx.trans hsb.word), ?_, .inr ⟨by rw [hstored, h0, blockNo_zero], hp⟩⟩
  rw [hdisk]
  rfl

/-- what bmap ensures: block bn of the file is b -/
structure Maps (sb : Super) (f g : File) (bn b : ℕ) : Prop where
  grows : Grows sb f g
  block : fileBlock sb (g.image sb) f.inum bn = some b
  /-- the data blocks stay -/
  data : ∀ n y, fileBlock sb (f.image sb) f.inum n = some y → (g.image sb).block y = (f.image sb).block y
  /-- no other block is new -/
  other : ∀ n, n ≠ bn → fileBlock sb (g.image sb) f.inum n = fileBlock sb (f.image sb) f.inum n
  /-- a new block is empty -/
  fresh : fileBlock sb (f.image sb) f.inum bn = none → (g.image sb).block b = fun _ => 0
  same : fileBlock sb (f.image sb) f.inum bn = some b → g = f

theorem gains_maps (hf : FileOk sb f) (hg : Gains sb f g s x) (hs : Spot.of bn = some s) : Maps sb f g bn x where
  grows := gains_grows hf hg
  block := (fileBlock_eq hs _).trans (gains_stored hg)
  data := fun _ _ hn => gains_data hg hn
  other := fun _ hn => gains_other hg fun h => hn (Spot.of_inj h hs)
  fresh := by
    intro h0
    rw [fileBlock_eq hs] at h0
    rcases hg.cases with ⟨h1, -⟩ | ⟨-, hp⟩
    · rw [h0] at h1; cases h1
    · exact hp.zero
  same := by
    intro h0
    rw [fileBlock_eq hs] at h0
    rcases hg.cases with ⟨-, e⟩ | ⟨h1, -⟩
    · exact e
    · rw [h0] at h1; cases h1

/-- the indirect block first, then the entry -/
theorem maps_trans (hf : FileOk sb f) (hg : Gains sb f g (.slot indirectSlot) x) (hh : Gains sb g h (.entry j) y)
    (hs : Spot.of bn = some (.entry j)) : Maps sb f h bn y := by
  have hgrow := gains_grows hf hg
  have hm := gains_maps hgrow.ok hh hs
  have hi := hg.inum
  refine ⟨grows_trans hgrow hm.grows, hi ▸ hm.block, fun n z hn => ?_, fun n hn => ?_, fun h0 => ?_, fun h0 => ?_⟩
  · rw [hm.data n z (hi ▸ hgrow.keeps n z hn), gains_data hg hn]
  · rw [← gains_other hg fun h => Spot.of_ne_indirect h rfl, ← hi]
    exact hm.other n hn
  · refine hm.fresh ?_
    rw [fileBlock_eq hs] at h0 ⊢
    rcases hg.cases with ⟨-, rfl⟩ | ⟨-, hp⟩
    · exact h0
    · rw [hi, hp.stored, update_of_ne (by simp), h0]
  · -- an entry needs its indirect block
    have hgf : g = f := by
      rcases hg.cases with ⟨-, e⟩ | ⟨h1, -⟩
      · exact e
      · rw [fileBlock_eq hs, stored_eq hf.allocated, image_inode, storedIn] at h0
        rw [stored_eq hf.allocated, image_inode, storedIn] at h1
        split_ifs at h0 with hc
        rw [blockNo_pos hc.1] at h1
        cases h1
    subst hgf
    exact hm.same h0

/-- bmap's lookup in the indirect block ind: entry j, allocated if there is none -/
def entryBlock (sb : Super) (ind j : ℕ) : FileM ℕ := do
  let addr := word 4 ((← get).disk ind) (4 * j)
  if addr = 0 then
    let addr ← balloc sb
    modify fun f => { f with disk := update f.disk ind (putWord 4 (f.disk ind) (4 * j) addr) }
    return addr
  return addr

theorem bmap_indirect (hd : ¬ bn < NDIRECT) (hn : bn - NDIRECT < NINDIRECT) :
    bmap sb bn = slotBlock sb indirectSlot >>= fun ind => entryBlock sb ind (bn - NDIRECT) := by
  rw [bmap, dif_neg hd, if_pos hn]
  rfl

theorem entryBlock_spec (hsb : sb.Ok) {ind : ℕ} (hok : FileOk sb g) (hj : j < NINDIRECT)
    (hind : stored sb (g.image sb) (g.inum, .slot indirectSlot) = some ind) :
    wp notFreed (entryBlock sb ind j) (fun b h => Gains sb g h (.entry j) b) g := by
  have hal := hok.allocated
  have hrange := (hok.alloc.range hind).1
  rw [stored_eq hal, image_inode, storedIn, blockNo_eq_some] at hind
  obtain ⟨hind, hpos⟩ := hind
  have h0 : g.ip.addrs indirectSlot ≠ 0 := hind ▸ hpos
  have hentry : (g.image sb).entry ind j = word 4 (g.disk ind) (4 * j) := by
    rw [Image.entry]
    exact congrArg (fun c => word 4 c (4 * j)) (imageOf_block hrange)
  have hst : stored sb (g.image sb) (g.inum, .entry j) = blockNo (word 4 (g.disk ind) (4 * j)) := by
    rw [stored_eq hal, image_inode, storedIn_entry h0 hj, hind, hentry]
  simp only [entryBlock, wp_bind, wp_get, wp_ite, wp_pure]
  refine ⟨fun hz => ?_, fun hz => ⟨rfl, hok.wf, rfl, .inl ⟨by rw [hst, blockNo_pos hz], rfl⟩⟩⟩
  refine wp_mono (balloc_spec hsb hok.alloc) ?_
  rintro x h ⟨hx, hfree, himg, hdisk, hinum, hip⟩
  have hb : h.disk ind = (h.image sb).block ind := (imageOf_block hrange).symm
  have hwrite := imageOf_write (d := h.disk) (c := putWord 4 (h.disk ind) (4 * j) x) hsb hrange
  have hput : File.image sb { h with disk := update h.disk ind (putWord 4 (h.disk ind) (4 * j) x) } =
      (g.image sb).putEntry ind j x := by
    rw [Image.putEntry, ← himg, ← hb, File.image, hwrite]
    rfl
  have hp := placed_entry hsb hok.alloc hal hx hfree (j := j)
    (by rw [image_inode]; exact h0) hj (by rw [image_inode, hind, hentry, hz])
  rw [image_inode, hind, ← hput] at hp
  rw [wp_modify]
  refine ⟨hinum, hip ▸ hok.wf, ?_, .inr ⟨by rw [hst, hz, blockNo_zero], hp⟩⟩
  rw [hwrite, hdisk]
  rfl

theorem bmap_spec (hsb : sb.Ok) (hf : FileOk sb f) (bn : ℕ) :
    wp notFreed (bmap sb bn) (fun b g => Maps sb f g bn b) f := by
  by_cases hd : bn < NDIRECT
  · rw [bmap, dif_pos hd]
    exact wp_mono (slotBlock_spec hsb hf _) fun b g hg => gains_maps hf hg (Spot.of_direct hd)
  by_cases hn : bn - NDIRECT < NINDIRECT
  · rw [bmap_indirect hd hn]
    refine wp_seq (slotBlock_spec hsb hf indirectSlot) fun ind g hg => ?_
    have hind : stored sb (g.image sb) (g.inum, .slot indirectSlot) = some ind := hg.inum ▸ gains_stored hg
    refine wp_mono (entryBlock_spec hsb (gains_grows hf hg).ok hn hind) fun b h hh => ?_
    exact maps_trans hf hg hh (Spot.of_indirect hd hn)
  · rw [bmap, dif_neg hd, if_neg hn, wp_throw, notFreed]
    decide

/-! ## itrunc -/

/-- a slot of the inode that is not the indirect one gives its block back -/
theorem freeSlot_spec (hsb : sb.Ok) (hf : FileOk sb f) (hk : k ≠ indirectSlot) (h0 : f.ip.addrs k ≠ 0) :
    wp notFreed (do bfree sb (f.ip.addrs k); setAddr k 0)
      (fun _ g => FileOk sb g ∧ Changes sb f g ∧ g.ip = f.ip.setAddr k 0) f := by
  have hal := hf.allocated
  have hheld : stored sb (f.image sb) (f.inum, .slot k) = some (f.ip.addrs k) := by
    rw [stored_eq hal, image_inode, storedIn, blockNo_pos h0]
  refine wp_seq (bfree_spec hsb (hf.alloc.range hheld).2 (hf.alloc.used hheld)) ?_
  rintro - g ⟨himg, hdisk, hinum, hip⟩
  have hdrop := alloc_dropSlot hf.alloc hal (k := k) (by rw [image_inode]; exact h0) fun e => absurd e hk
  have himg' : File.image sb { g with ip := f.ip.setAddr k 0 } = (f.image sb).dropSlot f.inum k := by
    rw [Image.dropSlot, image_inode, ← himg, File.image, File.image, hinum, setInode_setInode]
  rw [← himg', ← hip] at hdrop
  have hap : Apart sb f.inum (f.image sb) (File.image sb { g with ip := f.ip.setAddr k 0 }) := by
    rw [himg']
    exact apart_trans (apart_setUsed false) apart_setInode
  rw [← hip] at hap
  simp only [setAddr, wp_modify]
  refine ⟨⟨hinum ▸ hf.inum, wf_setAddr (hip ▸ hf.wf) (by norm_num), hip ▸ hf.type, hdrop⟩,
    ⟨hinum, ?_, ?_, hap⟩, ?_⟩
  · rw [hip]
  · rw [hdisk]; rfl
  · rw [hip]; rfl

/-- itrunc's first loop -/
theorem freeDirect_spec (hsb : sb.Ok) (ks : List (Fin (NDIRECT + 1))) (hks : indirectSlot ∉ ks) (hf : FileOk sb f) :
    wp notFreed (freeDirect sb ks) (fun _ g => FileOk sb g ∧ Changes sb f g ∧
      ∀ k, g.ip.addrs k = if k ∈ ks then 0 else f.ip.addrs k) f := by
  induction ks generalizing f with
  | nil => exact wp_pure.2 ⟨hf, changes_refl, fun k => by simp⟩
  | cons k ks ih =>
    have hk : k ≠ indirectSlot := fun e => hks (e ▸ mem_cons_self)
    have hks' : indirectSlot ∉ ks := fun h => hks (mem_cons_of_mem k h)
    simp only [freeDirect, wp_bind, wp_get, wp_ite]
    refine ⟨fun h0 => ?_, fun h0 => ?_⟩
    · have hslot := freeSlot_spec hsb hf hk h0
      rw [wp_bind] at hslot
      refine wp_mono hslot fun _ g hg => wp_mono hg fun _ g hfree => ?_
      obtain ⟨hok, hch, hip⟩ := hfree
      refine wp_mono (ih hks' hok) ?_
      rintro - g' ⟨hok', hch', hip'⟩
      refine ⟨hok', changes_trans hch hch', fun k' => ?_⟩
      rw [hip', hip]
      by_cases hk' : k' = k
      · rw [hk', setAddr_self]; simp
      · rw [setAddr_ne hk']; simp [hk']
    · rw [not_not] at h0
      refine wp_mono (ih hks' hf) ?_
      rintro - g ⟨hok, hch, hip⟩
      refine ⟨hok, hch, fun k' => ?_⟩
      rw [hip]
      by_cases hk' : k' = k
      · rw [hk', h0]; simp
      · simp [hk']

/-- itrunc's second loop. The blocks are freed, the entries stay: c is the indirect block without the entries freed so far,
and the invariant is kept of the image with c. -/
theorem freeEntries_spec {ind : ℕ} (hsb : sb.Ok) (hi : f.inum < sb.ninodes) (ht : f.ip.type ≠ 0)
    (hind : f.ip.addrs indirectSlot = ind) (h0 : ind ≠ 0) (hrange : sb.dataStart ≤ ind)
    (js : List ℕ) (hnd : js.Nodup) (hjs : ∀ j ∈ js, j < NINDIRECT) (hA : Alloc sb ((f.image sb).setBlock ind c))
    (hc : ∀ j, j < NINDIRECT → word 4 c (4 * j) = if j ∈ js then (f.image sb).entry ind j else 0) :
    wp notFreed (freeEntries sb ind js) (fun _ g => Changes sb f g ∧ g.ip = f.ip ∧
      ∃ c', Alloc sb ((g.image sb).setBlock ind c') ∧ ∀ j, j < NINDIRECT → word 4 c' (4 * j) = 0) f := by
  induction js generalizing f c with
  | nil => exact wp_pure.2 ⟨changes_refl, rfl, c, hA, fun j hj => by simpa using hc j hj⟩
  | cons j js ih =>
    obtain ⟨hj, hnd⟩ := nodup_cons.1 hnd
    have hlt := hjs j mem_cons_self
    have hjs' : ∀ n ∈ js, n < NINDIRECT := fun n hn => hjs n (mem_cons_of_mem j hn)
    have hentry : (f.image sb).entry ind j = word 4 (f.disk ind) (4 * j) := by
      rw [Image.entry]
      exact congrArg (fun c => word 4 c (4 * j)) (imageOf_block hrange)
    have hcj : ((f.image sb).setBlock ind c).entry ind j = word 4 (f.disk ind) (4 * j) := by
      rw [Image.entry, setBlock_self, hc j hlt, if_pos mem_cons_self, hentry]
    have hal : allocated sb ((f.image sb).setBlock ind c) f.inum := by
      rw [Fs.allocated]
      exact ⟨hi, by rw [show ((f.image sb).setBlock ind c).inode f.inum = f.ip from image_inode]; exact ht⟩
    have hin : ((f.image sb).setBlock ind c).inode f.inum = f.ip := image_inode
    simp only [freeEntries, wp_bind, wp_get, wp_ite]
    refine ⟨fun hz => ?_, fun hz => ?_⟩
    · have hheld : stored sb ((f.image sb).setBlock ind c) (f.inum, .entry j) = some (word 4 (f.disk ind) (4 * j)) := by
        rw [stored_eq hal, hin, storedIn_entry (by rw [hind]; exact h0) hlt, hind, hcj, blockNo_pos hz]
      refine wp_mono (bfree_spec hsb (hA.range hheld).2 (hA.used hheld)) ?_
      rintro - g ⟨himg, hdisk, hinum, hip⟩
      have hdrop := alloc_dropEntry hA hal (j := j) (by rw [hin, hind]; exact h0) hlt
        (by rw [hin, hind, hcj]; exact hz)
      rw [hin, hind, Image.dropEntry, hcj, setBlock_self] at hdrop
      have himg' : ((((f.image sb).setBlock ind c).setUsed (word 4 (f.disk ind) (4 * j)) false).setBlock ind
          (putWord 4 c (4 * j) 0)) = (g.image sb).setBlock ind (putWord 4 c (4 * j) 0) := by
        rw [himg]
        simp only [Image.setBlock, Image.setUsed, update_idem]
      rw [himg'] at hdrop
      have hch : Changes sb f g := by
        refine ⟨hinum, by rw [hip], by rw [hdisk]; rfl, ?_⟩
        rw [himg]
        exact apart_setUsed false
      refine wp_mono (ih (hinum ▸ hi) (hip ▸ ht) (hip ▸ hind) hnd hjs' hdrop fun n hn => ?_) ?_
      · have hput := entry_putWord (v := (f.image sb).setBlock ind c) (b := ind) (n := n) hlt (x := 0) (by norm_num)
        rw [Image.entry, setBlock_self, setBlock_self, Image.entry, setBlock_self] at hput
        rw [hput, hc n hn, himg]
        by_cases hnj : n = j
        · rw [if_pos hnj, if_neg (by rw [hnj]; exact hj)]
        · simp only [mem_cons, hnj, false_or]
          rfl
      · rintro - g' ⟨hch', hip', hc'⟩
        exact ⟨changes_trans hch hch', hip'.trans hip, hc'⟩
    · rw [not_not] at hz
      refine ih hi ht hind hnd hjs' hA fun n hn => ?_
      rw [hc n hn]
      by_cases hnj : n = j
      · rw [hnj, if_pos mem_cons_self, if_neg hj, hentry, hz]
      · simp only [mem_cons, hnj, false_or]

/-- the indirect block is freed once its entries are -/
theorem freeIndirect_spec (hsb : sb.Ok) (hf : FileOk sb f) (h0 : f.ip.addrs indirectSlot ≠ 0) :
    wp notFreed (do
        freeEntries sb (f.ip.addrs indirectSlot) (List.range NINDIRECT)
        bfree sb (f.ip.addrs indirectSlot)
        setAddr indirectSlot 0)
      (fun _ g => FileOk sb g ∧ Changes sb f g ∧ g.ip = f.ip.setAddr indirectSlot 0) f := by
  have hal := hf.allocated
  have hheld : stored sb (f.image sb) (f.inum, .slot indirectSlot) = some (f.ip.addrs indirectSlot) := by
    rw [stored_eq hal, image_inode, storedIn, blockNo_pos h0]
  have hrange := hf.alloc.range hheld
  set ind := f.ip.addrs indirectSlot with hind
  have hstart : (f.image sb).setBlock ind ((f.image sb).block ind) = f.image sb := by
    simp only [Image.setBlock, update_eq_self]
  refine wp_seq (freeEntries_spec hsb hf.inum hf.type hind.symm h0 hrange.1 (List.range NINDIRECT) nodup_range
    (fun j hj => mem_range.1 hj) (hstart.symm ▸ hf.alloc) fun j hj => ?_) ?_
  · rw [if_pos (mem_range.2 hj), Image.entry]
  · rintro - g ⟨hch, hip, c, hA, hc⟩
    have hin : ((g.image sb).setBlock ind c).inode g.inum = g.ip := image_inode
    have halg : allocated sb ((g.image sb).setBlock ind c) g.inum := by
      rw [Fs.allocated, hin, hip, hch.inum]
      exact ⟨hf.inum, hf.type⟩
    have hg0 : g.ip.addrs indirectSlot = ind := by rw [hip]
    have hheldg : stored sb ((g.image sb).setBlock ind c) (g.inum, .slot indirectSlot) = some ind := by
      rw [stored_eq halg, hin, storedIn, hg0, blockNo_pos h0]
    refine wp_seq (bfree_spec hsb hrange.2 (hA.used hheldg)) ?_
    rintro - h ⟨himg, hdisk, hinum, hip'⟩
    have hent : ∀ j, j < NINDIRECT → ((g.image sb).setBlock ind c).entry ind j = 0 := by
      intro j hj
      rw [Image.entry, setBlock_self, hc j hj]
    have hdrop := alloc_dropSlot hA halg (k := indirectSlot) (by rw [hin, hg0]; exact h0)
      fun _ j hj => by rw [hin, hg0]; exact hent j hj
    -- the freed block is no indirect block any more, so its entries do not count
    have hlost : ∀ i, stored sb (((g.image sb).setBlock ind c).dropSlot g.inum indirectSlot) (i, .slot indirectSlot) ≠
        some ind := by
      intro i hi
      by_cases hig : i = g.inum
      · rw [hig, Image.dropSlot, stored_setInode (hch.inum ▸ hf.inum)
          (by rw [hin, hip]; exact hf.type), storedIn, setAddr_self] at hi
        cases hi
      · rw [Image.dropSlot, stored_setInode_ne hig] at hi
        exact hig (congrArg Prod.fst (hA.exact.inj _ _ _ hi hheldg))
    have hend := alloc_write (c := (g.image sb).block ind) hdrop hlost
    have himg' : File.image sb { h with ip := h.ip.setAddr indirectSlot 0 } =
        ((g.image sb).setUsed ind false).setInode g.inum (g.ip.setAddr indirectSlot 0) := by
      rw [← himg, File.image, File.image, hinum, setInode_setInode, hip']
    have hback : (((g.image sb).setBlock ind c).dropSlot g.inum indirectSlot).setBlock ind ((g.image sb).block ind) =
        ((g.image sb).setUsed ind false).setInode g.inum (g.ip.setAddr indirectSlot 0) := by
      rw [Image.dropSlot, hin, hg0]
      simp only [Image.setInode, Image.setUsed, Image.setBlock, update_idem, update_eq_self]
    rw [hback, ← himg'] at hend
    have hch' : Changes sb g { h with ip := h.ip.setAddr indirectSlot 0 } := by
      refine ⟨hinum, by rw [hip']; rfl, by rw [hdisk]; rfl, ?_⟩
      rw [himg']
      exact apart_trans (apart_setUsed false) apart_setInode
    simp only [setAddr, wp_modify]
    refine ⟨⟨hinum ▸ hch.inum ▸ hf.inum, wf_setAddr (hip' ▸ hip ▸ hf.wf) (by norm_num), ?_, hend⟩,
      changes_trans hch hch', by rw [hip', hip]; rfl⟩
    rw [hip', hip]
    exact hf.type

theorem mem_directSlots : k ∈ directSlots ↔ k ≠ indirectSlot := by
  rw [directSlots, mem_map, indirectSlot]
  constructor
  · rintro ⟨n, -, rfl⟩
    exact (Fin.castSucc_lt_last n).ne
  · intro h
    exact ⟨k.castPred h, mem_finRange _, Fin.castSucc_castPred k h⟩

/-- what itrunc leaves: an empty inode, in memory and on the disk -/
structure Truncated (sb : Super) (f g : File) : Prop where
  ok : FileOk sb g
  inum : g.inum = f.inum
  ip : g.ip = { f.ip with size := 0, addrs := fun _ => 0 }
  apart : Apart sb f.inum (f.image sb) (g.image sb)
  synced : imageOf sb g.disk = g.image sb

theorem itrunc_spec (hsb : sb.Ok) (hf : FileOk sb f) : wp notFreed (itrunc sb) (fun _ g => Truncated sb f g) f := by
  -- the end: size 0, and the inode goes to the disk
  have hend : ∀ g, FileOk sb g → Changes sb f g → (∀ k, g.ip.addrs k = 0) →
      wp notFreed (do modify fun f => { f with ip := { f.ip with size := 0 } }; iupdate sb) (fun _ h => Truncated sb f h) g := by
    intro g hok hch hz
    have hip : ({ g.ip with size := 0 } : Dinode) = { f.ip with size := 0, addrs := fun _ => 0 } := by
      rw [hch.fields]
      exact congrArg (fun a => (⟨_, _, _, _, _, a⟩ : Dinode)) (funext hz)
    have hwf : ({ g.ip with size := 0 } : Dinode).Wf :=
      ⟨hok.wf.type, hok.wf.major, hok.wf.minor, hok.wf.nlink, by norm_num, hok.wf.addrs⟩
    rw [wp_bind, wp_modify, iupdate, wp_modify]
    show Truncated sb f (g.put sb { g.ip with size := 0 })
    refine ⟨put_ok hsb hok hwf hok.type rfl, hch.inum, hip, ?_, put_synced hsb hok hwf⟩
    exact apart_trans hch.apart (hch.inum ▸ put_apart hsb hok hwf)
  rw [itrunc]
  refine wp_seq (freeDirect_spec hsb directSlots (by simp [mem_directSlots]) hf) ?_
  rintro - g ⟨hok, hch, hip⟩
  simp only [wp_bind, wp_get, wp_ite]
  refine ⟨fun h0 => ?_, fun h0 => ?_⟩
  · have hind := freeIndirect_spec hsb hok h0
    simp only [wp_bind] at hind
    refine wp_mono hind fun _ _ h1 => wp_mono h1 fun _ _ h2 => wp_mono h2 ?_
    rintro - g' ⟨hok', hch', hip'⟩
    have := hend g' hok' (changes_trans hch hch') fun k => ?_
    · simpa only [wp_bind] using this
    · rw [hip']
      by_cases hk : k = indirectSlot
      · rw [hk, setAddr_self]
      · rw [setAddr_ne hk, hip, if_pos (mem_directSlots.2 hk)]
  · rw [not_not] at h0
    have := hend g hok hch fun k => ?_
    · simpa only [wp_bind] using this
    · by_cases hk : k = indirectSlot
      · rw [hk, h0]
      · rw [hip, if_pos (mem_directSlots.2 hk)]

end Xv6.Fs
