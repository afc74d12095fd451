/-
Block allocation and cache coherence of the file system, said of the disk itself.

- `rawImage sb d`: the inodes, bits and blocks of the disk d, as they are. `imageOf` (`Fs.Blocks`) leaves out what no
  function looks at; the two are consistent together (`consistent_raw`).
- A run starts with an empty cache from a consistent disk: block numbers stored once, the bit map exact, every block below
  a file's size mapped, directory entries naming inodes of the disk.

Results:
- `blocks_allocated_once`: **in every state that a run reaches, every block number that an allocated inode stores is that of
  a data block and is stored in one place, and the bit of a data block is set exactly if it is stored; no run ends in
  bfree's panic**;
- `icache_coherent`: **the cache has one entry in use for an inode, an unlocked valid entry is the inode on the disk, every
  block below a file's size is mapped, and readi of a locked inode that is no device changes nothing**;
- `cleared_bit_breaks_cache`: on a disk whose bit map misses the inode block, the cache does not stay coherent.
-/
import Xv6.Fs.Coherence

namespace Xv6.Fs

open Bytes Owners Fallible

/-- the disk as it is -/
def rawImage (sb : Super) (d : Disk) : Image := ⟨inodeOf sb d, usedBit sb d, d⟩

variable {sb : Super} {dev : Devsw} {d : Disk} {i n : ℕ} {p : ℕ × Spot}

/-! ## The disk and its image -/

theorem raw_inode (hi : i < sb.ninodes) : (rawImage sb d).inode i = (imageOf sb d).inode i := (imageOf_inode hi).symm

theorem raw_allocated : allocated sb (rawImage sb d) i ↔ allocated sb (imageOf sb d) i := by
  rw [allocated, allocated]
  refine and_congr_right fun hi => ?_
  rw [raw_inode hi]

/-- the indirect blocks are data blocks -/
def IndirectInData (sb : Super) (v : Image) : Prop :=
  ∀ i, allocated sb v i → (v.inode i).addrs indirectSlot ≠ 0 → sb.dataStart ≤ (v.inode i).addrs indirectSlot

theorem Alloc.inData {v : Image} (h : Alloc sb v) : IndirectInData sb v := fun _ ha h0 => (h.range (stored_indirect ha h0)).1

theorem raw_stored (h : IndirectInData sb (imageOf sb d)) (p : ℕ × Spot) :
    stored sb (rawImage sb d) p = stored sb (imageOf sb d) p := by
  obtain ⟨i, s⟩ := p
  by_cases hi : i < sb.ninodes
  · refine stored_same (v := imageOf sb d) (w := rawImage sb d) (raw_inode hi) (fun ha h0 => ?_) s
    exact (imageOf_block (h i ha h0)).symm
  · rw [stored_free fun ha => hi ha.1, stored_free fun ha => hi ha.1]

theorem raw_inData : IndirectInData sb (rawImage sb d) ↔ IndirectInData sb (imageOf sb d) := by
  refine forall_congr' fun i => ?_
  rw [raw_allocated]
  refine imp_congr_right fun ha => ?_
  rw [raw_inode ha.1]

theorem raw_inUse (x : ℕ) : inUse sb (rawImage sb d) x ↔ inUse sb (imageOf sb d) x := by
  rw [inUse, inUse]
  refine and_congr_right fun _ => and_congr_right fun hx => ?_
  rw [imageOf_used hx]
  rfl

section Raw

variable (h : IndirectInData sb (imageOf sb d))
include h

theorem raw_alloc (hsb : sb.Ok) : Alloc sb (rawImage sb d) ↔ Alloc sb (imageOf sb d) := by
  have hlow : ∀ x, x < sb.dataStart → (rawImage sb d).used x = (imageOf sb d).used x := fun x hx =>
    (imageOf_used (lt_of_lt_of_le hx hsb.data)).symm
  constructor
  · intro ha
    exact ⟨exact_same ha.exact (fun q => (raw_stored h q).symm) fun x => (raw_inUse x).symm,
      fun x hx => (hlow x hx).symm.trans (ha.low x hx)⟩
  · intro ha
    exact ⟨exact_same ha.exact (raw_stored h) raw_inUse, fun x hx => (hlow x hx).trans (ha.low x hx)⟩

theorem raw_fileBlock (i n : ℕ) : fileBlock sb (rawImage sb d) i n = fileBlock sb (imageOf sb d) i n := by
  rw [fileBlock, fileBlock]
  congr 1
  funext s
  exact raw_stored h (i, s)

theorem raw_full (hi : i < sb.ninodes) : Full sb (rawImage sb d) i ↔ Full sb (imageOf sb d) i := by
  refine forall_congr' fun n => ?_
  rw [raw_fileBlock h, raw_inode hi]

theorem raw_fileByte (ha : Alloc sb (imageOf sb d)) (i o : ℕ) : fileByte sb (rawImage sb d) i o = fileByte sb (imageOf sb d) i o := by
  have hb := raw_fileBlock h i (o / BSIZE)
  cases hx : fileBlock sb (imageOf sb d) i (o / BSIZE) with
  | none => rw [fileByte_none hx, fileByte_none (hb.trans hx)]
  | some x =>
    rw [fileByte_some hx, fileByte_some (hb.trans hx), imageOf_block (fileBlock_range ha hx).1]
    rfl

theorem raw_dirOk (ha : Alloc sb (imageOf sb d)) (hi : i < sb.ninodes) : DirOk sb (rawImage sb d) i ↔ DirOk sb (imageOf sb d) i := by
  refine forall_congr' fun t => ?_
  rw [raw_inode hi, entryInum, entryInum, fileBytes, fileBytes]
  simp only [raw_fileByte h ha]

end Raw

theorem consistent_raw (hsb : sb.Ok) : Consistent sb (rawImage sb d) ↔ Consistent sb (imageOf sb d) := by
  constructor
  · intro h
    have hin : IndirectInData sb (imageOf sb d) := raw_inData.1 h.alloc.inData
    have ha : Alloc sb (imageOf sb d) := (raw_alloc hin hsb).1 h.alloc
    refine ⟨ha, fun i hi => (raw_full hin hi.1).1 (h.full i (raw_allocated.2 hi)), fun i hi ht => ?_⟩
    refine (raw_dirOk hin ha hi.1).1 (h.dirs i (raw_allocated.2 hi) ?_)
    rw [raw_inode hi.1]
    exact ht
  · intro h
    have hin := h.alloc.inData
    refine ⟨(raw_alloc hin hsb).2 h.alloc, fun i hi => (raw_full hin hi.1).2 (h.full i (raw_allocated.1 hi)), fun i hi ht => ?_⟩
    refine (raw_dirOk hin h.alloc hi.1).2 (h.dirs i (raw_allocated.1 hi) ?_)
    rw [← raw_inode hi.1]
    exact ht

/-- the cache is empty at first -/
theorem icache_boot_ok (hsb : sb.Ok) (hd : Consistent sb (rawImage sb d)) : (Icache.boot d).Ok sb :=
  ⟨(consistent_raw hsb).1 hd, fun _ h0 => absurd h0 (by simp [Icache.boot]), fun _ _ h0 => absurd h0 (by simp [Icache.boot]),
    fun _ h0 => absurd h0 (by simp [Icache.boot]), fun _ hl => absurd hl (by simp [Icache.boot])⟩

/-! ## Blocks -/

/-- **Block allocation.** -/
theorem blocks_allocated_once (sb : Super) (dev : Devsw) (d : Disk) (ops : List FsOp) (hsb : sb.Ok)
    (hd : Consistent sb (rawImage sb d)) :
    match fsRun sb dev (.boot d) ops with
    | .ok s =>
      (∀ p x, stored sb (rawImage sb s.disk) p = some x → sb.dataStart ≤ x ∧ x < sb.size ∧
        ∀ q, stored sb (rawImage sb s.disk) q = some x → q = p) ∧
      ∀ x, sb.dataStart ≤ x → x < sb.size → (usedBit sb s.disk x = true ↔ ∃ p, stored sb (rawImage sb s.disk) p = some x)
    | .error msg => msg ≠ "freeing free block" := by
  have hrun := fsRun_ok dev hsb (icache_boot_ok hsb hd) ops
  cases h : fsRun sb dev (.boot d) ops with
  | error msg => rw [h] at hrun; exact hrun
  | ok s =>
    rw [h] at hrun
    have ha : Alloc sb (rawImage sb s.disk) := ((consistent_raw hsb).2 hrun.disk).alloc
    refine ⟨fun p x hp => ⟨(ha.range hp).1, (ha.range hp).2, fun q hq => ha.exact.inj q p x hq hp⟩, fun x h1 h2 => ?_⟩
    refine Iff.trans ?_ (ha.exact.used x)
    exact ⟨fun hu => ⟨h1, h2, hu⟩, fun hu => hu.2.2⟩

/-- ten blocks: the inodes are in block 2, the bit map in block 3, the data blocks are 4 to 9 -/
def smallSuper : Super := ⟨10, 6, 8, 0, 2, 2, 3⟩

/-- no inode is in use; the bits of the map as given -/
def smallDisk (bits : UInt8) : Disk := fun x i => if x = 3 ∧ i.val = 0 then bits else 0

def noDevices : Devsw := ⟨fun _ => none, fun _ => none⟩

theorem smallSuper_ok : smallSuper.Ok := by constructor <;> decide

/-- all blocks but the map are zero -/
theorem smallDisk_zero (bits : UInt8) (hblock : sb.iblock i ≠ 3) : (inodeOf sb (smallDisk bits) i).type = 0 := by
  have hzero : smallDisk bits (sb.iblock i) = fun _ => 0 := by
    funext j
    simp [smallDisk, hblock]
  rw [inodeOf, hzero]
  simp [dinodeAt, word, slice, byteAt, le]

theorem smallDisk_type (bits : UInt8) (hi : i < smallSuper.ninodes) : (inodeOf smallSuper (smallDisk bits) i).type = 0 := by
  refine smallDisk_zero bits ?_
  have hi : i < 8 := hi
  have hI := IPB_eq
  rw [Super.iblock, hI]
  simp only [smallSuper]
  omega

theorem smallDisk_free (bits : UInt8) : ¬ allocated smallSuper (rawImage smallSuper (smallDisk bits)) i :=
  fun ha => ha.2 (smallDisk_type bits ha.1)

theorem smallDisk_consistent : Consistent smallSuper (rawImage smallSuper (smallDisk 15)) := by
  refine ⟨⟨⟨fun p q x hp => ?_, fun x => ?_⟩, fun x hx => ?_⟩, fun i ha => absurd ha (smallDisk_free 15),
    fun i ha => absurd ha (smallDisk_free 15)⟩
  · rw [stored, if_neg (smallDisk_free 15)] at hp
    cases hp
  · have hfree : ∀ x, x < 10 → 4 ≤ x → usedBit smallSuper (smallDisk 15) x = false := by decide
    constructor
    · rintro ⟨h1, h2, h3⟩
      have h3 : usedBit smallSuper (smallDisk 15) x = true := h3
      rw [hfree x h2 h1] at h3
      cases h3
    · rintro ⟨p, hp⟩
      rw [stored, if_neg (smallDisk_free 15)] at hp
      cases hp
  · have hused : ∀ x, x < 4 → usedBit smallSuper (smallDisk 15) x = true := by decide
    exact hused x hx

/-- a file is created and written, and gains a block -/
def growOps : List FsOp := [.ialloc 2, .ilock 0, .writei 0 [1, 2, 3] 0, .iunlock 0]

theorem blocks_allocated_once_grow : smallSuper.Ok ∧ Consistent smallSuper (rawImage smallSuper (smallDisk 15)) ∧
    (fsRun smallSuper noDevices (.boot (smallDisk 15)) growOps).isOk = true ∧
    match fsRun smallSuper noDevices (.boot (smallDisk 15)) growOps with
    | .ok s =>
      (∀ p x, stored smallSuper (rawImage smallSuper s.disk) p = some x → smallSuper.dataStart ≤ x ∧ x < smallSuper.size ∧
        ∀ q, stored smallSuper (rawImage smallSuper s.disk) q = some x → q = p) ∧
      ∀ x, smallSuper.dataStart ≤ x → x < smallSuper.size →
        (usedBit smallSuper s.disk x = true ↔ ∃ p, stored smallSuper (rawImage smallSuper s.disk) p = some x)
    | .error msg => msg ≠ "freeing free block" :=
  ⟨smallSuper_ok, smallDisk_consistent, by decide +kernel,
    blocks_allocated_once smallSuper noDevices (smallDisk 15) growOps smallSuper_ok smallDisk_consistent⟩

/-! ## The cache -/

/-- what coherence says of a state -/
structure Coherent (sb : Super) (dev : Devsw) (s : Icache) : Prop where
  once : ∀ e e', 0 < (s.inode e).ref → 0 < (s.inode e').ref → (s.inode e).inum = (s.inode e').inum → e = e'
  copy : ∀ e, 0 < (s.inode e).ref → (s.inode e).valid = true → (s.inode e).locked = false →
    (s.inode e).din = inodeOf sb s.disk (s.inode e).inum
  mapped : ∀ e, 0 < (s.inode e).ref → (s.inode e).valid = true → ∀ bn, bn < ((s.inode e).din.size + BSIZE - 1) / BSIZE →
    ∃ x, x ≠ 0 ∧ fileBlock sb (rawImage sb s.disk) (s.inode e).inum bn = some x
  read : ∀ e, (s.inode e).locked = true → (s.inode e).din.type ≠ T_DEV → ∀ off n, n < 2 ^ 32 →
    ∃ r, readi sb dev off n (s.file e) = .ok (r, s.file e)

/-- **Cache coherence.** -/
theorem icache_coherent (sb : Super) (dev : Devsw) (d : Disk) (ops : List FsOp) (s : Icache) (hsb : sb.Ok)
    (hd : Consistent sb (rawImage sb d)) (hrun : fsRun sb dev (.boot d) ops = .ok s) : Coherent sb dev s := by
  have hok : s.Ok sb := by
    have := fsRun_ok dev hsb (icache_boot_ok hsb hd) ops
    rw [hrun] at this
    exact this
  refine ⟨hok.once, fun e h0 hv _ => (hok.copy e h0 hv).1, fun e h0 hv bn hbn => ?_, fun e hl _ off n hn => ?_⟩
  · have hf := sound_valid hok h0 hv
    have hB := BSIZE_eq
    have hlt : bn * BSIZE < (s.inode e).din.size := by
      rw [hB] at hbn ⊢
      omega
    obtain ⟨x, hx⟩ := Option.ne_none_iff_exists'.1 (hf.full bn (by rw [image_inode]; exact hlt))
    rw [← hf.synced] at hx
    have hx' : fileBlock sb (imageOf sb s.disk) (s.inode e).inum bn = some x := hx
    refine ⟨x, ?_, (raw_fileBlock hok.disk.alloc.inData _ _).trans hx'⟩
    have := (fileBlock_range hok.disk.alloc hx').1
    have := hsb.map
    omega
  · obtain ⟨h0, hv⟩ := hok.lock e hl
    have hf := sound_valid hok h0 hv
    have hread := readi_spec (E := fun _ => False) hf.ok hf.full dev off n hn
    rw [wp] at hread
    cases hr : readi sb dev off n (s.file e) with
    | error msg => rw [hr] at hread; exact hread.elim
    | ok q =>
      rw [hr] at hread
      exact ⟨q.1, by rw [← hread.1]⟩

/-- the state at the end of a run -/
def endState (r : Except String Icache) : Icache :=
  match r with
  | .ok s => s
  | .error _ => .boot fun _ _ => 0

theorem endState_eq {r : Except String Icache} (h : r.isOk = true) : r = .ok (endState r) := by
  cases r with
  | ok s => rfl
  | error msg => cases h

theorem icache_coherent_grow :
    fsRun smallSuper noDevices (.boot (smallDisk 15)) growOps =
      .ok (endState (fsRun smallSuper noDevices (.boot (smallDisk 15)) growOps)) ∧
    Coherent smallSuper noDevices (endState (fsRun smallSuper noDevices (.boot (smallDisk 15)) growOps)) := by
  have hrun := endState_eq (r := fsRun smallSuper noDevices (.boot (smallDisk 15)) growOps) (by decide +kernel)
  exact ⟨hrun, icache_coherent smallSuper noDevices (smallDisk 15) growOps _ smallSuper_ok smallDisk_consistent hrun⟩

/-- two files are created; the second one is cached; the first one is written -/
def clobberOps : List FsOp := [.ialloc 2, .ialloc 2, .ilock 1, .iunlock 1, .ilock 0, .writei 0 [1] 0, .iunlock 0]

/-- the bit of the inode block is clear: writei takes that block, and the inode of the second file is gone -/
theorem cleared_bit_breaks_cache :
    (∀ i, allocated smallSuper (rawImage smallSuper (smallDisk 11)) i →
      Full smallSuper (rawImage smallSuper (smallDisk 11)) i) ∧
    fsRun smallSuper noDevices (.boot (smallDisk 11)) clobberOps =
      .ok (endState (fsRun smallSuper noDevices (.boot (smallDisk 11)) clobberOps)) ∧
    ¬ Coherent smallSuper noDevices (endState (fsRun smallSuper noDevices (.boot (smallDisk 11)) clobberOps)) := by
  refine ⟨fun i ha => absurd ha (smallDisk_free 11), endState_eq (by decide +kernel), fun h => ?_⟩
  have hcopy := congrArg Dinode.type (h.copy 1 (by decide +kernel) (by decide +kernel) (by decide +kernel))
  revert hcopy
  decide +kernel

end Xv6.Fs
