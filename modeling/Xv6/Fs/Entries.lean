/-
Directories keep valid entries, and what a call on a locked inode keeps.

- `DirOk v i`: the entries of directory i name inodes of the disk.
- `Consistent v`: the blocks are allocated to their places, every file has the blocks below its size, and the directories
  have valid entries.
- `Sound f`: a locked inode of a consistent image whose copy on the disk is up to date. `Kept f g`: g is sound again, and
  nothing of another inode has changed.

Results:
- `lookupEntry_spec`: looking up an entry;
- `readi_kept`, `writei_kept`, `itrunc_kept`, `put_kept`, `addEntry_kept`, `clear_kept`: the calls on a locked inode;
- `consistent_apart`: an image stays consistent when one inode changes.
-/
import Xv6.Fs.Contents
import Xv6.Fs.Dir

namespace Xv6.Fs

open Bytes Owners Fallible List

variable {sb : Super} {dev : Devsw} {v w : Image} {f g h : File} {i j t off n k inum : ℕ} {di : Dinode} {de : Dirent} {name : Name}
  {E : String → Prop} {src : List UInt8} {msg : String}

/-! ## Entries -/

/-- the number in entry t of a directory -/
def entryInum (sb : Super) (v : Image) (i t : ℕ) : ℕ := le (fileBytes sb v i (DESIZE * t) 2)

def DirOk (sb : Super) (v : Image) (i : ℕ) : Prop :=
  ∀ t, DESIZE * t + DESIZE ≤ (v.inode i).size → entryInum sb v i t < sb.ninodes

theorem direntOf_inum (o : ℕ) : (direntOf (fileBytes sb v i o DESIZE)).inum = le (fileBytes sb v i o 2) := by
  have h : fileBytes sb v i o (2 + 14) = fileBytes sb v i o 2 ++ fileBytes sb v i (o + 2) 14 := (fileBytes_append 2).symm
  rw [direntOf, show DESIZE = 2 + 14 from rfl, h, take_left' fileBytes_length]

section Read

variable (hf : FileOk sb f) (hfull : Full sb (f.image sb) f.inum)
include hf hfull

theorem readDirent_spec (hE : E msg) (ht : f.ip.type ≠ T_DEV) (off : ℕ) : wp E (readDirent sb dev msg off) (fun de g =>
    g = f ∧ off + DESIZE ≤ f.ip.size ∧ de = direntOf (fileBytes sb (f.image sb) f.inum off DESIZE)) f := by
  refine wp_seq (readi_spec hf hfull dev off DESIZE (by norm_num)) ?_
  rintro r g ⟨rfl, hr⟩
  have hr := hr ht
  have hD := DESIZE_eq
  have hsize := hf.wf.size
  rw [readResult, image_inode] at hr
  split_ifs at hr with hbad hshort
  · subst hr
    exact wp_throw.2 hE
  · -- fewer bytes are left than an entry has
    subst hr
    simp only [wp_ite, wp_pure, wp_throw, fileBytes_length]
    have hsum := uint32_add (m := off) (n := DESIZE) (by omega) (by norm_num) (by omega)
    exact ⟨fun hlen => absurd hlen (by omega), fun _ => hE⟩
  · subst hr
    have hsum := uint32_add (m := off) (n := DESIZE) (by omega) (by norm_num) (by omega)
    simp only [wp_ite, wp_pure, wp_throw, fileBytes_length, forall_const, not_true_eq_false, false_implies, and_true]
    exact ⟨trivial, by omega⟩

theorem findEntry_spec (hE : E "dirlookup read") (ht : f.ip.type ≠ T_DEV) (hoff : off % DESIZE = 0) :
    wp E (findEntry sb dev name k off) (fun r g => g = f ∧ ∀ inum o, r = some (inum, o) → o % DESIZE = 0 ∧
      o + DESIZE ≤ f.ip.size ∧ inum = le (fileBytes sb (f.image sb) f.inum o 2)) f := by
  induction k generalizing off with
  | zero => exact wp_pure.2 ⟨rfl, fun inum o h => by cases h⟩
  | succ k ih =>
    simp only [findEntry, wp_bind, wp_get, wp_ite, wp_pure]
    refine ⟨fun _ => ⟨trivial, fun inum o h => by cases h⟩, fun _ => ?_⟩
    refine wp_mono (readDirent_spec hf hfull hE ht off) ?_
    rintro de g ⟨rfl, hle, rfl⟩
    refine ⟨fun _ => ⟨rfl, fun inum o h => ?_⟩, fun _ => ih (by rw [Nat.add_mod_right]; exact hoff)⟩
    simp only [Option.some.injEq, Prod.mk.injEq] at h
    obtain ⟨rfl, rfl⟩ := h
    exact ⟨hoff, hle, direntOf_inum off⟩

/-- **dirlookup** changes nothing; it returns the number and the place of an entry. -/
theorem lookupEntry_spec (hE : E "dirlookup read") (hE' : E "dirlookup not DIR") : wp E (lookupEntry sb dev name) (fun r g =>
    g = f ∧ f.ip.type = T_DIR ∧ ∀ inum o, r = some (inum, o) → o % DESIZE = 0 ∧
      o + DESIZE ≤ f.ip.size ∧ inum = le (fileBytes sb (f.image sb) f.inum o 2)) f := by
  simp only [lookupEntry, wp_bind, wp_get, wp_ite, wp_throw]
  refine ⟨fun _ => hE', fun ht => ?_⟩
  rw [not_not] at ht
  refine wp_mono (findEntry_spec hf hfull hE (by rw [ht]; decide) rfl) ?_
  rintro r g ⟨rfl, hr⟩
  exact ⟨rfl, ht, hr⟩

theorem emptyEntry_spec (hE : E "dirlink read") (ht : f.ip.type ≠ T_DEV) (hoff : off % DESIZE = 0) :
    wp E (emptyEntry sb dev k off) (fun o g => g = f ∧ o % DESIZE = 0) f := by
  induction k generalizing off with
  | zero => exact wp_pure.2 ⟨rfl, hoff⟩
  | succ k ih =>
    simp only [emptyEntry, wp_bind, wp_get, wp_ite, wp_pure]
    refine ⟨fun _ => ⟨trivial, hoff⟩, fun _ => ?_⟩
    refine wp_mono (readDirent_spec hf hfull hE ht off) ?_
    rintro de g ⟨rfl, -, -⟩
    exact ⟨fun _ => ⟨rfl, hoff⟩, fun _ => ih (by rw [Nat.add_mod_right]; exact hoff)⟩

theorem isdirempty_spec (hE : E "isdirempty: readi") (ht : f.ip.type ≠ T_DEV) :
    wp E (isdirempty sb dev) (fun _ g => g = f) f := by
  have hloop : ∀ k off, wp E (emptyFrom sb dev k off) (fun _ g => g = f) f := by
    intro k
    induction k with
    | zero => exact fun _ => wp_pure.2 rfl
    | succ k ih =>
      intro off
      simp only [emptyFrom, wp_bind, wp_get, wp_ite, wp_pure]
      refine ⟨fun _ => trivial, fun _ => wp_mono (readDirent_spec hf hfull hE ht off) ?_⟩
      rintro de g ⟨rfl, -, -⟩
      exact ⟨fun _ => rfl, fun _ => ih _⟩
  simp only [isdirempty, wp_bind, wp_get]
  exact hloop _ _

end Read

/-! ## Consistent images -/

structure Consistent (sb : Super) (v : Image) : Prop where
  alloc : Alloc sb v
  full : ∀ i, allocated sb v i → Full sb v i
  dirs : ∀ i, allocated sb v i → (v.inode i).type = T_DIR → DirOk sb v i

theorem apart_fileBlock (h : Apart sb i v w) (hj : j ≠ i) : fileBlock sb w j n = fileBlock sb v j n := by
  rw [fileBlock, fileBlock]
  congr 1
  funext s
  exact apart_stored h hj

theorem apart_fileByte (h : Apart sb i v w) (hj : j ≠ i) (o : ℕ) : fileByte sb w j o = fileByte sb v j o := by
  have hb := apart_fileBlock (n := o / BSIZE) h hj
  cases hv : fileBlock sb v j (o / BSIZE) with
  | none => rw [fileByte_none hv, fileByte_none (hb.trans hv)]
  | some x =>
    rw [fileByte_some hv, fileByte_some (hb.trans hv)]
    rw [fileBlock, Option.bind_eq_some_iff] at hv
    obtain ⟨s, -, hs⟩ := hv
    rw [h.block j s x hj hs]

theorem apart_entryInum (h : Apart sb i v w) (hj : j ≠ i) : entryInum sb w j t = entryInum sb v j t := by
  rw [entryInum, entryInum, fileBytes, fileBytes]
  congr 1
  exact map_congr_left fun _ _ => apart_fileByte h hj _

/-- **One inode changes.** -/
theorem consistent_apart (hv : Consistent sb v) (h : Apart sb i v w) (hw : Alloc sb w)
    (hi : allocated sb w i → Full sb w i ∧ ((w.inode i).type = T_DIR → DirOk sb w i)) : Consistent sb w := by
  have hal : ∀ j, j ≠ i → allocated sb w j → allocated sb v j := fun j hj ha => by
    rwa [allocated, h.inode j hj] at ha
  refine ⟨hw, fun j ha => ?_, fun j ha ht => ?_⟩
  · by_cases hj : j = i
    · exact hj ▸ (hi (hj ▸ ha)).1
    · intro bn hbn
      rw [h.inode j hj] at hbn
      rw [apart_fileBlock h hj]
      exact hv.full j (hal j hj ha) bn hbn
  · by_cases hj : j = i
    · subst hj
      exact (hi ha).2 ht
    · intro t hle
      rw [h.inode j hj] at hle ht
      rw [apart_entryInum h hj]
      exact hv.dirs j (hal j hj ha) ht t hle

/-! ## Calls on a locked inode -/

structure Sound (sb : Super) (f : File) : Prop where
  ok : FileOk sb f
  full : Full sb (f.image sb) f.inum
  dir : f.ip.type = T_DIR → DirOk sb (f.image sb) f.inum
  /-- the copy on the disk is up to date -/
  synced : imageOf sb f.disk = f.image sb

structure Kept (sb : Super) (f g : File) : Prop where
  sound : Sound sb g
  inum : g.inum = f.inum
  type : g.ip.type = f.ip.type
  apart : Apart sb f.inum (f.image sb) (g.image sb)

theorem kept_refl (hf : Sound sb f) : Kept sb f f := ⟨hf, rfl, rfl, apart_refl⟩

theorem readi_kept (hf : Sound sb f) (off : ℕ) (hn : n < 2 ^ 32) :
    wp E (readi sb dev off n) (fun _ g => Kept sb f g) f :=
  wp_mono (readi_spec hf.ok hf.full dev off n hn) fun _ _ hg => hg.1.symm ▸ kept_refl hf

theorem written_type (hw : Written sb f g off src) : g.ip.type = f.ip.type := by rw [hw.fields]

theorem writei_kept (hsb : sb.Ok) (hf : Sound sb f) (ht : f.ip.type ≠ T_DIR) (src : List UInt8) (off : ℕ) :
    wp notFreed (writei sb dev src off) (fun _ g => Kept sb f g) f := by
  refine wp_mono (writei_spec hsb hf.ok hf.full dev src off) ?_
  rintro r g (rfl | ⟨-, -, -, hw⟩)
  · exact kept_refl hf
  · have htype := written_type hw
    refine ⟨⟨hw.ok, hw.inum ▸ hw.full, fun h => absurd (htype.symm.trans h) ht, hw.synced hf.synced⟩, hw.inum, htype, hw.apart⟩

theorem itrunc_kept (hsb : sb.Ok) (hf : Sound sb f) : wp notFreed (itrunc sb) (fun _ g => Kept sb f g ∧
    ∀ k, g.ip.addrs k = 0) f := by
  refine wp_mono (itrunc_spec hsb hf.ok) fun _ g hg => ?_
  have hsize : ((g.image sb).inode g.inum).size = 0 := by rw [image_inode, hg.ip]
  refine ⟨⟨⟨hg.ok, fun bn hbn => ?_, fun _ t ht => ?_, hg.synced⟩, hg.inum, by rw [hg.ip], hg.apart⟩, fun k => by rw [hg.ip]⟩
  · rw [hsize] at hbn
    omega
  · rw [hsize] at ht
    exact absurd ht (by simp)

/-- another inode with the same type, size and addresses -/
theorem put_kept (hsb : sb.Ok) (hf : Sound sb f) (hw : di.Wf) (ht : di.type = f.ip.type) (hs : di.size = f.ip.size)
    (hd : di.addrs = f.ip.addrs) : Kept sb f (f.put sb di) := by
  have ht0 : di.type ≠ 0 := ht ▸ hf.ok.type
  have himg := put_image hsb hf.ok hw
  have hin : ((f.put sb di).image sb).inode f.inum = di := by rw [himg, setInode_self]
  have hfile := put_fileBlock hsb hf.ok hw ht0 hd
  have hbyte : ∀ o, fileByte sb ((f.put sb di).image sb) f.inum o = fileByte sb (f.image sb) f.inum o := by
    intro o
    rw [fileByte, fileByte, hfile, himg]
    rfl
  refine ⟨⟨put_ok hsb hf.ok hw ht0 hd, fun bn hbn => ?_, fun hdir t hle => ?_, put_synced hsb hf.ok hw⟩, rfl, ht,
    put_apart hsb hf.ok hw⟩
  · rw [show (f.put sb di).inum = f.inum from rfl, hin, hs] at hbn
    rw [show (f.put sb di).inum = f.inum from rfl, hfile]
    exact hf.full bn (by rw [image_inode]; exact hbn)
  · rw [show (f.put sb di).inum = f.inum from rfl, hin, hs] at hle
    have hold := hf.dir (ht ▸ hdir) t (by rw [image_inode]; exact hle)
    rw [entryInum, fileBytes, show (f.put sb di).inum = f.inum from rfl]
    simp only [hbyte]
    exact hold

/-- an entry is written at its place -/
theorem dirOk_written (hf : Sound sb f) (ht : f.ip.type = T_DIR) (hw : Written sb f g off de.bytes) (hoff : off % DESIZE = 0)
    (hle : off ≤ f.ip.size) (hlen : de.bytes.length = DESIZE) (hde : de.inum < sb.ninodes) (hword : de.inum < 2 ^ 16) :
    DirOk sb (g.image sb) g.inum := by
  have hD := DESIZE_eq
  intro t hlt
  rw [image_inode, hw.fields] at hlt
  rw [hw.inum, entryInum, fileBytes]
  simp only [hw.bytes]
  by_cases hto : DESIZE * t = off
  · -- the two bytes of the new number
    have hbytes : (List.range 2).map (fun o => written (fileByte sb (f.image sb) f.inum) off de.bytes (DESIZE * t + o)) =
        leBytes 2 de.inum := by
      simp [range_succ, written, hto, Dirent.bytes, leBytes]
    rw [hbytes, le_leBytes, Nat.mod_eq_of_lt (by simpa using hword)]
    exact hde
  · have hne : DESIZE * t + DESIZE ≤ off ∨ off + DESIZE ≤ DESIZE * t := by
      rw [hD] at hoff hto ⊢
      omega
    have hsize : DESIZE * t + DESIZE ≤ f.ip.size := by
      rw [if_neg (ne_nil_of_length_pos (by omega)), hlen] at hlt
      have hmax : DESIZE * t + DESIZE ≤ max f.ip.size (off + DESIZE) := hlt
      omega
    have hold := hf.dir ht t (by rw [image_inode]; exact hsize)
    have hsame : ∀ o ∈ List.range 2, written (fileByte sb (f.image sb) f.inum) off de.bytes (DESIZE * t + o) =
        fileByte sb (f.image sb) f.inum (DESIZE * t + o) := by
      intro o ho
      have ho := mem_range.1 ho
      rw [written, if_neg (by rw [hlen]; omega)]
    rw [map_congr_left hsame]
    exact hold

theorem writeDirent_kept (hsb : sb.Ok) (hE : notFreed msg) (hf : Sound sb f) (hoff : off % DESIZE = 0)
    (hlen : de.bytes.length = DESIZE) (hde : de.inum < sb.ninodes) (hword : de.inum < 2 ^ 16) :
    wp notFreed (writeDirent sb dev msg off de) (fun _ g => Kept sb f g) f := by
  refine wp_seq (writei_spec hsb hf.ok hf.full dev de.bytes off) ?_
  intro r g hg
  simp only [wp_ite, wp_throw, wp_pure]
  refine ⟨fun _ => hE, fun _ => ?_⟩
  rcases hg with rfl | ⟨-, hle, -, hw⟩
  · exact kept_refl hf
  · refine ⟨⟨hw.ok, hw.inum ▸ hw.full, fun ht => ?_, hw.synced hf.synced⟩, hw.inum, written_type hw, hw.apart⟩
    exact dirOk_written hf ((written_type hw).symm.trans ht) hw hoff hle hlen hde hword

theorem dirent_length (name : Name) (inum : ℕ) : (dirent name inum).bytes.length = DESIZE := by
  have hcut : name.cut.length ≤ DIRSIZ :=
    ( takeWhile_prefix _).length_le.trans (length_take_le ..)
  simp only [dirent, Dirent.bytes, length_append, leBytes_length, length_replicate, Nat.add_sub_cancel' hcut]
  rfl

/-- **dirlink** of an inode of the disk. -/
theorem addEntry_kept (hsb : sb.Ok) (hf : Sound sb f) (ht : f.ip.type = T_DIR) (hinum : inum < sb.ninodes) :
    wp notFreed (addEntry sb dev name inum) (fun _ g => Kept sb f g) f := by
  simp only [addEntry, wp_bind, wp_get]
  refine wp_mono (emptyEntry_spec hf.ok hf.full (by simp [notFreed]) (by rw [ht]; decide) rfl) ?_
  rintro off g ⟨rfl, hoff⟩
  refine writeDirent_kept hsb (by simp [notFreed]) hf hoff (dirent_length name inum) ?_ (Nat.mod_lt _ (by norm_num))
  exact lt_of_le_of_lt (Nat.mod_le ..) hinum

/-- an entry is cleared -/
theorem clear_kept (hsb : sb.Ok) (hf : Sound sb f) (hoff : off % DESIZE = 0) :
    wp notFreed (writeDirent sb dev "unlink: writei" off emptyDirent) (fun _ g => Kept sb f g) f :=
  writeDirent_kept hsb (by simp [notFreed]) hf hoff rfl (Nat.zero_lt_of_lt hsb.root) (by norm_num [emptyDirent])

end Xv6.Fs
