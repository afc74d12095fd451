/-
What a file holds, and readi and writei (fs.c).

- `fileByte v i o`: byte o of the file of inode i; 0 where no block is mapped.
- `Full v i`: every block below the size of the file is mapped.

Results:
- `readi_spec`: readi of a full file returns its bytes and changes nothing;
- `writei_spec`: writei changes the bytes it writes and no others, and leaves the file full and its inode on the disk.
-/
import Xv6.Fs.Blocks

namespace Xv6.Fs

open Bytes Owners Fallible Function List

variable {sb : Super} {v : Image} {f g h : File} {i j x y bn off n k : ℕ} {s : Spot} {c : Block} {src : List UInt8}
  {E : String → Prop}

/-! ## Bytes of a file -/

def fileByte (sb : Super) (v : Image) (i o : ℕ) : UInt8 :=
  match fileBlock sb v i (o / BSIZE) with
  | some x => byteAt (v.block x) (o % BSIZE)
  | none => 0

def fileBytes (sb : Super) (v : Image) (i off n : ℕ) : List UInt8 := (List.range n).map fun t => fileByte sb v i (off + t)

def Full (sb : Super) (v : Image) (i : ℕ) : Prop :=
  ∀ bn, bn * BSIZE < (v.inode i).size → fileBlock sb v i bn ≠ none

theorem fileByte_some {o : ℕ} (h : fileBlock sb v i (o / BSIZE) = some x) : fileByte sb v i o = byteAt (v.block x) (o % BSIZE) := by
  rw [fileByte, h]

theorem fileByte_none {o : ℕ} (h : fileBlock sb v i (o / BSIZE) = none) : fileByte sb v i o = 0 := by rw [fileByte, h]

theorem fileBytes_length : (fileBytes sb v i off n).length = n := by simp [fileBytes]

theorem fileBytes_append (m : ℕ) : fileBytes sb v i off m ++ fileBytes sb v i (off + m) n = fileBytes sb v i off (m + n) := by
  rw [fileBytes, fileBytes, fileBytes, range_add, map_append, map_map]
  congr 1
  refine map_congr_left fun t _ => ?_
  rw [Function.comp_apply, Nat.add_assoc]

/-- the bytes of one block -/
theorem fileBytes_slice (h : fileBlock sb v i (off / BSIZE) = some x) (hn : n ≤ BSIZE - off % BSIZE) :
    fileBytes sb v i off n = slice (v.block x) (off % BSIZE) n := by
  rw [fileBytes, slice]
  refine map_congr_left fun t ht => ?_
  have hlt : t < n := mem_range.1 ht
  have hb := BSIZE_eq
  have hdiv : (off + t) / BSIZE = off / BSIZE := by rw [hb] at hn ⊢; omega
  have hmod : (off + t) % BSIZE = off % BSIZE + t := by rw [hb] at hn ⊢; omega
  rw [fileByte_some (hdiv ▸ h), hmod]

/-- block bn is one of those that hold the n bytes from off on -/
def Touched (off n bn : ℕ) : Prop := 0 < n ∧ off < (bn + 1) * BSIZE ∧ bn * BSIZE < off + n

theorem touched_first (h : 0 < n) : Touched off n (off / BSIZE) := by
  have hb := BSIZE_eq
  rw [Touched, hb]
  omega

theorem chunk_pos (off : ℕ) (h : 0 < n) : 0 < chunk off n := by
  have hb := BSIZE_eq
  rw [chunk, hb]
  omega

theorem chunk_le (off n : ℕ) : chunk off n ≤ n := Nat.min_le_left ..

theorem touched_rest {bn : ℕ} (h : Touched (off + chunk off n) (n - chunk off n) bn) : Touched off n bn := by
  have := chunk_le off n
  obtain ⟨h0, h1, h2⟩ := h
  exact ⟨by omega, by omega, by omega⟩

/-- a block is the first one or one of the rest -/
theorem touched_cases {bn : ℕ} (h : Touched off n bn) : bn = off / BSIZE ∨ Touched (off + chunk off n) (n - chunk off n) bn := by
  have hb := BSIZE_eq
  obtain ⟨h0, h1, h2⟩ := h
  rw [Touched, chunk]
  rw [hb] at h1 h2 ⊢
  omega

/-! ## readi -/

theorem fileBlock_range (hf : Alloc sb v) (h : fileBlock sb v i bn = some x) : sb.dataStart ≤ x ∧ x < sb.size := by
  rw [fileBlock, Option.bind_eq_some_iff] at h
  obtain ⟨s, -, hs⟩ := h
  exact hf.range hs

/-- bmap of a mapped block only looks it up -/
theorem bmap_mapped (hf : FileOk sb f) (h : fileBlock sb (f.image sb) f.inum bn = some x) :
    wp E (bmap sb bn) (fun b g => b = x ∧ g = f) f := by
  have hal := hf.allocated
  simp only [bmap, slotBlock, wp_dite, wp_ite, wp_bind, wp_get, wp_pure, wp_throw]
  refine ⟨fun hd => ?_, fun hd => ⟨fun hn => ?_, fun hn => ?_⟩⟩
  · rw [fileBlock_eq (Spot.of_direct hd), stored_eq hal, image_inode, storedIn, blockNo_eq_some] at h
    exact ⟨fun h0 => absurd (h.1.symm.trans h0) h.2, fun _ => ⟨h.1, trivial⟩⟩
  · have hs := Spot.of_indirect hd hn
    rw [fileBlock_eq hs, stored_eq hal, image_inode, storedIn] at h
    split_ifs at h with hc
    rw [blockNo_eq_some] at h
    have hrange : sb.dataStart ≤ f.ip.addrs indirectSlot := by
      refine (hf.alloc.range (p := (f.inum, .slot indirectSlot)) ?_).1
      rw [stored_eq hal, image_inode, storedIn, blockNo_pos hc.1]
    have hword : word 4 (f.disk (f.ip.addrs indirectSlot)) (4 * (bn - NDIRECT)) = x := by
      rw [← h.1, Image.entry]
      exact congrArg (fun c => word 4 c (4 * (bn - NDIRECT))) (imageOf_block hrange).symm
    refine ⟨fun h0 => absurd h0 hc.1, fun _ => ⟨fun h0 => absurd (hword.symm.trans h0) h.2, fun _ => ⟨hword, trivial⟩⟩⟩
  · rw [fileBlock, Spot.of, dif_neg hd, if_neg hn] at h
    cases h

theorem readLoop_spec (hf : FileOk sb f) (hk : n ≤ k)
    (hmap : ∀ bn, Touched off n bn → fileBlock sb (f.image sb) f.inum bn ≠ none) :
    wp E (readLoop sb k off n) (fun bytes g => g = f ∧ bytes = fileBytes sb (f.image sb) f.inum off n) f := by
  induction k generalizing off n with
  | zero =>
    obtain rfl : n = 0 := by omega
    exact wp_pure.2 ⟨rfl, rfl⟩
  | succ k ih =>
    simp only [readLoop, wp_ite, wp_pure, wp_bind, wp_get]
    refine ⟨fun hn => ⟨trivial, by rw [hn]; rfl⟩, fun hn => ?_⟩
    obtain ⟨x, hx⟩ := Option.ne_none_iff_exists'.1 (hmap _ (touched_first (Nat.pos_of_ne_zero hn)))
    refine wp_mono (bmap_mapped hf hx) ?_
    rintro b g ⟨rfl, rfl⟩
    have hpos := chunk_pos off (Nat.pos_of_ne_zero hn)
    have hle := chunk_le off n
    refine wp_mono (ih (by omega) fun bn hbn => hmap bn (touched_rest hbn)) ?_
    rintro bytes g' ⟨rfl, rfl⟩
    refine ⟨rfl, ?_⟩
    have hblock : g'.disk b = (g'.image sb).block b := (imageOf_block (fileBlock_range hf.alloc hx).1).symm
    have hslice := fileBytes_slice (n := chunk off n) hx (Nat.min_le_right ..)
    rw [hblock, ← hslice, fileBytes_append, Nat.add_sub_cancel' hle]

/-- what readi returns of a file that is no device -/
def readResult (sb : Super) (v : Image) (i off n : ℕ) : Option (List UInt8) :=
  let size := (v.inode i).size
  if size < off ∨ uint32 (off + n) < off then none
  else some (fileBytes sb v i off (if size < uint32 (off + n) then size - off else n))

/-- **readi of a full file** changes nothing. -/
theorem readi_spec (hf : FileOk sb f) (hfull : Full sb (f.image sb) f.inum) (dev : Devsw) (off n : ℕ)
    (hn : n < 2 ^ 32) : wp E (readi sb dev off n) (fun r g => g = f ∧
      (f.ip.type ≠ T_DEV → r = readResult sb (f.image sb) f.inum off n)) f := by
  simp only [readi, wp_bind, wp_get, wp_ite, wp_pure, readResult, image_inode, true_and]
  refine ⟨fun ht => ⟨fun _ h => absurd ht h, fun _ h => absurd ht h⟩, fun _ => ⟨fun hbad _ => by rw [if_pos hbad], fun hok => ?_⟩⟩
  have hoff : off ≤ f.ip.size := not_lt.1 fun h => hok (.inl h)
  have hsize := hf.wf.size
  have hsum := uint32_add (by omega) hn (not_lt.1 fun h => hok (.inr h))
  refine wp_mono (readLoop_spec hf le_rfl fun bn hbn => hfull bn ?_) ?_
  · rw [image_inode]
    have h2 := hbn.2.2
    rw [hsum] at h2
    split_ifs at h2 <;> omega
  · rintro bytes g ⟨rfl, rfl⟩
    exact ⟨rfl, fun _ => by rw [if_neg hok]⟩

/-! ## writei -/

/-- the bytes after src has been written at off -/
def written (old : ℕ → UInt8) (off : ℕ) (src : List UInt8) (o : ℕ) : UInt8 :=
  if off ≤ o ∧ o < off + src.length then src.getD (o - off) 0 else old o

theorem written_nil (old : ℕ → UInt8) : written old off [] = old := by
  funext o
  rw [written, if_neg (by simp)]

/-- a piece and the rest -/
theorem written_take (old : ℕ → UInt8) {m : ℕ} (hm : m ≤ src.length) :
    written (written old off (src.take m)) (off + m) (src.drop m) = written old off src := by
  funext o
  have htake : (src.take m).length = m := by simp [hm]
  have hdrop : (src.drop m).length = src.length - m := length_drop
  simp only [written, htake, hdrop]
  by_cases h1 : off + m ≤ o ∧ o < off + m + (src.length - m)
  · rw [if_pos h1, if_pos (by omega), getD_eq_getElem?_getD, List.getElem?_drop, getD_eq_getElem?_getD]
    congr 2
    omega
  · rw [if_neg h1]
    by_cases h2 : off ≤ o ∧ o < off + m
    · rw [if_pos h2, if_pos (by omega), getD_eq_getElem?_getD, List.getElem?_take_of_lt (by omega),
        getD_eq_getElem?_getD]
    · rw [if_neg h2, if_neg (by omega)]

/-- bmap changes no byte -/
theorem maps_bytes (hm : Maps sb f g bn x) : fileByte sb (g.image sb) f.inum = fileByte sb (f.image sb) f.inum := by
  funext o
  by_cases ho : o / BSIZE = bn
  · rw [fileByte_some (ho ▸ hm.block)]
    cases hb : fileBlock sb (f.image sb) f.inum (o / BSIZE) with
    | none =>
      rw [fileByte_none hb, hm.fresh (ho ▸ hb)]
      simp [byteAt]
    | some y =>
      have hy := hm.grows.keeps _ _ hb
      rw [ho, hm.block, Option.some.injEq] at hy
      rw [fileByte_some hb, hy, hm.data _ _ hb]
  · have hsame := hm.other _ ho
    cases hb : fileBlock sb (f.image sb) f.inum (o / BSIZE) with
    | none => rw [fileByte_none hb, fileByte_none (hsame.trans hb)]
    | some y => rw [fileByte_some hb, fileByte_some (hsame.trans hb), hm.data _ _ hb]

/-- the block that a file stores in one place is stored nowhere else -/
theorem fileBlock_inj {m : ℕ} (h : Alloc sb v) (hm : fileBlock sb v i m = some x) (hn : fileBlock sb v i n = some x) : m = n := by
  rw [fileBlock, Option.bind_eq_some_iff] at hm hn
  obtain ⟨s, hs, hsx⟩ := hm
  obtain ⟨t, ht, htx⟩ := hn
  have hst : s = t := congrArg Prod.snd (h.exact.inj _ _ _ hsx htx)
  exact Spot.of_inj hs (hst ▸ ht)

/-- the disk after a block of the file is written -/
def File.write (f : File) (b : ℕ) (c : Block) : File := { f with disk := update f.disk b c }

section Write

variable (hsb : sb.Ok) (hf : FileOk sb f) (hb : fileBlock sb (f.image sb) f.inum bn = some x)
include hsb hf hb

theorem image_write : (f.write x c).image sb = (f.image sb).setBlock x c := by
  rw [File.image, File.write, imageOf_write hsb (fileBlock_range hf.alloc hb).1]
  rfl

omit hsb in
/-- a block of a file is no indirect block -/
theorem fileBlock_data (j : ℕ) : stored sb (f.image sb) (j, .slot indirectSlot) ≠ some x := by
  rw [fileBlock, Option.bind_eq_some_iff] at hb
  obtain ⟨s, hs, hsx⟩ := hb
  intro hj
  exact Spot.of_ne_indirect hs (congrArg Prod.snd (hf.alloc.exact.inj _ _ _ hsx hj))

theorem fileBlock_write (n : ℕ) : fileBlock sb ((f.write x c).image sb) f.inum n = fileBlock sb (f.image sb) f.inum n := by
  rw [image_write hsb hf hb, fileBlock, fileBlock]
  refine congrArg (Option.bind (Spot.of n)) (funext fun s => ?_)
  exact stored_setBlock (fileBlock_data hf hb) _

theorem grows_write : Grows sb f (f.write x c) := by
  have himg := image_write (c := c) hsb hf hb
  refine ⟨⟨rfl, rfl, ?_, ?_⟩, ⟨hf.inum, hf.wf, hf.type, ?_⟩, fun n y hn => ?_⟩
  · rw [File.write, imageOf_write hsb (fileBlock_range hf.alloc hb).1]
    rfl
  · rw [himg]
    rw [fileBlock, Option.bind_eq_some_iff] at hb
    obtain ⟨s, -, hsx⟩ := hb
    exact apart_own hf.alloc hsx
  · rw [himg]
    exact alloc_write hf.alloc (fileBlock_data hf hb)
  · rw [fileBlock_write hsb hf hb, hn]

theorem fileByte_write {o : ℕ} (m : ℕ) (src : List UInt8) (hm : m + src.length ≤ BSIZE)
    (hblock : c = patch ((f.image sb).block x) m src) :
    fileByte sb ((f.write x c).image sb) f.inum o = written (fileByte sb (f.image sb) f.inum) (bn * BSIZE + m) src o := by
  have hB := BSIZE_eq
  have himg := image_write (c := c) hsb hf hb
  by_cases ho : o / BSIZE = bn
  · have hbo : fileBlock sb (f.image sb) f.inum (o / BSIZE) = some x := ho ▸ hb
    have hlt : o % BSIZE < BSIZE := Nat.mod_lt _ (by omega)
    rw [fileByte_some ((fileBlock_write hsb hf hb _).trans hbo), himg, setBlock_self, hblock, byteAt_patch hlt, written,
      fileByte_some hbo]
    have ho' : bn * BSIZE + o % BSIZE = o := by rw [← ho, mul_comm]; exact Nat.div_add_mod o BSIZE
    by_cases hin : m ≤ o % BSIZE ∧ o % BSIZE < m + src.length
    · rw [if_pos hin, if_pos (by omega)]
      congr 1
      omega
    · rw [if_neg hin, if_neg (by omega)]
  · rw [written, if_neg ?_]
    · cases hy : fileBlock sb (f.image sb) f.inum (o / BSIZE) with
      | none => rw [fileByte_none hy, fileByte_none ((fileBlock_write hsb hf hb _).trans hy)]
      | some y =>
        have hne : y ≠ x := by
          rintro rfl
          exact ho (fileBlock_inj hf.alloc hy hb)
        rw [fileByte_some hy, fileByte_some ((fileBlock_write hsb hf hb _).trans hy), himg, setBlock_ne hne]
    · rw [hB] at ho hm ⊢
      omega

end Write

/-- what writei's loop ensures -/
structure Wrote (sb : Super) (f g : File) (off : ℕ) (src : List UInt8) : Prop extends Grows sb f g where
  mapped : ∀ bn, Touched off src.length bn → fileBlock sb (g.image sb) f.inum bn ≠ none
  bytes : fileByte sb (g.image sb) f.inum = written (fileByte sb (f.image sb) f.inum) off src
  /-- a file that has the blocks already gains none -/
  same : (∀ bn, Touched off src.length bn → fileBlock sb (f.image sb) f.inum bn ≠ none) → g.ip = f.ip

theorem wrote_nil (hf : FileOk sb f) : Wrote sb f f off [] := by
  refine ⟨grows_refl hf, fun bn hbn => ?_, (written_nil _).symm, fun _ => rfl⟩
  exact absurd hbn.1 (by simp)

/-- one turn of the loop, then the rest -/
theorem wrote_cons (hsb : sb.Ok) {b : ℕ} (hne : src ≠ []) (hm : Maps sb f g (off / BSIZE) b)
    (hh : Wrote sb (g.write b (patch (g.disk b) (off % BSIZE) (src.take (chunk off src.length)))) h
      (off + chunk off src.length) (src.drop (chunk off src.length))) : Wrote sb f h off src := by
  set m := chunk off src.length with hmdef
  set c := patch (g.disk b) (off % BSIZE) (src.take m) with hc
  have hi := hm.grows.inum
  have hok := hm.grows.ok
  have hlen : 0 < src.length := length_pos_of_ne_nil hne
  have hmle : m ≤ src.length := chunk_le ..
  have hmblk : off % BSIZE + m ≤ BSIZE := by
    have hB := BSIZE_eq
    rw [hmdef, chunk, hB]
    omega
  have hrest : (src.drop m).length = src.length - m := length_drop
  have hb : fileBlock sb (g.image sb) g.inum (off / BSIZE) = some b := hi ▸ hm.block
  have hwrite : ∀ n, fileBlock sb ((g.write b c).image sb) f.inum n = fileBlock sb (g.image sb) f.inum n := by
    intro n
    rw [← hi]
    exact fileBlock_write hsb hok hb n
  have hgrow : Grows sb f (g.write b c) := grows_trans hm.grows (grows_write hsb hok hb)
  refine ⟨grows_trans hgrow hh.toGrows, fun n hn => ?_, ?_, fun hall => ?_⟩
  · rw [← hi]
    rcases touched_cases hn with rfl | hn
    · have hkept := hh.keeps (off / BSIZE) b ((fileBlock_write hsb hok hb _).trans hb)
      exact fun h0 => by rw [show fileBlock sb (h.image sb) g.inum (off / BSIZE) = some b from hkept] at h0; cases h0
    · exact hh.mapped n (hrest ▸ hn)
  · have hone : fileByte sb ((g.write b c).image sb) g.inum = written (fileByte sb (f.image sb) f.inum) off (src.take m) := by
      funext o
      have hblock : g.disk b = (g.image sb).block b := (imageOf_block (fileBlock_range hok.alloc hb).1).symm
      rw [fileByte_write hsb hok hb (off % BSIZE) (src.take m) (by rw [length_take]; omega) (by rw [hc, hblock]),
        hi, maps_bytes hm, mul_comm, Nat.div_add_mod]
    have hbytes := hh.bytes
    rw [show (g.write b c).inum = g.inum from rfl, hone, written_take _ hmle, hi] at hbytes
    exact hbytes
  · have hfirst : g = f := by
      obtain ⟨y, hy⟩ := Option.ne_none_iff_exists'.1 (hall _ (touched_first hlen))
      have hk := hm.grows.keeps _ _ hy
      rw [hm.block, Option.some.injEq] at hk
      exact hm.same (hk ▸ hy)
    subst hfirst
    refine hh.same fun n hn => ?_
    rw [show (g.write b c).inum = g.inum from rfl, hwrite n]
    exact hall n (touched_rest (hrest ▸ hn))

theorem writeLoop_spec (hsb : sb.Ok) (hf : FileOk sb f) (hk : src.length ≤ k) :
    wp notFreed (writeLoop sb k off src) (fun _ g => Wrote sb f g off src) f := by
  induction k generalizing f off src with
  | zero =>
    obtain rfl : src = [] := length_eq_zero_iff.1 (by omega)
    exact wp_pure.2 (wrote_nil hf)
  | succ k ih =>
    simp only [writeLoop, wp_ite, wp_pure, wp_bind, wp_modify]
    refine ⟨fun hnil => hnil ▸ wrote_nil hf, fun hne => ?_⟩
    refine wp_mono (bmap_spec hsb hf _) fun b g hm => ?_
    have hi := hm.grows.inum
    have hgrow := grows_write (c := patch (g.disk b) (off % BSIZE) (src.take (chunk off src.length))) hsb hm.grows.ok
      (hi ▸ hm.block)
    have hlen : 0 < src.length := length_pos_of_ne_nil hne
    have hpos := chunk_pos off hlen
    refine wp_mono (ih hgrow.ok ?_) fun _ h hh => wrote_cons hsb hne hm hh
    rw [length_drop]
    omega

/-- what writei ensures -/
structure Written (sb : Super) (f g : File) (off : ℕ) (src : List UInt8) : Prop where
  ok : FileOk sb g
  inum : g.inum = f.inum
  fields : g.ip = { f.ip with addrs := g.ip.addrs, size := if src = [] then f.ip.size else max f.ip.size (off + src.length) }
  apart : Apart sb f.inum (f.image sb) (g.image sb)
  bytes : fileByte sb (g.image sb) f.inum = written (fileByte sb (f.image sb) f.inum) off src
  full : Full sb (g.image sb) f.inum
  /-- an inode that was on the disk is there again -/
  synced : imageOf sb f.disk = f.image sb → imageOf sb g.disk = g.image sb

/-- the last byte of a mapped block is inside the largest file -/
theorem fileBlock_max (h : fileBlock sb v i bn ≠ none) : bn < MAXFILE := by
  by_contra hge
  rw [MAXFILE, not_lt] at hge
  refine h ?_
  rw [fileBlock, Spot.of, dif_neg (by omega), if_neg (by omega)]
  rfl

theorem image_synced : (imageOf sb f.disk).inode f.inum = f.ip ↔ imageOf sb f.disk = f.image sb := by
  constructor
  · intro h
    rw [File.image, Image.setInode, ← h, update_eq_self]
  · intro h
    rw [h, image_inode]

/-- the size does not change -/
theorem written_same (hfull : Full sb (f.image sb) f.inum) (hw : Wrote sb f g off src)
    (hle : src.length = 0 ∨ off + src.length ≤ f.ip.size) : Written sb f g off src := by
  have hsz : (if src = [] then f.ip.size else max f.ip.size (off + src.length)) = f.ip.size := by
    split_ifs with hnil
    · rfl
    · have := length_pos_of_ne_nil hnil
      omega
  have hip : g.ip = f.ip := by
    refine hw.same fun bn hbn => hfull bn ?_
    rw [image_inode]
    have h0 := hbn.1
    have h2 := hbn.2.2
    omega
  refine ⟨hw.ok, hw.inum, ?_, hw.apart, hw.bytes, fun bn hbn => ?_, fun hs => ?_⟩
  · rw [hsz]
    exact hw.fields
  · rw [← hw.inum, image_inode, hip] at hbn
    obtain ⟨x, hx⟩ := Option.ne_none_iff_exists'.1 (hfull bn (by rw [image_inode]; exact hbn))
    rw [hw.keeps bn x hx]
    simp
  · rw [← image_synced] at hs ⊢
    rw [hw.disk, hw.inum, hs, hip]

/-- the file grows -/
theorem written_grown (hsb : sb.Ok) (hfull : Full sb (f.image sb) f.inum) (hw : Wrote sb f g off src) (hoff : off ≤ f.ip.size)
    (hpos : 0 < src.length) (hlt : f.ip.size < off + src.length) :
    Written sb f (g.put sb { g.ip with size := off + src.length }) off src := by
  have hB := BSIZE_eq
  have hM := MAXFILE_eq
  have hok := hw.ok
  -- the last block is mapped, so the size fits
  have hmax : off + src.length ≤ MAXFILE * BSIZE := by
    have hlast : Touched off src.length ((off + src.length - 1) / BSIZE) := by
      rw [Touched, hB]
      omega
    have := fileBlock_max (hw.mapped _ hlast)
    rw [hM, hB] at this ⊢
    omega
  have hwf : ({ g.ip with size := off + src.length } : Dinode).Wf := by
    refine ⟨hok.wf.type, hok.wf.major, hok.wf.minor, hok.wf.nlink, ?_, hok.wf.addrs⟩
    rw [hM, hB] at hmax
    exact lt_of_le_of_lt hmax (by norm_num)
  have hfile := put_fileBlock hsb hok hwf hok.type rfl
  have himg := put_image hsb hok hwf
  refine ⟨put_ok hsb hok hwf hok.type rfl, hw.inum, ?_, ?_, ?_, ?_, fun _ => put_synced hsb hok hwf⟩
  · rw [if_neg (ne_nil_of_length_pos hpos), max_eq_right hlt.le]
    show ({ g.ip with size := off + src.length } : Dinode) = { f.ip with addrs := g.ip.addrs, size := off + src.length }
    rw [hw.fields]
  · exact apart_trans hw.apart (hw.inum ▸ put_apart hsb hok hwf)
  · rw [← hw.bytes]
    funext o
    rw [fileByte, fileByte, hfile, himg]
    rfl
  · intro bn hbn
    rw [hfile]
    rw [himg, ← hw.inum, setInode_self] at hbn
    by_cases hold : bn * BSIZE < f.ip.size
    · obtain ⟨x, hx⟩ := Option.ne_none_iff_exists'.1 (hfull bn (by rw [image_inode]; exact hold))
      rw [hw.keeps bn x hx]
      simp
    · refine hw.mapped bn ⟨hpos, ?_, hbn⟩
      have : off ≤ bn * BSIZE := hoff.trans (not_lt.1 hold)
      rw [hB] at this ⊢
      omega

/-- writei of a file that is no device: it refuses, or it has written all -/
theorem writei_plain (hsb : sb.Ok) (hf : FileOk sb f) (hfull : Full sb (f.image sb) f.inum) (ht : f.ip.type ≠ T_DEV)
    (dev : Devsw) (src : List UInt8) (off : ℕ) : wp notFreed (writei sb dev src off) (fun r g => r = none ∧ g = f ∨
      r = some src.length ∧ off ≤ f.ip.size ∧ uint32 (off + src.length) ≤ MAXFILE * BSIZE ∧
        off ≤ uint32 (off + src.length) ∧ Written sb f g off src) f := by
  simp only [writei, wp_bind, wp_get, wp_ite, wp_pure, true_and, true_or, implies_true, iupdate, wp_modify]
  refine ⟨fun hd => absurd hd ht, fun _ hin hmax => ?_⟩
  have hoff : off ≤ f.ip.size := not_lt.1 fun hlt => hin (.inl hlt)
  have hwrap : off ≤ uint32 (off + src.length) := not_lt.1 fun hlt => hin (.inr hlt)
  refine wp_mono (writeLoop_spec hsb hf le_rfl) fun _ g hw => ?_
  have hsize : g.ip.size = f.ip.size := by rw [hw.fields]
  refine ⟨fun hgrow => .inr ⟨hoff, not_lt.1 hmax, hwrap, ?_⟩, fun hsame => .inr ⟨hoff, not_lt.1 hmax, hwrap, ?_⟩⟩
  · exact written_grown hsb hfull hw hoff hgrow.1 (hsize ▸ hgrow.2)
  · refine written_same hfull hw ?_
    by_contra hc
    exact hsame (by rw [hsize]; omega)

/-- **writei of a full file.** -/
theorem writei_spec (hsb : sb.Ok) (hf : FileOk sb f) (hfull : Full sb (f.image sb) f.inum) (dev : Devsw) (src : List UInt8)
    (off : ℕ) : wp notFreed (writei sb dev src off) (fun r g => g = f ∨ f.ip.type ≠ T_DEV ∧ off ≤ f.ip.size ∧ r = some src.length ∧
      Written sb f g off src) f := by
  by_cases ht : f.ip.type = T_DEV
  · simp only [writei, wp_bind, wp_get, wp_ite, wp_pure, true_or, implies_true, true_and]
    exact fun hdev => absurd ht hdev
  · refine wp_mono (writei_plain hsb hf hfull ht dev src off) fun r g hr => ?_
    rcases hr with ⟨-, rfl⟩ | ⟨hr, hoff, -, -, hw⟩
    · exact .inl rfl
    · exact .inr ⟨ht, hoff, hr, hw⟩

end Xv6.Fs
