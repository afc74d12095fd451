/-
readi and writei as operations on byte arrays (fs.c).

- `content sb v i`: the file of inode i as the list of its bytes.
- `splice old off src`: old with the bytes from off on replaced by src; off is at most the length of old.
- `places off n`: where bmap stores the blocks of the n bytes from off on, the slot of the indirect block included.
- `Enough P`: there is a free block for every empty place of P. It is what a write needs, and every balloc keeps it.

Results:
- `bmap_enough`, `writeLoop_enough`: with enough free blocks there is no panic;
- `content_written`: what writei leaves is the splice;
- `files_are_byte_arrays`: **writei is splice and readi is a slice, for all 32-bit offsets and counts**.
-/
import Xv6.Fs.Volume

namespace Xv6.Fs

open Bytes Owners Fallible Function List

variable {sb : Super} {v w : Image} {f g h : File} {i j x y bn off n k : ℕ} {s : Spot} {src : List UInt8} {P : Finset Spot}

/-! ## Byte arrays -/

def content (sb : Super) (v : Image) (i : ℕ) : List UInt8 := fileBytes sb v i 0 (v.inode i).size

def splice (old : List UInt8) (off : ℕ) (src : List UInt8) : List UInt8 :=
  old.take off ++ src ++ old.drop (off + src.length)

theorem content_length : (content sb v i).length = (v.inode i).size := fileBytes_length

theorem content_getElem (o : ℕ) (ho : o < (content sb v i).length) : (content sb v i)[o] = fileByte sb v i o := by
  simp [content, fileBytes]

theorem splice_length {old : List UInt8} (h : off ≤ old.length) :
    (splice old off src).length = max old.length (off + src.length) := by
  simp only [splice, length_append, length_take, length_drop]
  omega

/-- the bytes from off on -/
theorem fileBytes_content (h : off + n ≤ (v.inode i).size) :
    fileBytes sb v i off n = ((content sb v i).drop off).take n := by
  have hlen : (((content sb v i).drop off).take n).length = n := by
    rw [length_take, length_drop, content_length]
    omega
  refine ext_getElem (by rw [fileBytes_length, hlen]) fun t h1 h2 => ?_
  rw [getElem_take, getElem_drop, content_getElem]
  simp [fileBytes]

/-- **a write of bytes is a splice of the content** -/
theorem content_written (hoff : off ≤ (v.inode i).size) (hsize : (w.inode i).size = max (v.inode i).size (off + src.length))
    (hbytes : fileByte sb w i = written (fileByte sb v i) off src) :
    content sb w i = splice (content sb v i) off src := by
  have hold : off ≤ (content sb v i).length := by rwa [content_length]
  refine ext_getElem ?_ fun o h1 h2 => ?_
  · rw [splice_length hold, content_length, content_length, hsize]
  · have htake : ((content sb v i).take off).length = off := by rw [length_take]; omega
    rw [content_getElem, hbytes, written]
    simp only [splice, append_assoc]
    by_cases hlow : o < off
    · rw [if_neg (by omega), getElem_append_left (by omega), getElem_take, content_getElem]
    · rw [getElem_append_right (by omega)]
      by_cases hmid : o < off + src.length
      · rw [if_pos ⟨by omega, hmid⟩, getElem_append_left (by omega), getD_eq_getElem _ _ (by omega)]
        congr 1
        omega
      · rw [if_neg (by omega), getElem_append_right (by omega), getElem_drop, content_getElem]
        congr 1
        omega

/-! ## Free blocks -/

def freeSet (sb : Super) (v : Image) : Finset ℕ := (Finset.range sb.size).filter fun x => v.used x = false

/-- where bmap stores the number of block bn -/
def placesOf (bn : ℕ) : Finset Spot :=
  if h : bn < NDIRECT then {.slot ⟨bn, Nat.lt_succ_of_lt h⟩} else {.slot indirectSlot, .entry (bn - NDIRECT)}

instance : Decidable (Touched off n bn) := inferInstanceAs (Decidable (_ ∧ _ ∧ _))

def places (off n : ℕ) : Finset Spot := ((Finset.range MAXFILE).filter (Touched off n)).biUnion placesOf

/-- the places of P that inode i has not filled -/
def missing (sb : Super) (v : Image) (i : ℕ) (P : Finset Spot) : Finset Spot := P.filter fun s => stored sb v (i, s) = none

/-- a free block for every empty place -/
def Enough (sb : Super) (v : Image) (i : ℕ) (P : Finset Spot) : Prop := (missing sb v i P).card ≤ (freeSet sb v).card

instance : Decidable (Enough sb v i P) := inferInstanceAs (Decidable (_ ≤ _))

/-- the free blocks are the data blocks that are stored nowhere -/
theorem mem_freeSet (hv : Alloc sb v) : x ∈ freeSet sb v ↔ sb.dataStart ≤ x ∧ x < sb.size ∧ ∀ p, stored sb v p ≠ some x := by
  rw [freeSet, Finset.mem_filter, Finset.mem_range]
  constructor
  · intro hx
    exact ⟨hv.fresh_data hx.2, hx.1, fun p hp => hv.fresh_stored hx.2 p hp⟩
  · intro hx
    obtain ⟨hlow, hlt, hnot⟩ := hx
    refine ⟨hlt, ?_⟩
    cases hu : v.used x with
    | false => rfl
    | true =>
      obtain ⟨p, hp⟩ := (hv.exact.used x).1 ⟨hlow, hlt, hu⟩
      exact absurd hp (hnot p)

/-- a block that goes to an empty place is free no longer -/
theorem placed_free (hv : Alloc sb v) (h0 : stored sb v (i, s) = none) (hp : Placed sb v w i s x) :
    (freeSet sb v).card = (freeSet sb w).card + 1 := by
  have hself : stored sb w (i, s) = some x := by rw [hp.stored, update_self]
  have hother : ∀ p, p ≠ (i, s) → stored sb w p = stored sb v p := fun p hne => by rw [hp.stored, update_of_ne hne]
  have hnew : x ∉ freeSet sb w := fun hx => ((mem_freeSet hp.alloc).1 hx).2.2 _ hself
  have hset : freeSet sb v = insert x (freeSet sb w) := by
    ext y
    rw [Finset.mem_insert, mem_freeSet hv, mem_freeSet hp.alloc]
    constructor
    · intro hy
      by_cases hyx : y = x
      · exact .inl hyx
      · refine .inr ⟨hy.1, hy.2.1, fun p hpy => ?_⟩
        by_cases hpi : p = (i, s)
        · rw [hpi, hself, Option.some.injEq] at hpy
          exact hyx hpy.symm
        · exact hy.2.2 p (by rw [← hother p hpi, hpy])
    · intro hy
      rcases hy with rfl | hy
      · obtain ⟨hlow, hlt⟩ := hp.alloc.range hself
        refine ⟨hlow, hlt, fun p hpy => ?_⟩
        have hpi : p ≠ (i, s) := by
          intro e
          rw [e, h0] at hpy
          cases hpy
        exact hpi (hp.alloc.exact.inj _ _ _ ((hother p hpi).trans hpy) hself)
      · refine ⟨hy.1, hy.2.1, fun p hpy => ?_⟩
        by_cases hpi : p = (i, s)
        · rw [hpi, h0] at hpy
          cases hpy
        · exact hy.2.2 p (by rw [hother p hpi, hpy])
  rw [hset, Finset.card_insert_of_notMem hnew]

theorem placed_missing (hs : s ∈ P) (h0 : stored sb v (i, s) = none) (hp : Placed sb v w i s x) :
    (missing sb v i P).card = (missing sb w i P).card + 1 := by
  have hnew : s ∉ missing sb w i P := by
    rw [missing, Finset.mem_filter, hp.stored, update_self]
    simp
  have hset : missing sb v i P = insert s (missing sb w i P) := by
    ext t
    rw [Finset.mem_insert, missing, missing, Finset.mem_filter, Finset.mem_filter]
    by_cases ht : t = s
    · rw [ht]
      exact ⟨fun _ => .inl rfl, fun _ => ⟨hs, h0⟩⟩
    · rw [hp.stored, update_of_ne (by simp [ht])]
      simp [ht]
  rw [hset, Finset.card_insert_of_notMem hnew]

theorem gains_enough (hf : FileOk sb f) (hg : Gains sb f g s x) (hs : s ∈ P) (he : Enough sb (f.image sb) f.inum P) :
    Enough sb (g.image sb) f.inum P := by
  rcases hg.cases with ⟨-, rfl⟩ | ⟨h0, hp⟩
  · exact he
  · have hfree := placed_free hf.alloc h0 hp
    have hmiss := placed_missing hs h0 hp
    rw [Enough] at he ⊢
    omega

/-- an empty place of P has a free block -/
theorem Enough.pos (he : Enough sb v i P) (hs : s ∈ P) (h0 : stored sb v (i, s) = none) : (freeSet sb v).Nonempty := by
  have hmem : s ∈ missing sb v i P := Finset.mem_filter.2 ⟨hs, h0⟩
  exact Finset.card_pos.1 (lt_of_lt_of_le (Finset.card_pos.2 ⟨s, hmem⟩) he)

/-! ## No panic -/

/-- no panic -/
def never (_ : String) : Prop := False

theorem balloc_enough (hfree : (freeSet sb (f.image sb)).Nonempty) : wp never (balloc sb) (fun _ _ => True) f := by
  obtain ⟨x, hx⟩ := hfree
  rw [freeSet, Finset.mem_filter, Finset.mem_range] at hx
  obtain ⟨hlt, hu⟩ := hx
  have hp := BPB_eq
  have hbit : usedBit sb f.disk x = false := (imageOf_used hlt).symm.trans hu
  simp only [balloc, wp_bind, wp_get]
  cases hscan : ballocScan sb f.disk with
  | some p => simp only [bzero, wp_bind, wp_modify, wp_pure]
  | none =>
    -- the scan looks at every block, so it looks at x
    have hmap := findSome?_eq_none_iff.1 hscan (x / BPB) (by rw [mem_range, hp]; omega)
    have hbi := findSome?_eq_none_iff.1 hmap (x % BPB) (by rw [mem_range, hp]; omega)
    have hsum : x / BPB * BPB + x % BPB = x := by rw [mul_comm]; exact Nat.div_add_mod x BPB
    have hblock : sb.bblock (x / BPB * BPB) = sb.bblock x := by
      rw [Super.bblock, Super.bblock, hp]
      omega
    have hclear : ¬ bit (f.disk (sb.bblock (x / BPB * BPB))) (x % BPB) = true := by
      rw [hblock, show bit (f.disk (sb.bblock x)) (x % BPB) = usedBit sb f.disk x from rfl, hbit]
      simp
    rw [if_pos ⟨by omega, hclear⟩] at hbi
    cases hbi

section Enough

variable (hsb : sb.Ok) (hf : FileOk sb f) (he : Enough sb (f.image sb) f.inum P)
include hsb hf he

theorem slotBlock_enough {k : Fin (NDIRECT + 1)} (hs : .slot k ∈ P) :
    wp never (slotBlock sb k) (fun b g => Gains sb f g (.slot k) b ∧ Enough sb (g.image sb) f.inum P) f := by
  have hrun : wp never (slotBlock sb k) (fun _ _ => True) f := by
    simp only [slotBlock, wp_bind, wp_get, wp_ite, wp_pure, implies_true, and_true, setAddr, wp_modify]
    intro h0
    refine balloc_enough (he.pos hs ?_)
    rw [stored_eq hf.allocated, image_inode, storedIn, h0, blockNo_zero]
  refine wp_mono (wp_and hrun (slotBlock_spec hsb hf k)) fun b g hg => ?_
  exact ⟨hg.2, gains_enough hf hg.2 hs he⟩

theorem entryBlock_enough {ind : ℕ} (hj : j < NINDIRECT) (hs : .entry j ∈ P)
    (hind : stored sb (f.image sb) (f.inum, .slot indirectSlot) = some ind) :
    wp never (entryBlock sb ind j) (fun b g => Gains sb f g (.entry j) b ∧ Enough sb (g.image sb) f.inum P) f := by
  have hspec := entryBlock_spec hsb hf hj hind
  refine wp_mono (wp_and (Q := fun _ _ => True) ?_ hspec) fun b g hg => ⟨hg.2, gains_enough hf hg.2 hs he⟩
  simp only [entryBlock, wp_bind, wp_get, wp_ite, wp_pure, implies_true, and_true, wp_modify]
  intro hz
  refine balloc_enough (he.pos hs ?_)
  have hrange := (hf.alloc.range hind).1
  rw [stored_eq hf.allocated, image_inode, storedIn, blockNo_eq_some] at hind
  obtain ⟨hind, hpos⟩ := hind
  have hentry : (f.image sb).entry ind j = word 4 (f.disk ind) (4 * j) :=
    congrArg (fun c => word 4 c (4 * j)) (imageOf_block hrange)
  rw [stored_eq hf.allocated, image_inode, storedIn_entry (hind ▸ hpos) hj, hind, hentry, hz, blockNo_zero]

theorem bmap_enough (hbn : bn < MAXFILE) (hs : placesOf bn ⊆ P) :
    wp never (bmap sb bn) (fun b g => Maps sb f g bn b ∧ Enough sb (g.image sb) f.inum P) f := by
  have hrun : wp never (bmap sb bn) (fun _ g => Enough sb (g.image sb) f.inum P) f := by
    have hM : MAXFILE = NDIRECT + NINDIRECT := rfl
    by_cases hd : bn < NDIRECT
    · rw [placesOf, dif_pos hd, Finset.singleton_subset_iff] at hs
      rw [bmap, dif_pos hd]
      exact wp_mono (slotBlock_enough hsb hf he hs) fun b g hg => hg.2
    · have hn : bn - NDIRECT < NINDIRECT := by omega
      rw [placesOf, dif_neg hd, Finset.insert_subset_iff, Finset.singleton_subset_iff] at hs
      rw [bmap_indirect hd hn]
      refine wp_seq (slotBlock_enough hsb hf he hs.1) fun ind g hg => ?_
      have hi := hg.1.inum
      have hind : stored sb (g.image sb) (g.inum, .slot indirectSlot) = some ind := hi ▸ gains_stored hg.1
      have hok := (gains_grows hf hg.1).ok
      refine wp_mono (entryBlock_enough hsb hok (hi ▸ hg.2) hn hs.2 hind) fun b h hh => ?_
      exact hi ▸ hh.2
  refine wp_mono (wp_and hrun (bmap_spec hsb hf bn)) fun b g hg => ?_
  obtain ⟨he', hm⟩ := hg
  exact ⟨hm, he'⟩

end Enough

/-- a write to a block of the file takes no block -/
theorem write_enough (hsb : sb.Ok) (hf : FileOk sb f) (hb : fileBlock sb (f.image sb) f.inum bn = some x) {c : Block}
    (he : Enough sb (f.image sb) f.inum P) : Enough sb ((f.write x c).image sb) f.inum P := by
  have himg := image_write (c := c) hsb hf hb
  have hst : ∀ p, stored sb ((f.write x c).image sb) p = stored sb (f.image sb) p := by
    intro p
    rw [himg]
    exact stored_setBlock (fileBlock_data hf hb) p
  have hmiss : missing sb ((f.write x c).image sb) f.inum P = missing sb (f.image sb) f.inum P := by
    simp only [missing, hst]
  have hfree : freeSet sb ((f.write x c).image sb) = freeSet sb (f.image sb) := by rw [himg]; rfl
  rwa [Enough, hmiss, hfree]

/-- an iupdate that leaves the addresses takes no block -/
theorem put_enough (hsb : sb.Ok) (hf : FileOk sb f) {di : Dinode} (hw : di.Wf) (ht : di.type ≠ 0) (hd : di.addrs = f.ip.addrs)
    (he : Enough sb (f.image sb) f.inum P) : Enough sb ((f.put sb di).image sb) f.inum P := by
  have hmiss : missing sb ((f.put sb di).image sb) f.inum P = missing sb (f.image sb) f.inum P := by
    simp only [missing, put_stored hsb hf hw ht hd]
  have hfree : freeSet sb ((f.put sb di).image sb) = freeSet sb (f.image sb) := by
    rw [put_image hsb hf hw]
    rfl
  rwa [Enough, hmiss, hfree]

/-- the loop needs the places of its range and no others -/
theorem writeLoop_enough (hsb : sb.Ok) (hf : FileOk sb f) (he : Enough sb (f.image sb) f.inum P)
    (hmax : off + src.length ≤ MAXFILE * BSIZE) (hP : places off src.length ⊆ P) :
    wp never (writeLoop sb k off src) (fun _ g => Enough sb (g.image sb) f.inum P) f := by
  induction k generalizing f off src with
  | zero => exact wp_pure.2 he
  | succ k ih =>
    simp only [writeLoop, wp_ite, wp_pure, wp_bind, wp_modify]
    refine ⟨fun _ => he, fun hne => ?_⟩
    have hlen : 0 < src.length := length_pos_of_ne_nil hne
    have hle := chunk_le off src.length
    have hfirst : Touched off src.length (off / BSIZE) := touched_first hlen
    have hB := BSIZE_eq
    have hbn : off / BSIZE < MAXFILE := by
      rw [hB] at hmax ⊢
      omega
    have hsub : placesOf (off / BSIZE) ⊆ P := by
      refine fun s hs => hP (Finset.mem_biUnion.2 ⟨off / BSIZE, ?_, hs⟩)
      exact Finset.mem_filter.2 ⟨Finset.mem_range.2 hbn, hfirst⟩
    refine wp_mono (bmap_enough hsb hf he hbn hsub) fun b g hg => ?_
    obtain ⟨hm, heg⟩ := hg
    have hi := hm.grows.inum
    have hb : fileBlock sb (g.image sb) g.inum (off / BSIZE) = some b := hi ▸ hm.block
    have hrest : (src.drop (chunk off src.length)).length = src.length - chunk off src.length := length_drop
    rw [← hi] at heg ⊢
    refine ih (grows_write hsb hm.grows.ok hb).ok ?_ (by omega) fun s hs => ?_
    · exact write_enough hsb hm.grows.ok hb heg
    · obtain ⟨m, hmem, hsm⟩ := Finset.mem_biUnion.1 hs
      obtain ⟨hm1, hm2⟩ := Finset.mem_filter.1 hmem
      rw [hrest] at hm2
      exact hP (Finset.mem_biUnion.2 ⟨m, Finset.mem_filter.2 ⟨hm1, touched_rest hm2⟩, hsm⟩)

/-! ## readi and writei -/

/-- `off + n < off` in 32 bits -/
theorem uint32_wraps (ho : off < 2 ^ 32) (hn : n < 2 ^ 32) : uint32 (off + n) < off ↔ 2 ^ 32 ≤ off + n := by
  unfold uint32
  omega

/-- writei refuses the range -/
def writeRefused (f : File) (off n : ℕ) : Prop := f.ip.size < off ∨ 2 ^ 32 ≤ off + n ∨ MAXFILE * BSIZE < off + n

/-- readi refuses the range -/
def readRefused (f : File) (off n : ℕ) : Prop := f.ip.size < off ∨ 2 ^ 32 ≤ off + n

/-- writei and readi act on the file as on a byte array -/
structure ByteArrayFile (sb : Super) (dev : Devsw) (f : File) : Prop where
  refuse : ∀ (off : UInt32) (src : List UInt8), src.length < 2 ^ 32 → writeRefused f off.toNat src.length →
    writei sb dev src off.toNat f = .ok (none, f)
  write : ∀ (off : UInt32) (src : List UInt8), src.length < 2 ^ 32 → ¬ writeRefused f off.toNat src.length →
    Enough sb (f.image sb) f.inum (places off.toNat src.length) →
    ∃ g, writei sb dev src off.toNat f = .ok (some src.length, g) ∧ g.inum = f.inum ∧
      content sb (g.image sb) f.inum = splice (content sb (f.image sb) f.inum) off.toNat src ∧
      g.ip.size = max f.ip.size (off.toNat + src.length) ∧
      ∀ j, j ≠ f.inum → (g.image sb).inode j = (f.image sb).inode j ∧ content sb (g.image sb) j = content sb (f.image sb) j
  refuseRead : ∀ off n : UInt32, readRefused f off.toNat n.toNat → readi sb dev off.toNat n.toNat f = .ok (none, f)
  read : ∀ off n : UInt32, ¬ readRefused f off.toNat n.toNat →
    ∃ bytes, readi sb dev off.toNat n.toNat f = .ok (some bytes, f) ∧
      bytes.length = min n.toNat (f.ip.size - off.toNat) ∧
      bytes = ((content sb (f.image sb) f.inum).drop off.toNat).take n.toNat

theorem content_apart (h : Apart sb i v w) (hj : j ≠ i) : content sb w j = content sb v j := by
  rw [content, content, h.inode j hj, fileBytes, fileBytes]
  simp only [apart_fileByte h hj]

section Calls

variable {dev : Devsw} (hf : FileOk sb f) (hfull : Full sb (f.image sb) f.inum) (ht : f.ip.type ≠ T_DEV)
include hf ht

omit hf in
variable (dev) in
theorem writei_refused (ho : off < 2 ^ 32) (hn : src.length < 2 ^ 32) (h : writeRefused f off src.length) :
    wp never (writei sb dev src off) (fun r g => r = none ∧ g = f) f := by
  simp only [writei, wp_bind, wp_get, wp_ite, wp_pure, true_and, implies_true, and_true, uint32_wraps ho hn]
  refine ⟨fun hd => absurd hd ht, fun _ hok => ?_⟩
  have hlt : ¬ 2 ^ 32 ≤ off + src.length := fun hw => hok (.inr hw)
  rw [uint32_eq (by omega)]
  intro hsmall
  rcases h with h | h | h
  · exact absurd (.inl h) hok
  · exact absurd h hlt
  · exact absurd h hsmall

include hfull

variable (dev) in
theorem writei_enough (hsb : sb.Ok) (h : ¬ writeRefused f off src.length)
    (he : Enough sb (f.image sb) f.inum P) (hP : places off src.length ⊆ P) :
    wp never (writei sb dev src off)
      (fun r g => r = some src.length ∧ Written sb f g off src ∧ Enough sb (g.image sb) f.inum P) f := by
  have hoff : off ≤ f.ip.size := not_lt.1 fun hw => h (.inl hw)
  have hlt : ¬ 2 ^ 32 ≤ off + src.length := fun hw => h (.inr (.inl hw))
  have hmax : ¬ MAXFILE * BSIZE < off + src.length := fun hw => h (.inr (.inr hw))
  simp only [writei, wp_bind, wp_get, wp_ite, wp_pure, iupdate, wp_modify, uint32_eq (not_le.1 hlt)]
  refine ⟨fun hd => absurd hd ht, fun _ => ⟨fun hbad => ?_, fun _ => ⟨fun hbad => absurd hbad hmax, fun _ => ?_⟩⟩⟩
  · exact absurd hbad (by omega)
  · have hrun := writeLoop_enough (k := src.length) hsb hf he (not_lt.1 hmax) hP
    refine wp_mono (wp_and hrun (writeLoop_spec hsb hf le_rfl)) fun _ g hg => ?_
    obtain ⟨heg, hw⟩ := hg
    have hsize : g.ip.size = f.ip.size := by rw [hw.fields]
    refine ⟨fun hgrow => ⟨trivial, ?_, ?_⟩, fun hsame => ⟨trivial, ?_, heg⟩⟩
    · exact written_grown hsb hfull hw hoff hgrow.1 (hsize ▸ hgrow.2)
    · have hwf : ({ g.ip with size := off + src.length } : Dinode).Wf :=
        ⟨hw.ok.wf.type, hw.ok.wf.major, hw.ok.wf.minor, hw.ok.wf.nlink, not_le.1 hlt, hw.ok.wf.addrs⟩
      rw [← hw.inum] at heg ⊢
      exact put_enough hsb hw.ok hwf hw.ok.type rfl heg
    · refine written_same hfull hw ?_
      by_contra hc
      exact hsame (by rw [hsize]; omega)

variable (dev) in
theorem readi_at (ho : off < 2 ^ 32) (hn : n < 2 ^ 32) : wp never (readi sb dev off n) (fun r g => g = f ∧
    (readRefused f off n → r = none) ∧
    (¬ readRefused f off n → r = some (((content sb (f.image sb) f.inum).drop off).take n))) f := by
  refine wp_mono (readi_spec hf hfull dev off n hn) fun r g hr => ?_
  obtain ⟨hg, hr⟩ := hr
  refine ⟨hg, ?_⟩
  simp only [hr ht, readResult, uint32_wraps ho hn, image_inode, readRefused]
  refine ⟨fun hbad => if_pos hbad, fun hok => ?_⟩
  have hlt : off + n < 2 ^ 32 := not_le.1 fun hw => hok (.inr hw)
  have hcontent : (content sb (f.image sb) f.inum).length = f.ip.size := by rw [content_length, image_inode]
  rw [if_neg hok, uint32_eq hlt]
  split_ifs with hend
  · -- the read stops at the end of the file
    rw [fileBytes_content (by rw [image_inode]; omega), take_of_length_le (by rw [length_drop, hcontent]),
      take_of_length_le (by rw [length_drop, hcontent]; omega)]
  · rw [fileBytes_content (by rw [image_inode]; omega)]

end Calls

/-- a run that cannot fail returns -/
theorem wp_never {α : Type} {m : FileM α} {Q : α → File → Prop} (h : wp never m Q f) : ∃ a g, m f = .ok (a, g) ∧ Q a g := by
  rw [wp] at h
  cases hm : m f with
  | error e => rw [hm] at h; exact h.elim
  | ok p => rw [hm] at h; exact ⟨p.1, p.2, rfl, h⟩

/-- **Byte-array files.** -/
theorem files_are_byte_arrays (sb : Super) (dev : Devsw) (f : File) (hsb : sb.Ok) (hf : FileOk sb f)
    (hfull : Full sb (f.image sb) f.inum) (ht : f.ip.type ≠ T_DEV) : ByteArrayFile sb dev f := by
  refine ⟨fun off src hn h => ?_, fun off src hn h he => ?_, fun off n h => ?_, fun off n h => ?_⟩
  · obtain ⟨r, g, hrun, rfl, rfl⟩ := wp_never (writei_refused dev ht off.toNat_lt hn h)
    exact hrun
  · obtain ⟨r, g, hrun, rfl, hw, -⟩ := wp_never (writei_enough dev hf hfull ht hsb h he (Finset.Subset.refl _))
    have hoff : off.toNat ≤ f.ip.size := not_lt.1 fun hw => h (.inl hw)
    have hsize : g.ip.size = max f.ip.size (off.toNat + src.length) := by
      rw [hw.fields]
      show (if src = [] then f.ip.size else max f.ip.size (off.toNat + src.length)) = _
      split_ifs with hnil
      · rw [hnil, length_nil]
        omega
      · rfl
    refine ⟨g, hrun, hw.inum, content_written ?_ ?_ hw.bytes, hsize, fun j hj => ⟨hw.apart.inode j hj, content_apart hw.apart hj⟩⟩
    · rwa [image_inode]
    · rw [image_inode, ← hw.inum, image_inode, hsize]
  · obtain ⟨r, g, hrun, rfl, hr⟩ := wp_never (readi_at dev hf hfull ht off.toNat_lt n.toNat_lt)
    rw [hr.1 h] at hrun
    exact hrun
  · obtain ⟨r, g, hrun, rfl, hr⟩ := wp_never (readi_at dev hf hfull ht off.toNat_lt n.toNat_lt)
    rw [hr.2 h] at hrun
    refine ⟨_, hrun, ?_, rfl⟩
    rw [length_take, length_drop, content_length, image_inode]

/-- a new file of the small disk, after a write of three bytes -/
def abcOps : List FsOp := [.ialloc 2, .ilock 0, .writei 0 [97, 98, 99] 0]

def abcFile : File := (endState (fsRun smallSuper noDevices (.boot (smallDisk 15)) abcOps)).file 0

theorem abcFile_sound : Sound smallSuper abcFile := by
  have hrun := fsRun_ok noDevices smallSuper_ok (icache_boot_ok smallSuper_ok smallDisk_consistent) abcOps
  rw [endState_eq (r := fsRun smallSuper noDevices (.boot (smallDisk 15)) abcOps) (by decide +kernel)] at hrun
  exact sound_valid hrun (e := 0) (by decide +kernel) (by decide +kernel)

theorem files_are_byte_arrays_abc : content smallSuper (abcFile.image smallSuper) abcFile.inum = [97, 98, 99] ∧
    ByteArrayFile smallSuper noDevices abcFile :=
  ⟨by decide +kernel,
    files_are_byte_arrays smallSuper noDevices abcFile smallSuper_ok abcFile_sound.ok abcFile_sound.full (by decide +kernel)⟩

end Xv6.Fs
