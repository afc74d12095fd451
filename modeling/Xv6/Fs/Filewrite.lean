/-
filewrite (file.c) on a regular file: a write in chunks, each in a transaction of its own.

- `Fd`: what filewrite reads and changes of a struct file for an inode. begin_op, ilock and their ends leave the file as it is.
- `writeChunk`: one turn of filewrite's loop, between ilock and iunlock; `writeChunks`: the loop. `maxChunk` is its max.
- `oneWrite`: the same call with one writei in place of the loop.
- `Agrees`: both return the same and leave the same bytes, size and offset, and nothing has changed when they return -1.

Results:
- `wp_writeChunks`: what the loop has written when it ends, and why it ends;
- `filewrite_agrees_iff`: **the two agree, except for a write of nothing behind the end of the file, and for a write of several chunks
  that goes over the largest size of a file although its first chunk does not**;
- `filewrite_torn`: such a write. It returns -1, and has written most of its bytes.
-/
import Xv6.Fs.ByteFile

namespace Xv6.Fs

open Bytes Owners Fallible List

variable {sb : Super} {dev : Devsw} {f g h : File} {i k n off : ℕ} {src src' : List UInt8} {P : Finset Spot}

/-! ## filewrite -/

structure Fd where
  writable : Bool
  off : UInt32
deriving DecidableEq, Repr

def maxChunk : ℕ := (MAXOPBLOCKS - 1 - 1 - 2) / 2 * 512

/-- the next chunk of src, with the inode locked: writei's result and the offset -/
def writeChunk (sb : Super) (dev : Devsw) (src : List UInt8) (off : UInt32) : FileM (Option ℕ × UInt32) := do
  let n1 := min src.length maxChunk
  let r ← writei sb dev (src.take n1) off.toNat
  return (r, off + UInt32.ofNat (r.getD 0))

/-- filewrite's loop over the bytes that are left: whether it came to their end, and the offset -/
def writeChunks (sb : Super) (dev : Devsw) (src : List UInt8) (off : UInt32) : FileM (Bool × UInt32) :=
  if src = [] then return (true, off)
  else do
    let n1 := min src.length maxChunk
    match ← writeChunk sb dev src off with
    | (none, off) => return (false, off)
    | (some r, off) =>
      if r ≠ n1 then throw "short filewrite"
      writeChunks sb dev (src.drop n1) off
termination_by src.length
decreasing_by
  have hpos : 0 < src.length := length_pos_of_ne_nil ‹_›
  have hmax : 0 < maxChunk := by decide
  rw [length_drop]
  omega

/-- none stands for -1 -/
def filewrite (sb : Super) (dev : Devsw) (fd : Fd) (src : List UInt8) : FileM (Option ℕ × Fd) := do
  if fd.writable = false then return (none, fd)
  else
    let r ← writeChunks sb dev src fd.off
    return (if r.1 = true then some src.length else none, { fd with off := r.2 })

def oneWrite (sb : Super) (dev : Devsw) (fd : Fd) (src : List UInt8) : FileM (Option ℕ × Fd) := do
  if fd.writable = false then return (none, fd)
  else
    let r ← writei sb dev src fd.off.toNat
    return (r, { fd with off := fd.off + UInt32.ofNat (r.getD 0) })

structure Agrees (sb : Super) (dev : Devsw) (f : File) (fd : Fd) (src : List UInt8) : Prop where
  both : ∃ r fd' g g', filewrite sb dev fd src f = .ok ((r, fd'), g) ∧ oneWrite sb dev fd src f = .ok ((r, fd'), g') ∧
    content sb (g.image sb) f.inum = content sb (g'.image sb) f.inum ∧ g.ip.size = g'.ip.size ∧ (r = none → g = f ∧ fd' = fd)

/-! ## Writes one behind the other -/

theorem written_refl (hf : FileOk sb f) (hfull : Full sb (f.image sb) f.inum) : Written sb f f off [] :=
  written_same hfull (wrote_nil hf) (.inl rfl)

theorem written_append (h1 : Written sb f g off src) (h2 : Written sb g h (off + src.length) src') :
    Written sb f h off (src ++ src') := by
  have hsize : g.ip.size = if src = [] then f.ip.size else max f.ip.size (off + src.length) := by
    rw [h1.fields]
  obtain ⟨size, hsize'⟩ : ∃ size, size = if src' = [] then g.ip.size else max g.ip.size (off + src.length + src'.length) := ⟨_, rfl⟩
  have hip : h.ip = { f.ip with addrs := h.ip.addrs, size := size } := by
    have hfields := h2.fields
    rw [← hsize'] at hfields
    conv_lhs => rw [hfields, h1.fields]
  have hsum : size = if src ++ src' = [] then f.ip.size else max f.ip.size (off + (src ++ src').length) := by
    rw [hsize', hsize, length_append]
    by_cases hsrc : src = []
    · subst hsrc
      by_cases hsrc' : src' = []
      · subst hsrc'
        simp
      · simp [hsrc']
    · by_cases hsrc' : src' = []
      · subst hsrc'
        simp [hsrc]
      · simp only [hsrc, hsrc', if_false, append_eq_nil_iff, and_self]
        omega
  refine ⟨h2.ok, h2.inum.trans h1.inum, ?_, ?_, ?_, h1.inum ▸ h2.full, fun hs => h2.synced (h1.synced hs)⟩
  · rw [← hsum]
    exact hip
  · exact apart_trans h1.apart (h1.inum ▸ h2.apart)
  · have hbytes := h2.bytes
    rw [h1.inum, h1.bytes] at hbytes
    have htake : written (written (fileByte sb (f.image sb) f.inum) off ((src ++ src').take src.length)) (off + src.length)
        ((src ++ src').drop src.length) = written (fileByte sb (f.image sb) f.inum) off (src ++ src') :=
      written_take _ (by rw [length_append]; omega)
    rw [take_left' rfl, drop_left' rfl] at htake
    exact hbytes.trans htake

theorem written_size (hw : Written sb f g off src) (hoff : off ≤ f.ip.size) : g.ip.size = max f.ip.size (off + src.length) := by
  rw [hw.fields]
  simp only
  split_ifs with hnil
  · rw [hnil, length_nil]
    omega
  · rfl

theorem written_content (hw : Written sb f g off src) (hoff : off ≤ f.ip.size) :
    content sb (g.image sb) f.inum = splice (content sb (f.image sb) f.inum) off src := by
  refine content_written ?_ ?_ hw.bytes
  · rwa [image_inode]
  · rw [image_inode, ← hw.inum, image_inode, written_size hw hoff]

/-- a file with all its blocks is not over the largest size -/
theorem full_size (hfull : Full sb (f.image sb) f.inum) : f.ip.size ≤ MAXFILE * BSIZE := by
  by_contra hlarge
  have hmapped := hfull MAXFILE (by rw [image_inode]; omega)
  exact absurd (fileBlock_max hmapped) (lt_irrefl _)

/-- the places of the rest of a range are places of the range -/
theorem places_rest (hk : k ≤ n) : places (off + k) (n - k) ⊆ places off n := by
  intro s hs
  obtain ⟨m, hmem, hsm⟩ := Finset.mem_biUnion.1 hs
  obtain ⟨hm, h0, h1, h2⟩ := Finset.mem_filter.1 hmem
  refine Finset.mem_biUnion.2 ⟨m, Finset.mem_filter.2 ⟨hm, ?_, ?_, ?_⟩, hsm⟩
  · omega
  · omega
  · omega

theorem places_first (hk : k ≤ n) : places off k ⊆ places off n := by
  intro s hs
  obtain ⟨m, hmem, hsm⟩ := Finset.mem_biUnion.1 hs
  obtain ⟨hm, h0, h1, h2⟩ := Finset.mem_filter.1 hmem
  refine Finset.mem_biUnion.2 ⟨m, Finset.mem_filter.2 ⟨hm, ?_, h1, ?_⟩, hsm⟩
  · omega
  · omega

/-! ## The loop -/

theorem maxChunk_eq : maxChunk = 1536 := rfl

theorem off_zero (off : UInt32) : off + UInt32.ofNat 0 = off := UInt32.add_zero off

/-- the loop has written k bytes of src: it has come to their end, or writei has refused the next chunk -/
structure Chunked (sb : Super) (f g : File) (off : ℕ) (src : List UInt8) (k : ℕ) : Prop where
  le : k ≤ src.length
  written : Written sb f g off (src.take k)
  same : k = 0 → g = f
  first : 0 < k → ¬ writeRefused f off (min src.length maxChunk)
  below : 0 < k → off + k ≤ MAXFILE * BSIZE
  stop : k < src.length → writeRefused g (off + k) (min (src.length - k) maxChunk)
  whole : k < src.length → maxChunk ∣ k

theorem wp_writeChunks (hsb : sb.Ok) (hf : FileOk sb f) (hfull : Full sb (f.image sb) f.inum) (ht : f.ip.type = T_FILE)
    (hn : src.length < 2 ^ 31) {off : UInt32} (he : Enough sb (f.image sb) f.inum P) (hP : places off.toNat src.length ⊆ P) :
    wp never (writeChunks sb dev src off) (fun r g => ∃ k, Chunked sb f g off.toNat src k ∧
      r = (decide (k = src.length), off + UInt32.ofNat k)) f := by
  obtain ⟨N, hN⟩ : ∃ N, src.length = N := ⟨_, rfl⟩
  -- each turn leaves fewer bytes
  induction N using Nat.strong_induction_on generalizing f off src with
  | _ N ih =>
    have hdev : f.ip.type ≠ T_DEV := by
      rw [ht]
      decide
    have hoff := off.toNat_lt
    have hM := MAXFILE_eq
    have hB := BSIZE_eq
    rw [writeChunks]
    by_cases hne : src = []
    · rw [if_pos hne]
      subst hne
      refine wp_pure.2 ⟨0, ⟨le_refl _, written_refl hf hfull, fun _ => rfl, ?_, ?_, ?_, fun _ => dvd_zero _⟩, ?_⟩
      · intro hbad
        exact absurd hbad (lt_irrefl _)
      · intro hbad
        exact absurd hbad (lt_irrefl _)
      · intro hbad
        exact absurd hbad (lt_irrefl _)
      · simp
    · rw [if_neg hne]
      have hpos := length_pos_of_ne_nil hne
      obtain ⟨n1, hn1⟩ : ∃ n1, n1 = min src.length maxChunk := ⟨_, rfl⟩
      have hn1pos : 0 < n1 := by
        rw [hn1, maxChunk_eq]
        omega
      have hn1le : n1 ≤ src.length := by omega
      have htake : (src.take n1).length = n1 := by rw [length_take]; omega
      have hdrop : (src.drop n1).length = src.length - n1 := length_drop
      unfold writeChunk
      simp only [← hn1]
      by_cases href : writeRefused f off.toNat n1
      · -- writei refuses the chunk
        have hwrite : wp never (writei sb dev (src.take n1) off.toNat) (fun r g => r = none ∧ g = f) f :=
          writei_refused dev hdev hoff (by omega) (by rwa [htake])
        refine wp_bind.2 (wp_bind.2 (wp_mono hwrite fun r g hr => ?_))
        obtain ⟨rfl, rfl⟩ := hr
        refine wp_pure.2 (wp_pure.2 ⟨0, ⟨Nat.zero_le _, written_refl hf hfull, fun _ => rfl, ?_, ?_,
          fun _ => ?_, fun _ => dvd_zero _⟩, ?_⟩)
        · intro hbad
          exact absurd hbad (lt_irrefl _)
        · intro hbad
          exact absurd hbad (lt_irrefl _)
        · rwa [Nat.add_zero, Nat.sub_zero, ← hn1]
        · have hne0 : ¬ 0 = src.length := hpos.ne
          simp [hne0]
      · have hsub : places off.toNat (src.take n1).length ⊆ P := by
          rw [htake]
          exact (places_first hn1le).trans hP
        refine wp_bind.2 (wp_bind.2 (wp_mono (writei_enough dev hf hfull hdev hsb (by rwa [htake]) he hsub) fun r g hr => ?_))
        obtain ⟨rfl, hw, heg⟩ := hr
        refine wp_pure.2 ?_
        simp only [htake, Option.getD_some, ne_eq, not_true_eq_false, if_false]
        have hfit : off.toNat + n1 ≤ MAXFILE * BSIZE := not_lt.1 fun hlarge => href (.inr (.inr hlarge))
        have hnext : (off + UInt32.ofNat n1).toNat = off.toNat + n1 := by
          rw [hM, hB] at hfit
          rw [UInt32.toNat_add, UInt32.toNat_ofNat']
          omega
        have htype : g.ip.type = T_FILE := (written_type hw).trans ht
        rw [← hw.inum] at heg
        have hrest : places (off + UInt32.ofNat n1).toNat (src.drop n1).length ⊆ P := by
          rw [hnext, hdrop]
          exact (places_rest hn1le).trans hP
        refine wp_mono (ih (src.drop n1).length (by omega) hw.ok (hw.inum ▸ hw.full) htype (by omega) heg hrest rfl)
          fun r h hr => ?_
        obtain ⟨k, hk, rfl⟩ := hr
        rw [hnext] at hk
        have hkle := hk.le
        rw [hdrop] at hkle
        refine ⟨n1 + k, ⟨by omega, ?_, ?_, fun _ => by rwa [← hn1], fun _ => ?_, fun hlt => ?_, fun hlt => ?_⟩, ?_⟩
        · rw [take_add]
          refine written_append hw ?_
          rw [htake]
          exact hk.written
        · intro hbad
          omega
        · by_cases hk0 : 0 < k
          · have hbelow := hk.below hk0
            omega
          · omega
        · have hstop := hk.stop (by omega)
          rw [hdrop, Nat.add_assoc, Nat.sub_sub] at hstop
          exact hstop
        · have hn1max : n1 = maxChunk := by omega
          rw [hn1max] at hk hdrop ⊢
          exact (dvd_refl _).add (hk.whole (by omega))
        · have hiff : k = (src.drop n1).length ↔ n1 + k = src.length := by omega
          simp only [hiff, UInt32.ofNat_add, UInt32.add_assoc]

/-! ## Both calls -/

/-- the request: a range inside the largest file, or one that fails at once -/
def Fits (f : File) (off n : ℕ) : Prop :=
  (n = 0 → off ≤ f.ip.size) ∧
    (maxChunk < n → off ≤ f.ip.size → off + maxChunk ≤ MAXFILE * BSIZE → off + n ≤ MAXFILE * BSIZE)

section Both

variable (dev) {fd : Fd} (hsb : sb.Ok) (hf : FileOk sb f) (hfull : Full sb (f.image sb) f.inum) (ht : f.ip.type = T_FILE)
  (hw : fd.writable = true) (hn : src.length < 2 ^ 31) (he : Enough sb (f.image sb) f.inum (places fd.off.toNat src.length))

include hsb hf hfull ht hw hn he in
theorem filewrite_ends : ∃ g k, Chunked sb f g fd.off.toNat src k ∧
    filewrite sb dev fd src f =
      .ok ((if k = src.length then some src.length else none, { fd with off := fd.off + UInt32.ofNat k }), g) := by
  have hwp : wp never (filewrite sb dev fd src) (fun r g => ∃ k, Chunked sb f g fd.off.toNat src k ∧
      r = (if k = src.length then some src.length else none, { fd with off := fd.off + UInt32.ofNat k })) f := by
    unfold filewrite
    rw [hw, if_neg (by decide)]
    refine wp_bind.2 (wp_mono (wp_writeChunks hsb hf hfull ht hn he (Finset.Subset.refl _)) fun r g hr => ?_)
    obtain ⟨k, hk, rfl⟩ := hr
    refine wp_pure.2 ⟨k, hk, ?_⟩
    simp only [decide_eq_true_eq]
  obtain ⟨r, g, hrun, k, hk, rfl⟩ := wp_never hwp
  exact ⟨g, k, hk, hrun⟩

include ht hw hn in
theorem oneWrite_refused (href : writeRefused f fd.off.toNat src.length) : oneWrite sb dev fd src f = .ok ((none, fd), f) := by
  have hdev : f.ip.type ≠ T_DEV := by
    rw [ht]
    decide
  have hwp : wp never (oneWrite sb dev fd src) (fun r g => r = (none, fd) ∧ g = f) f := by
    unfold oneWrite
    rw [hw, if_neg (by decide)]
    refine wp_bind.2 (wp_mono (writei_refused dev hdev fd.off.toNat_lt (by omega) href) fun r g hr => ?_)
    obtain ⟨rfl, rfl⟩ := hr
    refine wp_pure.2 ⟨?_, rfl⟩
    rw [Option.getD_none, off_zero, ← hw]
  obtain ⟨r, g, hrun, rfl, rfl⟩ := wp_never hwp
  exact hrun

include hsb hf hfull ht hw he in
theorem oneWrite_written (href : ¬ writeRefused f fd.off.toNat src.length) :
    ∃ g, Written sb f g fd.off.toNat src ∧
      oneWrite sb dev fd src f = .ok ((some src.length, { fd with off := fd.off + UInt32.ofNat src.length }), g) := by
  have hdev : f.ip.type ≠ T_DEV := by
    rw [ht]
    decide
  have hwp : wp never (oneWrite sb dev fd src) (fun r g =>
      r = (some src.length, { fd with off := fd.off + UInt32.ofNat src.length }) ∧ Written sb f g fd.off.toNat src) f := by
    unfold oneWrite
    rw [hw, if_neg (by decide)]
    refine wp_bind.2 (wp_mono (writei_enough dev hf hfull hdev hsb href he (Finset.Subset.refl _)) fun r g hr => ?_)
    obtain ⟨rfl, hwritten, -⟩ := hr
    exact wp_pure.2 ⟨rfl, hwritten⟩
  obtain ⟨r, g, hrun, rfl, hwritten⟩ := wp_never hwp
  exact ⟨g, hwritten, hrun⟩

end Both

/-- the first chunk is refused, when the request fits and the whole is refused -/
theorem fits_refused (hfit : Fits f off n) (hpos : 0 < n) (href : writeRefused f off n) :
    writeRefused f off (min n maxChunk) := by
  have hM := MAXFILE_eq
  have hB := BSIZE_eq
  by_contra hok
  unfold writeRefused at href hok
  have hlarge := hfit.2
  rw [maxChunk_eq] at hok hlarge
  rw [hM, hB] at href hok hlarge
  omega

theorem refused_fits (hpos : 0 < n) (href : writeRefused f off (min n maxChunk)) : Fits f off n := by
  have hM := MAXFILE_eq
  have hB := BSIZE_eq
  unfold writeRefused at href
  unfold Fits
  rw [maxChunk_eq] at href ⊢
  rw [hM, hB] at href ⊢
  omega

/-- the loop writes all of a range that writei takes -/
theorem chunked_all (hk : Chunked sb f g off src k) (href : ¬ writeRefused f off src.length) : k = src.length := by
  have hM := MAXFILE_eq
  have hB := BSIZE_eq
  by_contra hne
  have hle := hk.le
  have hstop := hk.stop (by omega)
  have hoff : off ≤ f.ip.size := not_lt.1 fun hlt => href (.inl hlt)
  have hsize := written_size hk.written hoff
  rw [length_take] at hsize
  unfold writeRefused at href hstop
  rw [hM, hB] at href hstop
  omega

/-- and not all of one that writei refuses -/
theorem chunked_part (hk : Chunked sb f g off src k) (hpos : 0 < src.length) (href : writeRefused f off src.length) :
    k < src.length := by
  have hM := MAXFILE_eq
  have hB := BSIZE_eq
  have hle := hk.le
  by_contra hall
  have hfirst := hk.first (by omega)
  have hbelow := hk.below (by omega)
  unfold writeRefused at href hfirst
  rw [hM, hB] at href hfirst hbelow
  omega

/-- **filewrite agrees with one writei, if and only if the request fits.** -/
theorem filewrite_agrees_iff (fd : Fd) (src : List UInt8) (hsb : sb.Ok) (hf : FileOk sb f) (hfull : Full sb (f.image sb) f.inum)
    (ht : f.ip.type = T_FILE) (hn : src.length < 2 ^ 31) (he : Enough sb (f.image sb) f.inum (places fd.off.toNat src.length)) :
    Agrees sb dev f fd src ↔ (fd.writable = true → Fits f fd.off.toNat src.length) := by
  by_cases hw : fd.writable = true
  swap
  · -- both calls return at once
    have hno : fd.writable = false := by simpa using hw
    refine iff_of_true ⟨none, fd, f, f, ?_, ?_, rfl, rfl, fun _ => ⟨rfl, rfl⟩⟩ fun h => absurd h hw
    · rw [filewrite, if_pos hno]
      rfl
    · rw [oneWrite, if_pos hno]
      rfl
  obtain ⟨g, k, hk, hrun⟩ := filewrite_ends dev hsb hf hfull ht hw hn he
  have hle := hk.le
  have hsmall := full_size hfull
  have hM := MAXFILE_eq
  have hB := BSIZE_eq
  have hoff := fd.off.toNat_lt
  by_cases href : writeRefused f fd.off.toNat src.length
  · have hone : oneWrite sb dev fd src f = .ok ((none, fd), f) := oneWrite_refused dev ht hw hn href
    by_cases hpos : 0 < src.length
    · have hlt := chunked_part hk hpos href
      rw [if_neg hlt.ne] at hrun
      constructor
      · intro hagree _
        obtain ⟨r, fd', g1, g2, h1, h2, -, -, hsame⟩ := hagree
        obtain ⟨hr, -⟩ := Prod.mk.inj (Except.ok.inj (hone.symm.trans h2))
        obtain ⟨rfl, rfl⟩ := Prod.mk.inj hr
        obtain ⟨hr, rfl⟩ := Prod.mk.inj (Except.ok.inj (hrun.symm.trans h1))
        -- the offset has not moved, so nothing was written
        have heq : fd.off + UInt32.ofNat k = fd.off := congrArg Fd.off (Prod.mk.inj hr).2
        have hnat := congrArg UInt32.toNat heq
        rw [UInt32.toNat_add, UInt32.toNat_ofNat'] at hnat
        have hk0 : k = 0 := by omega
        subst hk0
        have hstop := hk.stop hpos
        rw [Nat.add_zero, Nat.sub_zero, hk.same rfl] at hstop
        exact refused_fits hpos hstop
      · intro hfits
        have hfirst := fits_refused (hfits hw) hpos href
        have hk0 : k = 0 := by
          by_contra hne
          exact hk.first (by omega) hfirst
        subst hk0
        rw [hk.same rfl, off_zero] at hrun
        exact ⟨none, fd, f, f, hrun, hone, rfl, rfl, fun _ => ⟨rfl, rfl⟩⟩
    · -- a write of nothing behind the end
      have hk0 : k = src.length := by omega
      rw [if_pos hk0] at hrun
      refine iff_of_false (fun hagree => ?_) fun hfits => ?_
      · obtain ⟨r, fd', g1, g2, h1, h2, -, -, -⟩ := hagree
        obtain ⟨hr1, -⟩ := Prod.mk.inj (Except.ok.inj (hrun.symm.trans h1))
        obtain ⟨hr2, -⟩ := Prod.mk.inj (Except.ok.inj (hone.symm.trans h2))
        have hbad := (Prod.mk.inj hr1).1.trans (Prod.mk.inj hr2).1.symm
        cases hbad
      · have hin := (hfits hw).1 (by omega)
        unfold writeRefused at href
        rw [hM, hB] at href hsmall
        omega
  · have hall := chunked_all hk href
    have hin : fd.off.toNat ≤ f.ip.size := not_lt.1 fun hlt => href (.inl hlt)
    obtain ⟨g', hwritten, hone⟩ := oneWrite_written dev hsb hf hfull ht hw he href
    have hchunks := hk.written
    rw [if_pos hall, hall] at hrun
    rw [hall, take_length] at hchunks
    refine iff_of_true ⟨_, _, g, g', hrun, hone, ?_, ?_, fun hbad => by cases hbad⟩ fun _ => ⟨fun _ => hin, fun _ _ _ => ?_⟩
    · rw [written_content hchunks hin, written_content hwritten hin]
    · rw [written_size hchunks hin, written_size hwritten hin]
    · exact not_lt.1 fun hlt => href (.inr (.inr hlt))

/-! ## A file on a disk with room -/

/-- two hundred blocks: the inodes are in block 2, the bit map in block 3, and the data blocks are 4 to 199 -/
def wideSuper : Super := ⟨200, 196, 8, 0, 2, 2, 3⟩

/-- an empty file on a disk without any other -/
def emptyFile : File := ⟨smallDisk 15, 1, ⟨T_FILE, 0, 0, 1, 0, fun _ => 0⟩⟩

theorem wideSuper_ok : wideSuper.Ok := by
  have hI := IPB_eq
  have hP := BPB_eq
  refine ⟨fun i hi => ?_, fun b hb => ?_, by decide, by decide, by decide, by decide⟩
  · simp only [wideSuper, Super.iblock, hI] at hi ⊢
    omega
  · simp only [wideSuper, Super.bblock, Super.dataStart, hP] at hb ⊢
    omega

theorem emptyFile_stored (p : ℕ × Spot) : stored wideSuper (emptyFile.image wideSuper) p = none := by
  obtain ⟨i, s⟩ := p
  by_cases hi : i = 1
  · subst hi
    by_cases hal : allocated wideSuper (emptyFile.image wideSuper) 1
    · have hip : (emptyFile.image wideSuper).inode 1 = emptyFile.ip := image_inode
      rw [stored_eq hal, hip]
      cases s with
      | slot k => rfl
      | entry j => exact storedIn_entry_none rfl
    · exact stored_free hal
  · refine stored_free fun hal => hal.2 ?_
    have hlt : i < 8 := hal.1
    have hblock : wideSuper.iblock i ≠ 3 := by
      have hI := IPB_eq
      simp only [wideSuper, Super.iblock, hI]
      omega
    have hinode : (emptyFile.image wideSuper).inode i = inodeOf wideSuper (smallDisk 15) i := by
      simp only [File.image, emptyFile, Image.setInode, Function.update_of_ne hi, imageOf]
      exact if_pos hlt
    rw [hinode]
    exact smallDisk_zero 15 hblock

theorem emptyFile_used (x : ℕ) (hx : x < 200) : (emptyFile.image wideSuper).used x = decide (x < 4) := by
  have hall : ∀ x, x < 200 → (emptyFile.image wideSuper).used x = decide (x < 4) := by decide +kernel
  exact hall x hx

theorem emptyFile_ok : FileOk wideSuper emptyFile := by
  refine ⟨by decide, ⟨by decide, by decide, by decide, by decide, by decide, fun _ => Nat.two_pow_pos 32⟩, by decide,
    ⟨⟨fun p q x hp => ?_, fun x => ?_⟩, fun x hx => ?_⟩⟩
  · rw [emptyFile_stored] at hp
    cases hp
  · refine iff_of_false (fun huse => ?_) fun hex => ?_
    · obtain ⟨h1, h2, h3⟩ := huse
      have hlow : 4 ≤ x := h1
      rw [emptyFile_used x h2] at h3
      simp only [decide_eq_true_eq] at h3
      omega
    · obtain ⟨p, hp⟩ := hex
      rw [emptyFile_stored] at hp
      cases hp
  · have hlow : x < 4 := hx
    rw [emptyFile_used x (by omega)]
    simpa using hlow

theorem emptyFile_full : Full wideSuper (emptyFile.image wideSuper) emptyFile.inum := by
  intro bn hbn
  rw [image_inode] at hbn
  exact absurd hbn (Nat.not_lt_zero _)

/-- a file has no more than 141 blocks, the indirect block included -/
theorem places_card (off n : ℕ) : (places off n).card ≤ 141 := by
  have hsub : places off n ⊆ (Finset.univ.image Spot.slot) ∪ (Finset.range NINDIRECT).image Spot.entry := by
    intro s hs
    obtain ⟨m, hmem, hsm⟩ := Finset.mem_biUnion.1 hs
    have hm := Finset.mem_range.1 (Finset.mem_filter.1 hmem).1
    have hM : MAXFILE = NDIRECT + NINDIRECT := rfl
    unfold placesOf at hsm
    split_ifs at hsm with hd
    · exact Finset.mem_union_left _ (Finset.mem_image.2 ⟨_, Finset.mem_univ _, (Finset.mem_singleton.1 hsm).symm⟩)
    · rcases Finset.mem_insert.1 hsm with rfl | hsm
      · exact Finset.mem_union_left _ (Finset.mem_image_of_mem _ (Finset.mem_univ _))
      · obtain rfl := Finset.mem_singleton.1 hsm
        exact Finset.mem_union_right _ (Finset.mem_image_of_mem _ (Finset.mem_range.2 (by omega)))
  refine (Finset.card_le_card hsub).trans ((Finset.card_union_le _ _).trans ?_)
  have h1 : (Finset.univ.image Spot.slot).card ≤ 13 := Finset.card_image_le
  have h2 : ((Finset.range NINDIRECT).image Spot.entry).card ≤ 128 := Finset.card_image_le.trans (le_of_eq (Finset.card_range _))
  omega

theorem emptyFile_enough (off n : ℕ) : Enough wideSuper (emptyFile.image wideSuper) emptyFile.inum (places off n) := by
  have hfree : Finset.Ico 4 200 ⊆ freeSet wideSuper (emptyFile.image wideSuper) := by
    intro x hx
    obtain ⟨h1, h2⟩ := Finset.mem_Ico.1 hx
    refine Finset.mem_filter.2 ⟨Finset.mem_range.2 h2, ?_⟩
    rw [emptyFile_used x h2]
    simpa using h1
  have hcard := Finset.card_le_card hfree
  rw [Nat.card_Ico] at hcard
  have hplaces := places_card off n
  exact (Finset.card_filter_le _ _).trans (hplaces.trans (by omega))

/-- Two chunks. -/
theorem filewrite_agrees_iff_two : Agrees wideSuper noDevices emptyFile ⟨true, 0⟩ (List.replicate 2000 7) := by
  have hlen : (List.replicate 2000 (7 : UInt8)).length = 2000 := length_replicate
  refine (filewrite_agrees_iff ⟨true, 0⟩ (List.replicate 2000 7) wideSuper_ok emptyFile_ok emptyFile_full rfl (by rw [hlen]; decide)
    (emptyFile_enough _ _)).2 fun _ => ?_
  rw [hlen]
  exact ⟨fun _ => by decide, fun _ => by decide⟩

/-- One byte more than the largest file: filewrite returns -1, and 46 chunks are in the file. writei would not have written any. -/
theorem filewrite_torn : ∃ src g, src.length = MAXFILE * BSIZE + 1 ∧
    filewrite wideSuper noDevices ⟨true, 0⟩ src emptyFile = .ok ((none, ⟨true, 70656⟩), g) ∧ g.ip.size = 70656 ∧
    content wideSuper (g.image wideSuper) 1 = src.take 70656 ∧
    oneWrite wideSuper noDevices ⟨true, 0⟩ src emptyFile = .ok ((none, ⟨true, 0⟩), emptyFile) := by
  have hM := MAXFILE_eq
  have hB := BSIZE_eq
  obtain ⟨src, hsrc⟩ : ∃ src : List UInt8, src.length = MAXFILE * BSIZE + 1 := ⟨List.replicate _ 0, length_replicate⟩
  have hlen : src.length = 71681 := by rw [hsrc, hM, hB]
  have href : writeRefused emptyFile 0 src.length := .inr (.inr (by omega))
  obtain ⟨fd, hfd⟩ : ∃ fd : Fd, fd = ⟨true, 0⟩ := ⟨_, rfl⟩
  have hends : ∃ g k, Chunked wideSuper emptyFile g fd.off.toNat src k ∧ filewrite wideSuper noDevices fd src emptyFile =
      .ok ((if k = src.length then some src.length else none, { fd with off := fd.off + UInt32.ofNat k }), g) :=
    filewrite_ends noDevices wideSuper_ok emptyFile_ok emptyFile_full rfl (by rw [hfd]) (by omega) (emptyFile_enough _ src.length)
  obtain ⟨g, k, hk, hrun⟩ := hends
  subst hfd
  have hlt : k < src.length := chunked_part hk (by omega) href
  have hsize : g.ip.size = k := by
    rw [written_size hk.written (Nat.zero_le _), length_take]
    simp only [emptyFile, UInt32.toNat_zero]
    omega
  have hk46 : k = 70656 := by
    have hstop := hk.stop hlt
    obtain ⟨c, hc⟩ := hk.whole hlt
    have hbelow := hk.below
    unfold writeRefused at hstop
    rw [maxChunk_eq] at hstop hc
    rw [hM, hB] at hstop hbelow
    simp only [UInt32.toNat_zero] at hstop hbelow
    omega
  subst hk46
  refine ⟨src, g, hsrc, ?_, hsize, ?_, ?_⟩
  · rw [hrun, if_neg hlt.ne]
    rfl
  · have hcontent := written_content hk.written (Nat.zero_le _)
    have hempty : content wideSuper (emptyFile.image wideSuper) emptyFile.inum = [] := by
      refine length_eq_zero_iff.1 ?_
      rw [content_length, image_inode]
      rfl
    rw [hempty, splice, take_nil, drop_nil, nil_append, append_nil] at hcontent
    exact hcontent
  · exact oneWrite_refused noDevices rfl rfl (by omega) href

end Xv6.Fs
