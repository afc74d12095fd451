/-
Writes of many processes through one struct file (file.c). A step is one turn of one filewrite's loop, between ilock and iunlock:
it reads the offset, writes a chunk there and advances the offset.

- `Shared`: the file and the offset, the bytes that each call has left, the calls that writei has refused a chunk, and the chunks that
  have been written, in their order (for the statements only).
- `Tiles a l b`: the ranges of the chunks l follow one another from a to b.

Results:
- `step_keeps`: what one step of any call keeps;
- `run_keeps`: what every interleaving keeps, also when calls fail on the way;
- `shared_writes`: **when all calls have come to their end, their chunks lie side by side from the first offset on, the
  offset has advanced by the number of their bytes, and each call's bytes are in the file in their order**.
-/
import Mathlib.Algebra.BigOperators.Group.Finset.Basic
import Xv6.Fs.Filewrite

namespace Xv6.Fs

open Bytes Owners Fallible Function List

/-! ## The calls -/

/-- a chunk that a call has written -/
structure Piece where
  call : ℕ
  off : ℕ
  bytes : List UInt8

structure Shared where
  file : File
  off : UInt32
  left : ℕ → List UInt8
  failed : ℕ → Bool
  wrote : List Piece

/-- what follows a chunk of call p -/
def Shared.turned (s : Shared) (p : ℕ) : (Option ℕ × UInt32) × File → Except String Shared
  | ((none, off), g) => .ok { s with file := g, off := off, failed := update s.failed p true }
  | ((some r, off), g) =>
    if r ≠ min (s.left p).length maxChunk then .error "short filewrite"
    else .ok ⟨g, off, update s.left p ((s.left p).drop r), s.failed, s.wrote ++ [⟨p, s.off.toNat, (s.left p).take r⟩]⟩

/-- one turn of the loop of call p. A call that has returned does nothing more. -/
def writeTurn (sb : Super) (dev : Devsw) (s : Shared) (p : ℕ) : Except String Shared :=
  if s.left p = [] ∨ s.failed p = true then .ok s
  else writeChunk sb dev (s.left p) s.off s.file >>= s.turned p

def writeTurns (sb : Super) (dev : Devsw) (s : Shared) (ps : List ℕ) : Except String Shared := ps.foldlM (writeTurn sb dev) s

/-- the calls before their first turn -/
def Shared.start (f : File) (off : UInt32) (calls : List (List UInt8)) : Shared :=
  ⟨f, off, fun p => calls.getD p [], fun _ => false, []⟩

def pieceBytes (l : List Piece) : List UInt8 := l.flatMap Piece.bytes

/-- the chunks of call p, in their order -/
def piecesOf (p : ℕ) (l : List Piece) : List Piece := l.filter fun c => c.call = p

def Tiles : ℕ → List Piece → ℕ → Prop
  | a, [], b => a = b
  | a, c :: l, b => c.off = a ∧ Tiles (a + c.bytes.length) l b

variable {sb : Super} {dev : Devsw} {f g : File} {s s' : Shared} {off : UInt32} {calls : List (List UInt8)} {l l' : List Piece}
  {a b n p : ℕ} {src : List UInt8}

/-! ## Chunks side by side -/

theorem pieceBytes_cons (c : Piece) (l : List Piece) : pieceBytes (c :: l) = c.bytes ++ pieceBytes l := flatMap_cons

theorem pieceBytes_append (l l' : List Piece) : pieceBytes (l ++ l') = pieceBytes l ++ pieceBytes l' := flatMap_append

theorem tiles_snoc (h : Tiles a l b) (p : ℕ) (bytes : List UInt8) : Tiles a (l ++ [⟨p, b, bytes⟩]) (b + bytes.length) := by
  induction l generalizing a with
  | nil =>
    obtain rfl : a = b := h
    exact ⟨rfl, rfl⟩
  | cons c l ih => exact ⟨h.1, ih h.2⟩

theorem tiles_end (h : Tiles a l b) : b = a + (pieceBytes l).length := by
  induction l generalizing a with
  | nil => exact Eq.symm h
  | cons c l ih =>
    have hrest := ih h.2
    rw [hrest, pieceBytes_cons, length_append, Nat.add_assoc]

theorem tiles_from (h : Tiles a l b) {c : Piece} (hc : c ∈ l) : a ≤ c.off := by
  induction l generalizing a with
  | nil => cases hc
  | cons d l ih =>
    obtain ⟨hd, hrest⟩ := h
    rcases mem_cons.1 hc with rfl | hc
    · exact hd.ge
    · exact (Nat.le_add_right _ _).trans (ih hrest hc)

/-- no two of them share a byte -/
theorem tiles_apart (h : Tiles a l b) : l.Pairwise fun c d => c.off + c.bytes.length ≤ d.off := by
  induction l generalizing a with
  | nil => exact List.Pairwise.nil
  | cons c l ih =>
    obtain ⟨hc, hrest⟩ := h
    refine pairwise_cons.2 ⟨fun d hd => ?_, ih hrest⟩
    rw [hc]
    exact tiles_from hrest hd

/-- a part of a list, when more follows -/
theorem take_drop_append {l l' : List UInt8} {d : ℕ} (h : (l.drop d).take src.length = src) :
    ((l ++ l').drop d).take src.length = src := by
  have hlen := congrArg List.length h
  rw [length_take, length_drop] at hlen
  by_cases hd : d ≤ l.length
  · rw [drop_append_of_le_length hd, take_append_of_le_length (by rw [length_drop]; omega), h]
  · have hnil : src = [] := length_eq_zero_iff.1 (by omega)
    rw [hnil, length_nil, take_zero]

/-- each of them is in its place among the bytes of all -/
theorem tiles_bytes (h : Tiles a l b) {c : Piece} (hc : c ∈ l) :
    ((pieceBytes l).drop (c.off - a)).take c.bytes.length = c.bytes := by
  induction l generalizing a with
  | nil => cases hc
  | cons d l ih =>
    obtain ⟨hd, hrest⟩ := h
    rw [pieceBytes_cons]
    rcases mem_cons.1 hc with rfl | hc
    · rw [hd, Nat.sub_self, drop_zero, take_left' rfl]
    · have hfrom := tiles_from hrest hc
      have hplace : c.off - a = d.bytes.length + (c.off - (a + d.bytes.length)) := by omega
      rw [hplace, ← drop_drop, drop_left' rfl]
      exact ih hrest hc

/-! ## One turn -/

theorem writeChunk_spec (hsb : sb.Ok) (hf : FileOk sb f) (hfull : Full sb (f.image sb) f.inum) (ht : f.ip.type = T_FILE)
    (hn : n = min src.length maxChunk) :
    wp notFreed (writeChunk sb dev src off) (fun r g => r = (none, off) ∧ g = f ∨
      r.1 = some n ∧ r.2.toNat = off.toNat + n ∧ off.toNat ≤ f.ip.size ∧ Written sb f g off.toNat (src.take n)) f := by
  have hlen : (src.take n).length = n := by
    rw [length_take]
    omega
  have hoff := off.toNat_lt
  unfold writeChunk
  simp only [← hn]
  refine wp_bind.2 (wp_mono (writei_plain hsb hf hfull (by rw [ht]; decide) dev _ _) fun r g hr => wp_pure.2 ?_)
  rcases hr with ⟨rfl, rfl⟩ | ⟨rfl, hin, -, hwrap, hw⟩
  · exact .inl ⟨by rw [Option.getD_none, off_zero], rfl⟩
  · rw [hlen] at hwrap
    have hsum : uint32 (off.toNat + n) = off.toNat + n := uint32_add hoff (by rw [maxChunk_eq] at hn; omega) hwrap
    refine .inr ⟨congrArg some hlen, ?_, hin, hw⟩
    rw [Option.getD_some, hlen, UInt32.toNat_add, UInt32.toNat_ofNat', Nat.add_mod_mod]
    unfold uint32 at hsum
    exact hsum

structure Keeps (sb : Super) (f : File) (off : UInt32) (calls : List (List UInt8)) (s : Shared) : Prop where
  written : Written sb f s.file off.toNat (pieceBytes s.wrote)
  inside : s.wrote ≠ [] → off.toNat ≤ f.ip.size
  tiles : Tiles off.toNat s.wrote s.off.toNat
  order : ∀ p, pieceBytes (piecesOf p s.wrote) ++ s.left p = calls.getD p []
  total : s.off.toNat + ∑ p ∈ Finset.range calls.length, (s.left p).length = off.toNat + (calls.map List.length).sum

/-- a chunk goes from what a call has left into the file -/
theorem keeps_piece {off' : UInt32} (hs : Keeps sb f off calls s) (hn : n = min (s.left p).length maxChunk)
    (hoff : off'.toNat = s.off.toNat + n) (hin : s.off.toNat ≤ s.file.ip.size)
    (hw : Written sb s.file g s.off.toNat ((s.left p).take n)) (hne : s.left p ≠ []) :
    Keeps sb f off calls ⟨g, off', update s.left p ((s.left p).drop n), s.failed,
      s.wrote ++ [⟨p, s.off.toNat, (s.left p).take n⟩]⟩ := by
  have hlen : ((s.left p).take n).length = n := by
    rw [length_take]
    omega
  have hend := tiles_end hs.tiles
  refine ⟨?_, fun _ => ?_, ?_, fun q => ?_, ?_⟩
  · rw [pieceBytes_append, pieceBytes_cons]
    refine written_append hs.written ?_
    rw [← hend]
    simpa [pieceBytes] using hw
  · by_cases hnil : s.wrote = []
    · -- nothing was written before
      have hsize : s.file.ip.size = f.ip.size := by
        have hfields := hs.written.fields
        rw [hnil] at hfields
        rw [hfields]
        simp only
        exact if_pos rfl
      have hsame : s.off.toNat = off.toNat := by
        rw [hend, hnil]
        rfl
      omega
    · exact hs.inside hnil
  · have htiles := tiles_snoc hs.tiles p ((s.left p).take n)
    rw [hlen, ← hoff] at htiles
    exact htiles
  · have horder := hs.order q
    unfold piecesOf at horder ⊢
    rw [filter_append]
    by_cases hq : q = p
    · subst hq
      simp only [filter_cons, decide_true, if_true, filter_nil, update_self]
      rw [pieceBytes_append, append_assoc]
      simpa [pieceBytes] using horder
    · simp only [filter_cons, Ne.symm hq, decide_false, filter_nil, update_of_ne hq]
      simpa using horder
  · have hp : p ∈ Finset.range calls.length := by
      rw [Finset.mem_range]
      by_contra hge
      have horder := hs.order p
      rw [getD_eq_default _ _ (not_lt.1 hge)] at horder
      exact hne (append_eq_nil_iff.1 horder).2
    have htotal := hs.total
    have hold := Finset.add_sum_erase (Finset.range calls.length) (fun q => (s.left q).length) hp
    have hnew := Finset.add_sum_erase (Finset.range calls.length)
      (fun q => (update s.left p ((s.left p).drop n) q).length) hp
    have hrest : ∑ q ∈ (Finset.range calls.length).erase p, (update s.left p ((s.left p).drop n) q).length =
        ∑ q ∈ (Finset.range calls.length).erase p, (s.left q).length :=
      Finset.sum_congr rfl fun q hq => by rw [update_of_ne (Finset.ne_of_mem_erase hq)]
    simp only [update_self, length_drop] at hnew
    simp only
    omega

/-- **what one turn of any call keeps** -/
theorem step_keeps (hsb : sb.Ok) (ht : f.ip.type = T_FILE) (hs : Keeps sb f off calls s) (hstep : writeTurn sb dev s p = .ok s') :
    Keeps sb f off calls s' := by
  unfold writeTurn at hstep
  split_ifs at hstep with hend
  · obtain rfl := Except.ok.inj hstep
    exact hs
  rw [not_or] at hend
  have hok := hs.written.ok
  have hfull : Full sb (s.file.image sb) s.file.inum := hs.written.inum ▸ hs.written.full
  have htype : s.file.ip.type = T_FILE := (written_type hs.written).trans ht
  obtain ⟨n, hn⟩ : ∃ n, n = min (s.left p).length maxChunk := ⟨_, rfl⟩
  have hspec : wp notFreed (writeChunk sb dev (s.left p) s.off) (fun r g => r = (none, s.off) ∧ g = s.file ∨
      r.1 = some n ∧ r.2.toNat = s.off.toNat + n ∧ s.off.toNat ≤ s.file.ip.size ∧
        Written sb s.file g s.off.toNat ((s.left p).take n)) s.file := writeChunk_spec hsb hok hfull htype hn
  cases hrun : writeChunk sb dev (s.left p) s.off s.file with
  | error e =>
    rw [hrun] at hstep
    cases hstep
  | ok x =>
    obtain ⟨⟨r, off'⟩, g⟩ := x
    have hcases := wp_ok hspec hrun
    rw [hrun] at hstep
    rcases hcases with ⟨hr, rfl⟩ | ⟨hr, hoff, hin, hw⟩
    · obtain ⟨rfl, rfl⟩ := Prod.mk.inj hr
      obtain rfl := Except.ok.inj hstep
      exact ⟨hs.written, hs.inside, hs.tiles, hs.order, hs.total⟩
    · simp only at hr hoff
      subst hr
      have hret : s.turned p ((some n, off'), g) = .ok s' := hstep
      rw [Shared.turned, if_neg (not_not.2 hn)] at hret
      obtain rfl := Except.ok.inj hret
      exact keeps_piece hs hn hoff hin hw hend.1

/-- before the first turn -/
theorem start_keeps (hf : FileOk sb f) (hfull : Full sb (f.image sb) f.inum) : Keeps sb f off calls (.start f off calls) := by
  refine ⟨written_refl hf hfull, fun hbad => absurd rfl hbad, rfl, fun p => rfl, ?_⟩
  have hsum : ∑ p ∈ Finset.range calls.length, (calls.getD p []).length = (calls.map List.length).sum := by
    rw [Finset.sum_range, ← sum_ofFn]
    congr 1
    refine ext_getElem (by simp) fun k h1 h2 => ?_
    simp
  simp only [Shared.start, hsum]

/-- **what every interleaving keeps** -/
theorem run_keeps (hsb : sb.Ok) (ht : f.ip.type = T_FILE) (hs : Keeps sb f off calls s) {ps : List ℕ}
    (hrun : writeTurns sb dev s ps = .ok s') : Keeps sb f off calls s' := by
  induction ps generalizing s with
  | nil =>
    obtain rfl := Except.ok.inj hrun
    exact hs
  | cons p ps ih =>
    unfold writeTurns at hrun
    rw [foldlM_cons] at hrun
    cases hstep : writeTurn sb dev s p with
    | error e =>
      rw [hstep] at hrun
      cases hrun
    | ok s1 =>
      rw [hstep] at hrun
      exact ih (step_keeps hsb ht hs hstep) hrun

/-! ## All calls -/

/-- **Shared descriptors lose no writes.** -/
theorem shared_writes (f : File) (off : UInt32) (calls : List (List UInt8)) (ps : List ℕ) (hsb : sb.Ok) (hf : FileOk sb f)
    (hfull : Full sb (f.image sb) f.inum) (ht : f.ip.type = T_FILE) (hrun : writeTurns sb dev (.start f off calls) ps = .ok s)
    (hall : ∀ p, p < calls.length → s.left p = []) :
    Tiles off.toNat s.wrote s.off.toNat ∧ (s.wrote.Pairwise fun c d => c.off + c.bytes.length ≤ d.off) ∧
      s.off.toNat = off.toNat + (calls.map List.length).sum ∧
      (∀ p (hp : p < calls.length), pieceBytes (piecesOf p s.wrote) = calls[p]) ∧
      ∀ c ∈ s.wrote, ((content sb (s.file.image sb) f.inum).drop c.off).take c.bytes.length = c.bytes := by
  have hs := run_keeps hsb ht (start_keeps hf hfull) hrun
  refine ⟨hs.tiles, tiles_apart hs.tiles, ?_, fun p hp => ?_, fun c hc => ?_⟩
  · have htotal := hs.total
    rw [Finset.sum_eq_zero fun p hp => ?_, Nat.add_zero] at htotal
    · exact htotal
    · rw [hall p (Finset.mem_range.1 hp), length_nil]
  · have horder := hs.order p
    rw [hall p hp, append_nil] at horder
    rw [horder]
    simp [hp]
  · have hin := hs.inside (ne_nil_of_mem hc)
    have hfrom := tiles_from hs.tiles hc
    have hbytes := tiles_bytes hs.tiles hc
    have hlen : off.toNat ≤ (content sb (f.image sb) f.inum).length := by
      rw [content_length, image_inode]
      exact hin
    have htake : ((content sb (f.image sb) f.inum).take off.toNat).length = off.toNat := by
      rw [length_take]
      omega
    have hplace : c.off = off.toNat + (c.off - off.toNat) := by omega
    rw [written_content hs.written hin, splice, append_assoc, hplace, ← drop_drop, drop_left' htake]
    exact take_drop_append hbytes

/-- Two calls, the second one first. -/
theorem shared_writes_two : ∃ s, writeTurns wideSuper noDevices (.start emptyFile 0 [[1, 2], [3]]) [1, 0] = .ok s ∧
    Tiles 0 s.wrote s.off.toNat ∧ (s.wrote.Pairwise fun c d => c.off + c.bytes.length ≤ d.off) ∧ s.off.toNat = 0 + 3 := by
  have hend : (writeTurns wideSuper noDevices (.start emptyFile 0 [[1, 2], [3]]) [1, 0]).toOption.map
      (fun s => (s.left 0, s.left 1)) = some ([], []) := by decide +kernel
  cases hrun : writeTurns wideSuper noDevices (.start emptyFile 0 [[1, 2], [3]]) [1, 0] with
  | error e =>
    rw [hrun] at hend
    cases hend
  | ok s =>
    rw [hrun] at hend
    obtain ⟨h0, h1⟩ := Prod.mk.inj (Option.some.inj hend)
    have hall : ∀ p, p < 2 → s.left p = [] := by
      intro p hp
      interval_cases p
      · exact h0
      · exact h1
    obtain ⟨htiles, hapart, hoff, -, -⟩ := shared_writes emptyFile 0 [[1, 2], [3]] [1, 0] wideSuper_ok emptyFile_ok emptyFile_full rfl
      hrun hall
    exact ⟨s, rfl, htiles, hapart, hoff⟩

end Xv6.Fs
