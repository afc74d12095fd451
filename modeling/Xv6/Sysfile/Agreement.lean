/-
The functions of the source that this development has twice: the system calls have their own kalloc, kfree and filewrite,
over the state of the kernel; Vm and Fs have them over the pages and over one file.

Results:
- `kalloc_agrees`, `kfree_agrees`: on the same free list both return the same page and leave the same list;
- `filewrite_agrees`: **filewrite of a system call does to the inode, the offset and its result what filewrite of the
  inode's file does**, and where it panics, so does that.
-/
import Xv6.Fs.Coherence
import Xv6.Fs.Filewrite
import Xv6.Sysfile.Tables
import Xv6.Vm.Basic

namespace Xv6.Sysfile

open Fs Fallible Function

/-! ## kalloc.c -/

section Pages

variable {s : Sys} {m : Vm.Mem} {L : Vm.Link} {q : Page}

theorem kalloc_agrees (h : s.freelist = m.freelist) :
    ∃ q l, kalloc s = .ok (q, { s with freelist := l }) ∧ Vm.kalloc m = .ok (q, m.setFree l) := by
  obtain ⟨page, l⟩ := m
  obtain ⟨fs, file, proc, pipe, l', taken, allocs, frees⟩ := s
  obtain rfl : l' = l := h
  cases l' <;> exact ⟨_, _, rfl, rfl⟩

theorem kfree_agrees (h : s.freelist = m.freelist)
    (hq : ¬ (q * Vm.PGSIZE < L.kend ∨ Vm.PHYSTOP ≤ q * Vm.PGSIZE)) :
    ∃ l, kfree q s = .ok ((), { s with freelist := l }) ∧ Vm.kfree L q m = .ok ((), (m.setPage q fun _ => 1).setFree l) := by
  refine ⟨q :: s.freelist, rfl, ?_⟩
  rw [Vm.kfree, if_neg hq, h]
  rfl

end Pages

/-! ## filewrite -/

variable {sb : Super} {dev : Devsw} {s : Sys} {f : Filp} {e : Ino} {off : UInt32} {src : List UInt8}

/-- the inode of entry e and the offset of f after a write -/
def Sys.written (s : Sys) (f : Filp) (e : Ino) (g : Fs.File) (off : UInt32) : Sys :=
  { s with fs := s.fs.setFile e g, file := update s.file f { s.file f with off := off.toNat } }

/-- an entry that filewrite can lock -/
structure Ready (sb : Super) (s : Sys) (e : Ino) : Prop where
  ok : s.fs.Ok sb
  ref : 0 < (s.fs.inode e).ref
  valid : (s.fs.inode e).valid = true
  unlocked : (s.fs.inode e).locked = false
  type : (s.fs.inode e).din.type ≠ T_DIR

/-- the loop, by writei's result on the next chunk -/
theorem writeChunks_turn (hsrc : src ≠ []) (g : Fs.File) : Fs.writeChunks sb dev src off g =
    match writei sb dev (src.take maxWrite) off.toNat g with
    | .error msg => .error msg
    | .ok (none, g) => .ok ((false, off), g)
    | .ok (some r, g) =>
      if r ≠ (src.take maxWrite).length then .error "short filewrite"
      else Fs.writeChunks sb dev (src.drop maxWrite) (off + UInt32.ofNat r) g := by
  have hmax : maxChunk = maxWrite := rfl
  have htake : src.take (min src.length maxWrite) = src.take maxWrite := List.take_eq_take_iff.2 (by omega)
  have hdrop : src.drop (min src.length maxWrite) = src.drop maxWrite := List.drop_eq_drop_iff.2 (by omega)
  rw [Fs.writeChunks, if_neg hsrc, List.length_take, Nat.min_comm maxWrite]
  simp only [writeChunk, bind, StateT.bind, Except.bind, hmax, htake, hdrop]
  cases hw : writei sb dev (src.take maxWrite) off.toNat g with
  | error msg => rfl
  | ok p =>
    obtain ⟨_ | r, g⟩ := p
    · exact congrArg (fun o => Except.ok ((false, o), g)) (UInt32.add_zero off)
    · exact apply_ite (fun m : FileM (Bool × UInt32) => m g) ..

theorem written_self (h : (s.file f).off = off.toNat) : s.written f e (s.fs.file e) off = s := by
  rw [Sys.written, setFile_file, ← h, update_eq_self]

variable {g : Fs.File}

theorem ready_written (h : Ready sb s e) (hg : Fs.Kept sb (s.fs.file e) g) : Ready sb (s.written f e g off) e := by
  have hself : (s.fs.setFile e g).inode e = { s.fs.inode e with din := g.ip } := setInode_same
  refine ⟨ok_setFile h.ok h.ref (sound_valid h.ok h.ref h.valid) hg, ?_, ?_, ?_, ?_⟩ <;> simp only [Sys.written, hself]
  · exact h.ref
  · exact h.valid
  · exact h.unlocked
  · rw [hg.type]
    exact h.type

theorem written_file (hg : g.inum = (s.fs.inode e).inum) : (s.written f e g off).fs.file e = g := by
  have hself : (s.fs.setFile e g).inode e = { s.fs.inode e with din := g.ip } := setInode_same
  simp only [Sys.written, Icache.file, hself, ← hg]
  rfl

theorem written_written {g' : Fs.File} {off' : UInt32} :
    (s.written f e g off).written f e g' off' = s.written f e g' off' := by
  simp only [Sys.written, Icache.setFile, Icache.setInode, update_self, update_idem]

/-- one turn of the loop: the lock is taken and given back around writei -/
theorem wp_turn {α : Type} {E : Halt → Prop} {Q : α → Sys → Prop} {rest : Option ℕ → SysM α} (h : Ready sb s e)
    (hoff : (s.file f).off = off.toNat) (hok : ∀ r g, writei sb dev src off.toNat (s.fs.file e) = .ok (r, g) →
      wp E (rest r) Q (s.written f e g (off + UInt32.ofNat (r.getD 0))))
    (herr : ∀ msg, writei sb dev src off.toNat (s.fs.file e) = .error msg → E (.fs (.panic msg))) : wp E (do
      onFs (ilock sb e)
      let r ← onFs (onInode e (writei sb dev src ((← get).file f).off))
      addOff f (r.getD 0)
      onFs (iunlock e)
      rest r) Q s := by
  have href := h.ref
  refine wp_bind.2 (wp_onFs (D := fun stop => E (.fs stop)) (fun _ => id) ?_)
  simp only [ilock, wp_bind, wp_get, wp_ite, wp_throw, wp_modifyInode]
  refine ⟨fun hno => absurd hno (by omega), fun _ => ⟨fun hlk => absurd (h.unlocked.symm.trans hlk) (by simp), fun _ =>
    ⟨fun _ => ?_, fun hno => absurd h.valid hno⟩⟩⟩
  refine wp_onFs (D := fun stop => E (.fs stop)) (fun _ => id) ?_
  refine wp_onInode (D := fun msg => E (.fs (.panic msg))) (fun _ => id) ?_
  have hfile : (s.fs.setInode e { s.fs.inode e with locked := true }).file e = s.fs.file e := by
    rw [Icache.file, setInode_same]
    rfl
  simp only [hfile, hoff]
  rw [wp]
  cases hw : writei sb dev src off.toNat (s.fs.file e) with
  | error msg => exact herr msg hw
  | ok p =>
    simp only [addOff, wp_modifyFile]
    refine wp_onFs (D := fun stop => E (.fs stop)) (fun _ => id) ?_
    simp only [iunlock, wp_bind, wp_get, wp_ite, wp_throw, wp_modifyInode, Icache.setFile, setInode_same]
    refine ⟨fun hno => absurd hno (by simp; omega), fun _ => ?_⟩
    have hnext := hok p.1 p.2 hw
    have hnum : (off + UInt32.ofNat (p.1.getD 0)).toNat = uint32 ((s.file f).off + p.1.getD 0) := by
      simp [hoff, uint32, UInt32.toNat_add]
    rw [Sys.written, hnum] at hnext
    simp only [Icache.setFile, Icache.setInode, update_idem] at hnext ⊢
    rw [← h.unlocked]
    exact hnext

theorem writeChunks_agrees (hsb : sb.Ok) (k : ℕ) (h : Ready sb s e) (hoff : (s.file f).off = off.toNat)
    (hk : src.length ≤ k) : wp (fun _ => ∃ msg, Fs.writeChunks sb dev src off (s.fs.file e) = .error msg)
      (writeChunks sb dev f e k src) (fun done s' => ∃ off' g,
        Fs.writeChunks sb dev src off (s.fs.file e) = .ok ((done, off'), g) ∧ s' = s.written f e g off') s := by
  induction k generalizing s src off with
  | zero =>
    obtain rfl := List.eq_nil_of_length_eq_zero (Nat.le_zero.1 hk)
    exact wp_pure.2 ⟨off, s.fs.file e, by rw [Fs.writeChunks, if_pos rfl]; rfl, (written_self hoff).symm⟩
  | succ k ih =>
    rw [writeChunks, wp_ite]
    refine ⟨fun hsrc => ?_, fun hsrc => ?_⟩
    · exact wp_pure.2 ⟨off, s.fs.file e, by rw [Fs.writeChunks, if_pos hsrc]; rfl, (written_self hoff).symm⟩
    rw [writeChunks_turn hsrc]
    refine wp_turn h hoff (fun r g hw => ?_) fun msg hw => ⟨msg, by rw [hw]⟩
    have hsound := sound_valid h.ok h.ref h.valid
    have hg : Fs.Kept sb (s.fs.file e) g :=
      wp_ok (Q := fun _ g => Fs.Kept sb (s.fs.file e) g) (writei_kept hsb hsound h.type _ _) hw
    rw [hw]
    cases r with
    | none => exact wp_pure.2 ⟨_, g, rfl, by simp⟩
    | some r =>
      simp only [wp_bind, wp_ite, wp_throw]
      refine ⟨fun hne => ⟨_, if_pos hne⟩, fun heq => ?_⟩
      simp only [if_neg heq]
      have hlen : (src.drop maxWrite).length ≤ k := by
        have hpos := List.length_pos_of_ne_nil hsrc
        simp only [List.length_drop, maxWrite]
        omega
      have hoff' : ((s.written f e g (off + UInt32.ofNat r)).file f).off = (off + UInt32.ofNat r).toNat := by
        simp only [Sys.written, update_self]
      have hnext := ih (ready_written h hg) hoff' hlen
      rw [written_file hg.inum] at hnext
      refine wp_mono hnext ?_
      rintro done _ ⟨off', g', hrest, rfl⟩
      exact ⟨off', g', hrest, written_written⟩

/-- **filewrite of a system call is filewrite of the inode's file.** -/
theorem filewrite_agrees (hsb : sb.Ok) (h : Ready sb s (s.file f).ip) (htype : (s.file f).type = .inode)
    (hoff : (s.file f).off = off.toNat) :
    wp (fun _ => ∃ msg, Fs.filewrite sb dev ⟨(s.file f).writable, off⟩ src (s.fs.file (s.file f).ip) = .error msg)
      (filewrite sb dev f src) (fun done s' => ∃ r fd g,
        Fs.filewrite sb dev ⟨(s.file f).writable, off⟩ src (s.fs.file (s.file f).ip) = .ok ((r, fd), g) ∧
          done = r.isSome ∧ s' = s.written f (s.file f).ip g fd.off) s := by
  simp only [filewrite, wp_bind, wp_get, wp_ite, htype]
  refine ⟨fun hw => ?_, fun hw => ?_⟩
  · have hw' : (s.file f).writable = false := by simpa using hw
    exact wp_pure.2 ⟨none, _, _, by rw [hw', Fs.filewrite, if_pos rfl]; rfl, rfl, (written_self hoff).symm⟩
  · have hw' : (s.file f).writable = true := by simpa using hw
    have hfs : Fs.filewrite sb dev ⟨(s.file f).writable, off⟩ src (s.fs.file (s.file f).ip) =
        (Fs.writeChunks sb dev src off (s.fs.file (s.file f).ip)).map fun p =>
          ((if p.1.1 = true then some src.length else none, ⟨true, p.1.2⟩), p.2) := by
      rw [hw', Fs.filewrite, if_neg (by simp)]
      simp only [bind, StateT.bind, Except.bind, Except.map]
      cases Fs.writeChunks sb dev src off (s.fs.file (s.file f).ip) <;> rfl
    rw [hfs]
    refine wp_allow (wp_mono (writeChunks_agrees hsb _ h hoff le_rfl) ?_) ?_
    · rintro done s' ⟨off', g, hrest, rfl⟩
      refine ⟨_, _, g, by rw [hrest]; rfl, ?_, rfl⟩
      cases done <;> rfl
    · rintro halt ⟨msg, herr⟩
      exact ⟨msg, by rw [herr]; rfl⟩

end Xv6.Sysfile
