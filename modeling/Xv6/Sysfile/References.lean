/-
Reference counts of inodes and open files, and the ends and pages of pipes, in every state that system calls reach.

Results:
- `inode_refs_exact`: **the count of an inode is the number of processes in it and of open files on it**;
- `file_pipe_accounts`: **the count of a file is the number of descriptors; an end of a pipe is open exactly if there is a
  file for it; the page of a pipe is freed once, when both ends are closed; filedup and fileclose do not panic**.
-/
import Xv6.Fs.Volume
import Xv6.Sysfile.Accounts

namespace Xv6.Sysfile

open Fs Bytes Holders

variable {sb : Super} {dev : Devsw} {d : Disk} {s : Sys}

theorem reached_ok {n : ℕ} {events : List Event} (h : sysRun sb dev (.boot d n) events = .ok s) : s.Ok := by
  have hrun := sysRun_ok sb dev (boot_ok d n) events
  rw [h] at hrun
  exact hrun

/-! ## Inodes -/

/-- **Reference counts of inodes are exact.** -/
theorem inode_refs_exact (sb : Super) (dev : Devsw) (d : Disk) (npages : ℕ) (events : List Event) (s : Sys)
    (hrun : sysRun sb dev (.boot d npages) events = .ok s) (e : Ino) :
    (s.fs.inode e).ref = (Finset.univ.filter fun i => (s.proc i).cwd = some e).card +
      (Finset.univ.filter fun f => 0 < (s.file f).ref ∧ (s.file f).type = .inode ∧ (s.file f).ip = e).card := by
  have hcount := congrFun (reached_ok hrun).tables.inode e
  have hfiles : holders s.inodeRefs e =
      (Finset.univ.filter fun f => 0 < (s.file f).ref ∧ (s.file f).type = .inode ∧ (s.file f).ip = e).card := by
    rw [holders]
    congr 2
    funext f
    rw [Sys.inodeRefs, inodeRef]
    split_ifs with hc
    · simp [hc.1, hc.2]
    · simp only [eq_iff_iff, false_iff]
      tauto
  rw [← hfiles, add_comm]
  exact hcount

/-- the root directory in inode 1, with its two entries in block 4 -/
def rootDisk : Disk :=
  setInode smallSuper
    (Function.update (smallDisk 31) 4 (patch (fun _ => 0) 0 ((dirent dot 1).bytes ++ (dirent dotdot 1).bytes)))
    1 ⟨T_DIR, 0, 0, 1, 32, fun k => if k.val = 0 then 4 else 0⟩

/-- paths: "d", "f", "d/f" and "/" -/
def pathD : Fs.Path := [100]
def pathF : Fs.Path := [102]
def pathDF : Fs.Path := [100, 47, 102]
def pathRoot : Fs.Path := [47]

/-- calls of two processes, with failures on the way -/
def sampleCalls : List Event :=
  [.call 0 (.mkdir (some pathD)), .call 0 (.chdir (some pathD)), .call 0 (.open (some pathF) 0x202), .call 0 (.dup 0),
   .call 0 (.mkdir (some pathF)), .call 0 (.open (some pathD) 0), .call 0 (.fork true), .call 1 (.chdir (some pathRoot)),
   .call 1 (.link (some (pathDF, pathF))), .call 1 (.link (some (pathDF, pathRoot))), .call 1 (.unlink (some pathD)),
   .call 1 (.exec (some pathF) ⟨true, fun _ => true, true⟩), .call 1 (.close 0), .call 0 (.unlink (some pathF)),
   .call 1 .exit, .wait 1]

def endOf (r : Except Halt Sys) : Sys :=
  match r with
  | .ok s => s
  | .error _ => .boot (fun _ _ => 0) 0

theorem endOf_eq {r : Except Halt Sys} (h : r.isOk = true) : r = .ok (endOf r) := by
  cases r with
  | ok s => rfl
  | error halt => cases h

theorem inode_refs_exact_sampleCalls :
    let s := endOf (sysRun smallSuper noDevices (.boot rootDisk 4) sampleCalls)
    sysRun smallSuper noDevices (.boot rootDisk 4) sampleCalls = .ok s ∧ (s.fs.inode 0).ref = 1 ∧ (s.fs.inode 1).ref = 1 ∧
    ∀ e, (s.fs.inode e).ref = (Finset.univ.filter fun i => (s.proc i).cwd = some e).card +
      (Finset.univ.filter fun f => 0 < (s.file f).ref ∧ (s.file f).type = .inode ∧ (s.file f).ip = e).card := by
  have hrun := endOf_eq (r := sysRun smallSuper noDevices (.boot rootDisk 4) sampleCalls) (by decide +kernel)
  exact ⟨hrun, by decide +kernel, by decide +kernel, inode_refs_exact smallSuper noDevices rootDisk 4 sampleCalls _ hrun⟩

/-! ## Files and pipes -/

/-- f is the read end, or the write end, of the pipe in page q -/
def Sys.IsEnd (s : Sys) (q : Page) (writable : Bool) (f : Filp) : Prop :=
  0 < (s.file f).ref ∧ (s.file f).type = .pipe ∧ (s.file f).pipe = q ∧ (s.file f).writable = writable

theorem pipeRef_isEnd {q : Page} {b : Bool} {f : Filp} : s.pipeRefs f = some (q, b) ↔ s.IsEnd q b f := by
  rw [Sys.pipeRefs, pipeRef, Sys.IsEnd]
  split_ifs with hc
  · simp [hc.1, hc.2]
  · simp only [false_iff]
    tauto

theorem isOpen_iff {G : Ino → ℕ} {H : Filp → ℕ} (h : Tables s G H 0) {q : Page} {p : Ends} (hp : s.pipe q = some p) (b : Bool) :
    p.isOpen b = true ↔ ∃ f, s.IsEnd q b f := by
  have hend := congrFun h.ends (q, b)
  simp only [Pi.add_apply, Pi.zero_apply, add_zero, Sys.openEnds, hp, Option.map_some, Option.getD_some] at hend
  have hex : (∃ f, s.IsEnd q b f) ↔ 0 < holders s.pipeRefs (q, b) := by
    rw [holders_pos]
    exact exists_congr fun f => pipeRef_isEnd.symm
  rw [hex, hend]
  cases p.isOpen b <;> simp

/-- **Open files and the ends of pipes.** -/
theorem file_pipe_accounts (sb : Super) (dev : Devsw) (d : Disk) (npages : ℕ) (events : List Event) :
    match sysRun sb dev (.boot d npages) events with
    | .ok s =>
      (∀ f, (s.file f).ref = (Finset.univ.filter fun x : Slot × Fd => (s.proc x.1).ofile x.2 = some f).card) ∧
      (∀ f, (s.file f).ref = 0 → (s.file f).type = .none) ∧
      (∀ q p, s.pipe q = some p → (p.readopen = true ↔ ∃ f, s.IsEnd q false f) ∧ (p.writeopen = true ↔ ∃ f, s.IsEnd q true f)) ∧
      (∀ q p, s.pipe q = some p → p.readopen = true ∨ p.writeopen = true) ∧
      (∀ q b f, s.IsEnd q b f → (s.pipe q).isSome) ∧
      (∀ q, s.allocs q = s.frees q + if (s.pipe q).isSome then 1 else 0) ∧
      s.freelist.Nodup ∧ ∀ q, (s.pipe q).isSome → q ∉ s.freelist
    | .error halt => halt ≠ .panic "filedup" ∧ halt ≠ .panic "fileclose" ∧ halt ≠ .wild := by
  have hrun := sysRun_ok sb dev (boot_ok d npages) events
  cases h : sysRun sb dev (.boot d npages) events with
  | error halt =>
    rw [h] at hrun
    exact ⟨hrun.2.1, hrun.2.2, hrun.1⟩
  | ok s =>
    rw [h] at hrun
    have ht := hrun.tables
    refine ⟨fun f => congrFun ht.file f, ht.free, fun q p hp => ⟨isOpen_iff ht hp false, isOpen_iff ht hp true⟩, ht.pages.alive,
      fun q b f hf => ?_, fun q => ?_, (List.nodup_append.1 ht.pages.nodup).1, fun q hq => ?_⟩
    · have hpos : 0 < s.openEnds (q, b) := by
        rw [← ht.ends, add_zero]
        exact holders_pos.2 ⟨f, pipeRef_isEnd.2 hf⟩
      by_contra hnone
      simp [Sys.openEnds, Option.not_isSome_iff_eq_none.1 hnone] at hpos
    · rw [ht.pages.books q]
      cases (s.pipe q).isSome <;> rfl
    · obtain ⟨p, hp⟩ := Option.isSome_iff_exists.1 hq
      exact fun hmem => ht.pages.away q p hp (List.mem_append_left _ hmem)

end Xv6.Sysfile
