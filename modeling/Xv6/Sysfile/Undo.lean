/-
What a call that returns -1 leaves behind (sysfile.c), run without interleaving.

- `Unchanged s s'`: the directory tree, every inode's type, link count, size and contents, the references of the file table, and
  the descriptors and directories of the processes are the same.
- `Missing`: the last element of the path is not in its directory.
- `Supplied`: if open is to make a file, there are a free entry in the file table and a free descriptor.
- `Sys.Wf`: the accounts are right, the disk is consistent, and an inode that an entry names has a link or is in use. Every
  call keeps the accounts (`sysStep_ok`); the other two are assumed of the state before the call, and shown of the disk at
  boot (`boot_fs_ok`, `rootDisk_wf`).

Results:
- `open_failed`, `pipe_failed`, and one lemma for each other call;
- `failed_call_unchanged_iff`: **a call that returns -1 has changed nothing, but for an open that has made a file**;
- `full_table_creates`: such an open.
-/
import Xv6.Fs.Names
import Xv6.Sysfile.References

namespace Xv6.Sysfile

open Fs Fallible Holders Bytes Function

attribute [local semireducible] wp

variable {sb : Super} {dev : Devsw} {s s' : Sys} {f : Filp} {i : Slot} {w : Image} {R : Ino → ℕ} {c ip : Ino} {path : Fs.Path}
  {omode : UInt32} {α : Type}

/-! ## States -/

def Sys.image (sb : Super) (s : Sys) : Image := imageOf sb s.fs.disk

structure Unchanged (sb : Super) (s s' : Sys) : Prop where
  tree : treeOf sb (s'.image sb) = treeOf sb (s.image sb)
  sizes : ∀ n, ((s'.image sb).inode n).size = ((s.image sb).inode n).size
  contents : ∀ n o, fileByte sb (s'.image sb) n o = fileByte sb (s.image sb) n o
  refs : s'.fileRefs = s.fileRefs
  files : ∀ f, 0 < (s.file f).ref → s'.file f = s.file f
  procs : s'.proc = s.proc

structure Sys.Wf (sb : Super) (s : Sys) : Prop where
  accounts : s.Ok
  fs : s.fs.Ok sb
  rooted : Rooted sb s.fs.refs (s.image sb) s.fs

/-- the directory is there and does not have the name -/
def Missing (sb : Super) (s : Sys) (i : Slot) (path : Fs.Path) : Prop :=
  ∃ c d name, (s.proc i).cwd = some c ∧
    walk sb (s.image sb) true (startAt (s.fs.inode c).inum path) (elems path) = some (d, name) ∧
    lookup sb (s.image sb) d name = none

/-- a free entry and a free descriptor -/
def Spare (s : Sys) (i : Slot) : Prop := (∃ f, (s.file f).ref = 0) ∧ ∃ fd, (s.proc i).ofile fd = none

def Supplied (sb : Super) (s : Sys) (i : Slot) : Call → Prop
  | .open (some path) omode => has omode O_CREATE → Missing sb s i path → Spare s i
  | _ => True

/-- a call may stop for any reason -/
abbrev anyHalt (_ : Halt) : Prop := True

theorem unchanged_image (hv : s'.image sb = s.image sb) (hrefs : s'.fileRefs = s.fileRefs)
    (hfiles : ∀ f, 0 < (s.file f).ref → s'.file f = s.file f) (hp : s'.proc = s.proc) : Unchanged sb s s' :=
  ⟨by rw [hv], fun _ => by rw [hv], fun _ _ => by rw [hv], hrefs, hfiles, hp⟩

/-- only the inode cache changes, and not what it shows -/
theorem unchanged_fs {fs : Icache} (h : At sb R (s.image sb) fs) : Unchanged sb s { s with fs := fs } :=
  unchanged_image h.image rfl (fun _ _ => rfl) rfl

/-! ## Calls of fs.c -/

theorem wp_cwd {E : Halt → Prop} {Q : Ino → Sys → Prop} (hc : (s.proc i).cwd = some c) (h : Q c s) : wp E (cwd i) Q s := by
  simp only [cwd, wp_bind, wp_get, hc]
  exact h

theorem wp_anyHalt {m : SysM α} : wp anyHalt m (fun _ _ => True) s := by
  rw [wp]
  cases m s <;> trivial

theorem onFs_at {m : FsM α} {P : α → Icache → Prop} (h : wp anyhow m P s.fs) :
    wp anyHalt (onFs m) (fun a s' => ∃ fs, s' = { s with fs := fs } ∧ P a fs) s :=
  wp_onFs (fun _ _ => trivial) (wp_mono h fun _ fs hp => ⟨fs, rfl, hp⟩)

/-- a call that is one function of fs.c -/
theorem onFs_failed {m : FsM Bool} (h : wp anyhow m (fun r fs => r = false → At sb s.fs.refs (s.image sb) fs) s.fs) :
    wp anyHalt (onFs m) (fun r s' => r = false → Unchanged sb s s') s :=
  wp_onFs (fun _ _ => trivial) (wp_mono h fun _ _ hr hf => unchanged_fs (hr hf))

theorem unchanged_refl : Unchanged sb s s := unchanged_image rfl rfl (fun _ _ => rfl) rfl

theorem Sys.Wf.cwd (h : s.Wf sb) (hi : (s.proc i).life = .used) : ∃ c, (s.proc i).cwd = some c ∧ 0 < s.fs.refs c := by
  obtain ⟨c, hc⟩ := Option.isSome_iff_exists.1 ((h.accounts.procs i).cwd.1 hi)
  refine ⟨c, hc, ?_⟩
  rw [h.accounts.tables.inode]
  exact Nat.lt_add_left _ (holders_pos.2 ⟨i, hc⟩)

theorem Sys.Wf.start (h : s.Wf sb) : At sb s.fs.refs (s.image sb) s.fs := at_start h.fs

/-! ## Entries of the file table and descriptors -/

theorem filealloc_any : wp anyHalt filealloc (fun r s' => (r = none → s' = s ∧ ∀ f, (s.file f).ref ≠ 0) ∧
    ∀ f, r = some f → (s.file f).ref = 0 ∧ s'.fs = s.fs ∧ s'.proc = s.proc ∧
      s'.file = update s.file f { s.file f with ref := 1 }) s := by
  simp only [filealloc, wp_bind, wp_get]
  cases hfind : (List.finRange NFILE).find? fun f => (s.file f).ref = 0 with
  | none =>
    refine ⟨fun _ => ⟨rfl, fun f => ?_⟩, (by intros; contradiction)⟩
    simpa using List.find?_eq_none.1 hfind f (List.mem_finRange f)
  | some f =>
    simp only [wp_bind, wp_modifyFile, wp_pure]
    refine ⟨(by intros; contradiction), ?_⟩
    rintro _ ⟨⟩
    exact ⟨by simpa using List.find?_some hfind, trivial, trivial, rfl⟩

theorem fdalloc_any : wp anyHalt (fdalloc i f) (fun r s' => (r = none → s' = s ∧ ∀ fd, (s.proc i).ofile fd ≠ none) ∧
    ∀ fd, r = some fd → (s.proc i).ofile fd = none ∧ s' = s.withOfile i fd (some f)) s := by
  simp only [fdalloc, wp_bind, wp_get]
  cases hfind : (List.finRange NOFILE).find? fun fd => (s.proc i).ofile fd = none with
  | none =>
    refine ⟨fun _ => ⟨rfl, fun fd => ?_⟩, (by intros; contradiction)⟩
    simpa using List.find?_eq_none.1 hfind fd (List.mem_finRange fd)
  | some fd =>
    simp only [wp_bind, wp_setOfile, wp_pure]
    refine ⟨(by intros; contradiction), ?_⟩
    rintro _ ⟨⟩
    exact ⟨by simpa using List.find?_some hfind, rfl⟩

/-- the file system, the files and the processes -/
def Beside (s s' : Sys) : Prop := s'.fs = s.fs ∧ s'.file = s.file ∧ s'.proc = s.proc

theorem pipeclose_any {q : Page} {b : Bool} : wp anyHalt (pipeclose q b) (fun _ s' => Beside s s') s := by
  simp only [pipeclose, wp_bind, wp_get]
  cases s.pipe q with
  | none => trivial
  | some p =>
    simp only [wp_ite, wp_bind, wp_modify, kfree]
    exact ⟨fun _ => ⟨rfl, rfl, rfl⟩, fun _ => ⟨rfl, rfl, rfl⟩⟩

/-- the last reference to a file that is no inode -/
theorem fileclose_any (h1 : (s.file f).ref = 1) (ht : (s.file f).type ≠ .inode) : wp anyHalt (fileclose sb f)
    (fun _ s' => s'.fs = s.fs ∧ s'.proc = s.proc ∧
      s'.file = update s.file f { s.file f with ref := 0, type := .none }) s := by
  simp only [fileclose, wp_bind, wp_get, wp_ite, wp_throw, wp_modifyFile]
  refine ⟨fun _ => trivial, fun _ => ⟨fun hlt => absurd hlt (by omega), fun _ => ?_⟩⟩
  cases htype : (s.file f).type with
  | none =>
    simp only [closeLast, htype, wp_pure]
    exact ⟨trivial, trivial, trivial⟩
  | pipe =>
    simp only [closeLast, htype]
    refine wp_mono pipeclose_any ?_
    rintro - s' ⟨hfs, hfile, hp⟩
    exact ⟨hfs, hp, hfile⟩
  | inode => exact absurd htype ht

/-- a file that filealloc has just returned goes back -/
theorem fileclose_back {s0 : Sys} (h0 : (s0.file f).ref = 0) (ht : (s0.file f).type = .none)
    (hf : s.file = update s0.file f { s0.file f with ref := 1 }) : wp anyHalt (fileclose sb f)
    (fun _ s' => s'.fs = s.fs ∧ s'.proc = s.proc ∧ s'.file = s0.file) s := by
  have hself : s.file f = { s0.file f with ref := 1 } := by rw [hf, update_self]
  refine wp_mono (fileclose_any (by rw [hself]) (by rw [hself, ht]; simp)) ?_
  rintro - s' ⟨hfs, hp, hfile⟩
  refine ⟨hfs, hp, ?_⟩
  have hback : ({ s.file f with ref := 0, type := .none } : OpenFile) = s0.file f := by
    rw [hself, ← h0, ← ht]
  rw [hfile, hback, hf, update_idem, update_eq_self]

/-! ## Calls -/

section Calls

variable (hsb : sb.Ok) (hnum : sb.ninodes ≤ 2 ^ 16) (h : s.Wf sb) (hi : (s.proc i).life = .used)
include hsb h hi

theorem unlink_failed (path : Option Fs.Path) : wp anyHalt (sysUnlink sb dev i path)
    (fun r s' => r = false → Unchanged sb s s') s := by
  cases path with
  | none => exact fun _ => unchanged_refl
  | some path =>
    obtain ⟨c, hc, hpos⟩ := h.cwd hi
    refine wp_bind.2 (wp_cwd hc ?_)
    refine wp_seq (onFs_at (namex_at hsb h.rooted h.start hpos)) ?_
    rintro r _ ⟨fs, rfl, h1, -, hs1, hsafe1, -⟩
    cases r with
    | none => exact fun _ => unchanged_fs h1
    | some p =>
      refine wp_mono (onFs_at (unlink_at (rooted_same h.rooted hs1) h1 (hsafe1 p rfl))) ?_
      rintro r _ ⟨fs', rfl, hret⟩ hr
      exact unchanged_fs (hret hr)

theorem chdir_failed (path : Option Fs.Path) : wp anyHalt (sysChdir sb dev i path) (fun r s' => r = false → Unchanged sb s s') s := by
  cases path with
  | none => exact fun _ => unchanged_refl
  | some path =>
    obtain ⟨c, hc, hpos⟩ := h.cwd hi
    refine wp_bind.2 (wp_cwd hc ?_)
    refine wp_seq (onFs_at (namei_at hsb h.rooted h.start hpos)) ?_
    rintro r _ ⟨fs, rfl, h1, -, -, hsafe, -⟩
    cases r with
    | none => exact fun _ => unchanged_fs h1
    | some ip =>
      refine wp_seq (onFs_at (ilock_at h1)) ?_
      rintro - _ ⟨fs2, rfl, h2, -, -, hs2⟩
      simp only [wp_bind, wp_get, wp_ite, wp_pure]
      refine ⟨fun _ => ?_, fun _ => ?_⟩
      · refine wp_mono (onFs_at (iunlockput_at h2 (by rw [(hs2 ip).1]; exact hsafe ip rfl))) ?_
        rintro - _ ⟨fs3, rfl, h3, -⟩ -
        exact unchanged_fs h3
      · refine wp_mono wp_anyHalt fun _ _ _ => wp_mono wp_anyHalt fun _ _ _ => ?_
        simp only [wp_modifyProc]
        intro hr; cases hr

theorem link_failed (paths : Option (Fs.Path × Fs.Path)) :
    wp anyHalt (sysLink sb dev i paths) (fun r s' => r = false → Unchanged sb s s') s := by
  cases paths with
  | none => exact fun _ => unchanged_refl
  | some p =>
    obtain ⟨c, hc, hpos⟩ := h.cwd hi
    refine wp_bind.2 (wp_cwd hc ?_)
    exact onFs_failed (link_at hsb h.rooted h.start hpos)

include hnum

theorem createPut_failed {type major minor : ℕ} (htype : type < 2 ^ 16) (hmajor : major < 2 ^ 16) (hminor : minor < 2 ^ 16) :
    wp anyHalt (createPut sb dev i path type major minor) (fun r s' => r = false → Unchanged sb s s') s := by
  obtain ⟨c, hc, hpos⟩ := h.cwd hi
  refine wp_bind.2 (wp_cwd hc ?_)
  refine wp_seq (onFs_at (create_at hsb hnum h.rooted h.start hpos htype hmajor hminor)) ?_
  rintro r _ ⟨fs, rfl, hnone, -⟩
  cases r with
  | none => exact fun _ => unchanged_fs (hnone rfl).1
  | some ip => exact wp_seq wp_anyHalt fun _ _ _ => (by intro hr; cases hr)

theorem mkdir_failed (path : Option Fs.Path) : wp anyHalt (sysMkdir sb dev i path) (fun r s' => r = false → Unchanged sb s s') s := by
  cases path with
  | none => exact fun _ => unchanged_refl
  | some path => exact createPut_failed hsb hnum h hi (by decide) (by decide) (by decide)

theorem mknod_failed (args : Option (Fs.Path × UInt16 × UInt16)) :
    wp anyHalt (sysMknod sb dev i args) (fun r s' => r = false → Unchanged sb s s') s := by
  cases args with
  | none => exact fun _ => unchanged_refl
  | some p => exact createPut_failed hsb hnum h hi (by decide) p.2.1.toNat_lt p.2.2.toNat_lt

end Calls

/-! ## open -/

/-- open gives up: there was no entry or no descriptor, and everything but the inode is as it was -/
theorem openFile_failed {P : Icache → Prop} (hfree : ∀ f, (s.file f).ref = 0 → (s.file f).type = .none)
    (hput : wp anyhow (iunlockput sb ip) (fun _ fs => P fs) s.fs) : wp anyHalt (openFile sb i ip omode) (fun r s' =>
      r = false → ¬ Spare s i ∧ s'.file = s.file ∧ s'.proc = s.proc ∧ P s'.fs) s := by
  have hbad : ∀ s1 : Sys, s1.fs = s.fs → s1.file = s.file → s1.proc = s.proc → ¬ Spare s i → wp anyHalt (do
      onFs (iunlockput sb ip)
      return false) (fun r s' => r = false → ¬ Spare s i ∧ s'.file = s.file ∧ s'.proc = s.proc ∧ P s'.fs) s1 := by
    intro s1 hfs hfile hp hno
    refine wp_seq (onFs_at (P := fun _ fs => P fs) (by rw [hfs]; exact hput)) ?_
    rintro - _ ⟨fs, rfl, hP⟩ -
    exact ⟨hno, hfile, hp, hP⟩
  refine wp_seq filealloc_any ?_
  rintro r s1 ⟨hnone, hsome⟩
  cases r with
  | none =>
    obtain ⟨rfl, hfull⟩ := hnone rfl
    exact hbad s1 rfl rfl rfl fun hsp => hsp.1.elim fun f hf => hfull f hf
  | some f =>
    obtain ⟨h0, hfs1, hp1, hfile1⟩ := hsome f rfl
    refine wp_seq fdalloc_any ?_
    rintro r s2 ⟨hnone2, -⟩
    cases r with
    | none =>
      obtain ⟨rfl, hfull⟩ := hnone2 rfl
      refine wp_seq (fileclose_back h0 (hfree f h0) hfile1) ?_
      rintro - s3 ⟨hfs, hp, hfile⟩
      refine hbad s3 (hfs.trans hfs1) hfile (hp.trans hp1) fun hsp => hsp.2.elim fun fd hfd => hfull fd ?_
      rw [hp1]
      exact hfd
    | some fd => exact wp_seq wp_anyHalt fun _ _ _ => wp_seq wp_anyHalt fun _ _ _ => (by intro hr; cases hr)

/-- the inode that open works on: one that was there, or one that create has made -/
inductive Opened (sb : Super) (s : Sys) (i : Slot) (path : Fs.Path) (omode : UInt32) (ip : Ino) (fs : Icache) : Prop
  | old (state : At sb (s.fs.refs + one (some ip)) (s.image sb) fs)
      (safe : s.fs.refs ip = 0 → Linked sb (s.image sb) (fs.inode ip).inum)
      (there : has omode O_CREATE → ¬ Missing sb s i path)
  | new (flag : has omode O_CREATE) (missing : Missing sb s i path)
      (made : ∃ n w, Created sb s.fs.refs (s.image sb) T_FILE ip fs n w)

theorem missing_iff (hc : (s.proc i).cwd = some c) {d : ℕ} {name : Name}
    (hw : walk sb (s.image sb) true (startAt (s.fs.inode c).inum path) (elems path) = some (d, name)) :
    Missing sb s i path ↔ lookup sb (s.image sb) d name = none := by
  refine ⟨?_, fun hl => ⟨c, d, name, hc, hw, hl⟩⟩
  rintro ⟨c', d', name', hc', hw', hl⟩
  rw [hc] at hc'
  cases hc'
  rw [hw] at hw'
  cases hw'
  exact hl

section Open

variable (hsb : sb.Ok) (hnum : sb.ninodes ≤ 2 ^ 16) (h : s.Wf sb) (hi : (s.proc i).life = .used)
include hsb hnum h hi

theorem openInode_at : wp anyHalt (openInode sb dev i path omode) (fun r s1 => ∃ fs, s1 = { s with fs := fs } ∧
    (r = none → At sb s.fs.refs (s.image sb) fs ∧ (has omode O_CREATE → ¬ Missing sb s i path)) ∧
    ∀ ip, r = some ip → Opened sb s i path omode ip fs) s := by
  obtain ⟨c, hc, hpos⟩ := h.cwd hi
  refine wp_seq (wp_cwd (Q := fun e s' => e = c ∧ s' = s) hc ⟨rfl, rfl⟩) ?_
  rintro _ s ⟨rfl, rfl⟩
  refine wp_ite.2 ⟨fun hcreate => ?_, fun hcreate => ?_⟩
  · refine wp_mono (onFs_at (create_at hsb hnum h.rooted h.start hpos (by decide) (by decide) (by decide))) ?_
    rintro r _ ⟨fs, rfl, hnone, hsome⟩
    refine ⟨fs, rfl, fun hr => ⟨(hnone hr).1, fun _ hm => ?_⟩, fun ip hip => ?_⟩
    · obtain ⟨c', d, name, hc', hw, hl⟩ := hm
      rw [hc] at hc'
      cases hc'
      exact (hnone hr).2 d name hw hl
    · obtain ⟨d, name, hw, hret⟩ := hsome ip hip
      cases hret with
      | found hit state safe => exact .old state safe fun _ hm => hit ((missing_iff hc hw).1 hm)
      | made miss new =>
        exact .new hcreate ((missing_iff hc hw).2 miss) (new (by decide))
  · have hflag : has omode O_CREATE → ¬ Missing sb s i path := fun hf => absurd hf hcreate
    refine wp_seq (onFs_at (namei_at hsb h.rooted h.start hpos)) ?_
    rintro r _ ⟨fs, rfl, h1, -, -, hsafe, -⟩
    cases r with
    | none => exact ⟨fs, rfl, fun _ => ⟨h1, hflag⟩, (by intros; contradiction)⟩
    | some ip =>
      refine wp_seq (onFs_at (ilock_at h1)) ?_
      rintro - _ ⟨fs2, rfl, h2, -, -, hs2⟩
      have hsafe2 := hsafe ip rfl
      rw [← (hs2 ip).1] at hsafe2
      simp only [wp_bind, wp_get, wp_ite, wp_pure]
      refine ⟨fun _ => ?_, fun _ => ⟨fs2, rfl, (by intros; contradiction), ?_⟩⟩
      · refine wp_mono (onFs_at (iunlockput_at h2 hsafe2)) ?_
        rintro - _ ⟨fs3, rfl, h3, -⟩
        exact ⟨fs3, rfl, fun _ => ⟨h3, hflag⟩, (by intros; contradiction)⟩
      · rintro _ ⟨⟩
        exact .old h2 hsafe2 hflag

/-- **open, on each of its ways to -1.** -/
theorem open_failed (path : Option Fs.Path) (omode : UInt32) : wp anyHalt (sysOpen sb dev i path omode) (fun r s' =>
    r = false → (Unchanged sb s s' ↔ Supplied sb s i (.open path omode))) s := by
  cases path with
  | none => exact fun _ => ⟨fun _ => trivial, fun _ => unchanged_refl⟩
  | some path =>
    refine wp_seq (openInode_at hsb hnum h hi) ?_
    rintro r _ ⟨fs, rfl, hnone, hsome⟩
    cases r with
    | none =>
      obtain ⟨h1, hthere⟩ := hnone rfl
      exact fun _ => ⟨fun _ hf hm => absurd hm (hthere hf), fun _ => unchanged_fs h1⟩
    | some ip =>
      cases hsome ip rfl with
      | old state safe there =>
        refine wp_mono (openFile_failed h.accounts.tables.free (iunlockput_at state safe)) ?_
        intro r s' hr hf
        obtain ⟨-, hfile, hp, h', -⟩ := hr hf
        refine ⟨fun _ hflag hm => absurd hm (there hflag), fun _ => unchanged_image h'.image ?_ (fun f _ => ?_) hp⟩
        · funext f
          rw [Sys.fileRefs, hfile, Sys.fileRefs]
        · rw [hfile]
      | new flag missing made =>
        obtain ⟨n, w, hmade⟩ := made
        refine wp_mono (openFile_failed h.accounts.tables.free (iunlockput_at hmade.state fun _ _ => ?_)) ?_
        · rw [hmade.entry, hmade.nlink]
          decide
        · intro r s' hr hf
          obtain ⟨hspare, -, -, h', -⟩ := hr hf
          refine ⟨fun hun => ?_, fun hsup => absurd (hsup flag missing) hspare⟩
          have htree := congrFun (congrArg Tree.type hun.tree) n
          have himg : s'.image sb = w := h'.image
          rw [himg] at htree
          -- the new inode has a type
          exact absurd (hmade.free.symm.trans (htree.symm.trans hmade.type)) (by decide)

end Open

/-! ## pipe -/

/-- the entries that were free may have new contents, and they are free again -/
structure Handed (s s' : Sys) : Prop where
  fs : s'.fs = s.fs
  procs : s'.proc = s.proc
  files : ∀ f, 0 < (s.file f).ref → s'.file f = s.file f
  free : ∀ f, (s.file f).ref = 0 → (s'.file f).ref = 0

theorem Handed.unchanged (h : Handed s s') : Unchanged sb s s' := by
  refine unchanged_image (by rw [Sys.image, h.fs, Sys.image]) (funext fun f => ?_) h.files h.procs
  rcases Nat.eq_zero_or_pos (s.file f).ref with h0 | hpos
  · rw [Sys.fileRefs, h.free f h0, Sys.fileRefs, h0]
  · rw [Sys.fileRefs, h.files f hpos, Sys.fileRefs]

/-- the two files of a new pipe -/
structure NewPipe (s : Sys) (rf wf : Filp) (s' : Sys) : Prop where
  ne : rf ≠ wf
  free : (s.file rf).ref = 0 ∧ (s.file wf).ref = 0
  fs : s'.fs = s.fs
  procs : s'.proc = s.proc
  read : (s'.file rf).ref = 1 ∧ (s'.file rf).type ≠ .inode
  write : (s'.file wf).ref = 1 ∧ (s'.file wf).type ≠ .inode
  rest : ∀ f, f ≠ rf → f ≠ wf → s'.file f = s.file f

/-- the two files are closed; what pipealloc has stored in them does not matter -/
theorem closePipe {s0 : Sys} {rf wf : Filp} {x : α} (h : NewPipe s0 rf wf s) : wp anyHalt (do
    fileclose sb rf
    fileclose sb wf
    return x) (fun r s' => r = x ∧ Handed s0 s') s := by
  obtain ⟨h0, h1⟩ := h.free
  refine wp_seq (fileclose_any h.read.1 h.read.2) ?_
  rintro - s1 ⟨hfs1, hp1, hfile1⟩
  have hother : s1.file wf = s.file wf := by rw [hfile1, update_of_ne h.ne.symm]
  refine wp_seq (fileclose_any (by rw [hother]; exact h.write.1) (by rw [hother]; exact h.write.2)) ?_
  rintro - s2 ⟨hfs2, hp2, hfile2⟩
  have hfile : ∀ f, f ≠ rf → f ≠ wf → s2.file f = s0.file f := by
    intro f hr hw
    rw [hfile2, update_of_ne hw, hfile1, update_of_ne hr]
    exact h.rest f hr hw
  refine ⟨rfl, hfs2.trans (hfs1.trans h.fs), hp2.trans (hp1.trans h.procs), fun f hpos => hfile f ?_ ?_, fun f hz => ?_⟩
  · rintro rfl
    omega
  · rintro rfl
    omega
  · by_cases hw : f = wf
    · rw [hfile2, hw, update_self]
    · by_cases hr : f = rf
      · rw [hfile2, update_of_ne hw, hfile1, hr, update_self]
      · rw [hfile f hr hw, hz]

theorem pipeInit_any {q : Page} {rf wf : Filp} {s0 : Sys} (h : NewPipe s0 rf wf s) :
    wp anyHalt (pipeInit q rf wf) (fun _ s' => NewPipe s0 rf wf s') s := by
  simp only [pipeInit, wp_bind, wp_modify, wp_modifyFile]
  refine ⟨h.ne, h.free, h.fs, h.procs, ?_, ?_, fun f hr hw => ?_⟩
  · simp only [update_of_ne h.ne, update_self]
    exact ⟨h.read.1, (by simp)⟩
  · simp only [update_self, update_of_ne h.ne.symm]
    exact ⟨h.write.1, (by simp)⟩
  · simp only [update_of_ne hw, update_of_ne hr]
    exact h.rest f hr hw

theorem pipealloc_any (hfree : ∀ f, (s.file f).ref = 0 → (s.file f).type = .none) : wp anyHalt (pipealloc sb) (fun r s' =>
    (r = none → Handed s s') ∧ ∀ rf wf, r = some (rf, wf) → NewPipe s rf wf s') s := by
  refine wp_seq filealloc_any ?_
  rintro r s1 ⟨hnone, hsome⟩
  cases r with
  | none =>
    obtain ⟨rfl, -⟩ := hnone rfl
    exact ⟨fun _ => ⟨rfl, rfl, fun _ _ => rfl, fun _ => id⟩, (by intros; contradiction)⟩
  | some f0 =>
    obtain ⟨h0, hfs1, hp1, hfile1⟩ := hsome f0 rfl
    refine wp_seq filealloc_any ?_
    rintro r s2 ⟨hnone2, hsome2⟩
    cases r with
    | none =>
      obtain ⟨rfl, -⟩ := hnone2 rfl
      refine wp_seq (fileclose_back h0 (hfree f0 h0) hfile1) ?_
      rintro - s3 ⟨hfs, hp, hfile⟩
      exact ⟨fun _ => ⟨hfs.trans hfs1, hp.trans hp1, fun f _ => by rw [hfile], fun f hz => by rw [hfile]; exact hz⟩,
        (by intros; contradiction)⟩
    | some f1 =>
      obtain ⟨h1, hfs2, hp2, hfile2⟩ := hsome2 f1 rfl
      have hne : f0 ≠ f1 := by
        rintro rfl
        rw [hfile1, update_self] at h1
        cases h1
      rw [hfile1, update_of_ne hne.symm] at h1
      have hnew : NewPipe s f0 f1 s2 := by
        refine ⟨hne, ⟨h0, h1⟩, hfs2.trans hfs1, hp2.trans hp1, ?_, ?_, fun f hn0 hn1 => ?_⟩
        · rw [hfile2, update_of_ne hne, hfile1, update_self]
          exact ⟨rfl, by rw [hfree f0 h0]; simp⟩
        · rw [hfile2, update_self, hfile1, update_of_ne hne.symm]
          exact ⟨rfl, by rw [hfree f1 h1]; simp⟩
        · rw [hfile2, update_of_ne hn1, hfile1, update_of_ne hn0]
      refine wp_bind.2 ?_
      simp only [kalloc, wp_bind, wp_get]
      cases s2.freelist with
      | nil =>
        refine wp_pure.2 (wp_mono (closePipe (x := none) hnew) ?_)
        rintro _ s3 ⟨rfl, h3⟩
        exact ⟨fun _ => h3, (by intros; contradiction)⟩
      | cons q rest =>
        refine wp_bind.2 (wp_modify.2 (wp_pure.2 ?_))
        have hnew' : NewPipe s f0 f1 { s2 with freelist := rest } :=
          ⟨hnew.ne, hnew.free, hnew.fs, hnew.procs, hnew.read, hnew.write, hnew.rest⟩
        refine wp_seq (pipeInit_any hnew') fun _ s3 h3 => ⟨(by intros; contradiction), ?_⟩
        rintro _ _ ⟨⟩
        exact h3

theorem ofile_back {fd : Fd} (h : (s.proc i).ofile fd = none) :
    ((s.withOfile i fd (some f)).withOfile i fd none).proc = s.proc := by
  simp only [Sys.withOfile, Sys.withProc, update_self, update_idem]
  rw [← h, update_eq_self, update_eq_self]

theorem pipe_failed (hfree : ∀ f, (s.file f).ref = 0 → (s.file f).type = .none) (argptr : Bool) :
    wp anyHalt (sysPipe sb i argptr) (fun r s' => r = false → Unchanged sb s s') s := by
  refine wp_ite.2 ⟨fun _ _ => unchanged_refl, fun _ => wp_seq (pipealloc_any hfree) ?_⟩
  rintro r s1 ⟨hnone, hsome⟩
  cases r with
  | none => exact fun _ => (hnone rfl).unchanged
  | some p =>
    obtain ⟨rf, wf⟩ := p
    have hnew := hsome rf wf rfl
    refine wp_seq fdalloc_any ?_
    rintro r s2 ⟨hnone2, hsome2⟩
    cases r with
    | none =>
      obtain ⟨rfl, -⟩ := hnone2 rfl
      refine wp_mono (closePipe hnew) ?_
      rintro _ s3 ⟨-, h3⟩ -
      exact h3.unchanged
    | some fd0 =>
      obtain ⟨hfd0, rfl⟩ := hsome2 fd0 rfl
      refine wp_seq fdalloc_any ?_
      rintro r s3 ⟨hnone3, -⟩
      cases r with
      | some fd1 => intro hr; cases hr
      | none =>
        obtain ⟨rfl, -⟩ := hnone3 rfl
        -- the first descriptor is free again
        have hback := ofile_back (f := rf) hfd0
        have hnew' : NewPipe s rf wf ((s1.withOfile i fd0 (some rf)).withOfile i fd0 none) :=
          ⟨hnew.ne, hnew.free, hnew.fs, hback.trans hnew.procs, hnew.read, hnew.write, hnew.rest⟩
        refine wp_bind.2 (wp_setOfile.2 (wp_mono (closePipe hnew') ?_))
        rintro _ s3 ⟨-, h3⟩ -
        exact h3.unchanged

/-! ## All calls -/

/-- open, link, unlink, mkdir, mknod, chdir and pipe -/
def Call.onNames : Call → Bool
  | .open .. | .link .. | .unlink .. | .mkdir .. | .mknod .. | .chdir .. | .pipe .. => true
  | _ => false

theorem syscall_failed (hsb : sb.Ok) (hnum : sb.ninodes ≤ 2 ^ 16) (h : s.Wf sb) (hi : (s.proc i).life = .used) {c : Call}
    (hc : c.onNames = true) :
    wp anyHalt (syscall sb dev i c) (fun r s' => r = false → (Unchanged sb s s' ↔ Supplied sb s i c)) s := by
  have hall : ∀ {m : SysM Bool}, Supplied sb s i c → wp anyHalt m (fun r s' => r = false → Unchanged sb s s') s →
      wp anyHalt m (fun r s' => r = false → (Unchanged sb s s' ↔ Supplied sb s i c)) s := fun hsup hm =>
    wp_mono hm fun r s' hr hf => ⟨fun _ => hsup, fun _ => hr hf⟩
  cases c with
  | «open» path omode => exact open_failed hsb hnum h hi path omode
  | link paths => exact hall trivial (link_failed hsb h hi paths)
  | unlink path => exact hall trivial (unlink_failed hsb h hi path)
  | mkdir path => exact hall trivial (mkdir_failed hsb hnum h hi path)
  | mknod args => exact hall trivial (mknod_failed hsb hnum h hi args)
  | chdir path => exact hall trivial (chdir_failed hsb h hi path)
  | pipe argptr => exact hall trivial (pipe_failed h.accounts.tables.free argptr)
  | _ => cases hc

/-- **A call that returns -1 has changed nothing, but for an open that has made a file and could not open it.** -/
theorem failed_call_unchanged_iff (sb : Super) (dev : Devsw) (s s' : Sys) (i : Slot) (c : Call) (hsb : sb.Ok)
    (hnum : sb.ninodes ≤ 2 ^ 16) (h : s.Wf sb) (hi : (s.proc i).life = .used) (hc : c.onNames = true)
    (hrun : syscall sb dev i c s = .ok (false, s')) : Unchanged sb s s' ↔ Supplied sb s i c := by
  exact wp_ok (syscall_failed hsb hnum h hi hc) hrun rfl

/-! ## The sample disk -/

def rootInode : Dinode := ⟨T_DIR, 0, 0, 1, 32, fun k => if k.val = 0 then 4 else 0⟩

theorem rootDisk_root : (rawImage smallSuper rootDisk).inode 1 = rootInode :=
  inodeOf_setInode ⟨by decide, by decide, by decide, by decide, by decide, fun k => by dsimp only; split_ifs <;> decide⟩

theorem rootDisk_allocated {i : ℕ} : allocated smallSuper (rawImage smallSuper rootDisk) i ↔ i = 1 := by
  have hfree : ∀ i, i < 8 → i ≠ 1 → (inodeOf smallSuper rootDisk i).type = 0 := by decide +kernel
  constructor
  · rintro ⟨hi, ht⟩
    by_contra h1
    exact ht (hfree i hi h1)
  · rintro rfl
    exact ⟨by decide, by rw [rootDisk_root]; decide⟩

theorem rootDisk_stored {p : ℕ × Spot} {x : ℕ} :
    stored smallSuper (rawImage smallSuper rootDisk) p = some x ↔ p = (1, .slot 0) ∧ x = 4 := by
  obtain ⟨i, s⟩ := p
  rw [stored]
  by_cases hi : i = 1
  · subst hi
    rw [if_pos (rootDisk_allocated.2 rfl), rootDisk_root]
    cases s with
    | slot k =>
      rw [storedIn, blockNo_eq_some]
      simp only [rootInode, Prod.mk.injEq, Spot.slot.injEq, true_and, Fin.ext_iff, Fin.val_zero]
      split_ifs with hk <;> omega
    | entry j => simp [storedIn, rootInode, indirectSlot]
  · rw [if_neg fun ha => hi (rootDisk_allocated.1 ha)]
    simp [hi]

theorem rootDisk_consistent : Consistent smallSuper (rawImage smallSuper rootDisk) := by
  refine ⟨⟨⟨fun p q x hp hq => ?_, fun x => ?_⟩, fun x hx => ?_⟩, fun i ha => ?_, fun i ha _ => ?_⟩
  · rw [(rootDisk_stored.1 hp).1, (rootDisk_stored.1 hq).1]
  · have hbits : ∀ x, x < 10 → 4 ≤ x → (usedBit smallSuper rootDisk x = true ↔ x = 4) := by decide +kernel
    constructor
    · rintro ⟨h1, h2, h3⟩
      exact ⟨(1, .slot 0), rootDisk_stored.2 ⟨rfl, (hbits x h2 h1).1 h3⟩⟩
    · rintro ⟨p, hp⟩
      obtain ⟨-, rfl⟩ := rootDisk_stored.1 hp
      exact ⟨by decide, by decide, (hbits 4 (by decide) (by decide)).2 rfl⟩
  · have hused : ∀ x, x < 4 → usedBit smallSuper rootDisk x = true := by decide +kernel
    exact hused x hx
  · obtain rfl := rootDisk_allocated.1 ha
    intro bn hbn
    have hB := BSIZE_eq
    rw [rootDisk_root, hB] at hbn
    have h0 : bn = 0 := by
      change bn * 512 < 32 at hbn
      omega
    subst h0
    have hs : stored smallSuper (rawImage smallSuper rootDisk) (1, .slot 0) = some 4 := rootDisk_stored.2 ⟨rfl, rfl⟩
    intro hnone
    exact absurd (hs.symm.trans hnone) (by simp)
  · obtain rfl := rootDisk_allocated.1 ha
    intro t ht
    have hD := DESIZE_eq
    rw [rootDisk_root, hD] at ht
    have ht : t < 2 := by
      change 16 * t + 16 ≤ 32 at ht
      omega
    have hent : ∀ t, t < 2 → entryInum smallSuper (rawImage smallSuper rootDisk) 1 t < smallSuper.ninodes := by decide +kernel
    exact hent t ht

theorem boot_fs_ok {sb : Super} {d : Disk} {n : ℕ} (hsb : sb.Ok) (hd : Consistent sb (rawImage sb d)) : (Sys.boot d n).fs.Ok sb := by
  refine ok_setInode (icache_boot_ok hsb hd) (fun _ => hsb.root) (fun _ e he h0 => ?_) (fun _ hv => ?_) fun hl => ?_
  · simp [Icache.boot] at h0
  · simp [Icache.boot] at hv
  · simp [Icache.boot] at hl

theorem rootDisk_size : ((imageOf smallSuper rootDisk).inode 1).size = 32 := by
  have hraw : (rawImage smallSuper rootDisk).inode 1 = (imageOf smallSuper rootDisk).inode 1 := raw_inode (by decide)
  rw [rootDisk_root] at hraw
  exact (congrArg Dinode.size hraw).symm

/-- both entries of the root name the root -/
theorem rootDisk_slot {d t n : ℕ} {nm : Name} (hd : allocated smallSuper (imageOf smallSuper rootDisk) d)
    (hslot : slot smallSuper (imageOf smallSuper rootDisk) d t = some (n, nm)) : n = 1 := by
  obtain rfl := rootDisk_allocated.1 (raw_allocated.2 hd)
  have hent : ∀ t, t < 2 → entryInum smallSuper (imageOf smallSuper rootDisk) 1 t = 1 := by decide +kernel
  have hin := slot_inside (by rw [hslot]; simp)
  have hD := DESIZE_eq
  rw [rootDisk_size, hD] at hin
  exact (slot_inum hslot).1.trans (hent t (by omega))

theorem rootDisk_wf : (Sys.boot rootDisk 4).Wf smallSuper := by
  have hanch : Anchored smallSuper (Sys.boot rootDisk 4).fs.refs ((Sys.boot rootDisk 4).image smallSuper) (Sys.boot rootDisk 4).fs 1 :=
    Or.inr ⟨0, by decide, by decide⟩
  refine ⟨boot_ok rootDisk 4, boot_fs_ok smallSuper_ok rootDisk_consistent, hanch, fun d t n nm hd _ hslot => ?_⟩
  rw [rootDisk_slot hd hslot]
  exact hanch

theorem failed_of {r : Except Halt (Bool × Sys)} (h : (match r with | .ok (b, _) => !b | .error _ => false) = true) :
    ∃ s', r = .ok (false, s') := by
  match r, h with
  | .ok (false, s'), _ => exact ⟨s', rfl⟩

theorem failed_call_unchanged_iff_missing : ∃ s',
    syscall smallSuper noDevices 0 (.open (some pathF) 0) (.boot rootDisk 4) = .ok (false, s') ∧
    (Unchanged smallSuper (.boot rootDisk 4) s' ↔ Supplied smallSuper (.boot rootDisk 4) 0 (.open (some pathF) 0)) := by
  obtain ⟨s', hs⟩ := failed_of (r := syscall smallSuper noDevices 0 (.open (some pathF) 0) (.boot rootDisk 4)) (by decide +kernel)
  exact ⟨s', hs, failed_call_unchanged_iff smallSuper noDevices _ s' 0 _ smallSuper_ok (by decide) rootDisk_wf rfl rfl hs⟩

/-- every descriptor is in use -/
def fullCalls : List Event := .call 0 (.open (some pathRoot) 0) :: List.replicate 15 (.call 0 (.dup 0))

def fullTable : Sys := endOf (sysRun smallSuper noDevices (.boot rootDisk 4) fullCalls)

/-- **open makes the file "f" and returns -1.** -/
theorem full_table_creates : sysRun smallSuper noDevices (.boot rootDisk 4) fullCalls = .ok fullTable ∧
    ∃ s', syscall smallSuper noDevices 0 (.open (some pathF) 0x202) fullTable = .ok (false, s') ∧
      ((fullTable.image smallSuper).inode 2).type = 0 ∧ ((s'.image smallSuper).inode 2).type = T_FILE ∧
      ¬ Unchanged smallSuper fullTable s' := by
  have hrun := endOf_eq (r := sysRun smallSuper noDevices (.boot rootDisk 4) fullCalls) (by decide +kernel)
  have hcall : (match syscall smallSuper noDevices 0 (.open (some pathF) 0x202) fullTable with
      | .ok (b, s') => !b && decide (((s'.image smallSuper).inode 2).type = T_FILE)
      | .error _ => false) = true := by decide +kernel
  have hold : ((fullTable.image smallSuper).inode 2).type = 0 := by decide +kernel
  refine ⟨hrun, ?_⟩
  match hr : syscall smallSuper noDevices 0 (.open (some pathF) 0x202) fullTable with
  | .error _ | .ok (true, _) => rw [hr] at hcall; cases hcall
  | .ok (false, s') =>
    rw [hr] at hcall
    have hnew : ((s'.image smallSuper).inode 2).type = T_FILE := by simpa using hcall
    refine ⟨s', rfl, hold, hnew, fun hun => ?_⟩
    have htype := congrFun (congrArg Tree.type hun.tree) 2
    exact absurd (hnew.symm.trans (htype.trans hold)) (by decide)

end Xv6.Sysfile
