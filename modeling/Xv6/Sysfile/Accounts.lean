/-
Every system call keeps the accounts of inodes, files and pipes.

- `Sys.Ok`: the count of an inode is the number of processes in it and of files open on it; the count of a file is the
  number of descriptors; a process that is not in use has neither.
- `During i s G H`: the same in the middle of a call of process i, which has the references G to inodes and H to files
  in its hands.

Results:
- one lemma for each call;
- `sysStep_ok`, `sysRun_ok`: **every call that completes keeps the accounts, and none ends in the panics of filedup and
  fileclose or in a pipe that is not there**.
-/
import Xv6.Sysfile.Tables

namespace Xv6.Sysfile

open Fs Fallible Holders Function List

attribute [local semireducible] wp

variable {sb : Super} {dev : Devsw} {s s' : Sys} {f : Filp} {i j : Slot} {fd : Fd} {G G' : Ino → ℕ} {H H' : Filp → ℕ}
  {e : Ino} {α : Type}

/-! ## Processes -/

def Sys.cwds (s : Sys) (i : Slot) : Option Ino := (s.proc i).cwd

def Sys.ofiles (s : Sys) (x : Slot × Fd) : Option Filp := (s.proc x.1).ofile x.2

structure Process.Ok (p : Process) : Prop where
  cwd : p.life = .used ↔ p.cwd.isSome
  ofile : p.life ≠ .used → ∀ fd, p.ofile fd = none

structure Sys.Ok (s : Sys) : Prop where
  tables : Tables s (holders s.cwds) (holders s.ofiles) 0
  procs : ∀ i, (s.proc i).Ok

structure During (i : Slot) (s : Sys) (G : Ino → ℕ) (H : Filp → ℕ) : Prop where
  tables : Tables s (holders s.cwds + G) (holders s.ofiles + H) 0
  procs : ∀ i, (s.proc i).Ok
  life : (s.proc i).life = .used

theorem during_start (h : s.Ok) (hi : (s.proc i).life = .used) : During i s 0 0 :=
  ⟨by simpa using h.tables, h.procs, hi⟩

theorem during_end (h : During i s 0 0) : s.Ok := ⟨by simpa using h.tables, h.procs⟩

theorem cwds_congr (hp : s'.proc = s.proc) : s'.cwds = s.cwds := by
  funext j
  rw [Sys.cwds, hp, Sys.cwds]

theorem ofiles_congr (hp : s'.proc = s.proc) : s'.ofiles = s.ofiles := by
  funext x
  rw [Sys.ofiles, hp, Sys.ofiles]

/-- a step that leaves the processes alone -/
theorem during_tables (h : During i s G H) (hp : s'.proc = s.proc)
    (ht : Tables s' (holders s.cwds + G') (holders s.ofiles + H') 0) : During i s' G' H' := by
  refine ⟨?_, fun j => by rw [hp]; exact h.procs j, by rw [hp]; exact h.life⟩
  rw [cwds_congr hp, ofiles_congr hp]
  exact ht

/-! ## Changes of a process -/

def Sys.withProc (s : Sys) (i : Slot) (p : Process) : Sys := { s with proc := update s.proc i p }

def Sys.withOfile (s : Sys) (i : Slot) (fd : Fd) (x : Option Filp) : Sys :=
  s.withProc i { s.proc i with ofile := update (s.proc i).ofile fd x }

variable {p : Process} {x : Option Filp} {E : Halt → Prop} {path : Option Fs.Path} {omode : UInt32} {n : ℤ}

theorem wp_modifyProc {u : Process → Process} {Q : Unit → Sys → Prop} :
    wp E (modifyProc i u) Q s ↔ Q () (s.withProc i (u (s.proc i))) := Iff.rfl

theorem wp_setOfile {Q : Unit → Sys → Prop} :
    wp E (setOfile i fd x) Q s ↔ Q () (s.withOfile i fd x) := Iff.rfl

theorem proc_withProc_same : (s.withProc i p).proc i = p := update_self ..

theorem proc_withProc (hj : j ≠ i) : (s.withProc i p).proc j = s.proc j := update_of_ne hj ..

theorem cwds_withProc : (s.withProc i p).cwds = update s.cwds i p.cwd := by
  funext j
  by_cases hj : j = i
  · subst hj
    rw [Sys.cwds, proc_withProc_same, update_self]
  · rw [Sys.cwds, proc_withProc hj, update_of_ne hj, Sys.cwds]

theorem ofiles_withProc (hp : p.ofile = (s.proc i).ofile) : (s.withProc i p).ofiles = s.ofiles := by
  funext ⟨j, fd⟩
  by_cases hj : j = i
  · subst hj
    simp only [Sys.ofiles, proc_withProc_same, hp]
  · simp only [Sys.ofiles, proc_withProc hj]

theorem ok_withProc (h : ∀ j, (s.proc j).Ok) (hp : p.Ok) (j : Slot) : ((s.withProc i p).proc j).Ok := by
  by_cases hj : j = i
  · subst hj
    rw [proc_withProc_same]
    exact hp
  · rw [proc_withProc hj]
    exact h j

theorem cwds_withOfile : (s.withOfile i fd x).cwds = s.cwds := by
  rw [Sys.withOfile, cwds_withProc]
  exact update_eq_self ..

theorem ofiles_withOfile : (s.withOfile i fd x).ofiles = update s.ofiles (i, fd) x := by
  funext ⟨j, fd'⟩
  by_cases hj : j = i
  · subst hj
    by_cases hfd : fd' = fd
    · subst hfd
      simp [Sys.ofiles, Sys.withOfile, proc_withProc_same]
    · simp [Sys.ofiles, Sys.withOfile, proc_withProc_same, update_of_ne, hfd]
  · simp [Sys.ofiles, Sys.withOfile, proc_withProc hj, update_of_ne, hj]

theorem life_withOfile (j : Slot) : ((s.withOfile i fd x).proc j).life = (s.proc j).life := by
  by_cases hj : j = i
  · subst hj
    rw [Sys.withOfile, proc_withProc_same]
  · rw [Sys.withOfile, proc_withProc hj]

theorem ok_withOfile (h : ∀ j, (s.proc j).Ok) (hi : (s.proc i).life = .used) (j : Slot) :
    ((s.withOfile i fd x).proc j).Ok := by
  have hp : Process.Ok { s.proc i with ofile := update (s.proc i).ofile fd x } :=
    ⟨(h i).cwd, fun hne => absurd hi hne⟩
  exact ok_withProc h hp j

/-! ## The descriptor table -/

/-- a free descriptor takes a reference over -/
theorem during_put (h : During i s G (H + one (some f))) (hfd : (s.proc i).ofile fd = none) :
    During i (s.withOfile i fd (some f)) G H := by
  refine ⟨?_, ok_withOfile h.procs h.life, (life_withOfile i).trans h.life⟩
  have hfree : s.ofiles (i, fd) = none := hfd
  rw [cwds_withOfile, ofiles_withOfile, holders_put hfree, add_assoc, add_comm (one _)]
  exact tables_proc h.tables

/-- a descriptor gives its reference to the call -/
theorem during_clear (h : During i s G H) (hfd : (s.proc i).ofile fd = some f) :
    During i (s.withOfile i fd none) G (H + one (some f)) := by
  refine ⟨?_, ok_withOfile h.procs h.life, (life_withOfile i).trans h.life⟩
  have hup := holders_clear (g := s.ofiles) (i := (i, fd))
  rw [show s.ofiles (i, fd) = some f from hfd] at hup
  rw [cwds_withOfile, ofiles_withOfile, add_comm H, ← add_assoc, hup]
  exact tables_proc h.tables

theorem fdalloc_spec : wp E (fdalloc i f) (fun r s' => (r = none → s' = s) ∧
    ∀ fd, r = some fd → (s.proc i).ofile fd = none ∧ s' = s.withOfile i fd (some f)) s := by
  simp only [fdalloc, wp_bind, wp_get]
  cases hfind : (List.finRange NOFILE).find? fun fd => (s.proc i).ofile fd = none with
  | none => exact ⟨fun _ => rfl, (by intros; contradiction)⟩
  | some fd =>
    have hfree : (s.proc i).ofile fd = none := by simpa using List.find?_some hfind
    simp only [wp_bind, wp_setOfile, wp_pure]
    refine ⟨(by intros; contradiction), ?_⟩
    rintro _ ⟨⟩
    exact ⟨hfree, rfl⟩

theorem argfd_spec : wp E (argfd i n) (fun r s' => s' = s ∧
    ∀ fd f, r = some (fd, f) → (s.proc i).ofile fd = some f) s := by
  simp only [argfd, wp_dite, wp_bind, wp_get, wp_pure]
  refine ⟨fun hn => ⟨trivial, fun fd f hr => ?_⟩, fun _ => ⟨trivial, (by intros; contradiction)⟩⟩
  obtain ⟨a, ha, hr⟩ := Option.map_eq_some_iff.1 hr
  cases hr
  exact ha

theorem cwd_spec (h : During i s G H) : wp Halt.sane (cwd i) (fun c s' => s' = s ∧ s.cwds i = some c) s := by
  have hsome := ((h.procs i).cwd).1 h.life
  simp only [cwd, wp_bind, wp_get]
  cases hc : (s.proc i).cwd with
  | none => rw [hc] at hsome; cases hsome
  | some c => exact ⟨rfl, hc⟩

/-! ## The functions of `Tables` in the middle of a call -/

theorem during_get {m : FsM α} {g' : α → Ino → ℕ} (h : During i s G H)
    (hm : ∀ R, s.fs.refs = R → wp anyhow m (fun a fs => fs.refs = R + g' a) s.fs) :
    wp Halt.sane (onFs m) (fun a s' => During i s' (G + g' a) H ∧ OnlyFs s s') s := by
  refine wp_mono (onFs_get h.tables hm) fun a s1 hs => ⟨during_tables h hs.2.1 ?_, hs.2⟩
  rw [← add_assoc]
  exact hs.1

theorem during_keep {m : FsM α} (h : During i s G H)
    (hm : ∀ R, s.fs.refs = R → wp anyhow m (fun _ fs => fs.refs = R) s.fs) :
    wp Halt.sane (onFs m) (fun _ s' => During i s' G H ∧ OnlyFs s s') s :=
  wp_mono (onFs_keep h.tables hm) fun _ _ hs => ⟨during_tables h hs.2.1 hs.1, hs.2⟩

theorem during_drop {m : FsM α} (h : During i s (G + one (some e)) H)
    (hm : ∀ R, s.fs.refs = R + one (some e) → wp anyhow m (fun _ fs => fs.refs = R) s.fs) :
    wp Halt.sane (onFs m) (fun _ s' => During i s' G H ∧ OnlyFs s s') s := by
  refine wp_mono (onFs_put ?_ hm) fun _ s1 hs => ⟨during_tables h hs.2.1 hs.1, hs.2⟩
  rw [add_assoc]
  exact h.tables

theorem during_fileclose (h : During i s G (H + one (some f))) :
    wp Halt.sane (fileclose sb f) (fun _ s' => During i s' G H ∧ s'.proc = s.proc) s := by
  refine wp_mono (fileclose_tables ?_) fun _ s1 hs => ⟨during_tables h hs.2 hs.1, hs.2⟩
  rw [add_assoc]
  exact h.tables

/-- an open file keeps what it refers to -/
theorem during_addOff {r : ℕ} (h : During i s G H) : wp Halt.sane (addOff f r) (fun _ s' => During i s' G H) s := by
  have hfile : (s.file f).ref = s.fileRefs f := rfl
  refine during_tables h rfl (tables_file h.tables rfl rfl ?_ (h.tables.free f))
  simp only [hfile, h.tables.file, update_eq_self]

/-! ## dup, close, read, write -/

theorem sysDup_ok (h : During i s 0 0) : wp Halt.sane (sysDup i n) (fun _ s' => During i s' 0 0) s := by
  refine wp_seq argfd_spec ?_
  rintro r s1 ⟨rfl, hr⟩
  cases r with
  | none => exact h
  | some p =>
    obtain ⟨fd, f⟩ := p
    have hf := hr fd f rfl
    refine wp_seq fdalloc_spec ?_
    rintro r s2 ⟨hnone, hsome⟩
    cases r with
    | none => rw [hnone rfl]; exact h
    | some fd' =>
      obtain ⟨hfree, rfl⟩ := hsome fd' rfl
      -- the descriptor is there before the reference is counted
      have hpos : 0 < (holders s1.ofiles + 0) f := by
        rw [add_zero]
        exact holders_pos.2 ⟨(i, fd), hf⟩
      refine wp_seq (filedup_tables (tables_proc h.tables) hpos) fun _ s3 hs => ?_
      refine ⟨?_, fun j => by rw [hs.2]; exact ok_withOfile h.procs h.life j, ?_⟩
      · have hfree' : s1.ofiles (i, fd') = none := hfree
        have hc : s3.cwds = (s1.withOfile i fd' (some f)).cwds := cwds_congr hs.2
        have ho : s3.ofiles = (s1.withOfile i fd' (some f)).ofiles := ofiles_congr hs.2
        rw [hc, ho, cwds_withOfile, ofiles_withOfile, holders_put hfree']
        simpa using hs.1
      · rw [hs.2]
        exact (life_withOfile i).trans h.life

theorem sysClose_ok (h : During i s 0 0) : wp Halt.sane (sysClose sb i n) (fun _ s' => During i s' 0 0) s := by
  refine wp_seq argfd_spec ?_
  rintro r s1 ⟨rfl, hr⟩
  cases r with
  | none => exact h
  | some p =>
    obtain ⟨fd, f⟩ := p
    have hclear := during_clear h (hr fd f rfl)
    simp only [wp_bind, wp_setOfile, wp_pure]
    exact wp_mono (during_fileclose hclear) fun _ s2 hs => hs.1

theorem fileread_ok {n : ℕ} (h : During i s 0 0) : wp Halt.sane (fileread sb dev f n) (fun _ s' => During i s' 0 0) s := by
  simp only [fileread, wp_bind, wp_get, wp_ite, wp_pure]
  refine ⟨fun _ => h, fun _ => ?_⟩
  cases (s.file f).type with
  | none => simp [Halt.sane]
  | pipe => exact h
  | inode =>
    refine wp_seq (during_keep h fun R hR => ilock_refs hR) fun _ s1 hs1 => ?_
    refine wp_seq (during_keep hs1.1 fun R hR => onInode_refs hR) fun r s2 hs2 => ?_
    refine wp_seq (during_addOff hs2.1) fun _ s3 hs3 => ?_
    exact wp_seq (during_keep hs3 fun R hR => iunlock_refs hR) fun _ s4 hs4 => hs4.1

theorem writeChunks_ok {k : ℕ} {src : List UInt8} (h : During i s 0 0) :
    wp Halt.sane (writeChunks sb dev f e k src) (fun _ s' => During i s' 0 0) s := by
  induction k generalizing s src with
  | zero => exact h
  | succ k ih =>
    simp only [writeChunks, wp_bind, wp_get, wp_ite, wp_pure]
    refine ⟨fun _ => h, fun _ => ?_⟩
    refine wp_mono (during_keep h fun R hR => ilock_refs hR) fun _ s1 hs1 => ?_
    refine wp_mono (during_keep hs1.1 fun R hR => onInode_refs hR) fun r s2 hs2 => ?_
    refine wp_mono (during_addOff hs2.1) fun _ s3 hs3 => ?_
    refine wp_mono (during_keep hs3 fun R hR => iunlock_refs hR) fun _ s4 hs4 => ?_
    cases r with
    | none => exact hs4.1
    | some n =>
      simp only [wp_bind, wp_ite, wp_throw]
      exact ⟨fun _ => by simp [Halt.sane], fun _ => ih hs4.1⟩

theorem filewrite_ok {src : List UInt8} (h : During i s 0 0) :
    wp Halt.sane (filewrite sb dev f src) (fun _ s' => During i s' 0 0) s := by
  simp only [filewrite, wp_bind, wp_get, wp_ite, wp_pure]
  refine ⟨fun _ => h, fun _ => ?_⟩
  cases (s.file f).type with
  | none => simp [Halt.sane]
  | pipe => exact h
  | inode => exact writeChunks_ok h

/-- a call on the file of a descriptor -/
theorem onFile_ok {m : Filp → SysM Bool} (h : During i s 0 0)
    (hm : ∀ f, wp Halt.sane (m f) (fun _ s' => During i s' 0 0) s) :
    wp Halt.sane (argfd i n >>= fun r => match r with
      | none => pure false
      | some (_, f) => m f) (fun _ s' => During i s' 0 0) s := by
  refine wp_seq argfd_spec ?_
  rintro r s1 ⟨rfl, -⟩
  cases r with
  | none => exact h
  | some p => exact hm p.2

/-! ## open -/

theorem openInode_ok {path : Fs.Path} (h : During i s 0 0) :
    wp Halt.sane (openInode sb dev i path omode) (fun r s' => During i s' (one r) 0) s := by
  refine wp_seq (cwd_spec h) ?_
  rintro c s1 ⟨rfl, -⟩
  simp only [wp_ite]
  refine ⟨fun _ => ?_, fun _ => ?_⟩
  · refine wp_mono (during_get h fun R hR => create_refs hR) fun r s2 hs2 => ?_
    rw [zero_add] at hs2
    exact hs2.1
  · refine wp_seq (during_get h fun R hR => namei_refs hR) fun r s2 hs2 => ?_
    rw [zero_add] at hs2
    cases r with
    | none => exact hs2.1
    | some ip =>
      refine wp_seq (during_keep hs2.1 fun R hR => ilock_refs hR) fun _ s3 hs3 => ?_
      simp only [wp_bind, wp_get, wp_ite, wp_pure]
      refine ⟨fun _ => ?_, fun _ => hs3.1⟩
      refine wp_mono (during_drop (G := 0) ?_ fun R hR => iunlockput_refs hR) fun _ s4 hs4 => hs4.1
      rw [zero_add]
      exact hs3.1

theorem openBad_ok {r : Option Filp} (h : During i s (one (some e)) (one r)) :
    wp Halt.sane (openBad sb r e) (fun _ s' => During i s' 0 0) s := by
  have hclose : wp Halt.sane (closeSome sb r) (fun _ s' => During i s' (one (some e)) 0) s := by
    cases r with
    | none => exact h
    | some f =>
      refine wp_mono (during_fileclose (H := 0) ?_) fun _ s1 hs => hs.1
      rw [zero_add]
      exact h
  refine wp_seq hclose fun _ s1 h1 => ?_
  rw [← zero_add (one (some e))] at h1
  exact wp_seq (during_drop h1 fun R hR => iunlockput_refs hR) fun _ s2 hs => hs.1

/-- a file that is no open file yet refers to the inode that the call has -/
theorem becomeOpen {g : OpenFile} (h : During i s (one (some e)) 0) (hf : 0 < holders s.ofiles f)
    (ht : (s.file f).type = .none) (hg : g.type = .inode ∧ g.ip = e ∧ g.ref = (s.file f).ref) :
    During i { s with file := update s.file f g } 0 0 := by
  have href : (s.file f).ref = holders s.ofiles f := by
    have := congrFun h.tables.file f
    simpa [Sys.fileRefs] using this
  obtain ⟨h1, h2, h3⟩ := hg
  refine during_tables h rfl (tables_file h.tables ?_ ?_ ?_ fun h0 => ?_)
  · rw [inodeRef_none ht]
    simp [inodeRef, h1, h2, h3, href, hf]
  · rw [pipeRef_none ht]
    simp [pipeRef, h1]
  · rw [h3, href]
    simp only [add_zero, update_eq_self]
  · rw [h3, href] at h0
    omega

theorem openFile_ok (h : During i s (one (some e)) 0) :
    wp Halt.sane (openFile sb i e omode) (fun _ s' => During i s' 0 0) s := by
  refine wp_seq (filealloc_tables h.tables) ?_
  rintro r s1 ⟨hp, h1, -, hr⟩
  have hd1 : During i s1 (one (some e)) (one r) := by
    refine during_tables h hp ?_
    rw [add_zero] at h1
    exact h1
  cases r with
  | none => exact openBad_ok hd1
  | some f =>
    obtain ⟨-, ht, -⟩ := hr f rfl
    refine wp_seq fdalloc_spec ?_
    rintro r s2 ⟨hnone, hsome⟩
    cases r with
    | none => rw [hnone rfl]; exact openBad_ok hd1
    | some fd =>
      obtain ⟨hfree, rfl⟩ := hsome fd rfl
      have hd2 : During i (s1.withOfile i fd (some f)) (one (some e)) 0 := by
        refine during_put ?_ hfree
        rw [zero_add]
        exact hd1
      refine wp_seq (during_keep hd2 fun R hR => iunlock_refs hR) fun _ s3 hs3 => ?_
      have hfile : s3.file f = s1.file f := congrFun hs3.2.2 f
      have hof : s3.ofiles (i, fd) = some f := by
        rw [ofiles_congr hs3.2.1, ofiles_withOfile, update_self]
      exact becomeOpen hs3.1 (holders_pos.2 ⟨_, hof⟩) (by rw [hfile]; exact ht) ⟨rfl, rfl, rfl⟩

theorem sysOpen_ok (h : During i s 0 0) :
    wp Halt.sane (sysOpen sb dev i path omode) (fun _ s' => During i s' 0 0) s := by
  cases path with
  | none => exact h
  | some path =>
    refine wp_seq (openInode_ok h) fun r s1 h1 => ?_
    cases r with
    | none => exact h1
    | some ip => exact openFile_ok h1

/-! ## pipe -/

theorem sysPipe_ok {argptr : Bool} (h : During i s 0 0) : wp Halt.sane (sysPipe sb i argptr) (fun _ s' => During i s' 0 0) s := by
  simp only [sysPipe, wp_ite, wp_pure]
  refine ⟨fun _ => h, fun _ => wp_seq (pipealloc_tables h.tables) ?_⟩
  rintro r s1 ⟨h1, hp⟩
  cases r with
  | none =>
    refine during_tables h hp ?_
    simpa using h1
  | some p =>
    obtain ⟨rf, wf⟩ := p
    have hd1 : During i s1 0 (one (some wf) + one (some rf)) := by
      refine during_tables h hp ?_
      rw [add_comm (one _), ← add_assoc]
      simpa using h1
    -- both files are closed
    have hbad : ∀ s2 : Sys, During i s2 0 (one (some wf) + one (some rf)) →
        wp Halt.sane (fileclose sb rf) (fun _ s3 => wp Halt.sane (fileclose sb wf) (fun _ s4 => During i s4 0 0) s3) s2 := by
      intro s2 h2
      refine wp_mono (during_fileclose h2) fun _ s3 h3 => ?_
      rw [← zero_add (one (some wf))] at h3
      exact wp_mono (during_fileclose h3.1) fun _ s4 h4 => h4.1
    refine wp_seq fdalloc_spec ?_
    rintro r s2 ⟨hnone, hsome⟩
    cases r with
    | none =>
      rw [hnone rfl]
      simp only [wp_bind, wp_pure]
      exact hbad s1 hd1
    | some fd0 =>
      obtain ⟨hfree, rfl⟩ := hsome fd0 rfl
      have hd2 := during_put hd1 hfree
      refine wp_seq fdalloc_spec ?_
      rintro r s3 ⟨hnone, hsome⟩
      cases r with
      | none =>
        rw [hnone rfl]
        simp only [wp_bind, wp_setOfile, wp_pure]
        refine hbad _ (during_clear hd2 ?_)
        simp [Sys.withOfile, proc_withProc_same]
      | some fd1 =>
        obtain ⟨hfree1, rfl⟩ := hsome fd1 rfl
        rw [← zero_add (one (some wf))] at hd2
        exact during_put hd2 hfree1

/-! ## Calls that only use the file system -/

/-- a call that gives back all that it takes -/
theorem onFs_ok {m : Ino → FsM Bool} (h : During i s 0 0)
    (hm : ∀ c s R, s.refs = R → wp anyhow (m c) (fun _ fs => fs.refs = R) s) :
    wp Halt.sane (cwd i >>= fun c => onFs (m c)) (fun _ s' => During i s' 0 0) s := by
  refine wp_seq (cwd_spec h) ?_
  rintro c s1 ⟨rfl, -⟩
  exact wp_mono (during_keep h fun R hR => hm c _ R hR) fun _ s2 hs => hs.1

theorem sysUnlink_ok (h : During i s 0 0) :
    wp Halt.sane (sysUnlink sb dev i path) (fun _ s' => During i s' 0 0) s := by
  cases path with
  | none => exact h
  | some path =>
    refine wp_seq (cwd_spec h) ?_
    rintro c s1 ⟨rfl, -⟩
    refine wp_seq (during_get h fun R hR => namex_refs hR) fun r s2 hs2 => ?_
    cases r with
    | none =>
      rw [Option.map_none, one_none, zero_add] at hs2
      exact hs2.1
    | some p => exact wp_mono (during_drop hs2.1 fun R hR => unlink_refs hR) fun _ s3 hs3 => hs3.1

theorem createPut_ok {path : Fs.Path} {type major minor : ℕ} (h : During i s 0 0) :
    wp Halt.sane (createPut sb dev i path type major minor) (fun _ s' => During i s' 0 0) s := by
  refine wp_seq (cwd_spec h) ?_
  rintro c s1 ⟨rfl, -⟩
  refine wp_seq (during_get h fun R hR => create_refs hR) fun r s2 hs2 => ?_
  cases r with
  | none =>
    rw [one_none, zero_add] at hs2
    exact hs2.1
  | some ip => exact wp_seq (during_drop hs2.1 fun R hR => iunlockput_refs hR) fun _ s3 hs3 => hs3.1

theorem exec_refs {path : Fs.Path} {mem : ExecMem} {fs : Icache} {R : Ino → ℕ} (h : fs.refs = R) :
    wp anyhow (exec sb dev e path mem) (fun _ fs' => fs'.refs = R) fs := by
  refine wp_seq (namei_refs h) fun r s1 h1 => ?_
  cases r with
  | none => exact h1
  | some ip =>
    refine wp_seq (ilock_refs h1) fun _ s2 h2 => ?_
    refine wp_seq (onInode_refs h2) fun ok s3 h3 => ?_
    exact wp_seq (iunlockput_refs h3) fun _ s4 h4 => h4

/-- a process moves to another directory -/
theorem during_chdir {c : Ino} (h : During i s (one (some e)) 0) (hc : s.cwds i = some c) :
    wp Halt.sane (onFs (iput sb c)) (fun _ s1 => During i (s1.withProc i { s1.proc i with cwd := some e }) 0 0) s := by
  have hup := holders_update (g := s.cwds) (i := i) (x := some e)
  rw [hc] at hup
  have ht : Tables s (holders (update s.cwds i (some e)) + one (some c)) (holders s.ofiles) 0 := by
    rw [hup]
    simpa using h.tables
  refine wp_mono (onFs_put ht fun R hR => iput_refs hR) fun _ s1 hs => ⟨?_, ?_, ?_⟩
  · have hof : (s1.withProc i { s1.proc i with cwd := some e }).ofiles = s1.ofiles := ofiles_withProc rfl
    rw [cwds_withProc, hof, cwds_congr hs.2.1, ofiles_congr hs.2.1, add_zero, add_zero]
    exact tables_proc hs.1
  · refine ok_withProc (fun j => by rw [hs.2.1]; exact h.procs j) ⟨?_, fun hne => ?_⟩
    · simp [hs.2.1, h.life]
    · simp [hs.2.1, h.life] at hne
  · rw [proc_withProc_same, hs.2.1]
    exact h.life

theorem sysChdir_ok (h : During i s 0 0) :
    wp Halt.sane (sysChdir sb dev i path) (fun _ s' => During i s' 0 0) s := by
  cases path with
  | none => exact h
  | some path =>
    refine wp_seq (cwd_spec h) ?_
    rintro c s1 ⟨rfl, hc⟩
    refine wp_seq (during_get h fun R hR => namei_refs hR) fun r s2 hs2 => ?_
    rw [zero_add] at hs2
    cases r with
    | none => exact hs2.1
    | some ip =>
      refine wp_seq (during_keep hs2.1 fun R hR => ilock_refs hR) fun _ s3 hs3 => ?_
      simp only [wp_bind, wp_get, wp_ite, wp_pure]
      refine ⟨fun _ => ?_, fun _ => ?_⟩
      · rw [← zero_add (one (some ip))] at hs3
        exact wp_mono (during_drop hs3.1 fun R hR => iunlockput_refs hR) fun _ s4 hs4 => hs4.1
      · refine wp_mono (during_keep hs3.1 fun R hR => iunlock_refs hR) fun _ s4 hs4 => ?_
        refine during_chdir hs4.1 ?_
        rw [cwds_congr hs4.2.1, cwds_congr hs3.2.1, cwds_congr hs2.2.1]
        exact hc

/-! ## fork, exit, wait -/

/-- a table that only the slots of j gain from -/
def Grows (j : Slot) (s s' : Sys) : Prop :=
  s'.cwds = s.cwds ∧ (∀ k, (s'.proc k).life = (s.proc k).life) ∧ ∀ k, k ≠ j → s'.proc k = s.proc k

theorem forkFiles_ok {fds : List Fd} (hnd : fds.Nodup) (h : Tables s (holders s.cwds) (holders s.ofiles) 0)
    (hj : ∀ fd ∈ fds, (s.proc j).ofile fd = none) : wp Halt.sane (forkFiles i j fds) (fun _ s' =>
      Tables s' (holders s'.cwds) (holders s'.ofiles) 0 ∧ Grows j s s') s := by
  induction fds generalizing s with
  | nil => exact ⟨h, rfl, fun _ => rfl, fun _ _ => rfl⟩
  | cons fd fds ih =>
    obtain ⟨hfd, hnd⟩ := nodup_cons.1 hnd
    simp only [forkFiles, wp_bind, wp_get]
    cases hf : (s.proc i).ofile fd with
    | none => exact ih hnd h fun a ha => hj a (mem_cons_of_mem _ ha)
    | some f =>
      have hpos : 0 < holders s.ofiles f := holders_pos.2 ⟨(i, fd), hf⟩
      refine wp_seq (filedup_tables h hpos) fun _ s1 hs => ?_
      simp only [wp_bind, wp_setOfile]
      have hfree : s1.ofiles (j, fd) = none := by
        rw [ofiles_congr hs.2]
        exact hj fd (mem_cons_self ..)
      refine wp_mono (ih (s := s1.withOfile j fd (some f)) hnd ?_ fun a ha => ?_)
        fun _ s2 hs2 => ⟨hs2.1, ?_, fun k => ?_, fun k hk => ?_⟩
      · rw [cwds_withOfile, ofiles_withOfile, holders_put hfree, cwds_congr hs.2, ofiles_congr hs.2]
        exact tables_proc hs.1
      · have hne : a ≠ fd := by
          rintro rfl
          exact hfd ha
        have hof : (s1.withOfile j fd (some f)).ofiles (j, a) = none := by
          rw [ofiles_withOfile, update_of_ne (by simp [hne]), ofiles_congr hs.2]
          exact hj a (mem_cons_of_mem _ ha)
        exact hof
      · rw [hs2.2.1, cwds_withOfile, cwds_congr hs.2]
      · rw [hs2.2.2.1 k, life_withOfile, hs.2]
      · rw [hs2.2.2.2 k hk, Sys.withOfile, proc_withProc hk, hs.2]

theorem sysFork_ok {memory : Bool} (h : s.Ok) (hi : (s.proc i).life = .used) :
    wp Halt.sane (sysFork i memory) (fun _ s' => s'.Ok) s := by
  simp only [sysFork, wp_bind, wp_get]
  cases hfind : (List.finRange NPROC).find? fun j => (s.proc j).life = .unused with
  | none => exact h
  | some j =>
    have hlife : (s.proc j).life = .unused := by simpa using List.find?_some hfind
    have hne : (s.proc j).life ≠ .used := by rw [hlife]; decide
    have hij : i ≠ j := by
      rintro rfl
      exact hne hi
    simp only [wp_ite, wp_pure, wp_bind]
    refine ⟨fun _ => h, fun _ => ?_⟩
    refine wp_mono (forkFiles_ok (nodup_finRange _) h.tables fun fd _ => (h.procs j).ofile hne fd) ?_
    rintro - s1 ⟨h1, hc1, hl1, hp1⟩
    have hsome := ((h.procs i).cwd).1 hi
    rw [cwd]
    simp only [wp_bind, wp_get, hp1 i hij]
    cases hc : (s.proc i).cwd with
    | none => rw [hc] at hsome; cases hsome
    | some c =>
      simp only [wp_pure]
      refine wp_mono (onFs_get h1 fun R hR => idup_refs (e := c) hR) fun _ s2 hs2 => ?_
      simp only [wp_modifyProc]
      have hjc : s1.cwds j = none := by
        rw [hc1]
        by_contra hcon
        exact hne (((h.procs j).cwd).2 (Option.isSome_iff_ne_none.2 hcon))
      refine ⟨?_, fun k => ?_⟩
      · have hof : (s2.withProc j { s2.proc j with life := .used, cwd := some c }).ofiles = s2.ofiles := ofiles_withProc rfl
        rw [cwds_withProc, hof, cwds_congr hs2.2.1, ofiles_congr hs2.2.1, holders_put hjc]
        exact tables_proc hs2.1
      · by_cases hk : k = j
        · subst hk
          rw [proc_withProc_same]
          exact ⟨by simp, fun hne => absurd rfl hne⟩
        · rw [proc_withProc hk, hs2.2.1, hp1 k hk]
          exact h.procs k

theorem exitFiles_ok {fds : List Fd} (h : During i s 0 0) : wp Halt.sane (exitFiles sb i fds) (fun _ s' => During i s' 0 0 ∧
    ∀ fd, (fd ∈ fds ∨ (s.proc i).ofile fd = none) → (s'.proc i).ofile fd = none) s := by
  induction fds generalizing s with
  | nil => exact ⟨h, fun fd hfd => hfd.resolve_left (not_mem_nil)⟩
  | cons fd fds ih =>
    simp only [exitFiles, wp_bind, wp_get]
    cases hf : (s.proc i).ofile fd with
    | none =>
      refine wp_mono (ih h) fun _ s1 hs => ⟨hs.1, fun a ha => hs.2 a ?_⟩
      rcases ha with ha | ha
      · rcases mem_cons.1 ha with rfl | ha
        · exact .inr hf
        · exact .inl ha
      · exact .inr ha
    | some f =>
      -- the descriptor is cleared only after the file is closed
      have hup := holders_clear (g := s.ofiles) (i := (i, fd))
      rw [show s.ofiles (i, fd) = some f from hf] at hup
      have ht : Tables s (holders s.cwds) (holders (update s.ofiles (i, fd) none) + one (some f)) 0 := by
        rw [hup]
        simpa using h.tables
      refine wp_seq (fileclose_tables ht) fun _ s1 hs => ?_
      simp only [wp_bind, wp_setOfile]
      have hd : During i (s1.withOfile i fd none) 0 0 := by
        refine ⟨?_, ok_withOfile (fun j => by rw [hs.2]; exact h.procs j) (by rw [hs.2]; exact h.life), ?_⟩
        · rw [cwds_withOfile, ofiles_withOfile, cwds_congr hs.2, ofiles_congr hs.2, add_zero, add_zero]
          exact tables_proc hs.1
        · rw [life_withOfile, hs.2]
          exact h.life
      refine wp_mono (ih hd) fun _ s2 hs2 => ⟨hs2.1, fun a ha => hs2.2 a ?_⟩
      have hof : (s1.withOfile i fd none).ofiles (i, a) = if a = fd then none else (s.proc i).ofile a := by
        rw [ofiles_withOfile, ofiles_congr hs.2, update_apply]
        simp [Sys.ofiles]
      by_cases hafd : a = fd
      · rw [if_pos hafd] at hof
        exact .inr hof
      · rw [if_neg hafd] at hof
        rcases ha with ha | ha
        · exact .inl ((mem_cons.1 ha).resolve_left hafd)
        · exact .inr (hof.trans ha)

theorem sysExit_ok (h : During i s 0 0) : wp Halt.sane (sysExit sb i) (fun _ s' => s'.Ok) s := by
  simp only [sysExit, wp_bind, wp_ite, wp_throw]
  refine ⟨fun _ => by simp [Halt.sane], fun _ => wp_mono (exitFiles_ok h) ?_⟩
  rintro - s1 ⟨h1, hnone⟩
  refine wp_mono (cwd_spec h1) ?_
  rintro c s2 ⟨rfl, hc⟩
  have hup := holders_clear (g := s2.cwds) (i := i)
  rw [hc] at hup
  have ht : Tables s2 (holders (update s2.cwds i none) + one (some c)) (holders s2.ofiles) 0 := by
    rw [hup]
    simpa using h1.tables
  refine wp_mono (onFs_put ht fun R hR => iput_refs hR) fun _ s3 hs => ?_
  simp only [wp_modifyProc, wp_pure]
  refine ⟨?_, ok_withProc (fun j => by rw [hs.2.1]; exact h1.procs j) ⟨by simp, fun _ fd => ?_⟩⟩
  · have hof : (s3.withProc i { s3.proc i with life := .zombie, cwd := none }).ofiles = s3.ofiles := ofiles_withProc rfl
    rw [cwds_withProc, hof, cwds_congr hs.2.1, ofiles_congr hs.2.1]
    exact tables_proc hs.1
  · rw [hs.2.1]
    exact hnone fd (.inl (mem_finRange fd))

theorem sysWait_ok (h : s.Ok) : wp Halt.sane (sysWait j) (fun _ s' => s'.Ok) s := by
  simp only [sysWait, wp_bind, wp_get, wp_ite, wp_throw, wp_modifyProc, wp_pure]
  refine ⟨fun _ => by simp [Halt.sane], fun hz => ?_⟩
  rw [not_not] at hz
  have hne : (s.proc j).life ≠ .used := by rw [hz]; decide
  have hc : (s.proc j).cwd = none := by
    by_contra hcon
    exact hne (((h.procs j).cwd).2 (Option.isSome_iff_ne_none.2 hcon))
  refine ⟨?_, ok_withProc h.procs ⟨by simp [hc], fun _ => (h.procs j).ofile hne⟩⟩
  have hof : (s.withProc j { s.proc j with life := .unused }).ofiles = s.ofiles := ofiles_withProc rfl
  have hcw : (s.withProc j { s.proc j with life := .unused }).cwds = s.cwds := by
    rw [cwds_withProc]
    exact update_eq_self ..
  rw [hof, hcw]
  exact tables_proc h.tables

/-! ## Pages of the rest of the kernel -/

theorem takePage_ok (h : s.Ok) : wp Halt.sane takePage (fun _ s' => s'.Ok) s := by
  refine wp_seq (kalloc_tables h.tables) ?_
  rintro r s1 ⟨h1, ⟨hp, -⟩, hpage⟩
  have hprocs : ∀ j, (s1.proc j).Ok := fun j => by rw [hp]; exact h.procs j
  rw [← cwds_congr hp, ← ofiles_congr hp] at h1
  cases r with
  | none => exact ⟨h1, hprocs⟩
  | some q =>
    obtain ⟨hq, haway⟩ := hpage q rfl
    rw [mem_append, not_or] at haway
    simp only [wp_bind, wp_modify, wp_pure]
    refine ⟨⟨h1.inode, h1.file, h1.free, h1.ends, ⟨h1.pages.alive, ?_, fun r p hr => ?_, h1.pages.books⟩⟩, hprocs⟩
    · simp only [nodup_append, nodup_cons, mem_cons] at *
      have hnd := nodup_append.1 h1.pages.nodup
      refine ⟨hnd.1, ⟨haway.2, hnd.2.1⟩, fun a ha b hb => ?_⟩
      rcases hb with rfl | hb
      · rintro rfl
        exact haway.1 ha
      · exact hnd.2.2 a ha b hb
    · have hr' := h1.pages.away r p hr
      simp only [mem_append, mem_cons, not_or] at hr' ⊢
      refine ⟨hr'.1, ?_, hr'.2⟩
      rintro rfl
      rw [hq] at hr
      cases hr

theorem givePage_ok {q : Page} (h : s.Ok) : wp Halt.sane (givePage q) (fun _ s' => s'.Ok) s := by
  simp only [givePage, wp_bind, wp_get, wp_ite, wp_throw, wp_modify, wp_pure, kfree]
  refine ⟨fun _ => by simp [Halt.sane], fun hq => ?_⟩
  rw [not_not] at hq
  have hperm : (q :: s.freelist ++ s.taken.erase q).Perm (s.freelist ++ s.taken) := by
    refine perm_middle.symm.trans ?_
    exact List.Perm.append_left _ (perm_cons_erase hq).symm
  have ht := h.tables
  refine ⟨⟨ht.inode, ht.file, ht.free, ht.ends, ⟨ht.pages.alive, ?_, fun r p hr => ?_, ht.pages.books⟩⟩, h.procs⟩
  · exact hperm.nodup_iff.2 ht.pages.nodup
  · exact fun hmem => ht.pages.away r p hr (hperm.mem_iff.1 hmem)

/-! ## Runs -/

theorem syscall_ok {c : Call} (h : s.Ok) (hi : (s.proc i).life = .used) :
    wp Halt.sane (syscall sb dev i c) (fun _ s' => s'.Ok) s := by
  have hd := during_start h hi
  -- a call that ends with nothing in its hands
  have hend : ∀ {m : SysM Bool}, wp Halt.sane m (fun _ s' => During i s' 0 0) s → wp Halt.sane m (fun _ s' => s'.Ok) s :=
    fun hm => wp_mono hm fun _ _ hs => during_end hs
  cases c with
  | fork memory => exact sysFork_ok h hi
  | exit => exact sysExit_ok hd
  | «open» path omode => exact hend (sysOpen_ok hd)
  | close fd => exact hend (sysClose_ok hd)
  | dup fd => exact hend (sysDup_ok hd)
  | pipe argptr => exact hend (sysPipe_ok hd)
  | read fd n => exact hend (onFile_ok hd fun f => fileread_ok hd)
  | write fd src => exact hend (onFile_ok hd fun f => filewrite_ok hd)
  | chdir path => exact hend (sysChdir_ok hd)
  | link paths =>
    cases paths with
    | none => exact h
    | some p => exact hend (onFs_ok hd fun c s R hR => link_refs hR)
  | unlink path => exact hend (sysUnlink_ok hd)
  | mkdir path =>
    cases path with
    | none => exact h
    | some path => exact hend (createPut_ok hd)
  | mknod args =>
    cases args with
    | none => exact h
    | some a => exact hend (createPut_ok hd)
  | exec path mem =>
    cases path with
    | none => exact h
    | some path => exact hend (onFs_ok hd fun c s R hR => exec_refs hR)

/-- **One event keeps the accounts.** -/
theorem sysStep_ok (sb : Super) (dev : Devsw) (h : s.Ok) (ev : Event) : wp Halt.sane (sysStep sb dev ev) (fun _ s' => s'.Ok) s := by
  cases ev with
  | call i c =>
    simp only [sysStep, wp_bind, wp_get, wp_ite, wp_throw]
    exact ⟨fun _ => by simp [Halt.sane], fun hi => syscall_ok h (not_not.1 hi)⟩
  | wait j => exact sysWait_ok h
  | take => exact takePage_ok h
  | give q => exact givePage_ok h

/-- **The accounts hold along every run.** -/
theorem sysRun_ok (sb : Super) (dev : Devsw) (h : s.Ok) (events : List Event) :
    match sysRun sb dev s events with
    | .ok s' => s'.Ok
    | .error halt => halt.sane := by
  induction events generalizing s with
  | nil => exact h
  | cons ev events ih =>
    have hstep := sysStep_ok sb dev h ev
    have hrun : sysRun sb dev s (ev :: events) =
        ((sysStep sb dev ev s).map Prod.snd).bind fun s' => sysRun sb dev s' events := rfl
    rw [hrun]
    rw [wp] at hstep
    cases hev : sysStep sb dev ev s with
    | ok p => rw [hev] at hstep; exact ih hstep
    | error halt => rw [hev] at hstep; exact hstep

theorem boot_ok (d : Disk) (n : ℕ) : (Sys.boot d n).Ok := by
  have hcwds : (Sys.boot d n).cwds = update (fun _ => none) initproc (some 0) := by
    funext i
    by_cases hi : i = initproc
    · subst hi
      simp [Sys.cwds, Sys.boot]
    · simp [Sys.cwds, Sys.boot, hi]
  have hnone : ∀ {ι κ : Type} [Fintype ι] [DecidableEq κ], holders (fun _ : ι => (none : Option κ)) = 0 := by
    intro ι κ _ _
    funext k
    exact holders_eq_zero.2 fun _ => (by simp)
  refine ⟨⟨?_, ?_, fun _ _ => rfl, ?_,
    ⟨(by intros; contradiction), by simp [Sys.boot, nodup_range], (by intros; contradiction), fun _ => rfl⟩⟩, fun i => ?_⟩
  · have hfiles : (Sys.boot d n).inodeRefs = fun _ => none := rfl
    rw [hcwds, holders_put rfl, hnone, hfiles, hnone, zero_add, zero_add]
    have hzero : (Icache.boot d).refs = 0 := rfl
    show ((Icache.boot d).setInode 0 _).refs = _
    rw [refs_up (by rfl), hzero, zero_add]
  · have hof : (Sys.boot d n).ofiles = fun _ => none := rfl
    rw [hof, hnone]
    rfl
  · have hends : (Sys.boot d n).pipeRefs = fun _ => none := rfl
    rw [hends, hnone]
    rfl
  · refine ⟨?_, fun _ _ => rfl⟩
    by_cases hi : i = initproc
    · simp [Sys.boot, hi]
    · simp [Sys.boot, hi]

end Xv6.Sysfile
