/-
The tables agree on who refers to what.

- `Tables s G H K`: the count of an inode is the number of open files on it and G more; the count of a file is H; the
  open ends of the pipes are those that the files are, and K more. G, H and K stand for the references of the processes and
  of the call under way.
- A page of a pipe is not on the free list, and pipealloc has got it once more than pipeclose has given it back.
- `Halt.sane`: every way to stop but the panics of filedup and fileclose and a wild pointer.

Results, one for each function: what it does to G, H and K.
- `fileclose_tables`: **fileclose gives one reference to the file back**, and what the file refers to with the last one;
- `pipeclose_tables`: the page of a pipe is freed when its second end closes;
- `pipealloc_tables`: two files, or nothing on each way out.
-/
import Xv6.Fs.Refs
import Xv6.Sysfile.Calls

namespace Xv6.Sysfile

open Fs Fallible Holders Function List

attribute [local semireducible] wp

variable {sb : Super} {s s' : Sys} {f : Filp} {g : OpenFile} {q : Page} {b : Bool} {G G' : Ino → ℕ}
  {H H' : Filp → ℕ} {K K' : Page × Bool → ℕ} {e : Ino} {α : Type}

/-! ## The accounts -/

/-- the inode that an entry of the file table refers to -/
def inodeRef (g : OpenFile) : Option Ino := if 0 < g.ref ∧ g.type = .inode then some g.ip else none

/-- the end of a pipe that an entry is; true for the write end -/
def pipeRef (g : OpenFile) : Option (Page × Bool) := if 0 < g.ref ∧ g.type = .pipe then some (g.pipe, g.writable) else none

def Sys.inodeRefs (s : Sys) (f : Filp) : Option Ino := inodeRef (s.file f)

def Sys.pipeRefs (s : Sys) (f : Filp) : Option (Page × Bool) := pipeRef (s.file f)

def Sys.fileRefs (s : Sys) (f : Filp) : ℕ := (s.file f).ref

def Ends.isOpen (p : Ends) (writable : Bool) : Bool := if writable then p.writeopen else p.readopen

/-- the ends of pipes that are open -/
def Sys.openEnds (s : Sys) (x : Page × Bool) : ℕ := ((s.pipe x.1).map fun p => (p.isOpen x.2).toNat).getD 0

/-- what concerns pages -/
structure PagesOk (s : Sys) : Prop where
  alive : ∀ q p, s.pipe q = some p → p.readopen = true ∨ p.writeopen = true
  nodup : (s.freelist ++ s.taken).Nodup
  away : ∀ q p, s.pipe q = some p → q ∉ s.freelist ++ s.taken
  books : ∀ q, s.allocs q = s.frees q + (s.pipe q).isSome.toNat

structure Tables (s : Sys) (G : Ino → ℕ) (H : Filp → ℕ) (K : Page × Bool → ℕ) : Prop where
  inode : s.fs.refs = holders s.inodeRefs + G
  file : s.fileRefs = H
  free : ∀ f, (s.file f).ref = 0 → (s.file f).type = .none
  ends : holders s.pipeRefs + K = s.openEnds
  pages : PagesOk s

def Halt.sane (h : Halt) : Prop := h ≠ .wild ∧ h ≠ .panic "filedup" ∧ h ≠ .panic "fileclose"

theorem sane_fs (stop : Stop) (_ : anyhow stop) : (Halt.fs stop).sane := by simp [Halt.sane]

theorem inodeRef_none (h : g.type = .none) : inodeRef g = none := by simp [inodeRef, h]

theorem pipeRef_none (h : g.type = .none) : pipeRef g = none := by simp [pipeRef, h]

/-! ## Changes of the state -/

/-- the processes are not part of it -/
theorem tables_proc {p : Slot → Process} (h : Tables s G H K) : Tables { s with proc := p } G H K :=
  ⟨h.inode, h.file, h.free, h.ends, ⟨h.pages.alive, h.pages.nodup, h.pages.away, h.pages.books⟩⟩

theorem tables_fs {fs : Icache} (h : Tables s G H K) (hfs : fs.refs = holders s.inodeRefs + G') :
    Tables { s with fs := fs } G' H K :=
  ⟨hfs, h.file, h.free, h.ends, ⟨h.pages.alive, h.pages.nodup, h.pages.away, h.pages.books⟩⟩

/-- what two files refer to, in a balance -/
theorem balance {ι κ : Type} [Fintype ι] [DecidableEq ι] [DecidableEq κ] {r : ι → Option κ} {i : ι} {x : Option κ}
    {T G G' : κ → ℕ} (h : T = holders r + G) (hG : G' + one x = G + one (r i)) :
    T = holders (update r i x) + G' := by
  have hup := holders_update (g := r) (i := i) (x := x)
  funext k
  have h1 := congrFun h k
  have h2 := congrFun hG k
  have h3 := congrFun hup k
  simp only [Pi.add_apply] at h1 h2 h3 ⊢
  omega

/-- an entry of the file table changes -/
theorem tables_file (h : Tables s G H K) (hG : G' + one (inodeRef g) = G + one (inodeRef (s.file f)))
    (hK : K' + one (pipeRef g) = K + one (pipeRef (s.file f))) (hH : H' = update H f g.ref)
    (hfree : g.ref = 0 → g.type = .none) : Tables { s with file := update s.file f g } G' H' K' := by
  have hcomp : ∀ {β : Type} (r : OpenFile → β), (fun a => r (update s.file f g a)) =
      update (fun a => r (s.file a)) f (r g) := by
    intro β r
    funext a
    by_cases ha : a = f
    · rw [ha, update_self, update_self]
    · rw [update_of_ne ha, update_of_ne ha]
  refine ⟨?_, ?_, fun a ha => ?_, ?_, ⟨h.pages.alive, h.pages.nodup, h.pages.away, h.pages.books⟩⟩
  · show s.fs.refs = holders (fun a => inodeRef (update s.file f g a)) + G'
    rw [hcomp]
    exact balance h.inode hG
  · show (fun a => (update s.file f g a).ref) = H'
    rw [hcomp OpenFile.ref, hH, ← h.file]
    rfl
  · simp only at ha ⊢
    by_cases haf : a = f
    · subst haf
      rw [update_self] at ha ⊢
      exact hfree ha
    · rw [update_of_ne haf] at ha ⊢
      exact h.free a ha
  · show holders (fun a => pipeRef (update s.file f g a)) + K' = s.openEnds
    rw [hcomp]
    exact (balance h.ends.symm hK).symm

theorem update_one {n : ℕ} (h : H f + 1 = n) : update H f n = H + one (some f) := by
  subst h
  funext a
  by_cases ha : a = f
  · subst ha
    simp
  · simp [update_of_ne ha, one_some, Ne.symm ha]

/-! ## fs.c -/

theorem wp_onFs {E : Halt → Prop} {D : Stop → Prop} {m : FsM α} {Q : α → Sys → Prop} (hD : ∀ stop, D stop → E (.fs stop))
    (h : wp D m (fun a fs => Q a { s with fs := fs }) s.fs) : wp E (onFs m) Q s := by
  simp only [onFs, wp_bind, wp_get]
  rw [wp] at h
  cases hm : m s.fs with
  | ok p => rw [hm] at h; exact h
  | error stop => rw [hm] at h; exact hD stop h

/-- only the inode cache changes -/
def OnlyFs (s s' : Sys) : Prop := s'.proc = s.proc ∧ s'.file = s.file

/-- a function of fs.c that is handed the references g and returns g' -/
theorem onFs_tables {m : FsM α} {g : Ino → ℕ} {r : α → Ino → ℕ} (h : Tables s (G + g) H K)
    (hm : ∀ R, s.fs.refs = R + g → wp anyhow m (fun a fs => fs.refs = R + r a) s.fs) :
    wp Halt.sane (onFs m) (fun a s' => Tables s' (G + r a) H K ∧ OnlyFs s s') s := by
  refine wp_onFs sane_fs (wp_mono (hm (holders s.inodeRefs + G) ?_) fun a fs hfs => ⟨tables_fs h ?_, rfl, rfl⟩)
  · rw [h.inode, add_assoc]
  · rw [hfs, add_assoc]

theorem onFs_get {m : FsM α} {r : α → Ino → ℕ} (h : Tables s G H K)
    (hm : ∀ R, s.fs.refs = R → wp anyhow m (fun a fs => fs.refs = R + r a) s.fs) :
    wp Halt.sane (onFs m) (fun a s' => Tables s' (G + r a) H K ∧ OnlyFs s s') s :=
  onFs_tables (g := 0) (by rwa [add_zero]) fun R hR => hm R (by rwa [add_zero] at hR)

theorem onFs_put {m : FsM α} (h : Tables s (G + one (some e)) H K)
    (hm : ∀ R, s.fs.refs = R + one (some e) → wp anyhow m (fun _ fs => fs.refs = R) s.fs) :
    wp Halt.sane (onFs m) (fun _ s' => Tables s' G H K ∧ OnlyFs s s') s :=
  wp_mono (onFs_tables (r := 0) h hm) fun _ _ hs => ⟨hs.1, hs.2⟩

theorem onFs_keep {m : FsM α} (h : Tables s G H K)
    (hm : ∀ R, s.fs.refs = R → wp anyhow m (fun _ fs => fs.refs = R) s.fs) :
    wp Halt.sane (onFs m) (fun _ s' => Tables s' G H K ∧ OnlyFs s s') s :=
  wp_mono (onFs_get (r := 0) h hm) fun _ _ hs => ⟨hs.1, hs.2⟩

/-! ## file.c -/

theorem wp_modifyFile {E : Halt → Prop} {u : OpenFile → OpenFile} {Q : Unit → Sys → Prop} :
    wp E (modifyFile f u) Q s ↔ Q () { s with file := update s.file f (u (s.file f)) } := Iff.rfl

/-- the entry is the caller's, and it is no open file yet -/
theorem filealloc_tables (h : Tables s G H K) : wp Halt.sane filealloc (fun r s' => s'.proc = s.proc ∧
    Tables s' G (H + one r) K ∧ (r = none → s' = s) ∧
    ∀ f, r = some f → H f = 0 ∧ (s'.file f).type = .none ∧ ∀ a, a ≠ f → s'.file a = s.file a) s := by
  simp only [filealloc, wp_bind, wp_get]
  cases hfind : (List.finRange NFILE).find? fun f => (s.file f).ref = 0 with
  | none => exact ⟨rfl, h, fun _ => rfl, (by intros; contradiction)⟩
  | some f =>
    have h0 : (s.file f).ref = 0 := by simpa using List.find?_some hfind
    have hH : H f = 0 := by rw [← h.file]; exact h0
    have ht := h.free f h0
    simp only [wp_bind, wp_modifyFile, wp_pure]
    refine ⟨trivial, tables_file h ?_ ?_ ?_ (by intros; contradiction), (by intros; contradiction), fun a ha => ?_⟩
    · simp [inodeRef, ht]
    · simp [pipeRef, ht]
    · exact (update_one (by rw [hH])).symm
    · cases ha
      rw [update_self]
      exact ⟨hH, ht, fun a ha => update_of_ne ha ..⟩

/-- one more reference to a file that has one -/
theorem filedup_tables (h : Tables s G H K) (hf : 0 < H f) :
    wp Halt.sane (filedup f) (fun _ s' => Tables s' G (H + one (some f)) K ∧ s'.proc = s.proc) s := by
  have href : (s.file f).ref = H f := congrFun h.file f
  simp only [filedup, wp_bind, wp_get, wp_ite, wp_throw, wp_modifyFile]
  refine ⟨fun hlt => absurd hlt (by omega), fun _ => ⟨tables_file h ?_ ?_ ?_ (by intros; contradiction), trivial⟩⟩
  · simp only [inodeRef, href, hf, Nat.succ_pos]
  · simp only [pipeRef, href, hf, Nat.succ_pos]
  · exact (update_one (by rw [href])).symm

theorem isOpen_close (p : Ends) (b c : Bool) : (p.close b).isOpen c = (p.isOpen c && (c != b)) := by
  cases b <;> cases c <;> simp [Ends.close, Ends.isOpen]

theorem isOpen_or (p : Ends) : (p.readopen = true ∨ p.writeopen = true) ↔ ∃ b, p.isOpen b = true := by
  simp [Ends.isOpen]

/-- the ends of another pipe are as they were -/
theorem openEnds_update {p : Option Ends} (x : Page × Bool) : ({ s with pipe := update s.pipe q p } : Sys).openEnds x =
    if x.1 = q then (p.map fun p => (p.isOpen x.2).toNat).getD 0 else s.openEnds x := by
  by_cases hx : x.1 = q
  · simp [Sys.openEnds, hx]
  · simp [Sys.openEnds, hx]

/-- one end of an open pipe closes -/
theorem ends_close {T : Page × Bool → ℕ} {p : Ends} {p' : Option Ends} (h : T + (K + one (some (q, b))) = s.openEnds)
    (hp : s.pipe q = some p) (hp' : ∀ c, (p'.map fun p => (p.isOpen c).toNat).getD 0 = ((p.close b).isOpen c).toNat) :
    T + K = ({ s with pipe := update s.pipe q p' } : Sys).openEnds := by
  funext x
  obtain ⟨r, c⟩ := x
  have hx := congrFun h (r, c)
  rw [openEnds_update]
  simp only [Pi.add_apply, one_some, Prod.mk.injEq] at hx ⊢
  by_cases hr : r = q
  · subst hr
    rw [if_pos rfl, hp', isOpen_close]
    rw [Sys.openEnds, hp] at hx
    simp only [Option.map_some, Option.getD_some, true_and] at hx
    have hle := Bool.toNat_le (p.isOpen c)
    by_cases hbc : b = c
    · subst hbc
      simp at hx ⊢
      omega
    · simp only [if_neg hbc, add_zero] at hx
      have hne : (c != b) = true := by simpa using Ne.symm hbc
      rw [hne, Bool.and_true]
      exact hx
  · simp only [if_neg hr, Ne.symm hr, false_and, if_false, add_zero] at hx ⊢
    exact hx

/-- **The page of a pipe is freed when its second end closes.** -/
theorem pipeclose_tables (h : Tables s G H (K + one (some (q, b)))) :
    wp Halt.sane (pipeclose q b) (fun _ s' => Tables s' G H K ∧ s'.proc = s.proc) s := by
  simp only [pipeclose, wp_bind, wp_get]
  have hopen : 0 < s.openEnds (q, b) := by
    rw [← h.ends]
    simp
  cases hp : s.pipe q with
  | none => simp [Sys.openEnds, hp] at hopen
  | some p =>
    simp only [wp_ite, wp_bind, wp_modify, kfree]
    refine ⟨fun hclosed => ?_, fun hopen' => ?_⟩
    · have hdead : ∀ c, (p.close b).isOpen c = false := by
        intro c
        by_contra hc
        have := (isOpen_or (p.close b)).2 ⟨c, by simpa using hc⟩
        tauto
      refine ⟨⟨h.inode, h.file, h.free, ?_, ⟨fun r p' hr => ?_, ?_, fun r p' hr => ?_, fun r => ?_⟩⟩, trivial⟩
      · exact ends_close h.ends hp fun c => by simp [hdead]
      · refine h.pages.alive r p' ?_
        simp only [update_apply] at hr
        split_ifs at hr
        exact hr
      · show (q :: (s.freelist ++ s.taken)).Nodup
        exact nodup_cons.2 ⟨h.pages.away q p hp, h.pages.nodup⟩
      · simp only [update_apply] at hr
        split_ifs at hr with hrq
        show r ∉ q :: (s.freelist ++ s.taken)
        rw [mem_cons, not_or]
        exact ⟨hrq, h.pages.away r p' hr⟩
      · have hb := h.pages.books r
        simp only [update_apply]
        split_ifs with hrq
        · subst hrq
          rw [hp] at hb
          simpa using hb
        · exact hb
    · refine ⟨⟨h.inode, h.file, h.free, ?_, ⟨fun r p' hr => ?_, h.pages.nodup, fun r p' hr => ?_, fun r => ?_⟩⟩, trivial⟩
      · exact ends_close h.ends hp fun c => by simp
      · simp only [update_apply] at hr
        split_ifs at hr with hrq
        · cases hr
          tauto
        · exact h.pages.alive r p' hr
      · simp only [update_apply] at hr
        split_ifs at hr with hrq
        · rw [hrq]
          exact h.pages.away q p hp
        · exact h.pages.away r p' hr
      · have hb := h.pages.books r
        simp only [update_apply]
        split_ifs with hrq
        · subst hrq
          rw [hp] at hb
          exact hb
        · exact hb

theorem closeLast_tables (hg : 0 < g.ref) (h : Tables s (G + one (inodeRef g)) H (K + one (pipeRef g))) :
    wp Halt.sane (closeLast sb g) (fun _ s' => Tables s' G H K ∧ s'.proc = s.proc) s := by
  cases ht : g.type with
  | none =>
    simp only [closeLast, ht, wp_pure]
    rw [inodeRef_none ht, pipeRef_none ht, one_none, one_none, add_zero, add_zero] at h
    exact ⟨h, trivial⟩
  | pipe =>
    have hi : inodeRef g = none := by simp [inodeRef, ht]
    have hp : pipeRef g = some (g.pipe, g.writable) := by simp [pipeRef, ht, hg]
    simp only [closeLast, ht]
    rw [hi, hp, one_none, add_zero] at h
    exact pipeclose_tables h
  | inode =>
    have hi : inodeRef g = some g.ip := by simp [inodeRef, ht, hg]
    have hp : pipeRef g = none := by simp [pipeRef, ht]
    simp only [closeLast, ht]
    rw [hi, hp, one_none, add_zero] at h
    exact wp_mono (onFs_put h fun R hR => iput_refs hR) fun _ s' hs => ⟨hs.1, hs.2.1⟩

/-- **fileclose gives one reference back.** -/
theorem fileclose_tables (h : Tables s G (H + one (some f)) K) :
    wp Halt.sane (fileclose sb f) (fun _ s' => Tables s' G H K ∧ s'.proc = s.proc) s := by
  have href : (s.file f).ref = H f + 1 := by
    have := congrFun h.file f
    simpa [Sys.fileRefs] using this
  have hH : ∀ n, n = H f → H = update (H + one (some f)) f n := by
    rintro n rfl
    funext a
    by_cases ha : a = f
    · subst ha
      simp
    · simp [update_of_ne ha, one_some, Ne.symm ha]
  simp only [fileclose, wp_bind, wp_get, wp_ite, wp_throw, wp_modifyFile]
  refine ⟨fun hlt => absurd hlt (by omega), fun _ => ⟨fun hlt => ?_, fun hlt => ?_⟩⟩
  · refine ⟨tables_file h ?_ ?_ (hH _ ?_) fun h0 => ?_, trivial⟩
    · simp only [inodeRef, href, Nat.succ_pos, show 0 < H f + 1 - 1 by omega]
    · simp only [pipeRef, href, Nat.succ_pos, show 0 < H f + 1 - 1 by omega]
    · simp only [href, Nat.add_sub_cancel]
    · simp only at h0
      omega
  · -- the last reference: the entry is free before what it refers to is given up
    refine wp_mono (closeLast_tables (g := s.file f) (by omega) (tables_file h ?_ ?_ (hH _ ?_) fun _ => rfl))
      fun _ s' hs => hs
    · simp [inodeRef_none (g := { s.file f with ref := 0, type := .none }) rfl]
    · simp [pipeRef_none (g := { s.file f with ref := 0, type := .none }) rfl]
    · show 0 = H f
      omega

/-! ## Pipes -/

/-- the page that kalloc returns is nobody else's -/
theorem kalloc_tables (h : Tables s G H K) : wp Halt.sane kalloc (fun r s' => Tables s' G H K ∧ OnlyFs s s' ∧
    ∀ q, r = some q → s'.pipe q = none ∧ q ∉ s'.freelist ++ s'.taken) s := by
  simp only [kalloc, wp_bind, wp_get]
  cases hlist : s.freelist with
  | nil => exact ⟨h, ⟨rfl, rfl⟩, (by intros; contradiction)⟩
  | cons q rest =>
    have hnd := h.pages.nodup
    rw [hlist, cons_append, nodup_cons] at hnd
    have haway := h.pages.away
    rw [hlist] at haway
    simp only [wp_bind, wp_modify, wp_pure]
    refine ⟨⟨h.inode, h.file, h.free, h.ends, ⟨h.pages.alive, hnd.2, fun r p hr => ?_, h.pages.books⟩⟩, ⟨rfl, rfl⟩, ?_⟩
    · have := haway r p hr
      rw [cons_append, mem_cons, not_or] at this
      exact this.2
    · rintro r ⟨⟩
      refine ⟨?_, hnd.1⟩
      cases hp : s.pipe q with
      | none => rfl
      | some p => exact absurd (mem_cons_self ..) (haway q p hp)

/-- a new pipe, whose ends are no files yet -/
theorem newPipe_tables (h : Tables s G H K) (hq : s.pipe q = none) (haway : q ∉ s.freelist ++ s.taken) :
    Tables { s with pipe := update s.pipe q (some ⟨true, true⟩),
                    allocs := update s.allocs q (s.allocs q + 1) }
      G H (K + one (some (q, false)) + one (some (q, true))) := by
  refine ⟨h.inode, h.file, h.free, ?_, ⟨fun r p hr => ?_, h.pages.nodup, fun r p hr => ?_, fun r => ?_⟩⟩
  · funext x
    obtain ⟨r, c⟩ := x
    have hx := congrFun h.ends (r, c)
    show _ = ({ s with pipe := update s.pipe q (some ⟨true, true⟩) } : Sys).openEnds (r, c)
    rw [openEnds_update]
    simp only [Pi.add_apply, one_some, Prod.mk.injEq] at hx ⊢
    show holders s.pipeRefs (r, c) + _ = _
    by_cases hr : r = q
    · subst hr
      rw [Sys.openEnds, hq] at hx
      simp only [Option.map_none, Option.getD_none] at hx
      cases c <;> simp [Ends.isOpen] <;> omega
    · simp only [if_neg hr, Ne.symm hr, false_and, if_false, add_zero] at hx ⊢
      exact hx
  · simp only [update_apply] at hr
    split_ifs at hr with hrq
    · cases hr
      exact .inl rfl
    · exact h.pages.alive r p hr
  · simp only [update_apply] at hr
    split_ifs at hr with hrq
    · rw [hrq]
      exact haway
    · exact h.pages.away r p hr
  · have hb := h.pages.books r
    simp only [update_apply]
    split_ifs with hrq
    · subst hrq
      rw [hq] at hb
      simpa using hb
    · exact hb

/-- a file becomes an end of a pipe -/
theorem becomeEnd_tables (h : Tables s G H (K + one (some (q, b)))) (hf : 0 < H f) (ht : (s.file f).type = .none) :
    Tables { s with file := update s.file f { s.file f with type := .pipe, readable := !b, writable := b, pipe := q } }
      G H K := by
  have href : (s.file f).ref = H f := congrFun h.file f
  refine tables_file h ?_ ?_ ?_ fun h0 => ?_
  · rw [inodeRef_none ht]
    simp [inodeRef]
  · rw [pipeRef_none ht]
    simp [pipeRef, href, hf]
  · simp only [href, update_eq_self]
  · simp only at h0
    omega

theorem pipeInit_tables {f0 f1 : Filp} (h : Tables s G H K) (hq : s.pipe q = none) (haway : q ∉ s.freelist ++ s.taken)
    (hne : f0 ≠ f1) (h0 : 0 < H f0) (h1 : 0 < H f1) (ht0 : (s.file f0).type = .none) (ht1 : (s.file f1).type = .none) :
    wp Halt.sane (pipeInit q f0 f1) (fun _ s' => Tables s' G H K ∧ s'.proc = s.proc) s := by
  simp only [pipeInit, wp_bind, wp_modify, wp_modifyFile]
  have hnew := newPipe_tables h hq haway
  rw [add_right_comm] at hnew
  have hread := becomeEnd_tables (f := f0) hnew h0 ht0
  refine ⟨becomeEnd_tables (f := f1) hread h1 ?_, trivial⟩
  simp only [update_of_ne hne.symm]
  exact ht1

theorem closeSome_tables {f : Option Filp} (h : Tables s G (H + one f) K) :
    wp Halt.sane (closeSome sb f) (fun _ s' => Tables s' G H K ∧ s'.proc = s.proc) s := by
  cases f with
  | none => exact ⟨h, rfl⟩
  | some f => exact fileclose_tables h

theorem pipeBad_tables {f0 f1 : Option Filp} (h : Tables s G (H + one f0 + one f1) K) :
    wp Halt.sane (pipeBad sb f0 f1) (fun r s' => r = none ∧ Tables s' G H K ∧ s'.proc = s.proc) s := by
  rw [add_right_comm] at h
  refine wp_seq (closeSome_tables h) fun _ s1 hs1 => ?_
  exact wp_seq (closeSome_tables hs1.1) fun _ s2 hs2 => ⟨rfl, hs2.1, hs2.2.trans hs1.2⟩

/-- **pipealloc returns two files, or nothing.** -/
theorem pipealloc_tables (h : Tables s G H K) : wp Halt.sane (pipealloc sb) (fun r s' =>
    Tables s' G (H + one (r.map Prod.fst) + one (r.map Prod.snd)) K ∧ s'.proc = s.proc) s := by
  refine wp_seq (filealloc_tables h) ?_
  rintro r0 s1 ⟨hp1, h1, -, hf0⟩
  cases r0 with
  | none => exact wp_mono (pipeBad_tables h1) fun _ s' hs => ⟨hs.1 ▸ hs.2.1, hs.2.2.trans hp1⟩
  | some f0 =>
    obtain ⟨-, ht0, -⟩ := hf0 f0 rfl
    refine wp_seq (filealloc_tables h1) ?_
    rintro r1 s2 ⟨hp2, h2, -, hf1⟩
    cases r1 with
    | none => exact wp_mono (pipeBad_tables h2) fun _ s' hs => ⟨hs.1 ▸ hs.2.1, hs.2.2.trans (hp2.trans hp1)⟩
    | some f1 =>
      obtain ⟨hzero, ht1, hother⟩ := hf1 f1 rfl
      -- the second entry was still free when the first one was taken
      have hne : f0 ≠ f1 := by
        rintro rfl
        simp at hzero
      refine wp_seq (kalloc_tables h2) ?_
      rintro r s3 ⟨h3, ⟨hp3, hfile⟩, hpage⟩
      cases r with
      | none =>
        exact wp_mono (pipeBad_tables h3) fun _ s' hs => ⟨hs.1 ▸ hs.2.1, hs.2.2.trans (hp3.trans (hp2.trans hp1))⟩
      | some q =>
        obtain ⟨hq, haway⟩ := hpage q rfl
        refine wp_seq (pipeInit_tables h3 hq haway hne (by simp) (by simp) ?_ ?_) fun _ s4 hs =>
          ⟨hs.1, hs.2.trans (hp3.trans (hp2.trans hp1))⟩
        · rw [hfile, hother f0 hne]
          exact ht0
        · rw [hfile]
          exact ht1

end Xv6.Sysfile
