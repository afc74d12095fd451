/-
References to inodes that a function of fs.c or sysfile.c takes and gives back.

- `Icache.refs`: the reference counts of the entries.
- A lemma says for a call that returns: from the counts R, with the references that the caller hands over, to the counts R
  with those that the caller gets. A call that panics or waits says nothing.

Results:
- `iget_refs`, `iput_refs`, `dirlookup_refs`, `dirlink_refs`, `unlink_refs`: the calls of `Fs.Icache`;
- `namex_refs`: a lookup returns one reference, or it fails and keeps none;
- `create_refs`, `link_refs`: so do create and link, on each of their ways out.
-/
import Xv6.Fs.Path
import Xv6.Lib.Fallible
import Xv6.Lib.Holders

namespace Xv6.Fs

open Fallible Holders Function

attribute [local semireducible] wp

variable {sb : Super} {dev : Devsw} {s s' : Icache} {e ip dp : Ino} {R : Ino → ℕ} {name : Name} {α : Type} {path : Path}

def Icache.refs (s : Icache) (e : Ino) : ℕ := (s.inode e).ref

/-- a call may stop for any reason -/
abbrev anyhow (_ : Stop) : Prop := True

/-! ## Entries -/

variable {i : Inode}

theorem refs_setInode : (s.setInode e i).refs = update s.refs e i.ref := by
  funext a
  by_cases hae : a = e
  · subst hae
    simp [Icache.refs, Icache.setInode]
  · simp [Icache.refs, Icache.setInode, update_of_ne hae]

/-- an entry keeps its count -/
theorem refs_setInode_same (h : i.ref = s.refs e) : (s.setInode e i).refs = s.refs := by
  rw [refs_setInode, h, update_eq_self]

theorem refs_setFile {f : File} : (s.setFile e f).refs = s.refs := refs_setInode_same rfl

/-- a count goes up -/
theorem refs_up (hi : i.ref = s.refs e + 1) : (s.setInode e i).refs = s.refs + one (some e) := by
  rw [refs_setInode, hi]
  funext a
  by_cases hae : a = e
  · subst hae
    simp
  · simp [update_of_ne hae, one_some, Ne.symm hae]

/-- a count goes down -/
theorem refs_down (h : s.refs = R + one (some e)) (hi : i.ref = s.refs e - 1) : (s.setInode e i).refs = R := by
  rw [refs_setInode, hi, h]
  funext a
  by_cases hae : a = e
  · subst hae
    simp
  · simp [update_of_ne hae, one_some, Ne.symm hae]

theorem onInode_refs {m : FileM α} (h : s.refs = R) : wp anyhow (onInode e m) (fun _ s' => s'.refs = R) s := by
  simp only [onInode, wp_bind, wp_get]
  cases m (s.file e) with
  | ok p => exact refs_setFile.trans h
  | error msg => trivial

theorem modifyInode_refs {g : Inode → Inode} (h : s.refs = R) (hg : (g (s.inode e)).ref = (s.inode e).ref) :
    wp anyhow (modifyInode e g) (fun _ s' => s'.refs = R) s := (refs_setInode_same hg).trans h

/-! ## References and locks -/

theorem iget_refs {inum : ℕ} (h : s.refs = R) : wp anyhow (iget inum) (fun e s' => s'.refs = R + one (some e)) s := by
  simp only [iget, wp_bind, wp_get]
  split
  · rw [← h]
    exact refs_up rfl
  · split
    · rename_i e hfind
      have h0 : (s.inode e).ref = 0 := by simpa using List.find?_some hfind
      rw [← h]
      exact refs_up (by simp [Icache.refs, h0])
    · trivial

theorem idup_refs (h : s.refs = R) : wp anyhow (idup e) (fun _ s' => s'.refs = R + one (some e)) s := by
  rw [← h]
  exact refs_up rfl

theorem ilock_refs (h : s.refs = R) : wp anyhow (ilock sb e) (fun _ s' => s'.refs = R) s := by
  simp only [ilock, wp_bind, wp_get, wp_ite, wp_throw]
  refine ⟨fun _ => trivial, fun _ => ⟨fun _ => trivial, fun _ => ⟨fun _ => ?_, fun _ => ⟨fun _ => trivial, fun _ => ?_⟩⟩⟩⟩
  · exact modifyInode_refs h rfl
  · exact modifyInode_refs h rfl

theorem iunlock_refs (h : s.refs = R) : wp anyhow (iunlock e) (fun _ s' => s'.refs = R) s := by
  simp only [iunlock, wp_bind, wp_get, wp_ite, wp_throw]
  exact ⟨fun _ => trivial, fun _ => modifyInode_refs h rfl⟩

theorem iputFree_refs (h : s.refs = R) : wp anyhow (iputFree sb e) (fun _ s' => s'.refs = R) s := by
  simp only [iputFree, wp_bind, wp_get, wp_ite, wp_throw, wp_pure]
  refine ⟨fun _ => trivial, fun _ => ⟨fun _ => ?_, fun _ => h⟩⟩
  refine wp_mono (onInode_refs h) fun _ s1 h1 => ?_
  exact wp_mono (onInode_refs h1) fun _ s2 h2 => modifyInode_refs h2 rfl

/-- **iput gives one reference back.** -/
theorem iput_refs (h : s.refs = R + one (some e)) : wp anyhow (iput sb e) (fun _ s' => s'.refs = R) s :=
  wp_seq (iputFree_refs h) fun _ _ h1 => refs_down h1 rfl

theorem iunlockput_refs (h : s.refs = R + one (some e)) : wp anyhow (iunlockput sb e) (fun _ s' => s'.refs = R) s :=
  wp_seq (iunlock_refs h) fun _ _ h1 => iput_refs h1

theorem ialloc_refs {type : ℕ} (h : s.refs = R) : wp anyhow (ialloc sb type) (fun e s' => s'.refs = R + one (some e)) s := by
  simp only [ialloc, wp_bind, wp_get]
  split
  · exact iget_refs h
  · trivial

theorem updateFields_refs {major minor nlink : ℕ} (h : s.refs = R) :
    wp anyhow (updateFields sb e major minor nlink) (fun _ s' => s'.refs = R) s :=
  onInode_refs h

theorem dropLink_refs (h : s.refs = R) : wp anyhow (dropLink sb e) (fun _ s' => s'.refs = R) s := by
  simp only [dropLink, wp_bind, wp_get]
  exact updateFields_refs h

theorem addLink_refs (h : s.refs = R) : wp anyhow (addLink sb e) (fun _ s' => s'.refs = R) s := by
  simp only [addLink, wp_bind, wp_get]
  exact updateFields_refs h

/-! ## Directories -/

theorem dirlookup_refs (h : s.refs = R) : wp anyhow (dirlookup sb dev dp name) (fun r s' => s'.refs = R + one (r.map Prod.fst)) s := by
  refine wp_seq (onInode_refs h) fun r s1 h1 => ?_
  cases r with
  | none => exact h1
  | some p => exact wp_seq (iget_refs h1) fun e s2 h2 => h2

theorem dirlink_refs {inum : ℕ} (h : s.refs = R) : wp anyhow (dirlink sb dev dp name inum) (fun _ s' => s'.refs = R) s := by
  refine wp_seq (dirlookup_refs h) fun r s1 h1 => ?_
  cases r with
  | none => exact wp_seq (onInode_refs h1) fun _ s2 h2 => h2
  | some p => exact wp_seq (iput_refs h1) fun _ s2 h2 => h2

/-- unlink gives the parent directory back -/
theorem unlink_refs (h : s.refs = R + one (some dp)) : wp anyhow (unlink sb dev dp name) (fun _ s' => s'.refs = R) s := by
  refine wp_seq (ilock_refs h) fun _ s1 h1 => ?_
  simp only [wp_ite]
  refine ⟨fun _ => wp_seq (iunlockput_refs h1) fun _ s2 h2 => h2, fun _ => ?_⟩
  refine wp_seq (dirlookup_refs h1) fun r s2 h2 => ?_
  cases r with
  | none => exact wp_seq (iunlockput_refs h2) fun _ s3 h3 => h3
  | some p =>
    obtain ⟨ip, off⟩ := p
    refine wp_seq (ilock_refs h2) fun _ s3 h3 => ?_
    -- the end of unlink, with the inode that was found
    have hend : ∀ s4 : Icache, s4.refs = R + one (some dp) + one (some ip) → wp anyhow (iunlockput sb dp)
        (fun _ s5 => wp anyhow (dropLink sb ip) (fun _ s6 => wp anyhow (iunlockput sb ip)
          (fun _ s7 => s7.refs = R) s6) s5) s4 := by
      intro s4 h4
      rw [add_right_comm] at h4
      refine wp_mono (iunlockput_refs h4) fun _ s5 h5 => ?_
      exact wp_mono (dropLink_refs h5) fun _ s6 h6 => iunlockput_refs h6
    have hclear : ∀ s4 : Icache, s4.refs = R + one (some dp) + one (some ip) →
        wp anyhow (onInode dp (writeDirent sb dev "unlink: writei" off emptyDirent))
          (fun _ s5 => s5.refs = R + one (some dp) + one (some ip)) s4 := fun s4 h4 => onInode_refs h4
    simp only [wp_bind, wp_get, wp_ite, wp_throw, wp_pure]
    refine ⟨fun _ => trivial, fun _ => ⟨fun ht => wp_mono (onInode_refs h3) fun empty s4 h4 => ⟨fun _ => ?_, fun _ => ?_⟩,
      fun ht => ⟨(by intros; contradiction), fun _ => wp_mono (hclear s3 h3) fun _ s4 h4 =>
        ⟨fun h => absurd h ht, fun _ => hend s4 h4⟩⟩⟩⟩
    · exact wp_mono (iunlockput_refs h4) fun _ s5 h5 => iunlockput_refs h5
    · refine wp_mono (hclear s4 h4) fun _ s5 h5 => ⟨fun _ => ?_, fun h => absurd ht h⟩
      exact wp_mono (dropLink_refs h5) fun _ s6 h6 => hend s6 h6

/-! ## Paths -/

theorem namexLoop_refs {parent : Bool} {names : List Name} (h : s.refs = R + one (some ip)) :
    wp anyhow (namexLoop sb dev parent ip names) (fun r s' => s'.refs = R + one (r.map Prod.fst)) s := by
  induction names generalizing ip s with
  | nil =>
    simp only [namexLoop, wp_ite, wp_bind, wp_pure]
    exact ⟨fun _ => iput_refs h, fun _ => h⟩
  | cons name names ih =>
    refine wp_seq (ilock_refs h) fun _ s1 h1 => ?_
    simp only [wp_bind, wp_get, wp_ite, wp_pure]
    refine ⟨fun _ => iunlockput_refs h1, fun _ => ⟨fun _ => iunlock_refs h1, fun _ => ?_⟩⟩
    refine wp_mono (dirlookup_refs h1) fun r s2 h2 => ?_
    cases r with
    | none => exact wp_seq (iunlockput_refs h2) fun _ s3 h3 => h3
    | some p =>
      rw [add_right_comm] at h2
      exact wp_seq (iunlockput_refs h2) fun _ s3 h3 => ih h3

theorem namexStart_refs (h : s.refs = R) : wp anyhow (namexStart e path) (fun ip s' => s'.refs = R + one (some ip)) s := by
  simp only [namexStart, wp_ite, wp_bind, wp_pure]
  exact ⟨fun _ => iget_refs h, fun _ => idup_refs h⟩

/-- **A lookup returns one reference, or none.** -/
theorem namex_refs {parent : Bool} (h : s.refs = R) :
    wp anyhow (namex sb dev e path parent) (fun r s' => s'.refs = R + one (r.map Prod.fst)) s :=
  wp_seq (namexStart_refs h) fun _ _ h1 => namexLoop_refs h1

theorem namei_refs (h : s.refs = R) : wp anyhow (namei sb dev e path) (fun r s' => s'.refs = R + one r) s :=
  wp_seq (namex_refs h) fun _ _ h1 => h1

/-! ## create and link -/

theorem createDots_refs (h : s.refs = R) : wp anyhow (createDots sb dev dp ip) (fun _ s' => s'.refs = R) s := by
  refine wp_seq (addLink_refs h) fun _ s1 h1 => ?_
  simp only [wp_bind, wp_get]
  refine wp_mono (dirlink_refs h1) fun r s2 h2 => ?_
  simp only [wp_ite]
  refine ⟨fun _ => trivial, fun _ => wp_seq (dirlink_refs h2) fun r' s3 h3 => ?_⟩
  simp only [wp_ite, wp_throw, wp_pure]
  exact ⟨fun _ => trivial, fun _ => h3⟩

theorem createNew_refs {type major minor : ℕ} (h : s.refs = R + one (some dp)) :
    wp anyhow (createNew sb dev dp name type major minor) (fun ip s' => s'.refs = R + one (some ip)) s := by
  refine wp_seq (ialloc_refs h) fun ip s1 h1 => ?_
  refine wp_seq (ilock_refs h1) fun _ s2 h2 => ?_
  refine wp_seq (updateFields_refs h2) fun _ s3 h3 => ?_
  have hend : ∀ s4 : Icache, s4.refs = R + one (some dp) + one (some ip) →
      wp anyhow (dirlink sb dev dp name (s4.inode ip).inum) (fun _ s5 => wp anyhow (iunlockput sb dp)
        (fun _ s6 => s6.refs = R + one (some ip)) s5) s4 := by
    intro s4 h4
    refine wp_mono (dirlink_refs h4) fun _ s5 h5 => ?_
    rw [add_right_comm] at h5
    exact iunlockput_refs h5
  simp only [wp_bind, wp_get, wp_ite, wp_throw, wp_pure]
  refine ⟨fun _ => wp_mono (createDots_refs h3) fun _ s4 h4 => ?_, fun _ => ?_⟩
  · exact wp_mono (hend s4 h4) fun r s5 h5 => ⟨fun _ => trivial, fun _ => h5⟩
  · exact wp_mono (hend s3 h3) fun r s5 h5 => ⟨fun _ => trivial, fun _ => h5⟩

/-- **create returns one reference, or none.** -/
theorem create_refs {type major minor : ℕ} (h : s.refs = R) :
    wp anyhow (create sb dev e path type major minor) (fun r s' => s'.refs = R + one r) s := by
  refine wp_seq (namex_refs h) fun r s1 h1 => ?_
  cases r with
  | none => exact h1
  | some p =>
    obtain ⟨dp, name⟩ := p
    refine wp_seq (ilock_refs h1) fun _ s2 h2 => ?_
    refine wp_seq (dirlookup_refs h2) fun r s3 h3 => ?_
    cases r with
    | none => exact wp_seq (createNew_refs h3) fun ip s4 h4 => h4
    | some p =>
      obtain ⟨ip, off⟩ := p
      simp only [Option.map_some] at h3
      rw [add_right_comm] at h3
      refine wp_seq (iunlockput_refs h3) fun _ s4 h4 => ?_
      refine wp_seq (ilock_refs h4) fun _ s5 h5 => ?_
      simp only [wp_bind, wp_get, wp_ite, wp_pure]
      exact ⟨fun _ => h5, fun _ => iunlockput_refs h5⟩

theorem linkBad_refs (h : s.refs = R + one (some ip)) : wp anyhow (linkBad sb ip) (fun _ s' => s'.refs = R) s := by
  refine wp_seq (ilock_refs h) fun _ s1 h1 => ?_
  refine wp_seq (dropLink_refs h1) fun _ s2 h2 => ?_
  exact wp_seq (iunlockput_refs h2) fun _ s3 h3 => h3

/-- **link keeps no reference.** -/
theorem link_refs {old new : Path} (h : s.refs = R) : wp anyhow (link sb dev e old new) (fun _ s' => s'.refs = R) s := by
  refine wp_seq (namei_refs h) fun r s1 h1 => ?_
  cases r with
  | none => exact h1
  | some ip =>
    refine wp_seq (ilock_refs h1) fun _ s2 h2 => ?_
    simp only [wp_bind, wp_get, wp_ite, wp_pure]
    refine ⟨fun _ => iunlockput_refs h2, fun _ => wp_mono (addLink_refs h2) fun _ s3 h3 => ?_⟩
    refine wp_mono (iunlock_refs h3) fun _ s4 h4 => wp_mono (namex_refs h4) fun r s5 h5 => ?_
    cases r with
    | none => exact linkBad_refs h5
    | some p =>
      obtain ⟨dp, name⟩ := p
      refine wp_seq (ilock_refs h5) fun _ s6 h6 => ?_
      simp only [wp_bind, wp_get, wp_ite, wp_pure]
      refine wp_mono (dirlink_refs h6) fun r s7 h7 => ⟨fun _ => ?_, fun _ => ?_⟩
      · exact wp_mono (iunlockput_refs h7) fun _ s8 h8 => linkBad_refs h8
      · exact wp_mono (iunlockput_refs h7) fun _ s8 h8 => iput_refs h8

end Xv6.Fs
