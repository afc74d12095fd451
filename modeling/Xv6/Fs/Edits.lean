/-
The changes that create, link and unlink make to the image, one at a time.

Results:
- `updateFields_at`, `ialloc_at`, `dirlink_new`, `clear_at`: fields, a free inode, an entry;
- `iput_emptied`: **an iput leaves the image alone, or it frees the inode**.
-/
import Xv6.Fs.Tree
import Xv6.Fs.Walk

namespace Xv6.Fs

open Fallible Holders

attribute [local semireducible] wp

variable {sb : Super} {dev : Devsw} {s s' : Icache} {v w : Image} {R : Ino → ℕ} {e dp : Ino} {name : Name} {n t : ℕ} {α : Type}

/-! ## One change -/

theorem still_setFile {f : File} : Still s (s.setFile e f) := by
  intro a
  have hst := still_setInode (s := s) (e := e) (i := { s.inode e with din := f.ip }) ⟨rfl, id⟩ a
  exact hst

theorem onInode_at {m : FileM α} {Q : α → File → Prop} (h : At sb R v s) (hl : s.locks e = true)
    (hm : Sound sb (s.file e) → wp notFreed m (fun a g => Kept sb (s.file e) g ∧ Q a g) (s.file e)) :
    wp anyhow (onInode e m) (fun a s' => ∃ g, At sb R (g.image sb) s' ∧ s'.locks = s.locks ∧ Still s s' ∧
      Kept sb (s.file e) g ∧ Q a g) s := by
  refine wp_mono (wp_allow (wp_locked (Q := fun a g => Kept sb (s.file e) g ∧ Q a g) h.ok hl fun hf => ?_) fine_anyhow) ?_
  · exact wp_mono (hm hf) fun a g hg => ⟨hg.1, hg⟩
  · rintro a _ ⟨hok, hlocks, g, rfl, hkept, hq⟩
    exact ⟨g, ⟨hok, hkept.sound.synced, refs_setFile.trans h.refs⟩, hlocks, still_setFile, hkept, hq⟩

theorem updateFields_at (hsb : sb.Ok) (h : At sb R v s) (hl : s.locks e = true) {major minor nlink : ℕ} (h1 : major < 2 ^ 16)
    (h2 : minor < 2 ^ 16) (h3 : nlink < 2 ^ 16) : wp anyhow (updateFields sb e major minor nlink) (fun _ s' =>
      At sb R (v.setInode (s.inode e).inum { v.inode (s.inode e).inum with major := major, minor := minor, nlink := nlink }) s' ∧
        s'.locks = s.locks ∧ Still s s') s := by
  have himg := (h.sound hl).2
  have hdin := (h.din hl).1
  have hw := (h.sound hl).1.ok.wf
  set di : Dinode := { (s.inode e).din with major := major, minor := minor, nlink := nlink } with hdi
  have hdw : di.Wf := ⟨hw.type, h1, h2, h3, hw.size, hw.addrs⟩
  refine wp_mono (onInode_at (Q := fun _ g => g = (s.file e).put sb di) h hl fun hf => ?_) ?_
  · simp only [wp_bind, wp_modify, iupdate]
    exact ⟨put_kept hsb hf hdw rfl rfl rfl, rfl⟩
  · rintro - s' ⟨g, hat, hlocks, hstill, -, rfl⟩
    have hput : ((s.file e).put sb di).image sb = v.setInode (s.inode e).inum di := by
      rw [put_image hsb (h.sound hl).1.ok hdw, himg]
      rfl
    rw [hput, hdi, hdin] at hat
    exact ⟨hat, hlocks, hstill⟩

/-- the link count goes up or down -/
theorem addLink_at (hsb : sb.Ok) (h : At sb R v s) (hl : s.locks e = true) : wp anyhow (addLink sb e) (fun _ s' =>
    At sb R (v.setInode (s.inode e).inum
      { v.inode (s.inode e).inum with nlink := ((v.inode (s.inode e).inum).nlink + 1) % 2 ^ 16 }) s' ∧
      s'.locks = s.locks ∧ Still s s') s := by
  have hw := (h.sound hl).1.ok.wf
  have hdin := (h.din hl).1
  simp only [addLink, wp_bind, wp_get, hdin]
  have hwv : (v.inode (s.inode e).inum).Wf := by rw [← hdin]; exact hw
  exact updateFields_at hsb h hl hwv.major hwv.minor (Nat.mod_lt _ (by norm_num))

theorem dropLink_at (hsb : sb.Ok) (h : At sb R v s) (hl : s.locks e = true) : wp anyhow (dropLink sb e) (fun _ s' =>
    At sb R (v.setInode (s.inode e).inum
      { v.inode (s.inode e).inum with nlink := ((v.inode (s.inode e).inum).nlink + (2 ^ 16 - 1)) % 2 ^ 16 }) s' ∧
      s'.locks = s.locks ∧ Still s s') s := by
  have hw := (h.sound hl).1.ok.wf
  have hdin := (h.din hl).1
  simp only [dropLink, wp_bind, wp_get, hdin]
  have hwv : (v.inode (s.inode e).inum).Wf := by rw [← hdin]; exact hw
  exact updateFields_at hsb h hl hwv.major hwv.minor (Nat.mod_lt _ (by norm_num))

/-- **ialloc takes a free inode.** -/
theorem ialloc_at (hsb : sb.Ok) (h : At sb R v s) {type : ℕ} (htype : type < 2 ^ 16) : wp anyhow (ialloc sb type) (fun e s' =>
    ∃ n, n ≠ 0 ∧ n < sb.ninodes ∧ (v.inode n).type = 0 ∧ (s'.inode e).inum = n ∧
      At sb (R + one (some e)) (v.setInode n ⟨type, 0, 0, 0, 0, fun _ => 0⟩) s' ∧ s'.locks = s.locks ∧ Same R s s') s := by
  have hspec := wp_and (wp_allow (ialloc_ok hsb h.ok htype) fine_anyhow) (ialloc_refs h.refs)
  refine wp_mono (wp_and hspec (F := anyhow) (R := fun e s' => ∃ n, n ≠ 0 ∧ n < sb.ninodes ∧ (v.inode n).type = 0 ∧
    (s'.inode e).inum = n ∧ imageOf sb s'.disk = v.setInode n ⟨type, 0, 0, 0, 0, fun _ => 0⟩ ∧ Same R s s') ?_) ?_
  · simp only [ialloc, wp_bind, wp_get]
    cases hfind : freeInode sb s.disk with
    | none => trivial
    | some n =>
      have hi : n < sb.ninodes := List.mem_range.1 (List.mem_of_find?_eq_some hfind)
      have hc : 1 ≤ n ∧ (inodeOf sb s.disk n).type = 0 := by simpa using List.find?_some hfind
      have hwf : (⟨type, 0, 0, 0, 0, fun _ => 0⟩ : Dinode).Wf :=
        ⟨htype, by norm_num, by norm_num, by norm_num, by norm_num, fun _ => by norm_num⟩
      simp only [wp_bind, wp_modify]
      refine wp_mono iget_same ?_
      rintro e s' ⟨hdisk, hnum, hsame⟩
      refine ⟨n, by omega, hi, ?_, hnum, ?_, ?_⟩
      · rw [← h.image, imageOf_inode hi]
        exact hc.2
      · rw [hdisk, ← h.image]
        exact imageOf_setInode hsb hi hwf
      · intro a ha
        refine hsame a ?_
        rw [← h.refs] at ha
        exact ha
  · rintro e s' ⟨⟨⟨hok, hl⟩, href⟩, n, h0, hi, ht, hnum, himg, hsame⟩
    exact ⟨n, h0, hi, ht, hnum, ⟨hok, himg, href⟩, hl, hsame⟩

/-- **A new name is added to a directory.** -/
theorem dirlink_new (hsb : sb.Ok) (h : At sb R v s) (hl : s.locks dp = true) (hnone : lookup sb v (s.inode dp).inum name = none)
    (h0 : n ≠ 0) (hn : n < sb.ninodes) (hword : n < 2 ^ 16) : wp anyhow (dirlink sb dev dp name n) (fun r s' => r = true ∧
      ∃ w t, At sb R w s' ∧ s'.locks = s.locks ∧ Still s s' ∧ slot sb v (s.inode dp).inum t = none ∧
        Filled sb v w (s.inode dp).inum t (some (n, name.cut))) s := by
  obtain ⟨hsound, himg⟩ := h.sound hl
  have hdir : wp anyhow (dirlookup sb dev dp name) (fun r s' => s' = s ∧ r = none ∧
      (v.inode (s.inode dp).inum).type = T_DIR) s := by
    refine wp_seq (lookupEntry_at h hl) ?_
    rintro r s1 ⟨rfl, ht, hr⟩
    rw [hnone] at hr
    subst hr
    exact ⟨rfl, rfl, ht⟩
  refine wp_seq hdir ?_
  rintro r s1 ⟨rfl, rfl, ht⟩
  rw [← (h.din hl).1] at ht
  refine wp_seq (onInode_at (Q := fun _ g => ∃ t, slot sb v (s1.inode dp).inum t = none ∧
    SlotSet sb (s1.file dp) g t (some (n, name.cut))) h hl fun hf => ?_) ?_
  · refine wp_mono (addEntry_slots hsb hf ht h0 hn hword) ?_
    rintro - g ⟨t, hempty, hset⟩
    rw [himg] at hempty
    exact ⟨hset.kept, t, hempty, hset⟩
  · rintro - s2 ⟨g, hat, hlocks, hstill, -, t, hempty, hset⟩
    have hfill := filled_of_set hset
    rw [himg] at hfill
    exact ⟨rfl, g.image sb, t, hat, hlocks, hstill, hempty, hfill⟩

/-- an entry of a directory is cleared -/
theorem clear_at (hsb : sb.Ok) (h : At sb R v s) (hl : s.locks dp = true) (ht : (v.inode (s.inode dp).inum).type = T_DIR) :
    wp anyhow (onInode dp (writeDirent sb dev "unlink: writei" (DESIZE * t) emptyDirent)) (fun _ s' =>
      ∃ w, At sb R w s' ∧ s'.locks = s.locks ∧ Still s s' ∧ Filled sb v w (s.inode dp).inum t none) s := by
  obtain ⟨hsound, himg⟩ := h.sound hl
  rw [← (h.din hl).1] at ht
  have htd : (s.file dp).ip.type ≠ T_DEV := by
    rw [show (s.file dp).ip.type = T_DIR from ht]
    decide
  refine wp_mono (onInode_at (Q := fun _ g => SlotSet sb (s.file dp) g t none) h hl fun hf => ?_) ?_
  · exact wp_mono (clear_slots hsb hf htd) fun _ g hset => ⟨hset.kept, hset⟩
  · rintro - s2 ⟨g, hat, hlocks, hstill, -, hset⟩
    have hfill := filled_of_set hset
    rw [himg] at hfill
    exact ⟨g.image sb, hat, hlocks, hstill, hfill⟩

theorem isdirempty_at (h : At sb R v s) (hl : s.locks e = true) (ht : (v.inode (s.inode e).inum).type ≠ T_DEV) :
    wp anyhow (onInode e (isdirempty sb dev)) (fun r s' => s' = s ∧
      (r = true ↔ ∀ t, 2 ≤ t → slot sb v (s.inode e).inum t = none)) s := by
  obtain ⟨hsound, himg⟩ := h.sound hl
  rw [← (h.din hl).1] at ht
  refine wp_onInode (D := fun _ => True) (fun _ _ => trivial) (wp_mono (isdirempty_slots hsound.ok hsound.full trivial ht) ?_)
  rintro r g ⟨rfl, hr⟩
  rw [himg] at hr
  exact ⟨setFile_file, hr⟩

/-! ## The last reference -/

/-- iput frees the inode: it is the last reference, the entry has been read, and there is no link -/
def Frees (R : Ino → ℕ) (v : Image) (s : Icache) (e : Ino) : Prop :=
  R e = 0 ∧ (s.inode e).valid = true ∧ (v.inode (s.inode e).inum).nlink = 0

/-- w is v, or inode n has lost its blocks and its type -/
structure Emptied (sb : Super) (R : Ino → ℕ) (v : Image) (s : Icache) (e : Ino) (w : Image) : Prop where
  kept : ¬ Frees R v s e → w = v
  apart : Apart sb (s.inode e).inum v w
  type : Frees R v s e → (w.inode (s.inode e).inum).type = 0

theorem truncated_freed {f g : File} {di : Dinode} (hsb : sb.Ok) (hn : f.inum < sb.ninodes) (hg : Truncated sb f g)
    (hw : di.Wf) : Apart sb f.inum (f.image sb) (imageOf sb (setInode sb g.disk f.inum di)) ∧
      (imageOf sb (setInode sb g.disk f.inum di)).inode f.inum = di := by
  have himg : imageOf sb (setInode sb g.disk f.inum di) = (g.image sb).setInode f.inum di := by
    rw [imageOf_setInode hsb hn hw, hg.synced]
  rw [himg]
  exact ⟨apart_trans hg.apart apart_setInode, setInode_self⟩

theorem iputFree_emptied (hsb : sb.Ok) (h : At sb (R + one (some e)) v s) : wp anyhow (iputFree sb e) (fun _ s' =>
    Emptied sb R v s e (imageOf sb s'.disk) ∧ Same R s s') s := by
  have hone : s.refs e = R e + 1 := by
    rw [h.refs]
    simp
  have hpos : 0 < s.refs e := by omega
  have hn := h.ok.inum e hpos
  have hnl : (s.inode e).valid = true → (s.inode e).din = v.inode (s.inode e).inum := by
    intro hv
    rw [← h.image, imageOf_inode hn]
    exact (h.ok.copy e hpos hv).1
  simp only [iputFree, wp_bind, wp_get, wp_ite, wp_throw, wp_pure]
  refine ⟨fun _ => trivial, fun _ => ⟨fun hc => ?_, fun hc => ⟨⟨fun _ => h.image, ?_, fun hf => ?_⟩, same_refl⟩⟩⟩
  · have hlast : s.refs e = 1 := hc.2.2
    have hsound := sound_valid h.ok hpos hc.1
    have hfrees : Frees R v s e := ⟨by omega, hc.1, by rw [← hnl hc.1]; exact hc.2.1⟩
    refine wp_onInode (D := fun _ => True) (fun _ _ => trivial)
      (wp_mono (wp_allow (itrunc_spec hsb hsound.ok) fun _ _ => trivial) fun _ g hg => ?_)
    have hwf : ({ g.ip with type := 0 } : Dinode).Wf := by
      have hw := hg.ok.wf
      exact ⟨by norm_num, hw.major, hw.minor, hw.nlink, hw.size, hw.addrs⟩
    refine wp_onInode (D := fun _ => True) (fun _ _ => trivial) ?_
    simp only [wp_bind, wp_modify, iupdate, wp_modifyInode]
    have hfile : (s.setFile e g).file e = ⟨g.disk, (s.inode e).inum, g.ip⟩ := by
      rw [Icache.file, Icache.setFile, setInode_same]
    rw [hfile]
    obtain ⟨hapart, hinode⟩ := truncated_freed hsb hn hg hwf
    rw [hsound.synced.symm.trans h.image] at hapart
    refine ⟨⟨fun hnot => absurd hfrees hnot, hapart, fun _ => congrArg Dinode.type hinode⟩, fun a ha => ?_⟩
    · have hae : a ≠ e := by
        rintro rfl
        omega
      rw [setInode_other' hae]
      have hst := still_trans (still_setFile (s := s) (e := e) (f := g))
        (still_setFile (s := s.setFile e g) (e := e)
          (f := ⟨setInode sb g.disk (s.inode e).inum { g.ip with type := 0 }, (s.inode e).inum,
          { g.ip with type := 0 }⟩)) a
      exact hst
  · rw [h.image]
    exact apart_refl
  · refine absurd ⟨hf.2.1, ?_, ?_⟩ hc
    · rw [hnl hf.2.1]
      exact hf.2.2
    · exact hone.trans (by rw [hf.1])

/-- **An iput leaves the image alone, or it frees the inode.** -/
theorem iput_emptied (hsb : sb.Ok) (h : At sb (R + one (some e)) v s) : wp anyhow (iput sb e) (fun _ s' =>
    ∃ w, At sb R w s' ∧ s'.locks = s.locks ∧ Same R s s' ∧ Emptied sb R v s e w) s := by
  have hspec := wp_and (wp_allow (iput_ok (e := e) hsb h.ok) fine_anyhow) (iput_refs h.refs)
  refine wp_mono (wp_and hspec (F := anyhow) (R := fun _ s' => Emptied sb R v s e (imageOf sb s'.disk) ∧ Same R s s') ?_) ?_
  · refine wp_seq (iputFree_emptied hsb h) ?_
    rintro - s1 ⟨hd1, hs1⟩
    simp only [iputDrop, wp_modifyInode]
    refine ⟨hd1, same_trans hs1 (Still.same ?_)⟩
    exact still_setInode ⟨rfl, id⟩
  · rintro - s' ⟨⟨⟨hok, hl⟩, href⟩, hd, hs⟩
    exact ⟨_, ⟨hok, rfl, href⟩, hl, hs, hd⟩

end Xv6.Fs
