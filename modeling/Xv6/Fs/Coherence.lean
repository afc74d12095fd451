/-
The inode cache agrees with the disk, and the blocks stay allocated to their places.

- `Icache.Ok`: the invariant. The disk is consistent; the entries in use have different inode numbers; a valid entry is the
  copy of the inode on the disk; a locked entry is valid and in use.
- `fine`: every way to stop but the panic of bfree.

Results:
- one lemma for each call (`iget_ok`, `ilock_ok`, `iput_ok`, `dirlink_ok`, `unlink_ok`, ...): it keeps the invariant, and
  what it does to the locks;
- `fsRun_ok`: the invariant holds along every run.
-/
import Xv6.Fs.Entries
import Xv6.Fs.Icache

namespace Xv6.Fs

open Bytes Owners Fallible Function

attribute [local semireducible] wp

variable {sb : Super} {dev : Devsw} {s s' : Icache} {e e' : Ino} {f g : File} {ip : Inode} {d : Disk} {inum : ℕ} {name : Name}
  {α : Type}

/-! ## The invariant -/

structure Icache.Ok (sb : Super) (s : Icache) : Prop where
  disk : Consistent sb (imageOf sb s.disk)
  inum : ∀ e, 0 < (s.inode e).ref → (s.inode e).inum < sb.ninodes
  once : ∀ e e', 0 < (s.inode e).ref → 0 < (s.inode e').ref → (s.inode e).inum = (s.inode e').inum → e = e'
  copy : ∀ e, 0 < (s.inode e).ref → (s.inode e).valid = true →
    (s.inode e).din = inodeOf sb s.disk (s.inode e).inum ∧ (s.inode e).din.type ≠ 0
  lock : ∀ e, (s.inode e).locked = true → 0 < (s.inode e).ref ∧ (s.inode e).valid = true

/-- which entries are locked -/
def Icache.locks (s : Icache) (e : Ino) : Bool := (s.inode e).locked

/-- every way to stop but the panic of bfree -/
def fine (stop : Stop) : Prop := stop ≠ .panic "freeing free block"

theorem setInode_same : (s.setInode e ip).inode e = ip := update_self ..

theorem setInode_other' (h : e' ≠ e) : (s.setInode e ip).inode e' = s.inode e' := update_of_ne h ..

/-- one entry changes, and not the disk -/
theorem ok_setInode (h : s.Ok sb) (hinum : 0 < ip.ref → ip.inum < sb.ninodes)
    (honce : 0 < ip.ref → ∀ e', e' ≠ e → 0 < (s.inode e').ref → (s.inode e').inum ≠ ip.inum)
    (hcopy : 0 < ip.ref → ip.valid = true → ip.din = inodeOf sb s.disk ip.inum ∧ ip.din.type ≠ 0)
    (hlock : ip.locked = true → 0 < ip.ref ∧ ip.valid = true) : (s.setInode e ip).Ok sb := by
  refine ⟨h.disk, fun a ha => ?_, fun a b ha hb hab => ?_, fun a ha hv => ?_, fun a ha => ?_⟩
  · by_cases hae : a = e
    · subst hae
      rw [setInode_same] at ha ⊢
      exact hinum ha
    · rw [setInode_other' hae] at ha ⊢
      exact h.inum a ha
  · by_cases hae : a = e
    · by_cases hbe : b = e
      · rw [hae, hbe]
      · subst hae
        rw [setInode_same] at ha hab
        rw [setInode_other' hbe] at hb hab
        exact absurd hab.symm (honce ha b hbe hb)
    · by_cases hbe : b = e
      · subst hbe
        rw [setInode_same] at hb hab
        rw [setInode_other' hae] at ha hab
        exact absurd hab (honce hb a hae ha)
      · rw [setInode_other' hae] at ha hab
        rw [setInode_other' hbe] at hb hab
        exact h.once a b ha hb hab
  · by_cases hae : a = e
    · subst hae
      rw [setInode_same] at ha hv ⊢
      exact hcopy ha hv
    · rw [setInode_other' hae] at ha hv ⊢
      exact h.copy a ha hv
  · by_cases hae : a = e
    · subst hae
      rw [setInode_same] at ha ⊢
      exact hlock ha
    · rw [setInode_other' hae] at ha ⊢
      exact h.lock a ha

/-- an entry keeps its inode -/
theorem ok_setInode_same (h : s.Ok sb) (hnum : ip.inum = (s.inode e).inum) (hdin : ip.din = (s.inode e).din)
    (href : 0 < ip.ref → 0 < (s.inode e).ref) (hvalid : ip.valid = true → (s.inode e).valid = true)
    (hlock : ip.locked = true → 0 < ip.ref ∧ ip.valid = true) : (s.setInode e ip).Ok sb := by
  refine ok_setInode h (fun h0 => ?_) (fun h0 e' hne h1 heq => ?_) (fun h0 hv => ?_) hlock
  · rw [hnum]
    exact h.inum e (href h0)
  · exact hne (h.once e' e h1 (href h0) (heq.trans hnum))
  · rw [hdin, hnum]
    exact h.copy e (href h0) (hvalid hv)

/-! ## Calls on a locked inode -/

/-- the inode of a valid entry -/
theorem sound_valid (h : s.Ok sb) (h0 : 0 < (s.inode e).ref) (hv : (s.inode e).valid = true) : Sound sb (s.file e) := by
  obtain ⟨hdin, htype⟩ := h.copy e h0 hv
  have hi := h.inum e h0
  have hsync : imageOf sb s.disk = (s.file e).image sb := by
    refine (image_synced (f := s.file e)).1 ?_
    exact (imageOf_inode hi).trans hdin.symm
  have hal : allocated sb (imageOf sb s.disk) (s.inode e).inum := by
    rw [allocated, imageOf_inode hi, ← hdin]
    exact ⟨hi, htype⟩
  refine ⟨⟨hi, ?_, htype, hsync ▸ h.disk.alloc⟩, hsync ▸ h.disk.full _ hal, fun ht => hsync ▸ h.disk.dirs _ hal ?_, hsync⟩
  · show (s.inode e).din.Wf
    rw [hdin]
    exact inodeOf_wf ..
  · have hin : (imageOf sb s.disk).inode (s.inode e).inum = (s.inode e).din := (imageOf_inode hi).trans hdin.symm
    exact (congrArg Dinode.type hin).trans ht

/-- **A call on the inode of a valid entry keeps the invariant.** -/
theorem ok_setFile (h : s.Ok sb) (h0 : 0 < (s.inode e).ref) (hf : Sound sb (s.file e)) (hg : Kept sb (s.file e) g) :
    (s.setFile e g).Ok sb := by
  have hi := h.inum e h0
  have hin : ∀ a, a ≠ e → (s.setFile e g).inode a = s.inode a := fun a ha => setInode_other' ha
  have hself : (s.setFile e g).inode e = { s.inode e with din := g.ip } := setInode_same
  have hsync := hg.sound.synced
  have hbefore : imageOf sb s.disk = (s.file e).image sb := hf.synced
  have hnum : g.inum = (s.inode e).inum := hg.inum
  -- the other inodes on the disk are as they were
  have hdisk : ∀ n, n < sb.ninodes → n ≠ (s.inode e).inum → inodeOf sb g.disk n = inodeOf sb s.disk n := by
    intro n hn hne
    have hap := hg.apart.inode n hne
    rw [← hsync, imageOf_inode hn] at hap
    rw [hap]
    exact (setInode_ne hne).trans (imageOf_inode hn)
  refine ⟨?_, fun a ha => ?_, fun a b ha hb hab => ?_, fun a ha hv => ?_, fun a ha => ?_⟩
  · refine consistent_apart (i := (s.inode e).inum) h.disk ?_ (hsync ▸ hg.sound.ok.alloc) fun _ => ?_
    · show Apart sb (s.inode e).inum (imageOf sb s.disk) (imageOf sb g.disk)
      rw [hsync, hbefore]
      exact hg.apart
    · show Full sb (imageOf sb g.disk) _ ∧ (((imageOf sb g.disk).inode _).type = T_DIR → DirOk sb (imageOf sb g.disk) _)
      rw [hsync, ← hnum, image_inode]
      exact ⟨hg.sound.full, hg.sound.dir⟩
  · by_cases hae : a = e
    · rw [hae, hself]
      exact hi
    · rw [hin a hae] at ha ⊢
      exact h.inum a ha
  · have hkeep : ∀ a, ((s.setFile e g).inode a).ref = (s.inode a).ref ∧ ((s.setFile e g).inode a).inum = (s.inode a).inum := by
      intro a
      by_cases hae : a = e
      · rw [hae, hself]
        exact ⟨rfl, rfl⟩
      · rw [hin a hae]
        exact ⟨rfl, rfl⟩
    rw [(hkeep a).1] at ha
    rw [(hkeep b).1] at hb
    rw [(hkeep a).2, (hkeep b).2] at hab
    exact h.once a b ha hb hab
  · by_cases hae : a = e
    · rw [hae, hself]
      have hcopy : inodeOf sb g.disk g.inum = g.ip := by
        rw [← imageOf_inode hg.sound.ok.inum, hsync, image_inode]
      exact ⟨(hnum ▸ hcopy).symm, hg.sound.ok.type⟩
    · rw [hin a hae] at ha hv ⊢
      have hne : (s.inode a).inum ≠ (s.inode e).inum := fun heq => hae (h.once a e ha h0 heq)
      rw [show (s.setFile e g).disk = g.disk from rfl, hdisk _ (h.inum a ha) hne]
      exact h.copy a ha hv
  · by_cases hae : a = e
    · rw [hae, hself] at ha ⊢
      exact h.lock e ha
    · rw [hin a hae] at ha ⊢
      exact h.lock a ha

theorem locks_setInode : (s.setInode e ip).locks = update s.locks e ip.locked := by
  funext a
  by_cases hae : a = e
  · subst hae
    rw [update_self, Icache.locks, setInode_same]
  · rw [update_of_ne hae, Icache.locks, setInode_other' hae, Icache.locks]

/-- an entry keeps its lock -/
theorem locks_setInode_same (h : ip.locked = s.locks e) : (s.setInode e ip).locks = s.locks := by
  rw [locks_setInode, h, update_eq_self]

theorem locks_setFile : (s.setFile e g).locks = s.locks := locks_setInode_same rfl

theorem setFile_file : s.setFile e (s.file e) = s := by
  rw [Icache.setFile, Icache.setInode, Icache.file]
  simp only [update_eq_self]

variable {m : FileM α}

theorem wp_onInode {E : Stop → Prop} {D : String → Prop} {Q : α → Icache → Prop} (hD : ∀ msg, D msg → E (.panic msg))
    (h : wp D m (fun a g => Q a (s.setFile e g)) (s.file e)) : wp E (onInode e m) Q s := by
  simp only [onInode, wp_bind, wp_get]
  rw [wp] at h
  cases hm : m (s.file e) with
  | ok p => rw [hm] at h; exact h
  | error msg => rw [hm] at h; exact hD msg h

theorem fine_panic (msg : String) (h : notFreed msg) : fine (.panic msg) := fun heq => h (Stop.panic.inj heq)

/-- a call on a locked inode -/
theorem wp_locked {Q : α → File → Prop} (h : s.Ok sb) (he : s.locks e = true)
    (hm : Sound sb (s.file e) → wp notFreed m (fun a g => Kept sb (s.file e) g ∧ Q a g) (s.file e)) :
    wp fine (onInode e m) (fun a s' => s'.Ok sb ∧ s'.locks = s.locks ∧ ∃ g, s' = s.setFile e g ∧ Q a g) s := by
  obtain ⟨h0, hv⟩ := h.lock e he
  refine wp_onInode fine_panic (wp_mono (hm (sound_valid h h0 hv)) fun a g hg => ?_)
  exact ⟨ok_setFile h h0 (sound_valid h h0 hv) hg.1, locks_setFile, g, rfl, hg.2⟩

/-- a call on a locked inode that returns nothing of interest -/
theorem call_ok (h : s.Ok sb) (he : s.locks e = true)
    (hm : Sound sb (s.file e) → wp notFreed m (fun _ g => Kept sb (s.file e) g) (s.file e)) :
    wp fine (onInode e m) (fun _ s' => s'.Ok sb ∧ s'.locks = s.locks) s := by
  refine wp_mono (wp_locked (Q := fun _ _ => True) h he fun hf => wp_mono (hm hf) fun _ g hg => ⟨hg, trivial⟩) ?_
  exact fun _ s' hs => ⟨hs.1, hs.2.1⟩

/-! ## References and locks -/

theorem wp_modifyInode {E : Stop → Prop} {u : Inode → Inode} {Q : Unit → Icache → Prop} :
    wp E (modifyInode e u) Q s ↔ Q () (s.setInode e (u (s.inode e))) := Iff.rfl

/-- iget finds the inode, or takes an entry that is not in use -/
theorem wp_iget {E : Stop → Prop} {Q : Ino → Icache → Prop} (hhit : ∀ e, 0 < (s.inode e).ref → (s.inode e).inum = inum →
      Q e (s.setInode e { s.inode e with ref := (s.inode e).ref + 1 }))
    (hmiss : (∀ e, 0 < (s.inode e).ref → (s.inode e).inum ≠ inum) → ∀ e, (s.inode e).ref = 0 →
      Q e (s.setInode e { s.inode e with inum := inum, ref := 1, valid := false }))
    (hfull : (∀ e, (s.inode e).ref ≠ 0) → E (.panic "iget: no inodes")) : wp E (iget inum) Q s := by
  simp only [iget, wp_bind, wp_get]
  cases hfind : (List.finRange NINODE).find? fun e => 0 < (s.inode e).ref ∧ (s.inode e).inum = inum with
  | some e =>
    have hc : 0 < (s.inode e).ref ∧ (s.inode e).inum = inum := by simpa using List.find?_some hfind
    exact hhit e hc.1 hc.2
  | none =>
    cases hempty : (List.finRange NINODE).find? fun e => (s.inode e).ref = 0 with
    | some e =>
      refine hmiss (fun e h0 hc => ?_) e (by simpa using List.find?_some hempty)
      exact List.find?_eq_none.1 hfind e (List.mem_finRange e) (by simpa using ⟨h0, hc⟩)
    | none => exact hfull fun e h0 => List.find?_eq_none.1 hempty e (List.mem_finRange e) (decide_eq_true h0)

theorem iget_ok (h : s.Ok sb) (hi : inum < sb.ninodes) :
    wp fine (iget inum) (fun _ s' => s'.Ok sb ∧ s'.locks = s.locks) s := by
  refine wp_iget (fun e h0 _ => ?_) (fun hnone e h0 => ?_) fun _ => by simp [fine]
  · exact ⟨ok_setInode_same h rfl rfl (fun _ => h0) id fun hl => ⟨Nat.succ_pos _, (h.lock e hl).2⟩, locks_setInode_same rfl⟩
  · -- an entry that is not in use is not locked
    have hfree : (s.inode e).locked = true → False := fun hl => by
      have := (h.lock e hl).1
      omega
    refine ⟨ok_setInode h (fun _ => hi) (fun _ e' _ h1 => hnone e' h1) (fun _ hv => ?_) fun hl => (hfree hl).elim,
      locks_setInode_same rfl⟩
    cases hv

theorem ilock_ok (h : s.Ok sb) : wp fine (ilock sb e) (fun _ s' => s'.Ok sb ∧ s.locks e = false ∧
    s'.locks = update s.locks e true) s := by
  simp only [ilock, wp_bind, wp_get, wp_ite, wp_throw, wp_modifyInode]
  refine ⟨fun _ => by simp [fine], fun h0 => ⟨fun _ => by simp [fine], fun hl => ⟨fun hv => ?_,
    fun _ => ⟨fun _ => by simp [fine], fun ht => ?_⟩⟩⟩⟩
  · exact ⟨ok_setInode_same h rfl rfl id id fun _ => ⟨not_lt.1 h0, hv⟩, by simpa [Icache.locks] using hl, locks_setInode⟩
  · refine ⟨ok_setInode h (h.inum e) (fun h1 e' hne h2 heq => hne (h.once e' e h2 h1 heq)) (fun _ _ => ⟨rfl, ht⟩) fun _ => ?_,
      by simpa [Icache.locks] using hl, locks_setInode⟩
    exact ⟨not_lt.1 h0, rfl⟩

theorem iunlock_ok (h : s.Ok sb) : wp fine (iunlock e) (fun _ s' => s'.Ok sb ∧ s'.locks = update s.locks e false) s := by
  simp only [iunlock, wp_bind, wp_get, wp_ite, wp_throw, wp_modifyInode]
  refine ⟨fun _ => by simp [fine], fun _ => ⟨ok_setInode_same h rfl rfl id id ?_, locks_setInode⟩⟩
  intro hl
  cases hl

theorem iputDrop_ok (h : s.Ok sb) (hl : s.locks e = true → (s.inode e).ref ≠ 1) :
    wp fine (iputDrop e) (fun _ s' => s'.Ok sb ∧ s'.locks = s.locks) s := by
  refine ⟨ok_setInode_same h rfl rfl (fun h0 => ?_) id fun hlock => ⟨?_, (h.lock e hlock).2⟩, locks_setInode_same rfl⟩
  · have h0 : 0 < (s.inode e).ref - 1 := h0
    omega
  · have h1 := (h.lock e hlock).1
    have h2 := hl hlock
    show 0 < (s.inode e).ref - 1
    omega

/-- an inode that no valid entry has changes on the disk -/
theorem ok_disk {di : Dinode} (h : s.Ok sb) (hd : imageOf sb d = (imageOf sb s.disk).setInode inum di)
    (hc : Consistent sb (imageOf sb d)) (hv : ∀ e, 0 < (s.inode e).ref → (s.inode e).valid = true → (s.inode e).inum ≠ inum) :
    ({ s with disk := d } : Icache).Ok sb := by
  refine ⟨hc, h.inum, h.once, fun a ha hav => ?_, h.lock⟩
  have hin : inodeOf sb d (s.inode a).inum = inodeOf sb s.disk (s.inode a).inum := by
    rw [← imageOf_inode (h.inum a ha), hd, setInode_ne (hv a ha hav), imageOf_inode (h.inum a ha)]
  rw [hin]
  exact h.copy a ha hav

/-- **iput frees the inode** when it was the last reference and there are no links. -/
theorem iputFree_ok (hsb : sb.Ok) (h : s.Ok sb) : wp fine (iputFree sb e) (fun _ s' => s'.Ok sb ∧ s'.locks = s.locks ∧
    s.locks e = false) s := by
  simp only [iputFree, wp_bind, wp_get, wp_ite, wp_throw, wp_pure, wp_modifyInode]
  refine ⟨fun _ => by simp [fine], fun hl => ⟨fun hfree => ?_, fun _ => ⟨h, trivial, by simpa [Icache.locks] using hl⟩⟩⟩
  have hl : s.locks e = false := by simpa [Icache.locks] using hl
  have h0 : 0 < (s.inode e).ref := by omega
  have hsound := sound_valid h h0 hfree.1
  refine wp_onInode fine_panic (wp_mono (itrunc_kept hsb hsound) fun _ g hg => ?_)
  have h1 := ok_setFile h h0 hsound hg.1
  have hself : (s.setFile e g).inode e = { s.inode e with din := g.ip } := setInode_same
  have hnum : g.inum = (s.inode e).inum := hg.1.inum
  set s1 := s.setFile e g with hs1
  set di : Dinode := { g.ip with type := 0 }
  have hi : (s.inode e).inum < sb.ninodes := h.inum e h0
  have hwf : di.Wf := by
    have hw := hg.1.sound.ok.wf
    exact ⟨by norm_num, hw.major, hw.minor, hw.nlink, hw.size, hw.addrs⟩
  -- the inode stores no block and gives up its type
  have himg : imageOf sb (setInode sb g.disk (s.inode e).inum di) = (imageOf sb g.disk).setInode (s.inode e).inum di :=
    imageOf_setInode hsb hi hwf
  have hcons : Consistent sb ((imageOf sb g.disk).setInode (s.inode e).inum di) := by
    refine consistent_apart (i := (s.inode e).inum) h1.disk apart_setInode ?_ fun ha => ?_
    · refine alloc_empty h1.disk.alloc (fun t => ?_) hg.2
      have hsync := hg.1.sound.synced
      show stored sb (imageOf sb g.disk) _ = none
      rw [hsync, ← hnum, stored_eq hg.1.sound.ok.allocated, image_inode]
      cases t with
      | slot k => rw [storedIn, hg.2, blockNo_zero]
      | entry j => exact storedIn_entry_none (hg.2 indirectSlot)
    · rw [allocated, setInode_self] at ha
      exact absurd rfl ha.2
  have hend : ((s1.setInode e { s1.inode e with din := di, valid := false }) : Icache).Ok sb := by
    refine ok_setInode h1 (fun _ => ?_) (fun _ e' hne h2 heq => ?_) (fun _ hv => by cases hv) fun hlock => ?_
    · rw [hself]; exact hi
    · exact hne (h1.once e' e h2 (by rw [hself]; exact h0) heq)
    · rw [hself] at hlock
      rw [Icache.locks] at hl
      exact absurd (hl.symm.trans hlock) (by simp)
  refine wp_onInode fine_panic ?_
  simp only [wp_bind, wp_modify, iupdate]
  have hstate : (s1.setFile e ⟨setInode sb g.disk (s.inode e).inum di, (s.inode e).inum, di⟩).setInode e
      { (s1.setFile e ⟨setInode sb g.disk (s.inode e).inum di, (s.inode e).inum, di⟩).inode e with valid := false } =
      { s1.setInode e { s1.inode e with din := di, valid := false } with disk := setInode sb g.disk (s.inode e).inum di } := by
    simp only [Icache.setFile, Icache.setInode, update_idem, update_self]
  have hfile : s1.file e = ⟨g.disk, (s.inode e).inum, g.ip⟩ := by
    rw [Icache.file, hself]
    rfl
  rw [hfile, hstate]
  refine ⟨ok_disk (s := s1.setInode e _) hend himg (himg ▸ hcons) fun a ha hv heq => ?_, ?_, hl⟩
  · by_cases hae : a = e
    · subst hae
      rw [setInode_same] at hv
      cases hv
    · rw [setInode_other' hae] at ha heq
      refine hae (h1.once a e ha (by rw [hself]; exact h0) ?_)
      rw [hself]
      exact heq
  · show (s1.setInode e _).locks = s.locks
    rw [locks_setInode_same (by rfl), hs1, locks_setFile]

theorem iput_ok (hsb : sb.Ok) (h : s.Ok sb) : wp fine (iput sb e) (fun _ s' => s'.Ok sb ∧ s'.locks = s.locks) s := by
  refine wp_seq (iputFree_ok hsb h) ?_
  rintro - s' ⟨h', hl, he⟩
  refine wp_mono (iputDrop_ok h' fun hlock => ?_) fun _ s'' hs => ⟨hs.1, hs.2.trans hl⟩
  rw [hl, he] at hlock
  cases hlock

theorem iunlockput_ok (hsb : sb.Ok) (h : s.Ok sb) :
    wp fine (iunlockput sb e) (fun _ s' => s'.Ok sb ∧ s'.locks = update s.locks e false) s := by
  refine wp_seq (iunlock_ok h) ?_
  rintro - s' ⟨h', hl⟩
  exact wp_mono (iput_ok hsb h') fun _ s'' hs => ⟨hs.1, hs.2.trans hl⟩

/-- **ialloc takes a free inode.** -/
theorem ialloc_ok (hsb : sb.Ok) (h : s.Ok sb) {type : ℕ} (htype : type < 2 ^ 16) :
    wp fine (ialloc sb type) (fun _ s' => s'.Ok sb ∧ s'.locks = s.locks) s := by
  simp only [ialloc, wp_bind, wp_get]
  cases hfind : freeInode sb s.disk with
  | none => simp [fine]
  | some n =>
    have hi : n < sb.ninodes := List.mem_range.1 (List.mem_of_find?_eq_some hfind)
    have hc : 1 ≤ n ∧ (inodeOf sb s.disk n).type = 0 := by simpa using List.find?_some hfind
    have hin : (imageOf sb s.disk).inode n = inodeOf sb s.disk n := imageOf_inode hi
    set di : Dinode := ⟨type, 0, 0, 0, 0, fun _ => 0⟩ with hdi
    have hwf : di.Wf := ⟨htype, by norm_num, by norm_num, by norm_num, by norm_num, fun _ => by norm_num⟩
    have himg : imageOf sb (setInode sb s.disk n di) = (imageOf sb s.disk).setInode n di := imageOf_setInode hsb hi hwf
    have hfree : ¬ allocated sb (imageOf sb s.disk) n := fun ha => ha.2 (by rw [hin]; exact hc.2)
    have hcons : Consistent sb (imageOf sb (setInode sb s.disk n di)) := by
      rw [himg]
      refine consistent_apart h.disk apart_setInode (alloc_empty h.disk.alloc (fun _ => stored_free hfree) fun _ => rfl) fun _ => ?_
      rw [Full, DirOk, setInode_self]
      exact ⟨fun bn hbn => absurd hbn (by simp [hdi]), fun _ t hle => absurd hle (by simp [hdi])⟩
    simp only [wp_bind, wp_modify]
    refine iget_ok (ok_disk h himg hcons fun e h0 hv heq => ?_) hi
    have hcopy := h.copy e h0 hv
    rw [heq] at hcopy
    exact hcopy.2 (by rw [hcopy.1]; exact hc.2)

/-! ## Directories and unlink -/

theorem updateFields_ok (hsb : sb.Ok) (h : s.Ok sb) (he : s.locks e = true) {major minor nlink : ℕ} (h1 : major < 2 ^ 16)
    (h2 : minor < 2 ^ 16) (h3 : nlink < 2 ^ 16) :
    wp fine (updateFields sb e major minor nlink) (fun _ s' => s'.Ok sb ∧ s'.locks = s.locks) s := by
  refine call_ok h he fun hf => ?_
  simp only [wp_bind, wp_modify, iupdate]
  have hw := hf.ok.wf
  exact put_kept hsb hf ⟨hw.type, h1, h2, h3, hw.size, hw.addrs⟩ rfl rfl rfl

theorem dropLink_ok (hsb : sb.Ok) (h : s.Ok sb) (he : s.locks e = true) :
    wp fine (dropLink sb e) (fun _ s' => s'.Ok sb ∧ s'.locks = s.locks) s := by
  obtain ⟨h0, hv⟩ := h.lock e he
  have hw : (s.inode e).din.Wf := (sound_valid h h0 hv).ok.wf
  simp only [dropLink, wp_bind, wp_get]
  exact updateFields_ok hsb h he hw.major hw.minor (Nat.mod_lt _ (by norm_num))

theorem lookup_ok (h : s.Ok sb) (he : s.locks e = true) :
    wp fine (onInode e (lookupEntry sb dev name)) (fun r s' => s' = s ∧ (s.inode e).din.type = T_DIR ∧
      ∀ n o, r = some (n, o) → o % DESIZE = 0 ∧ n < sb.ninodes) s := by
  obtain ⟨h0, hv⟩ := h.lock e he
  have hf := sound_valid h h0 hv
  refine wp_onInode fine_panic (wp_mono (lookupEntry_spec hf.ok hf.full (by simp [notFreed]) (by simp [notFreed])) ?_)
  rintro r g ⟨rfl, ht, hr⟩
  refine ⟨setFile_file, ht, fun n o hno => ?_⟩
  obtain ⟨hmod, hle, rfl⟩ := hr n o hno
  have ho : DESIZE * (o / DESIZE) = o := Nat.mul_div_cancel' (Nat.dvd_of_mod_eq_zero hmod)
  have hdir := hf.dir ht (o / DESIZE) (by rw [ho, image_inode]; exact hle)
  rw [entryInum, ho] at hdir
  exact ⟨hmod, hdir⟩

theorem dirlookup_ok (h : s.Ok sb) (he : s.locks e = true) :
    wp fine (dirlookup sb dev e name) (fun r s' => s'.Ok sb ∧ s'.locks = s.locks ∧
      (r = none → s' = s ∧ (s.inode e).din.type = T_DIR) ∧ ∀ a o, r = some (a, o) → o % DESIZE = 0) s := by
  refine wp_seq (lookup_ok h he) ?_
  rintro r s' ⟨rfl, ht, hr⟩
  cases r with
  | none => exact ⟨h, rfl, fun _ => ⟨rfl, ht⟩, (by intros; contradiction)⟩
  | some p =>
    obtain ⟨hmod, hlt⟩ := hr p.1 p.2 rfl
    refine wp_seq (iget_ok h hlt) fun a s'' hs => ?_
    refine ⟨hs.1, hs.2, (by intros; contradiction), fun b o hbo => ?_⟩
    simp only [Option.some.injEq, Prod.mk.injEq] at hbo
    rw [← hbo.2]
    exact hmod

theorem addEntry_ok (hsb : sb.Ok) (h : s.Ok sb) (he : s.locks e = true) (ht : (s.inode e).din.type = T_DIR)
    (hi : inum < sb.ninodes) : wp fine (onInode e (addEntry sb dev name inum)) (fun _ s' => s'.Ok sb ∧ s'.locks = s.locks) s :=
  call_ok h he fun hf => addEntry_kept hsb hf ht hi

theorem clear_ok (hsb : sb.Ok) (h : s.Ok sb) (he : s.locks e = true) {o : ℕ} (ho : o % DESIZE = 0) :
    wp fine (onInode e (writeDirent sb dev "unlink: writei" o emptyDirent)) (fun _ s' => s'.Ok sb ∧ s'.locks = s.locks) s :=
  call_ok h he fun hf => clear_kept hsb hf ho

theorem dirlink_ok (hsb : sb.Ok) (h : s.Ok sb) (he : s.locks e = true) (hi : inum < sb.ninodes) :
    wp fine (dirlink sb dev e name inum) (fun _ s' => s'.Ok sb ∧ s'.locks = s.locks) s := by
  refine wp_seq (dirlookup_ok h he) ?_
  rintro r s' ⟨h', hl, hnone, -⟩
  cases r with
  | some p => exact wp_seq (iput_ok hsb h') fun _ s'' hs => ⟨hs.1, hs.2.trans hl⟩
  | none =>
    obtain ⟨rfl, ht⟩ := hnone rfl
    exact wp_seq (addEntry_ok hsb h he ht hi) fun _ s'' hs => hs

theorem isdirempty_ok (h : s.Ok sb) (he : s.locks e = true) (ht : (s.inode e).din.type = T_DIR) :
    wp fine (onInode e (isdirempty sb dev)) (fun _ s' => s' = s) s := by
  obtain ⟨h0, hv⟩ := h.lock e he
  have hf := sound_valid h h0 hv
  refine wp_onInode fine_panic (wp_mono (isdirempty_spec hf.ok hf.full (by simp [notFreed]) ?_) fun _ g hg => ?_)
  · rw [show (s.file e).ip.type = T_DIR from ht]
    decide
  · rw [hg, setFile_file]

/-- the end of unlink -/
theorem unlinkEnd_ok {a : Ino} (hsb : sb.Ok) (h : s.Ok sb) (hne : e ≠ a) (ha : s.locks a = true) :
    wp fine (iunlockput sb e) (fun _ s' => wp fine (dropLink sb a) (fun _ s' => wp fine (iunlockput sb a)
      (fun _ s' => s'.Ok sb) s') s') s := by
  refine wp_mono (iunlockput_ok hsb h) ?_
  rintro - s' ⟨h', hl'⟩
  refine wp_mono (dropLink_ok hsb h' (by rw [hl', update_of_ne hne.symm, ha])) ?_
  rintro - s'' ⟨h'', -⟩
  exact wp_mono (iunlockput_ok hsb h'') fun _ s3 hs => hs.1

theorem unlink_ok (hsb : sb.Ok) (h : s.Ok sb) : wp fine (unlink sb dev e name) (fun _ s' => s'.Ok sb) s := by
  refine wp_seq (ilock_ok h) ?_
  rintro - s1 ⟨h1, -, hl1⟩
  have he1 : s1.locks e = true := by rw [hl1, update_self]
  simp only [wp_ite]
  refine ⟨fun _ => wp_seq (iunlockput_ok hsb h1) fun _ s' hs => hs.1, fun _ => ?_⟩
  refine wp_seq (dirlookup_ok h1 he1) ?_
  rintro r s2 ⟨h2, hl2, -, hoff⟩
  cases r with
  | none => exact wp_seq (iunlockput_ok hsb h2) fun _ s' hs => hs.1
  | some p =>
    obtain ⟨a, o⟩ := p
    have ho := hoff a o rfl
    refine wp_seq (ilock_ok h2) ?_
    rintro - s3 ⟨h3, hfree, hl3⟩
    -- the second lock was free, so there are two inodes
    have hne : e ≠ a := by
      rintro rfl
      rw [hl2, he1] at hfree
      cases hfree
    have ha3 : s3.locks a = true := by rw [hl3, update_self]
    have he3 : s3.locks e = true := by rw [hl3, update_of_ne hne, hl2, he1]
    simp only [wp_bind, wp_get, wp_ite, wp_throw, wp_pure]
    refine ⟨fun _ => by simp [fine], fun _ => ⟨fun ht => ?_, fun ht => ⟨(by intros; contradiction), fun _ => ?_⟩⟩⟩
    · refine wp_mono (isdirempty_ok h3 ha3 ht) ?_
      rintro empty s4 rfl
      refine ⟨fun _ => ?_, fun _ => ?_⟩
      · refine wp_mono (iunlockput_ok hsb h3) ?_
        rintro - s5 ⟨h5, -⟩
        exact wp_mono (iunlockput_ok hsb h5) fun _ s6 hs => hs.1
      · refine wp_mono (clear_ok hsb h3 he3 ho) ?_
        rintro - s5 ⟨h5, hl5⟩
        refine ⟨fun _ => ?_, fun h => absurd ht h⟩
        refine wp_mono (dropLink_ok hsb h5 (by rw [hl5, he3])) ?_
        rintro - s6 ⟨h6, hl6⟩
        exact unlinkEnd_ok hsb h6 hne (by rw [hl6, hl5, ha3])
    · refine wp_mono (clear_ok hsb h3 he3 ho) ?_
      rintro - s5 ⟨h5, hl5⟩
      exact ⟨fun h => absurd h ht, fun _ => unlinkEnd_ok hsb h5 hne (by rw [hl5, ha3])⟩

/-! ## Runs -/

theorem holding_ok {Q : Unit → Icache → Prop} (h : s.locks e = true → Q () s) : wp fine (holding e) Q s := by
  simp only [holding, wp_bind, wp_get, wp_ite, wp_throw, wp_pure]
  refine ⟨fun _ => by simp [fine], fun hl => h ?_⟩
  simpa [Icache.locks] using hl

/-- **One call keeps the invariant.** -/
theorem fsCall_ok (dev : Devsw) (hsb : sb.Ok) (h : s.Ok sb) (op : FsOp) : wp fine (fsCall sb dev op) (fun _ s' => s'.Ok sb) s := by
  cases op with
  | root => exact wp_seq (iget_ok h hsb.root) fun _ s' hs => hs.1
  | idup e =>
    simp only [fsCall, wp_bind, wp_get, wp_ite, wp_throw]
    refine ⟨fun _ => by simp [fine], fun h0 => ?_⟩
    exact ok_setInode_same h rfl rfl (fun _ => Nat.pos_of_ne_zero h0) id fun hl => ⟨Nat.succ_pos _, (h.lock e hl).2⟩
  | ilock e => exact wp_mono (ilock_ok h) fun _ s' hs => hs.1
  | iunlock e => exact wp_mono (iunlock_ok h) fun _ s' hs => hs.1
  | iputFree e => exact wp_mono (iputFree_ok hsb h) fun _ s' hs => hs.1
  | iputDrop e =>
    simp only [fsCall, wp_bind, wp_get, wp_ite, wp_throw]
    refine ⟨fun _ => by simp [fine], fun hc => wp_mono (iputDrop_ok h fun hl h1 => ?_) fun _ s' hs => hs.1⟩
    exact hc (.inr ⟨hl, h1⟩)
  | ialloc type => exact wp_seq (ialloc_ok hsb h type.toNat_lt) fun _ s' hs => hs.1
  | readi e off n =>
    refine wp_seq (holding_ok fun he => ?_) fun _ s' hs => hs
    exact wp_seq (call_ok h he fun hf => readi_kept hf off.toNat n.toNat_lt) fun _ s' hs => hs.1
  | writei e src off =>
    refine wp_seq (holding_ok fun he => ?_) fun _ s' hs => hs
    simp only [wp_bind, wp_get, wp_ite, wp_throw]
    refine ⟨fun _ => by simp [fine], fun ht => ?_⟩
    exact wp_mono (call_ok h he fun hf => writei_kept hsb hf ht src off.toNat) fun _ _ hs => hs.1
  | itrunc e =>
    refine wp_seq (holding_ok fun he => ?_) fun _ s' hs => hs
    exact wp_mono (call_ok h he fun hf => wp_mono (itrunc_kept hsb hf) fun _ g hg => hg.1) fun _ _ hs => hs.1
  | updateFields e major minor nlink =>
    refine wp_seq (holding_ok fun he => ?_) fun _ s' hs => hs
    exact wp_mono (updateFields_ok hsb h he major.toNat_lt minor.toNat_lt nlink.toNat_lt) fun _ s' hs => hs.1
  | dirlookup dp name =>
    refine wp_seq (holding_ok fun he => ?_) fun _ s' hs => hs
    exact wp_seq (dirlookup_ok h he) fun _ s' hs => hs.1
  | addEntry dp name ip =>
    refine wp_seq (holding_ok fun he => ?_) fun _ s' hs => hs
    simp only [wp_bind, wp_get, wp_ite, wp_throw]
    refine ⟨fun _ => by simp [fine], fun hc => ?_⟩
    rw [not_or, not_not] at hc
    exact wp_mono (addEntry_ok hsb h he hc.1 (h.inum ip (Nat.pos_of_ne_zero hc.2))) fun _ s' hs => hs.1
  | clearEntry dp name =>
    refine wp_seq (holding_ok fun he => ?_) fun _ s' hs => hs
    refine wp_seq (lookup_ok h he) ?_
    rintro r s' ⟨rfl, -, hr⟩
    cases r with
    | none => simp [fine]
    | some p => exact wp_mono (clear_ok hsb h he (hr p.1 p.2 rfl).1) fun _ s'' hs => hs.1
  | dirlink dp name ip =>
    refine wp_seq (holding_ok fun he => ?_) fun _ s' hs => hs
    simp only [wp_bind, wp_get, wp_ite, wp_throw]
    refine ⟨fun _ => by simp [fine], fun hc => ?_⟩
    exact wp_mono (dirlink_ok hsb h he (h.inum ip (Nat.pos_of_ne_zero hc))) fun _ s' hs => hs.1
  | unlink dp name => exact wp_seq (unlink_ok hsb h) fun _ s' hs => hs

theorem fsStep_ok (dev : Devsw) (hsb : sb.Ok) (h : s.Ok sb) (op : FsOp) :
    match fsStep sb dev s op with
    | .ok s' => s'.Ok sb
    | .error msg => msg ≠ "freeing free block" := by
  have hcall := fsCall_ok dev hsb h op
  rw [wp] at hcall
  rw [fsStep]
  cases hop : fsCall sb dev op s with
  | ok p => rw [hop] at hcall; exact hcall
  | error stop =>
    rw [hop] at hcall
    cases stop with
    | wait => exact h
    | panic msg =>
      intro hmsg
      exact hcall (by rw [hmsg])

/-- **The invariant holds along every run.** -/
theorem fsRun_ok (dev : Devsw) (hsb : sb.Ok) (h : s.Ok sb) (ops : List FsOp) :
    match fsRun sb dev s ops with
    | .ok s' => s'.Ok sb
    | .error msg => msg ≠ "freeing free block" := by
  induction ops generalizing s with
  | nil => exact h
  | cons op ops ih =>
    have hstep := fsStep_ok dev hsb h op
    have hrun : fsRun sb dev s (op :: ops) = (fsStep sb dev s op).bind fun s' => fsRun sb dev s' ops := rfl
    rw [hrun]
    cases hop : fsStep sb dev s op with
    | ok s' => rw [hop] at hstep; exact ih hstep
    | error msg => rw [hop] at hstep; exact hstep

end Xv6.Fs
