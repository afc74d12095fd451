/-
Path resolution (fs.c) against its specification.

- `skipName path name`: skipelem on a string in memory and the caller's buffer. A name that fills the buffer has no NUL
  behind it.
- `components path`: the parts of a path between its slashes, without the empty ones, cut to DIRSIZ bytes.
- `resolve v n names`: the fold of dirlookup over the names, from inode n on.
- `Whole v`: the root is there, the entries of a directory name inodes that are there, and a directory has no half entry.

Results:
- `skipNames_eq`: **skipelem, called again and again, gives the components, whatever was in the buffer**;
- `walk_resolve`, `walk_parent`: the walk along a path is the fold;
- `namex_ends`: a lookup comes to its end, unless the inode cache is full;
- `path_resolution`: **namei returns the inode of the fold over all components, nameiparent that over all but the last one**.
-/
import Xv6.Sysfile.Undo

namespace Xv6.Fs

open Fallible Holders Function List

attribute [local semireducible] wp

/-! ## skipelem in memory -/

/-- the bytes before the NUL -/
def cstring (mem : List UInt8) : Path := mem.takeWhile (· ≠ 0)

/-- skipelem with its buffer: the path behind the element, and the buffer with the element in it. The path is what is in
memory from the pointer on; behind the end of the list is a NUL. -/
def skipName (path name : List UInt8) : Option (List UInt8 × List UInt8) :=
  let s := path.dropWhile (· = slash)
  if s.headD 0 = 0 then none
  else
    let path := s.dropWhile fun c => c ≠ slash ∧ c ≠ 0
    let len := s.length - path.length
    let name := if DIRSIZ ≤ len then s.take DIRSIZ ++ name.drop DIRSIZ else s.take len ++ 0 :: name.drop (len + 1)
    some (path.dropWhile (· = slash), name)

variable {path rest name mem buf : List UInt8} {p : UInt8 → Bool}

theorem takeWhile_length_drop (l : List UInt8) (p : UInt8 → Bool) :
    l.take (l.length - (l.dropWhile p).length) = l.takeWhile p := by
  have hsplit : l.takeWhile p ++ l.dropWhile p = l := takeWhile_append_dropWhile
  have hlen : l.length - (l.dropWhile p).length = (l.takeWhile p).length := by
    have hcount := congrArg List.length hsplit
    rw [length_append] at hcount
    omega
  rw [hlen]
  exact (prefix_iff_eq_take.1 ( takeWhile_prefix p)).symm

theorem skipName_shorter (h : skipName path name = some (rest, buf)) : rest.length < path.length := by
  rw [skipName] at h
  split_ifs at h with hend
  simp only [Option.some.injEq, Prod.mk.injEq] at h
  obtain ⟨rfl, -⟩ := h
  have hle : (path.dropWhile (· = slash)).length ≤ path.length := length_dropWhile_le ..
  cases hd : path.dropWhile (· = slash) with
  | nil =>
    rw [hd] at hend
    exact absurd rfl hend
  | cons c cs =>
    have hne : path.dropWhile (· = slash) ≠ [] := by
      rw [hd]
      exact cons_ne_nil _ _
    have hc : c ≠ slash := by
      have hhead := head_dropWhile_not (· = slash) hne
      simpa [hd] using hhead
    rw [hd] at hend
    have hc0 : c ≠ 0 := hend
    rw [hd, length_cons] at hle
    rw [dropWhile_cons_of_pos (by simpa using ⟨hc, hc0⟩)]
    have h1 : (cs.dropWhile fun c => c ≠ slash ∧ c ≠ 0).length ≤ cs.length := length_dropWhile_le ..
    have h2 : ((cs.dropWhile fun c => c ≠ slash ∧ c ≠ 0).dropWhile (· = slash)).length ≤
        (cs.dropWhile fun c => c ≠ slash ∧ c ≠ 0).length := length_dropWhile_le ..
    omega

/-- the names in the buffer after each call -/
def skipNames (path name : List UInt8) : List Name :=
  match _h : skipName path name with
  | none => []
  | some (rest, name) => Name.cut name :: skipNames rest name
termination_by path.length
decreasing_by exact skipName_shorter ‹_›

/-! ## The components -/

def components (path : Path) : List Name := ((path.splitOnP (· == slash)).filter (· ≠ [])).map (List.take DIRSIZ)

theorem components_append {path' : Path} : components (path ++ slash :: path') = components path ++ components path' := by
  unfold components
  rw [splitOnP_append_cons path path' (by rfl), filter_append, map_append]

theorem components_slash : components (slash :: path) = components path := by
  have happend : components ([] ++ slash :: path) = components [] ++ components path := components_append
  exact happend

/-- a path without slashes -/
theorem components_single (h : ∀ c ∈ path, c ≠ slash) (hne : path ≠ []) : components path = [path.take DIRSIZ] := by
  unfold components
  rw [splitOnP_eq_singleton fun c hc => by simpa using h c hc]
  simp [hne]

theorem components_dropWhile (path : Path) : components (path.dropWhile (· = slash)) = components path := by
  induction path with
  | nil => rfl
  | cons c path ih =>
    by_cases hc : c = slash
    · subst hc
      rw [dropWhile_cons_of_pos (by simp), components_slash, ih]
    · rw [dropWhile_cons_of_neg (by simpa using hc)]

/-- one element and the rest -/
theorem components_skipelem (path : Path) : components path = match skipelem path with
    | some (name, rest) => name :: components rest
    | none => [] := by
  rw [← components_dropWhile path, skipelem]
  by_cases hs : path.dropWhile (· = slash) = []
  · rw [if_pos hs, hs]
    rfl
  · simp only [if_neg hs]
    obtain ⟨s, hsdef⟩ : ∃ s, s = path.dropWhile (· = slash) := ⟨_, rfl⟩
    rw [← hsdef] at hs ⊢
    have hsplit : s.takeWhile (· ≠ slash) ++ s.dropWhile (· ≠ slash) = s := takeWhile_append_dropWhile
    have hfree : ∀ c ∈ s.takeWhile (· ≠ slash), c ≠ slash := fun c hc => by simpa using mem_takeWhile_imp hc
    have hne : s.takeWhile (· ≠ slash) ≠ [] := by
      intro hnil
      have hhead := head_dropWhile_not (· = slash) (hsdef ▸ hs)
      cases hs' : s with
      | nil => exact hs hs'
      | cons c cs =>
        rw [hs'] at hnil hsdef
        have hc : c ≠ slash := by simpa [← hsdef] using hhead
        rw [takeWhile_cons_of_pos (by simpa using hc)] at hnil
        cases hnil
    rw [components_dropWhile]
    cases hrest : s.dropWhile (· ≠ slash) with
    | nil =>
      rw [hrest, append_nil] at hsplit
      conv_lhs => rw [← hsplit]
      rw [components_single hfree hne]
      rfl
    | cons c cs =>
      have hc : c = slash := by
        have hhead := head?_dropWhile_not (fun c => decide (c ≠ slash)) s
        rw [hrest] at hhead
        simpa using hhead
      subst hc
      rw [hrest] at hsplit
      conv_lhs => rw [← hsplit]
      rw [components_append, components_single hfree hne, components_slash]
      rfl

/-- **the elements that namex goes through are the components** -/
theorem elems_components (path : Path) : elems path = components path := by
  obtain ⟨n, hn⟩ : ∃ n, path.length = n := ⟨_, rfl⟩
  induction n using Nat.strong_induction_on generalizing path with
  | _ n ih =>
    rw [elems_eq, components_skipelem]
    cases hskip : skipelem path with
    | none => rfl
    | some q =>
      have hlt : q.2.length < path.length := skipelem_shorter hskip
      have hrest := ih q.2.length (hn ▸ hlt) q.2 rfl
      simp only [hrest]

/-! ## The buffer -/

/-- skipping characters of the string is skipping them in memory, up to the NUL -/
theorem cstring_drop (p : UInt8 → Bool) (mem : List UInt8) :
    cstring (mem.dropWhile fun c => p c && c ≠ 0) = (cstring mem).dropWhile p := by
  unfold cstring
  induction mem with
  | nil => rfl
  | cons c mem ih =>
    by_cases h0 : c = 0
    · simp [h0]
    · cases hp : p c
      · simp [hp, h0]
      · simpa [hp, h0] using ih

theorem cstring_dropWhile (mem : List UInt8) :
    cstring (mem.dropWhile (· = slash)) = (cstring mem).dropWhile (· = slash) := by
  rw [← cstring_drop]
  congr 2
  funext c
  by_cases hc : c = slash
  · rw [hc]; rfl
  · simp [hc]

theorem cstring_takeName (mem : List UInt8) :
    (mem.takeWhile fun c => c ≠ slash ∧ c ≠ 0) = (cstring mem).takeWhile (· ≠ slash) := by
  rw [cstring, takeWhile_takeWhile]
  simp only [Bool.decide_and, Bool.decide_eq_true]

theorem cstring_dropName (mem : List UInt8) :
    cstring (mem.dropWhile fun c => c ≠ slash ∧ c ≠ 0) = (cstring mem).dropWhile (· ≠ slash) := by
  rw [← cstring_drop]
  simp only [Bool.decide_and]

/-- the name that the caller reads out of the buffer -/
theorem cut_buffer {s : List UInt8} {len : ℕ} (hlen : s.take len = path) (hle : len ≤ s.length) (h0 : ∀ c ∈ path, c ≠ 0) :
    Name.cut (if DIRSIZ ≤ len then s.take DIRSIZ ++ buf.drop DIRSIZ else s.take len ++ 0 :: buf.drop (len + 1)) =
      path.take DIRSIZ := by
  have hpath : path.length = len := by
    rw [← hlen, length_take]
    omega
  unfold Name.cut
  split_ifs with hlong
  · have hfirst : (s.take DIRSIZ).length = DIRSIZ := by
      rw [length_take]
      omega
    have hsame : s.take DIRSIZ = path.take DIRSIZ := by rw [← hlen, take_take, min_eq_left hlong]
    rw [take_left' hfirst, hsame]
    refine takeWhile_eq_self_iff.2 fun c hc => ?_
    simpa using h0 c (mem_of_mem_take hc)
  · rw [hlen, take_append, take_of_length_le (by omega), hpath]
    obtain ⟨k, hk⟩ : ∃ k, DIRSIZ - len = k + 1 := ⟨DIRSIZ - len - 1, by omega⟩
    rw [hk, take_succ_cons, takeWhile_append_of_pos fun c hc => by simpa using h0 c hc,
      takeWhile_cons_of_neg (by simp), append_nil]

/-- skipelem in memory is skipelem on the string -/
theorem skipName_eq (mem buf : List UInt8) :
    (skipName mem buf).map (fun q => (Name.cut q.2, cstring q.1)) = skipelem (cstring mem) := by
  rw [skipelem, skipName, ← cstring_dropWhile]
  obtain ⟨s, hs⟩ : ∃ s, s = mem.dropWhile (· = slash) := ⟨_, rfl⟩
  simp only [← hs]
  have hend : s.headD 0 = 0 ↔ cstring s = [] := by
    cases s with
    | nil => exact iff_of_true rfl rfl
    | cons c s =>
      rw [headD_cons, cstring]
      by_cases h0 : c = 0
      · exact iff_of_true h0 (takeWhile_cons_of_neg (by simpa using h0))
      · refine iff_of_false h0 ?_
        rw [takeWhile_cons_of_pos (by simpa using h0)]
        exact cons_ne_nil _ _
  by_cases hnil : cstring s = []
  · rw [if_pos (hend.2 hnil), if_pos hnil]
    rfl
  · rw [if_neg fun h0 => hnil (hend.1 h0), if_neg hnil, Option.map_some, cstring_dropWhile, cstring_dropName]
    have htake := (takeWhile_length_drop s fun c => c ≠ slash ∧ c ≠ 0).trans (cstring_takeName s)
    rw [cut_buffer htake (Nat.sub_le _ _)]
    intro c hc
    exact by simpa using mem_takeWhile_imp (( takeWhile_prefix _).subset hc)

/-- **skipelem, called again and again, gives the components of the path.** -/
theorem skipNames_eq (mem buf : List UInt8) : skipNames mem buf = components (cstring mem) := by
  obtain ⟨n, hn⟩ : ∃ n, mem.length = n := ⟨_, rfl⟩
  induction n using Nat.strong_induction_on generalizing mem buf with
  | _ n ih =>
    have heq := skipName_eq mem buf
    rw [components_skipelem, ← heq, skipNames]
    cases hskip : skipName mem buf with
    | none => rfl
    | some q =>
      have hlt : q.1.length < mem.length := skipName_shorter hskip
      have hrest := ih q.1.length (hn ▸ hlt) q.1 q.2 rfl
      simp only [Option.map_some, hrest]

/-! ## The fold -/

section Fold

variable {sb : Super} {v : Image} {n d : ℕ} {name last : Name} {names : List Name}

/-- from a directory to the inode that it names -/
def enter (sb : Super) (v : Image) (n : ℕ) (name : Name) : Option ℕ :=
  if (v.inode n).type = T_DIR then (lookup sb v n name).map Prod.fst else none

def resolve (sb : Super) (v : Image) (n : ℕ) (names : List Name) : Option ℕ := names.foldlM (enter sb v) n

/-- the directory of the last name, and that name -/
def resolveParent (sb : Super) (v : Image) (n : ℕ) (names : List Name) : Option (ℕ × Name) :=
  names.getLast?.bind fun last =>
    (resolve sb v n names.dropLast).bind fun d => if (v.inode d).type = T_DIR then some (d, last) else none

/-- the fold comes to an inode that is no directory, or to a directory without the name, and there are names left -/
def Stuck (sb : Super) (v : Image) (n : ℕ) (names : List Name) : Prop :=
  ∃ before name after d, names = before ++ name :: after ∧ resolve sb v n before = some d ∧
    ((v.inode d).type ≠ T_DIR ∨ lookup sb v d name = none)

theorem resolve_cons : resolve sb v n (name :: names) = (enter sb v n name).bind fun d => resolve sb v d names := rfl

theorem resolve_append (more : List Name) :
    resolve sb v n (names ++ more) = (resolve sb v n names).bind fun d => resolve sb v d more := foldlM_append

theorem enter_none : enter sb v n name = none ↔ (v.inode n).type ≠ T_DIR ∨ lookup sb v n name = none := by
  unfold enter
  split_ifs with ht
  · rw [Option.map_eq_none_iff]
    exact ⟨.inr, fun h => h.resolve_left fun hne => hne ht⟩
  · exact ⟨fun _ => .inl ht, fun _ => rfl⟩

/-- when the fold fails -/
theorem resolve_none : resolve sb v n names = none ↔ Stuck sb v n names := by
  constructor
  · intro h
    induction names generalizing n with
    | nil => cases h
    | cons name names ih =>
      rw [resolve_cons] at h
      cases henter : enter sb v n name with
      | none => exact ⟨[], name, names, n, rfl, rfl, enter_none.1 henter⟩
      | some d =>
        rw [henter] at h
        obtain ⟨before, name', after, d', hnames, hd', hbad⟩ := ih h
        refine ⟨name :: before, name', after, d', by rw [hnames]; rfl, ?_, hbad⟩
        rw [resolve_cons, henter]
        exact hd'
  · intro h
    obtain ⟨before, name, after, d, rfl, hd, hbad⟩ := h
    rw [resolve_append, hd, Option.bind_some, resolve_cons, enter_none.2 hbad]
    rfl

/-- when there is no parent -/
theorem resolveParent_none : resolveParent sb v n names = none ↔
    names = [] ∨ Stuck sb v n names.dropLast ∨ ∃ d, resolve sb v n names.dropLast = some d ∧ (v.inode d).type ≠ T_DIR := by
  unfold resolveParent
  cases hlast : names.getLast? with
  | none => exact iff_of_true rfl (.inl (getLast?_eq_none_iff.1 hlast))
  | some last =>
    have hne : names ≠ [] := by
      intro hnil
      rw [hnil] at hlast
      cases hlast
    rw [Option.bind_some, ← resolve_none]
    cases hd : resolve sb v n names.dropLast with
    | none => exact iff_of_true rfl (.inr (.inl rfl))
    | some d =>
      rw [Option.bind_some]
      by_cases ht : (v.inode d).type = T_DIR
      · rw [if_pos ht]
        refine iff_of_false (by simp) ?_
        intro h
        rcases h with h | h | ⟨d', hd', hne'⟩
        · exact hne h
        · cases h
        · cases hd'
          exact hne' ht
      · rw [if_neg ht]
        exact iff_of_true rfl (.inr (.inr ⟨d, rfl, ht⟩))

/-- the walk to the last name -/
theorem walk_resolve : walk sb v false n names = (resolve sb v n names).map fun d => (d, []) := by
  induction names generalizing n with
  | nil => rfl
  | cons name names ih =>
    rw [walk, resolve_cons, enter]
    by_cases ht : (v.inode n).type = T_DIR
    · rw [if_neg (not_not.2 ht), if_neg (by simp), if_pos ht]
      cases lookup sb v n name with
      | none => rfl
      | some p => exact ih
    · rw [if_pos ht, if_neg ht]
      rfl

/-- the walk that stops one level early -/
theorem walk_parent : walk sb v true n names = resolveParent sb v n names := by
  induction names generalizing n with
  | nil => rfl
  | cons name names ih =>
    rw [walk]
    by_cases ht : (v.inode n).type = T_DIR
    · rw [if_neg (not_not.2 ht)]
      cases names with
      | nil =>
        rw [if_pos ⟨rfl, rfl⟩, resolveParent]
        simp [resolve, ht]
      | cons name' names =>
        rw [if_neg (by simp), resolveParent, getLast?_cons_cons, dropLast_cons_cons, resolve_cons, enter,
          if_pos ht]
        cases lookup sb v n name with
        | none =>
          rw [Option.map_none, Option.bind_none, Option.bind_none]
          cases (name' :: names).getLast? <;> rfl
        | some p => exact ih
    · rw [if_pos ht, resolveParent]
      symm
      cases names with
      | nil => simp [resolve, ht]
      | cons name' names =>
        rw [dropLast_cons_cons, resolve_cons, enter, if_neg ht]
        cases (name :: name' :: names).getLast? <;> rfl

end Fold

/-! ## A lookup comes to its end -/

section Ends

variable {sb : Super} {dev : Devsw} {s s' : Icache} {v : Image} {R : Ino → ℕ} {e ip dp c : Ino} {f : File} {n t k off : ℕ}
  {name : Name} {names : List Name} {parent : Bool} {path : Path} {msg : String} {D : String → Prop} {E : Stop → Prop}

structure Whole (sb : Super) (v : Image) : Prop where
  root : allocated sb v ROOTINO
  slots : ∀ d t n nm, isDir sb v d → slot sb v d t = some (n, nm) → allocated sb v n
  sizes : ∀ d, isDir sb v d → (v.inode d).size % DESIZE = 0

/-- iget finds no entry: all are in use, but perhaps for the one that the lookup itself uses -/
def noInodes (R : Ino → ℕ) (stop : Stop) : Prop :=
  stop = .panic "iget: no inodes" ∧ (Finset.univ.filter fun e => R e = 0).card ≤ 1

theorem noInodes_of_full {x : Option Ino} (h : ∀ e, (R + one x) e ≠ 0) : noInodes R (.panic "iget: no inodes") := by
  refine ⟨rfl, Finset.card_le_one.2 fun a ha b hb => ?_⟩
  have hin : ∀ a, R a = 0 → x = some a := by
    intro a ha
    by_contra hne
    exact h a (by simp [one, ha, hne])
  have hab := (hin a (Finset.mem_filter.1 ha).2).symm.trans (hin b (Finset.mem_filter.1 hb).2)
  exact Option.some.inj hab

theorem iget_ends (hfull : (∀ e, s.refs e ≠ 0) → E (.panic "iget: no inodes")) : wp E (iget n) (fun _ _ => True) s :=
  wp_iget (fun _ _ _ => trivial) (fun _ _ _ => trivial) hfull

theorem ilock_ends (h : At sb R v s) (he : 0 < R e) (hl : s.locks e = false) (hal : allocated sb v (s.inode e).inum) :
    wp E (ilock sb e) (fun _ _ => True) s := by
  have hpos : 0 < (s.inode e).ref := by
    rw [← h.refs] at he
    exact he
  simp only [ilock, wp_bind, wp_get, wp_ite, wp_throw, wp_modifyInode]
  refine ⟨fun hno => absurd hno (by omega), fun _ => ⟨fun hlock => ?_, fun _ => ⟨fun _ => trivial, fun _ =>
    ⟨fun h0 => ?_, fun _ => trivial⟩⟩⟩⟩
  · exact absurd (hl.symm.trans hlock) (by simp)
  · have htype := hal.2
    rw [← h.image, imageOf_inode hal.1] at htype
    exact absurd h0 htype

theorem iunlock_ends (h : At sb R v s) (hl : s.locks e = true) : wp E (iunlock e) (fun _ _ => True) s := by
  have hpos := (h.ok.lock e hl).1
  simp only [iunlock, wp_bind, wp_get, wp_ite, wp_throw, wp_modifyInode, implies_true, and_true]
  intro hno
  rcases hno with hno | hno
  · exact absurd hl hno
  · omega

theorem iput_ends (h : At sb (R + one (some e)) v s) (hsafe : R e = 0 → Linked sb v (s.inode e).inum)
    (hl : s.locks e = false) : wp E (iput sb e) (fun _ _ => True) s := by
  simp only [iput, iputFree, iputDrop, wp_bind, wp_get, wp_ite, wp_throw, wp_pure, wp_modifyInode, implies_true, and_true]
  -- the last reference to an inode without a link is none of a lookup
  exact ⟨fun hlock => absurd (hl.symm.trans hlock) (by simp), fun _ hc => absurd hc (h.kept hsafe)⟩

theorem iunlockput_ends (h : At sb (R + one (some e)) v s) (hsafe : R e = 0 → Linked sb v (s.inode e).inum)
    (hl : s.locks e = true) : wp E (iunlockput sb e) (fun _ _ => True) s := by
  refine wp_seq (wp_and (iunlock_ends h hl) (iunlock_at h)) ?_
  rintro - s1 ⟨-, h1, hl1, hs1⟩
  exact iput_ends h1 (by rw [(hs1 e).1]; exact hsafe) (by rw [hl1, update_self])

/-- an entry below the size can be read -/
theorem readDirent_ends (hf : FileOk sb f) (hfull : Full sb (f.image sb) f.inum) (ht : f.ip.type ≠ T_DEV)
    (hle : off + DESIZE ≤ f.ip.size) : wp D (readDirent sb dev msg off) (fun _ g => g = f) f := by
  have hD := DESIZE_eq
  have hsize := hf.wf.size
  have hsum : uint32 (off + DESIZE) = off + DESIZE := uint32_eq (by omega)
  refine wp_seq (readi_spec hf hfull dev off DESIZE (by norm_num)) ?_
  rintro r g ⟨rfl, hr⟩
  have hres := hr ht
  rw [readResult, image_inode, hsum, if_neg (by omega), if_neg (by omega)] at hres
  subst hres
  simp only [wp_ite, wp_pure, wp_throw, fileBytes_length, implies_true, not_true_eq_false, false_implies, and_self]

theorem findEntry_ends (hf : FileOk sb f) (hfull : Full sb (f.image sb) f.inum) (ht : f.ip.type ≠ T_DEV)
    (hsize : f.ip.size % DESIZE = 0) : wp D (findEntry sb dev name k (DESIZE * t)) (fun _ _ => True) f := by
  have hD := DESIZE_eq
  induction k generalizing t with
  | zero => trivial
  | succ k ih =>
    simp only [findEntry, wp_bind, wp_get, wp_ite, wp_pure, implies_true, true_and]
    intro hend
    refine wp_mono (readDirent_ends hf hfull ht ?_) ?_
    · rw [hD] at hsize hend ⊢
      omega
    · rintro de g rfl _
      exact ih (t := t + 1)

theorem lookupEntry_ends (h : At sb R v s) (hl : s.locks dp = true) (ht : (v.inode (s.inode dp).inum).type = T_DIR)
    (hsize : (v.inode (s.inode dp).inum).size % DESIZE = 0) : wp E (onInode dp (lookupEntry sb dev name)) (fun _ _ => True) s := by
  have hsound := (h.sound hl).1
  rw [← (h.din hl).1] at ht hsize
  have htype : (s.file dp).ip.type = T_DIR := ht
  have hrun : wp (fun _ => False) (lookupEntry sb dev name) (fun _ _ => True) (s.file dp) := by
    simp only [lookupEntry, wp_bind, wp_get, wp_ite, wp_throw]
    refine ⟨fun hne => absurd htype hne, fun _ => ?_⟩
    exact findEntry_ends (t := 0) hsound.ok hsound.full (by rw [htype]; decide) hsize
  obtain ⟨a, g, hok, -⟩ := wp_total hrun
  simp only [onInode, wp_bind, wp_get, hok, wp_set, wp_pure]

theorem dirlookup_ends (h : At sb (R + one (some ip)) v s) (hl : s.locks ip = true)
    (ht : (v.inode (s.inode ip).inum).type = T_DIR) (hw : Whole sb v) :
    wp (noInodes R) (dirlookup sb dev ip name) (fun _ _ => True) s := by
  refine wp_seq (wp_and (lookupEntry_ends h hl ht (hw.sizes _ ⟨(h.din hl).2, ht⟩)) (lookupEntry_at h hl)) ?_
  rintro r s1 ⟨-, rfl, -, hr⟩
  cases r with
  | none => trivial
  | some p =>
    refine wp_seq (iget_ends fun hfull => ?_) fun _ _ _ => trivial
    rw [h.refs] at hfull
    exact noInodes_of_full hfull

theorem namexLoop_ends (hw : Whole sb v) (hr : Rooted sb R v s) (h : At sb (R + one (some ip)) v s)
    (hfree : ∀ e, s.locks e = false) (hsafe : R ip = 0 → Linked sb v (s.inode ip).inum)
    (hal : allocated sb v (s.inode ip).inum) :
    wp (noInodes R) (namexLoop sb dev parent ip names) (fun _ _ => True) s := by
  induction names generalizing ip s with
  | nil =>
    simp only [namexLoop, wp_ite, wp_bind, wp_pure, implies_true, and_true]
    exact fun _ => wp_mono (iput_ends h hsafe (hfree ip)) fun _ _ _ => trivial
  | cons name names ih =>
    refine wp_seq (wp_and (ilock_ends h (by simp) (hfree ip) hal) (ilock_at h)) ?_
    rintro - s1 ⟨-, h1, -, hl1, hs1⟩
    have hlock : s1.locks ip = true := by rw [hl1, update_self]
    have hip := (hs1 ip).1
    have htype := (h1.din hlock).1
    rw [← hip] at hsafe
    simp only [wp_bind, wp_get, wp_ite, wp_pure, htype]
    refine ⟨fun _ => wp_mono (iunlockput_ends h1 hsafe hlock) fun _ _ _ => trivial, fun hd => ⟨fun _ => ?_, fun _ => ?_⟩⟩
    · exact wp_mono (iunlock_ends h1 hlock) fun _ _ _ => trivial
    · have hdir : (v.inode (s1.inode ip).inum).type = T_DIR := not_not.1 hd
      refine wp_mono (wp_and (dirlookup_ends h1 hlock hdir hw)
        (dirlookup_at h1 hlock (rooted_more (rooted_same hr hs1.same)))) ?_
      rintro r s2 ⟨-, h2, hl2, hs2, hlink, -, hres⟩
      have hlock2 : s2.locks ip = true := by rw [hl2, hlock]
      have hsafe2 : R ip = 0 → Linked sb v (s2.inode ip).inum := by
        rw [(hs2 ip (by simp)).1]
        exact hsafe
      cases r with
      | none => exact wp_seq (iunlockput_ends h2 hsafe2 hlock2) fun _ _ _ => trivial
      | some p =>
        obtain ⟨next, off⟩ := p
        rw [Option.map_some, add_right_comm] at h2
        have hsafe3 : (R + one (some next)) ip = 0 → Linked sb v (s2.inode ip).inum :=
          fun hz => hsafe2 (Nat.eq_zero_of_add_eq_zero_right hz)
        refine wp_seq (wp_and (iunlockput_ends h2 hsafe3 hlock2) (iunlockput_at h2 hsafe3)) ?_
        rintro - s3 ⟨-, h3, hl3, hs3⟩
        have hs03 : Same R s s3 := same_trans (same_trans hs1.same (same_less hs2)) hs3.same
        refine ih (rooted_same hr hs03) h3 (fun e => ?_) (fun hz => ?_) ?_
        · rw [hl3, hl2, hl1, update_idem]
          by_cases he : e = ip
          · rw [he, update_self]
          · rw [update_of_ne he, hfree e]
        · rw [(hs3 next).1]
          by_cases hne : next = ip
          · rw [hne] at hz ⊢
            exact hsafe2 hz
          · refine hlink _ rfl ?_
            simp [one_some, Ne.symm hne, hz]
        · -- the directory names an inode that is there
          obtain ⟨q, hq, hqe⟩ := Option.map_eq_some_iff.1 hres.symm
          simp only [Prod.mk.injEq] at hqe
          rw [(hs3 next).1, ← hqe.1]
          exact hw.slots _ q.2 q.1 _ ⟨(h1.din hlock).2, hdir⟩ (lookup_some hq)

/-- **A lookup comes to its end, unless the inode cache is full.** -/
theorem namex_ends (hsb : sb.Ok) (hw : Whole sb v) (hr : Rooted sb R v s) (h : At sb R v s) (hfree : ∀ e, s.locks e = false)
    (hc : 0 < R c) (hal : allocated sb v (s.inode c).inum) :
    wp (noInodes R) (namex sb dev c path parent) (fun _ _ => True) s := by
  refine wp_bind.2 ?_
  simp only [namexStart, wp_ite, wp_bind, wp_pure]
  refine ⟨fun _ => ?_, fun _ => ?_⟩
  · have hget : wp (noInodes R) (iget ROOTINO) (fun _ _ => True) s := by
      refine iget_ends fun hfull => noInodes_of_full (x := none) ?_
      rw [h.refs] at hfull
      simpa using hfull
    refine wp_mono (wp_and hget (iget_at h hsb.root hr.root)) ?_
    rintro ip s1 ⟨-, h1, hl1, hnum, hs1, hlink⟩
    refine namexLoop_ends hw (rooted_same hr hs1) h1 (fun e => by rw [hl1, hfree]) (by rw [hnum]; exact hlink) ?_
    rw [hnum]
    exact hw.root
  · refine wp_mono (wp_and (E := noInodes R) (Q := fun _ _ => True) trivial (idup_at h hc)) ?_
    rintro - s1 ⟨-, h1, hl1, hs1⟩
    refine namexLoop_ends hw (rooted_same hr hs1.same) h1 (fun e => by rw [hl1, hfree]) (fun hz => absurd hc (by omega)) ?_
    rw [(hs1 c).1]
    exact hal

end Ends

/-! ## The specification -/

/-- the two lookups of a path, against the fold -/
structure Resolves (sb : Super) (dev : Devsw) (s : Icache) (c : Ino) (path : Path) : Prop where
  /-- namei -/
  all : wp (noInodes s.refs) (namei sb dev c path) (fun r s' => imageOf sb s'.disk = imageOf sb s.disk ∧
    s'.refs = s.refs + one r ∧
    (r.map fun e => (s'.inode e).inum) =
      resolve sb (imageOf sb s.disk) (startAt (s.inode c).inum path) (components path) ∧
    (r = none ↔ Stuck sb (imageOf sb s.disk) (startAt (s.inode c).inum path) (components path))) s
  /-- nameiparent -/
  parent : wp (noInodes s.refs) (nameiparent sb dev c path) (fun r s' => imageOf sb s'.disk = imageOf sb s.disk ∧
    s'.refs = s.refs + one (r.map Prod.fst) ∧
    (r.map fun p => ((s'.inode p.1).inum, p.2)) =
      resolveParent sb (imageOf sb s.disk) (startAt (s.inode c).inum path) (components path) ∧
    (r = none ↔ components path = [] ∨
      Stuck sb (imageOf sb s.disk) (startAt (s.inode c).inum path) (components path).dropLast ∨
      ∃ d, resolve sb (imageOf sb s.disk) (startAt (s.inode c).inum path) (components path).dropLast = some d ∧
        ((imageOf sb s.disk).inode d).type ≠ T_DIR)) s

/-- **Path resolution is the fold of dirlookup over the components of the path.** -/
theorem path_resolution (sb : Super) (dev : Devsw) (s : Icache) (c : Ino) (mem buf : List UInt8) (hsb : sb.Ok) (hs : s.Ok sb)
    (hfree : ∀ e, s.locks e = false) (hr : Rooted sb s.refs (imageOf sb s.disk) s) (hw : Whole sb (imageOf sb s.disk))
    (hc : 0 < s.refs c) (hal : allocated sb (imageOf sb s.disk) (s.inode c).inum) :
    skipNames mem buf = components (cstring mem) ∧ Resolves sb dev s c (cstring mem) := by
  have h := at_start hs
  refine ⟨skipNames_eq mem buf, ?_, ?_⟩
  · have hend : wp (noInodes s.refs) (namei sb dev c (cstring mem)) (fun _ _ => True) s :=
      wp_seq (namex_ends hsb hw hr h hfree hc hal) fun _ _ _ => trivial
    refine wp_mono (wp_and hend (namei_at hsb hr h hc)) ?_
    rintro r s' ⟨-, h', -, -, -, hres⟩
    rw [elems_components, walk_resolve] at hres
    have hfst := congrArg (Option.map Prod.fst) hres
    simp only [Option.map_map, Function.comp_def, Option.map_id'] at hfst
    refine ⟨h'.image, h'.refs, hfst, ?_⟩
    rw [← resolve_none, ← hfst, Option.map_eq_none_iff]
  · have hend : wp (noInodes s.refs) (nameiparent sb dev c (cstring mem)) (fun _ _ => True) s :=
      namex_ends hsb hw hr h hfree hc hal
    refine wp_mono (wp_and hend (namex_at hsb hr h hc)) ?_
    rintro r s' ⟨-, h', -, -, -, hres⟩
    rw [elems_components, walk_parent] at hres
    refine ⟨h'.image, h'.refs, hres, ?_⟩
    rw [← resolveParent_none, ← hres, Option.map_eq_none_iff]

theorem rootDisk_whole : Whole smallSuper (imageOf smallSuper Sysfile.rootDisk) := by
  have hroot : allocated smallSuper (imageOf smallSuper Sysfile.rootDisk) ROOTINO :=
    raw_allocated.1 (Sysfile.rootDisk_allocated.2 rfl)
  refine ⟨hroot, fun d t n nm hd hslot => ?_, fun d hd => ?_⟩
  · rw [Sysfile.rootDisk_slot hd.1 hslot]
    exact hroot
  · obtain rfl := Sysfile.rootDisk_allocated.1 (raw_allocated.2 hd.1)
    rw [Sysfile.rootDisk_size]
    rfl

/-- nothing is locked -/
theorem boot_locks (d : Disk) (n : ℕ) (e : Ino) : (Sysfile.Sys.boot d n).fs.locks e = false := by
  by_cases he : e = 0
  · rw [he]
    rfl
  · exact congrArg Inode.locked (setInode_other' he)

/-- The path "//./..", with two bytes behind its NUL, in a directory tree that is only a root. -/
theorem path_resolution_root : skipNames [47, 47, 46, 47, 46, 46, 0, 7, 7] [] = [dot, dotdot] ∧
    Resolves smallSuper noDevices (Sysfile.Sys.boot Sysfile.rootDisk 4).fs 0 [47, 47, 46, 47, 46, 46] := by
  obtain ⟨hnames, hres⟩ := path_resolution smallSuper noDevices (Sysfile.Sys.boot Sysfile.rootDisk 4).fs 0
    [47, 47, 46, 47, 46, 46, 0, 7, 7] [] smallSuper_ok Sysfile.rootDisk_wf.fs (boot_locks _ _) Sysfile.rootDisk_wf.rooted
    rootDisk_whole (by decide) rootDisk_whole.root
  exact ⟨hnames.trans (by decide), hres⟩

end Xv6.Fs
