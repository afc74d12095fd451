/-
grep's loop over its input (grep.c): lines in a buffer that is filled by reads of any size.

- `strchr`, `scan`: the inner loop, from p to the last newline of the buffer.
- `grep pattern chunks`: the outer loop; a chunk is what one read returns.
- `text ls`: the stream with the lines ls.

Results:
- `scan_text`: the inner loop writes the lines that match and stops at the bytes behind the last newline;
- `grep_chunks_iff`: **grep writes the matching lines, for every pattern, exactly if every read brings a newline**:
  `if(p == buf) m = 0` is meant for a line that fills the buffer, and forgets the bytes of every line that a read has begun
  and not ended.
-/
import Xv6.Grep.Match

namespace Xv6.Grep

open List

def newline : UInt8 := 10

/-! ## The source -/

/-- the bytes before the first c and those behind it -/
def strchr : CStr → UInt8 → Option (CStr × CStr)
  | [], _ => none
  | x :: s, c =>
    if x = 0 then none
    else if x = c then some ([], s)
    else (strchr s c).map fun r => (x :: r.1, r.2)

theorem strchr_some {s l rest : CStr} {c : UInt8} (h : strchr s c = some (l, rest)) : s = l ++ c :: rest ∧ c ∉ l := by
  induction s generalizing l with
  | nil => cases h
  | cons x s ih =>
    rw [strchr] at h
    split_ifs at h with h0 hx
    · cases h
      exact ⟨congrArg (· :: rest) hx, not_mem_nil⟩
    · obtain ⟨⟨l', rest'⟩, hs, heq⟩ := Option.map_eq_some_iff.1 h
      cases heq
      obtain ⟨rfl, hl⟩ := ih hs
      exact ⟨rfl, not_mem_cons_of_ne_of_not_mem (Ne.symm hx) hl⟩

theorem strchr_none {s : CStr} {c : UInt8} (hs : 0 ∉ s) : strchr s c = none ↔ c ∉ s := by
  induction s with
  | nil => simp [strchr]
  | cons x s ih =>
    have hx : x ≠ 0 := fun h => hs (h ▸ mem_cons_self)
    rw [strchr, if_neg hx, mem_cons, not_or, ← ih fun h => hs (mem_cons_of_mem _ h)]
    split_ifs with hc
    · simp [hc]
    · simp [Ne.symm hc]

/-- the loop from p: what is written, and the bytes that are left -/
def scan (pattern p : CStr) : CStr × CStr :=
  match _h : strchr p newline with
  | none => ([], p)
  | some (l, rest) => ((if regexMatch pattern l then l ++ [newline] else []) ++ (scan pattern rest).1, (scan pattern rest).2)
termination_by p.length
decreasing_by
  all_goals
    rw [(strchr_some _h).1]
    simp only [length_append, length_cons]
    omega

/-- the bytes that stay in the buffer; none if there was no newline in it -/
def kept (pattern contents : CStr) : CStr :=
  if (scan pattern contents).2.length = contents.length then [] else (scan pattern contents).2

/-- The outer loop, with held in the buffer. A chunk is what one read returns: some bytes, as many as there is room for or fewer. -/
def grepFrom (pattern : CStr) : CStr → List CStr → CStr
  | _, [] => []
  | held, c :: chunks => (scan pattern (held ++ c)).1 ++ grepFrom pattern (kept pattern (held ++ c)) chunks

def grep (pattern : CStr) (chunks : List CStr) : CStr := grepFrom pattern [] chunks

/-! ## Lines -/

/-- the stream with the lines ls -/
def text (ls : List CStr) : CStr := ls.flatMap (· ++ [newline])

/-- the lines that match -/
def matching (pattern : CStr) (ls : List CStr) : List CStr := ls.filter (regexMatch pattern)

variable {pattern held contents p rest more l : CStr} {ls ls' chunks : List CStr}

theorem scan_none (h : strchr p newline = none) : scan pattern p = ([], p) := by
  rw [scan]
  split
  · rfl
  · simp_all

theorem scan_some (h : strchr p newline = some (l, rest)) : scan pattern p =
    ((if regexMatch pattern l then l ++ [newline] else []) ++ (scan pattern rest).1, (scan pattern rest).2) := by
  rw [scan]
  split
  · simp_all
  · next hs =>
    rw [h] at hs
    cases hs
    rfl

theorem text_cons (l : CStr) (ls : List CStr) : text (l :: ls) = l ++ newline :: text ls := by
  rw [text, flatMap_cons, append_assoc]
  rfl

theorem text_append (ls ls' : List CStr) : text (ls ++ ls') = text ls ++ text ls' := flatMap_append

theorem regexMatch_nil (l : CStr) : regexMatch [] l = true := by
  rw [regexMatch, if_neg (by decide), matchAnywhere, matchhere]
  rfl

/-- **The inner loop** writes the lines that match. -/
theorem scan_text (h : 0 ∉ contents) : ∃ ls rest, contents = text ls ++ rest ∧ newline ∉ rest ∧ (∀ l ∈ ls, newline ∉ l) ∧
    ∀ pattern, scan pattern contents = (text (matching pattern ls), rest) := by
  obtain ⟨n, hn⟩ : ∃ n, contents.length = n := ⟨_, rfl⟩
  -- on the length, as strchr moves p
  induction n using Nat.strong_induction_on generalizing contents with
  | _ n ih =>
    cases hs : strchr contents newline with
    | none =>
      exact ⟨[], contents, rfl, (strchr_none h).1 hs, by simp, fun _ => scan_none hs⟩
    | some r =>
      obtain ⟨l, p⟩ := r
      obtain ⟨heq, hl⟩ := strchr_some hs
      have hp : 0 ∉ p := fun h0 => h (heq ▸ mem_append_right l (mem_cons_of_mem _ h0))
      have hlen : p.length < n := by
        rw [← hn, heq, length_append, length_cons]
        omega
      obtain ⟨ls, rest, hrest, hnl, hls, hscan⟩ := ih p.length hlen hp rfl
      refine ⟨l :: ls, rest, ?_, hnl, forall_mem_cons.2 ⟨hl, hls⟩, ?_⟩
      · rw [heq, hrest, text_cons, append_assoc, cons_append]
      · intro pattern
        rw [scan_some hs, hscan, matching, matching, filter_cons]
        split_ifs
        · rw [text_cons, append_assoc]
          rfl
        · rfl

theorem line_inj {l l' x y : CStr} (hl : newline ∉ l) (hl' : newline ∉ l') (h : l ++ newline :: x = l' ++ newline :: y) :
    l = l' ∧ x = y := by
  induction l generalizing l' with
  | nil =>
    cases l' with
    | nil => exact ⟨rfl, (List.cons.inj h).2⟩
    | cons z l' => exact absurd ((List.cons.inj h).1 ▸ mem_cons_self) hl'
  | cons z l ih =>
    cases l' with
    | nil => exact absurd ((List.cons.inj h).1.symm ▸ mem_cons_self) hl
    | cons z' l' =>
      obtain ⟨rfl, htail⟩ := List.cons.inj h
      obtain ⟨rfl, hxy⟩ := ih (fun h' => hl (mem_cons_of_mem _ h')) (fun h' => hl' (mem_cons_of_mem _ h')) htail
      exact ⟨rfl, hxy⟩

/-- lines that begin a stream are its first lines -/
theorem text_split (hls : ∀ l ∈ ls, newline ∉ l) (hls' : ∀ l ∈ ls', newline ∉ l) (h : text ls ++ more = text ls') :
    ∃ ls₂, ls' = ls ++ ls₂ ∧ more = text ls₂ := by
  induction ls generalizing ls' with
  | nil => exact ⟨ls', rfl, h⟩
  | cons l ls ih =>
    obtain ⟨hl, hls⟩ := forall_mem_cons.1 hls
    cases ls' with
    | nil =>
      rw [text_cons, append_assoc] at h
      exact absurd (append_eq_nil_iff.1 h).2 (cons_ne_nil _ _)
    | cons l' ls' =>
      obtain ⟨hl', hrest'⟩ := forall_mem_cons.1 hls'
      rw [text_cons, text_cons, append_assoc, cons_append] at h
      obtain ⟨rfl, htail⟩ := line_inj hl hl' h
      obtain ⟨ls₂, rfl, hmore⟩ := ih hls hrest' htail
      exact ⟨ls₂, rfl, hmore⟩

theorem text_ne_nil (h : ls ≠ []) : text ls ≠ [] := by
  obtain ⟨l, ls, rfl⟩ := exists_cons_of_ne_nil h
  rw [text_cons]
  exact append_ne_nil_of_right_ne_nil _ (cons_ne_nil _ _)

/-- a buffer that ends a line keeps the begun one, any other buffer nothing -/
theorem kept_text (hscan : scan pattern (text ls ++ rest) = (text (matching pattern ls), rest)) :
    kept pattern (text ls ++ rest) = if ls = [] then [] else rest := by
  rw [kept, hscan, length_append]
  by_cases hls : ls = []
  · rw [if_pos hls, if_pos (by rw [hls]; exact (Nat.zero_add rest.length).symm)]
  · have hpos := length_pos_iff.2 (text_ne_nil hls)
    rw [if_neg hls, if_neg (show rest.length ≠ (text ls).length + rest.length by omega)]

/-- every read ends a line: nothing is forgotten -/
theorem grepFrom_lines (h0 : 0 ∉ held ++ chunks.flatten) (hls : ∀ l ∈ ls, newline ∉ l) (heq : held ++ chunks.flatten = text ls)
    (hheld : newline ∉ held) (hc : ∀ c ∈ chunks, newline ∈ c) : grepFrom pattern held chunks = text (matching pattern ls) := by
  induction chunks generalizing held ls with
  | nil =>
    rw [flatten_nil, append_nil] at heq
    cases ls with
    | nil => rfl
    | cons l ls =>
      rw [heq, text_cons] at hheld
      exact absurd (mem_append_right l mem_cons_self) hheld
  | cons c chunks ih =>
    obtain ⟨hcn, hc⟩ := forall_mem_cons.1 hc
    rw [flatten_cons, ← append_assoc] at h0 heq
    obtain ⟨ls₁, rest, hcontents, hrest, hls₁, hscan⟩ := scan_text fun h => h0 (mem_append_left _ h)
    have hne : ls₁ ≠ [] := by
      intro hnil
      rw [hnil] at hcontents
      have hmem : newline ∈ text [] ++ rest := hcontents ▸ mem_append_right held hcn
      exact hrest hmem
    rw [hcontents] at h0 heq hscan
    rw [append_assoc] at h0 heq
    obtain ⟨ls₂, rfl, hmore⟩ := text_split hls₁ hls heq
    have hnext := ih (fun h => h0 (mem_append_right _ h)) (fun l hl => hls l (mem_append_right _ hl)) hmore hrest hc
    rw [grepFrom, hcontents, hscan, kept_text (hscan _), if_neg hne, hnext, matching, matching, matching, filter_append,
      text_append]

/-- the pattern that every line matches: no more is written than came in, and less if a read without a newline is forgotten -/
theorem grepFrom_length (h0 : 0 ∉ held ++ chunks.flatten) (hheld : newline ∉ held) (hc : ∀ c ∈ chunks, c ≠ []) :
    (grepFrom [] held chunks).length ≤ (held ++ chunks.flatten).length ∧
      ((grepFrom [] held chunks).length = (held ++ chunks.flatten).length → ∀ c ∈ chunks, newline ∈ c) := by
  induction chunks generalizing held with
  | nil => exact ⟨Nat.zero_le _, by simp⟩
  | cons c chunks ih =>
    obtain ⟨hne, hc⟩ := forall_mem_cons.1 hc
    rw [flatten_cons, ← append_assoc] at h0 ⊢
    obtain ⟨ls, rest, hcontents, hrest, -, hscan⟩ := scan_text fun h => h0 (mem_append_left _ h)
    have hall : matching [] ls = ls := filter_eq_self.2 fun l _ => regexMatch_nil l
    have hpos := length_pos_iff.2 hne
    have hlen : held.length + c.length = (text ls).length + rest.length := by
      rw [← length_append, hcontents, length_append]
    rw [hcontents] at h0 hscan
    rw [grepFrom, hcontents, hscan, kept_text (hscan _), hall]
    simp only [length_append]
    by_cases hls : ls = []
    · -- no newline: the buffer is emptied
      have hnil : 0 ∉ [] ++ chunks.flatten := fun h => h0 (mem_append_right _ h)
      obtain ⟨hle, -⟩ := ih hnil not_mem_nil hc
      have hnone : (text ls).length = 0 := by rw [hls]; rfl
      rw [if_pos hls]
      rw [nil_append] at hle
      exact ⟨by omega, fun h => absurd h (by omega)⟩
    · have hmore : 0 ∉ rest ++ chunks.flatten := fun h => h0 (append_assoc _ _ _ ▸ mem_append_right _ h)
      obtain ⟨hle, heq⟩ := ih hmore hrest hc
      rw [if_neg hls]
      rw [length_append] at hle heq
      refine ⟨by omega, fun h => forall_mem_cons.2 ⟨?_, heq (by omega)⟩⟩
      obtain ⟨l, ls, rfl⟩ := exists_cons_of_ne_nil hls
      have hmem : newline ∈ held ++ c := by
        rw [hcontents, text_cons]
        simp
      exact (mem_append.1 hmem).resolve_left hheld

/-- **grep writes exactly the lines that match, for every pattern, if and only if every read brings a newline.** -/
theorem grep_chunks_iff (ls chunks : List CStr) (hls : ∀ l ∈ ls, newline ∉ l ∧ 0 ∉ l) (hne : ∀ c ∈ chunks, c ≠ [])
    (hstream : chunks.flatten = text ls) :
    (∀ pattern, grep pattern chunks = text (matching pattern ls)) ↔ ∀ c ∈ chunks, newline ∈ c := by
  have h0 : 0 ∉ [] ++ chunks.flatten := by
    rw [nil_append, hstream, text, mem_flatMap]
    intro ⟨l, hl, h⟩
    rcases mem_append.1 h with h | h
    · exact (hls l hl).2 h
    · exact absurd (mem_singleton.1 h) (by decide)
  constructor
  · intro h
    refine (grepFrom_length h0 not_mem_nil hne).2 ?_
    have hall : matching [] ls = ls := filter_eq_self.2 fun l _ => regexMatch_nil l
    rw [← grep, h [], hall, ← hstream, nil_append]
  · intro h pattern
    exact grepFrom_lines h0 (fun l hl => (hls l hl).1) hstream not_mem_nil h

/-- the lines `ab` and `ca`, the second of them in two reads -/
theorem grep_chunks_iff_split : [[97, 98, newline, 99], [97, newline]].flatten = text [[97, 98], [99, 97]] ∧
    ∀ pattern, grep pattern [[97, 98, newline, 99], [97, newline]] = text (matching pattern [[97, 98], [99, 97]]) :=
  ⟨rfl, (grep_chunks_iff [[97, 98], [99, 97]] [[97, 98, newline, 99], [97, newline]] (by decide) (by decide) rfl).2 (by decide)⟩

/-- The line `ab` comes in two reads, and the pattern is `a`: nothing is written. -/
theorem grep_loses : grep [97] [[97], [98, newline]] = [] ∧ matching [97] [[97, 98]] = [[97, 98]] := by
  constructor
  · simp [grep, grepFrom, kept, scan, strchr, newline, regexMatch, matchAnywhere, matchhere, at0, caret, star, dollar, dot]
  · simp [matching, regexMatch, matchAnywhere, matchhere, at0, caret, star, dollar, dot]

end Xv6.Grep
