/-
The shell's grammar, and that the parser (sh.c) accepts exactly its language.

- `lex`, `tokens`: a line is cut into tokens: operators, `>>` in preference to `>`, and words, which go on for as long as there is
  neither whitespace nor a symbol.
- `IsLine`, `IsPipe`, `IsExec`, `IsWords`, `IsRedirs`: the grammar, with the tree that it gives to a list of tokens:
    line ::= pipe '&'* [';' line]
    pipe ::= exec ['|' pipe]
    exec ::= '(' line ')' redir* | redir* (word redir*)*, with fewer than MAXARGS words
    redir ::= ('<' | '>' | '>>') word
- `At s i ts`: ts are the tokens from position i on.

Results:
- `wp_peek`, `wp_gettoken`: the tokenizer;
- `line_sound`, `pipe_sound`, `exec_sound`, `block_sound`: a tree that the parser returns is one of the grammar; with enough fuel
  it fails by a panic of its own only;
- `line_complete`, `pipe_complete`, `exec_complete`: a tree of the grammar is what the parser returns;
- `parser_accepts_grammar`: **parsecmd returns the tree of the grammar, or reports an error if there is none**.
-/
import Xv6.Sh.Parse

namespace Xv6.Sh

open Fallible List Option

/-! ## Tokens -/

inductive Tok where
  | pipe
  | lparen
  | rparen
  | semi
  | amp
  | redir (op : Op)
  | word (w : Word)
deriving DecidableEq, Repr

/-- the value of gettoken -/
def Tok.code : Tok → UInt8
  | .pipe => '|'.toUInt8
  | .lparen => '('.toUInt8
  | .rparen => ')'.toUInt8
  | .semi => ';'.toUInt8
  | .amp => '&'.toUInt8
  | .redir op => op.code
  | .word _ => 'a'.toUInt8

/-- the character of an operator that peek looks at -/
def Tok.sign : Tok → Option UInt8
  | .redir .gtgt => some '>'.toUInt8
  | .word _ => none
  | t => some t.code

/-- the operator that a character alone stands for -/
def operator (c : UInt8) : Option Tok :=
  if c = '|'.toUInt8 then some .pipe
  else if c = '('.toUInt8 then some .lparen
  else if c = ')'.toUInt8 then some .rparen
  else if c = ';'.toUInt8 then some .semi
  else if c = '&'.toUInt8 then some .amp
  else if c = '<'.toUInt8 then some (.redir .lt)
  else none

/-- the tokens of the bytes cs, which start at position i -/
def lex : List UInt8 → ℕ → List Tok
  | [], _ => []
  | c :: cs, i =>
    if isSpace c then lex cs (i + 1)
    else
      match operator c with
      | some t => t :: lex cs (i + 1)
      | none =>
        if c = '>'.toUInt8 then
          if cs.head? = some '>'.toUInt8 then .redir .gtgt :: lex cs.tail (i + 2) else .redir .gt :: lex cs (i + 1)
        else .word ⟨i, i + 1 + (cs.takeWhile isWord).length⟩ ::
          lex (cs.dropWhile isWord) (i + 1 + (cs.takeWhile isWord).length)
termination_by cs => cs.length
decreasing_by
  all_goals simp only [length_cons, length_tail]
  · omega
  · omega
  · omega
  · omega
  · have h := (dropWhile_suffix (l := cs) isWord).length_le
    omega

def tokens (s : Str) : List Tok := lex s.bytes 0

/-! ## The grammar -/

inductive IsRedirs : List Tok → List Redir → Prop where
  | nil : IsRedirs [] []
  | cons {op : Op} {file : Word} {ts : List Tok} {rs : List Redir} (h : IsRedirs ts rs) :
      IsRedirs (.redir op :: .word file :: ts) (⟨op, file⟩ :: rs)

inductive IsWords : List Tok → List Word → List Redir → Prop where
  | nil : IsWords [] [] []
  | cons {w : Word} {ts ts' : List Tok} {rs rs' : List Redir} {ws : List Word} (h : IsRedirs ts rs) (h' : IsWords ts' ws rs') :
      IsWords (.word w :: (ts ++ ts')) (w :: ws) (rs ++ rs')

mutual

inductive IsLine : List Tok → Cmd → Prop where
  | single {ts : List Tok} {c : Cmd} (k : ℕ) (h : IsPipe ts c) : IsLine (ts ++ List.replicate k .amp) (Cmd.back^[k] c)
  | seq {ts ts' : List Tok} {c c' : Cmd} (k : ℕ) (h : IsPipe ts c) (h' : IsLine ts' c') :
      IsLine (ts ++ List.replicate k .amp ++ .semi :: ts') (.list (Cmd.back^[k] c) c')

inductive IsPipe : List Tok → Cmd → Prop where
  | single {ts : List Tok} {c : Cmd} (h : IsExec ts c) : IsPipe ts c
  | pipe {ts ts' : List Tok} {c c' : Cmd} (h : IsExec ts c) (h' : IsPipe ts' c') : IsPipe (ts ++ .pipe :: ts') (.pipe c c')

inductive IsExec : List Tok → Cmd → Prop where
  | block {ts ts' : List Tok} {c : Cmd} {rs : List Redir} (h : IsLine ts c) (h' : IsRedirs ts' rs) :
      IsExec (.lparen :: (ts ++ .rparen :: ts')) (wrap c rs)
  | words {ts ts' : List Tok} {rs rs' : List Redir} {ws : List Word} (h : IsRedirs ts rs) (h' : IsWords ts' ws rs')
      (hmax : ws.length < MAXARGS) : IsExec (ts ++ ts') (wrap (.exec ws) (rs ++ rs'))

end

/-! ## The tokenizer -/

variable {s : Str} {i j n : ℕ} {c : UInt8} {cs : List UInt8} {E : Stop → Prop}

theorem lex_nil : lex [] i = [] := by rw [lex]

theorem lex_space (h : isSpace c = true) : lex (c :: cs) i = lex cs (i + 1) := by rw [lex, if_pos h]

/-- whitespace is skipped -/
theorem lex_skip (cs : List UInt8) (i : ℕ) :
    lex (cs.dropWhile isSpace) (i + (cs.takeWhile isSpace).length) = lex cs i := by
  induction cs generalizing i with
  | nil => rfl
  | cons c cs ih =>
    by_cases hc : isSpace c = true
    · rw [dropWhile_cons_of_pos hc, takeWhile_cons_of_pos hc, lex_space hc, ← ih, length_cons]
      congr 1
      omega
    · rw [dropWhile_cons_of_neg hc, takeWhile_cons_of_neg hc]
      rfl

theorem drop_skip (p : UInt8 → Bool) : s.bytes.drop (s.skip p i) = (s.bytes.drop i).dropWhile p := by
  rw [Str.skip, ← drop_drop]
  generalize s.bytes.drop i = cs
  induction cs with
  | nil => rfl
  | cons c cs ih =>
    by_cases hc : p c = true
    · rw [takeWhile_cons_of_pos hc, dropWhile_cons_of_pos hc, length_cons, drop_succ_cons, ih]
    · rw [takeWhile_cons_of_neg hc, dropWhile_cons_of_neg hc]
      rfl

theorem skip_le {p : UInt8 → Bool} (h : i ≤ s.length) : s.skip p i ≤ s.length := by
  have hlen := ( takeWhile_prefix (l := s.bytes.drop i) p).length_le
  rw [length_drop] at hlen
  unfold Str.skip Str.length at *
  omega

theorem char_nil (h : s.bytes.drop i = []) : s.char i = 0 := by
  rw [Str.char, getD_eq_getElem?_getD, getElem?_eq_none (drop_eq_nil_iff.1 h)]
  rfl

theorem drop_cons (h : s.bytes.drop i = c :: cs) : s.char i = c ∧ c ≠ 0 ∧ s.bytes.drop (i + 1) = cs ∧ i + 1 ≤ s.length := by
  have hlt : i < s.bytes.length := by
    by_contra hge
    rw [drop_eq_nil_of_le (not_lt.1 hge)] at h
    cases h
  rw [drop_eq_getElem_cons hlt] at h
  obtain ⟨hc, hcs⟩ := cons_eq_cons.1 h
  refine ⟨?_, fun h0 => s.clean ?_, hcs, hlt⟩
  · rw [Str.char, getD_eq_getElem?_getD, getElem?_eq_getElem hlt, hc]
    rfl
  · rw [← h0, ← hc]
    exact getElem_mem hlt

/-- the cursor is in the line, and these are the tokens that follow -/
structure At (s : Str) (i : ℕ) (ts : List Tok) : Prop where
  le : i ≤ s.length
  toks : lex (s.bytes.drop i) i = ts

variable {ts ts' : List Tok} {rs : List Redir} {toks : List Char} {t : Tok}

theorem at_skip (h : At s i ts) : At s (s.skip isSpace i) ts := by
  refine ⟨skip_le h.le, ?_⟩
  rw [drop_skip, ← h.toks]
  exact lex_skip _ _

theorem skipped (h : s.bytes.drop (s.skip isSpace i) = c :: cs) : isSpace c = false := by
  rw [drop_skip] at h
  have hhead := head?_dropWhile_not isSpace (s.bytes.drop i)
  rw [h, head?_cons] at hhead
  simpa using hhead

theorem operator_some (h : operator c = some t) :
    c ∈ ['|'.toUInt8, '('.toUInt8, ')'.toUInt8, ';'.toUInt8, '&'.toUInt8, '<'.toUInt8] ∧ t.code = c ∧ t.sign = some c ∧
      ∀ w, t ≠ .word w := by
  unfold operator at h
  split_ifs at h with h1 h2 h3 h4 h5 h6
  all_goals
    cases h
    subst c
    exact ⟨by decide, rfl, rfl, fun w hw => by cases hw⟩

theorem operator_none (h : operator c = none) :
    c ∉ ['|'.toUInt8, '('.toUInt8, ')'.toUInt8, ';'.toUInt8, '&'.toUInt8, '<'.toUInt8] := by
  unfold operator at h
  split_ifs at h with h1 h2 h3 h4 h5 h6
  simp only [mem_cons, not_mem_nil, or_false, not_or]
  exact ⟨h1, h2, h3, h4, h5, h6⟩

theorem not_symbol (h : operator c = none) (hgt : c ≠ '>'.toUInt8) : c ∉ symbols := by
  have hop := operator_none h
  simp only [symbols, mem_cons, not_mem_nil, or_false, not_or] at hop ⊢
  tauto

theorem isWord_iff : isWord c = true ↔ isSpace c = false ∧ c ∉ symbols := by
  simp [isWord, isSpace]

/-- one token, from a place without whitespace on -/
theorem token_at (h : s.bytes.drop i = c :: cs) (hc : isSpace c = false) :
    ∃ t, lex (c :: cs) i = t :: lex (s.bytes.drop (tokenAt s i).2) (tokenAt s i).2 ∧ (tokenAt s i).1 = t.code ∧
      (tokenAt s i).2 ≤ s.length ∧ (∀ w, t = .word w → w = ⟨i, (tokenAt s i).2⟩) ∧
      (t.sign = some c ∨ t.sign = none ∧ c ∉ symbols) := by
  obtain ⟨hchar, h0, hnext, hle⟩ := drop_cons h
  have hspace : ¬ isSpace c = true := by rw [hc]; decide
  unfold tokenAt
  rw [hchar]
  simp only [if_neg h0]
  rw [lex, if_neg hspace]
  cases hop : operator c with
  | some t =>
    obtain ⟨hmem, hcode, hsign, hword⟩ := operator_some hop
    rw [if_pos hmem]
    exact ⟨t, by rw [hnext], hcode.symm, hle, fun w hw => absurd hw (hword w), .inl hsign⟩
  | none =>
    rw [if_neg (operator_none hop)]
    by_cases hgt : c = '>'.toUInt8
    · simp only [if_pos hgt]
      cases cs with
      | nil =>
        have hend : s.char (i + 1) ≠ '>'.toUInt8 := by
          rw [char_nil hnext]
          decide
        rw [if_neg hend]
        refine ⟨.redir .gt, by rw [hnext]; rfl, rfl, hle, fun w hw => (by cases hw), .inl (by rw [hgt]; rfl)⟩
      | cons d ds =>
        obtain ⟨hchar', -, hnext', hle'⟩ := drop_cons hnext
        rw [hchar', head?_cons]
        by_cases hd : d = '>'.toUInt8
        · rw [if_pos hd, if_pos (by rw [hd])]
          exact ⟨.redir .gtgt, by rw [hnext']; rfl, rfl, hle', fun w hw => (by cases hw), .inl (by rw [hgt]; rfl)⟩
        · rw [if_neg hd, if_neg (by simpa using hd)]
          exact ⟨.redir .gt, by rw [hnext], rfl, hle, fun w hw => (by cases hw), .inl (by rw [hgt]; rfl)⟩
    · have hsym := not_symbol hop hgt
      have hw : isWord c = true := isWord_iff.2 ⟨hc, hsym⟩
      have hskip : s.skip isWord i = i + 1 + (cs.takeWhile isWord).length := by
        rw [Str.skip, h, takeWhile_cons_of_pos hw, length_cons]
        omega
      have hrest : s.bytes.drop (s.skip isWord i) = cs.dropWhile isWord := by
        rw [drop_skip, h, dropWhile_cons_of_pos hw]
      simp only [if_neg hgt]
      refine ⟨.word ⟨i, i + 1 + (cs.takeWhile isWord).length⟩, by rw [hrest, hskip], rfl, skip_le (by omega), fun w hw => ?_,
        Or.inr ⟨rfl, hsym⟩⟩
      rw [hskip]
      injection hw with hw
      exact hw.symm

/-- the first token is one of the operators -/
def looks (toks : List Char) (ts : List Tok) : Prop := ∃ t ∈ ts.head?, ∃ c ∈ toks.map Char.toUInt8, t.sign = some c

/-- **peek** looks at the first token, if it is an operator -/
theorem wp_peek {Q : Bool → ℕ → Prop} (h : At s i ts) (htoks : (toks.map Char.toUInt8).all (· ∈ symbols))
    (hyes : ∀ j, looks toks ts → At s j ts → Q true j) (hno : ∀ j, ¬ looks toks ts → At s j ts → Q false j) :
    wp E (peek s toks) Q i := by
  have hskip := at_skip h
  have hhead : (s.char (s.skip isSpace i) ≠ 0 ∧ s.char (s.skip isSpace i) ∈ toks.map Char.toUInt8) ↔ looks toks ts := by
    cases hd : s.bytes.drop (s.skip isSpace i) with
    | nil =>
      have hts := hskip.toks
      rw [hd, lex_nil] at hts
      rw [← hts, char_nil hd]
      simp [looks]
    | cons c cs =>
      obtain ⟨t, hlex, -, -, -, hsign⟩ := token_at hd (skipped hd)
      obtain ⟨hchar, h0, -, -⟩ := drop_cons hd
      have hts := hskip.toks
      rw [hd, hlex] at hts
      rw [← hts, hchar]
      unfold looks
      rw [head?_cons]
      rcases hsign with hsome | ⟨hnone, hsym⟩
      · constructor
        · intro hc
          exact ⟨t, rfl, c, hc.2, hsome⟩
        · intro hl
          obtain ⟨t', ht', c', hc', hsign'⟩ := hl
          obtain rfl : t = t' := some.inj ht'
          obtain rfl : c = c' := some.inj (hsome.symm.trans hsign')
          exact ⟨h0, hc'⟩
      · constructor
        · intro hc
          exact absurd (of_decide_eq_true (all_eq_true.1 htoks c hc.2)) hsym
        · intro hl
          obtain ⟨t', ht', c', -, hsign'⟩ := hl
          obtain rfl : t = t' := some.inj ht'
          rw [hnone] at hsign'
          cases hsign'
  unfold peek
  simp only [wp_bind, wp_get, wp_set, wp_pure]
  by_cases hl : looks toks ts
  · rw [decide_eq_true (hhead.2 hl)]
    exact hyes _ hl hskip
  · rw [decide_eq_false fun hb => hl (hhead.1 hb)]
    exact hno _ hl hskip

/-- **gettoken** takes the first token -/
theorem wp_gettoken {Q : UInt8 × Word → ℕ → Prop} (h : At s i ts) (hnil : ∀ w j, ts = [] → At s j [] → Q (0, w) j)
    (hcons : ∀ t ts' w j, ts = t :: ts' → (∀ v, t = .word v → v = w) → At s j ts' → Q (t.code, w) j) :
    wp E (gettoken s) Q i := by
  have hskip := at_skip h
  unfold gettoken
  simp only [wp_bind, wp_get, wp_set, wp_pure]
  cases hd : s.bytes.drop (s.skip isSpace i) with
  | nil =>
    have hts := hskip.toks
    rw [hd, lex_nil] at hts
    have htok : tokenAt s (s.skip isSpace i) = (0, s.skip isSpace i) := by
      unfold tokenAt
      simp only [char_nil hd, if_pos]
    rw [htok]
    rw [← hts] at hskip
    exact hnil _ _ hts.symm (at_skip hskip)
  | cons c cs =>
    obtain ⟨t, hlex, hcode, hle, hword, -⟩ := token_at hd (skipped hd)
    have hts := hskip.toks
    rw [hd, hlex] at hts
    rw [hcode]
    exact hcons t _ _ _ hts.symm hword (at_skip ⟨hle, rfl⟩)

theorem wp_take {Q : UInt8 × Word → ℕ → Prop} (h : At s i (t :: ts))
    (hQ : ∀ w j, (∀ v, t = .word v → v = w) → At s j ts → Q (t.code, w) j) : wp E (gettoken s) Q i := by
  refine wp_gettoken h (fun _ _ hnil _ => (by cases hnil)) fun t' ts' w j ht hword hj => ?_
  obtain ⟨rfl, rfl⟩ := cons_eq_cons.1 ht
  exact hQ w j hword hj

/-! ## Looking ahead -/

theorem looks_head {c : UInt8} (hsign : t.sign = some c) (hc : c ∈ toks.map Char.toUInt8) :
    looks toks (t :: ts) := ⟨t, rfl, c, hc, hsign⟩

/-- an operator that is no redirection is told by its sign -/
theorem sign_inj {t t' : Tok} (h : t'.sign = t.sign) (hop : ∀ op, t ≠ .redir op) (hw : ∀ w, t ≠ .word w) : t' = t := by
  cases t with
  | redir op => exact absurd rfl (hop op)
  | word w => exact absurd rfl (hw w)
  | _ =>
    cases t' with
    | redir op => cases op <;> cases h
    | _ => first | rfl | cases h

theorem looks_only {x : Char} (h : looks [x] ts) (hx : t.sign = some x.toUInt8) (hop : ∀ op, t ≠ .redir op)
    (hw : ∀ w, t ≠ .word w) : ∃ ts', ts = t :: ts' := by
  obtain ⟨t', ht', c, hc, hsign⟩ := h
  obtain ⟨ts', rfl⟩ := head?_eq_some_iff.1 ht'
  rw [map_singleton, mem_singleton] at hc
  exact ⟨ts', by rw [sign_inj (hsign.trans (hc ▸ hx.symm)) hop hw]⟩

theorem looks_redir (h : looks ['<', '>'] ts) : ∃ op ts', ts = .redir op :: ts' := by
  obtain ⟨t, ht, c, hc, hsign⟩ := h
  obtain ⟨ts', rfl⟩ := head?_eq_some_iff.1 ht
  cases t with
  | redir op => exact ⟨op, ts', rfl⟩
  | word w => cases hsign
  | _ =>
    cases hsign
    exact absurd hc (by decide)

/-- what may stand next: one of the tokens, or the end -/
def Follows (K : List Tok) (ts : List Tok) : Prop := ∀ t ∈ ts.head?, t ∈ K

theorem follows_mono {K K' : List Tok} (h : Follows K ts) (hK : K ⊆ K') : Follows K' ts := fun t ht => hK (h t ht)

theorem follows_head {K : List Tok} (ht : t ∈ K) : Follows K (t :: ts) := by
  intro t' ht'
  obtain rfl : t = t' := some.inj ht'
  exact ht

/-- none of the tokens starts with one of the characters -/
def unlike (K : List Tok) (toks : List Char) : Bool := K.all fun t => (toks.map Char.toUInt8).all fun c => t.sign ≠ some c

theorem not_looks {K : List Tok} (h : Follows K ts) (hK : unlike K toks) : ¬ looks toks ts := by
  intro hl
  obtain ⟨t, ht, c, hc, hsign⟩ := hl
  have hne := all_eq_true.1 (all_eq_true.1 hK t (h t ht)) c hc
  exact of_decide_eq_true hne hsign

/-- the operators that end a command -/
def afterExec : List Tok := [.pipe, .rparen, .amp, .semi]

def afterPipe : List Tok := [.rparen, .amp, .semi]

def afterLine : List Tok := [.rparen]

/-! ## What the parser returns is in the grammar -/

/-- a panic of the shell -/
def Panics (e : Stop) : Prop := ∃ msg, e = .panic msg

theorem code_word (h : t.code = 'a'.toUInt8) : ∃ w, t = .word w := by
  cases t with
  | word w => exact ⟨w, rfl⟩
  | redir op => cases op <;> cases h
  | _ => cases h

theorem code_ne_zero (t : Tok) : t.code ≠ 0 := by
  cases t with
  | redir op => cases op <;> decide
  | word w => exact (by decide : 'a'.toUInt8 ≠ 0)
  | _ => decide

/-- the switch of parseredirs -/
theorem wp_redir {Q : List Redir → ℕ → Prop} {op : Op} {file : Word} (h : Q (⟨op, file⟩ :: rs) i) :
    wp E (if op.code = '<'.toUInt8 then return ⟨.lt, file⟩ :: rs
      else if op.code = '>'.toUInt8 then return ⟨.gt, file⟩ :: rs
      else if op.code = '+'.toUInt8 then return ⟨.gtgt, file⟩ :: rs
      else return rs : P (List Redir)) Q i := by
  cases op with
  | lt => rw [if_pos (by rfl)]; exact wp_pure.2 h
  | gt => rw [if_neg (by decide), if_pos (by rfl)]; exact wp_pure.2 h
  | gtgt => rw [if_neg (by decide), if_neg (by decide), if_pos (by rfl)]; exact wp_pure.2 h

theorem redirs_sound (n : ℕ) (h : At s i ts) (hn : ts.length < n) : wp Panics (parseredirs s n)
    (fun rs j => ∃ ts1 ts2, ts = ts1 ++ ts2 ∧ At s j ts2 ∧ IsRedirs ts1 rs) i := by
  induction n generalizing i ts with
  | zero => exact absurd hn (Nat.not_lt_zero _)
  | succ n ih =>
    rw [parseredirs]
    refine wp_bind.2 (wp_peek h (by decide) (fun j hl hj => ?_) fun j _ hj => ?_)
    swap
    · rw [if_neg (by decide)]
      exact wp_pure.2 ⟨[], ts, rfl, hj, .nil⟩
    obtain ⟨op, ts1, rfl⟩ := looks_redir hl
    rw [if_pos rfl]
    refine wp_bind.2 (wp_take hj fun _ j1 _ hj1 => ?_)
    refine wp_bind.2 (wp_gettoken hj1 (fun _ j2 _ _ => wp_ite.2 ⟨fun _ => wp_throw.2 ⟨_, rfl⟩, fun hcode => ?_⟩)
      fun t ts' w j2 ht hword hj2 => wp_ite.2 ⟨fun _ => wp_throw.2 ⟨_, rfl⟩, fun hcode => ?_⟩)
    · exact absurd (not_not.1 hcode) (by decide : (0 : UInt8) ≠ 'a'.toUInt8)
    subst ht
    obtain ⟨v, rfl⟩ := code_word (not_not.1 hcode)
    obtain rfl := hword v rfl
    have hlen : ts'.length < n := by
      simp only [length_cons] at hn
      omega
    refine wp_seq (ih hj2 hlen) fun rs j3 hrs => ?_
    obtain ⟨ts1, ts2, rfl, hj3, hrs⟩ := hrs
    exact wp_redir ⟨.redir op :: .word v :: ts1, ts2, rfl, hj3, .cons hrs⟩

theorem words_sound (n : ℕ) {argv : List Word} (h : At s i ts) (hn : ts.length < n) (hmax : argv.length < MAXARGS) :
    wp Panics (parsewords s n argv) (fun r j => ∃ ts1 ts2 ws, ts = ts1 ++ ts2 ∧ At s j ts2 ∧ IsWords ts1 ws r.2 ∧
      r.1 = argv ++ ws ∧ r.1.length < MAXARGS) i := by
  induction n generalizing i ts argv with
  | zero => exact absurd hn (Nat.not_lt_zero _)
  | succ n ih =>
    have hend : ∀ j, At s j ts → ∃ ts1 ts2 ws, ts = ts1 ++ ts2 ∧ At s j ts2 ∧ IsWords ts1 ws [] ∧ argv = argv ++ ws ∧
        argv.length < MAXARGS := fun j hj => ⟨[], ts, [], rfl, hj, .nil, (append_nil _).symm, hmax⟩
    rw [parsewords]
    refine wp_bind.2 (wp_peek h (by decide) (fun j _ hj => ?_) fun j _ hj => ?_)
    · rw [if_pos rfl]
      exact wp_pure.2 (hend j hj)
    rw [if_neg (by decide)]
    refine wp_bind.2 (wp_gettoken hj (fun _ j1 hnil hj1 => ?_) fun t ts' w j1 ht hword hj1 => ?_)
    · rw [if_pos rfl]
      exact wp_pure.2 (hend j1 (by rwa [hnil]))
    subst ht
    simp only [wp_ite]
    refine ⟨fun h0 => ?_, fun _ => ⟨fun _ => wp_throw.2 ⟨_, rfl⟩, fun hcode => ⟨fun hb => absurd hmax hb, fun _ =>
      ⟨fun _ => wp_throw.2 ⟨_, rfl⟩, fun hfew => ?_⟩⟩⟩⟩
    · exact absurd h0 (code_ne_zero t)
    obtain ⟨v, rfl⟩ := code_word (not_not.1 hcode)
    obtain rfl := hword v rfl
    have hlen : ts'.length < n := by
      simp only [length_cons] at hn
      omega
    refine wp_seq (redirs_sound n hj1 hlen) fun rs j2 hrs => ?_
    obtain ⟨ts1, ts2, rfl, hj2, hrs⟩ := hrs
    have hlen2 : ts2.length < n := by
      rw [length_append] at hlen
      omega
    refine wp_seq (ih hj2 hlen2 ?_) fun r j3 hr => wp_pure.2 ?_
    · rw [length_append, length_singleton]
      omega
    obtain ⟨ts3, ts4, ws, rfl, hj3, hws, hargv, hmax'⟩ := hr
    refine ⟨.word v :: (ts1 ++ ts3), ts4, v :: ws, ?_, hj3, .cons hrs hws, ?_, hmax'⟩
    · rw [cons_append, append_assoc]
    · rw [hargv, append_assoc, singleton_append]

theorem back_sound (n : ℕ) {c : Cmd} (h : At s i ts) (hn : ts.length < n) : wp Panics (parseback s n c)
    (fun c' j => ∃ k ts2, ts = List.replicate k .amp ++ ts2 ∧ At s j ts2 ∧ c' = Cmd.back^[k] c) i := by
  induction n generalizing i ts c with
  | zero => exact absurd hn (Nat.not_lt_zero _)
  | succ n ih =>
    rw [parseback]
    refine wp_bind.2 (wp_peek h (by decide) (fun j hl hj => ?_) fun j _ hj => ?_)
    swap
    · rw [if_neg (by decide)]
      exact wp_pure.2 ⟨0, ts, rfl, hj, rfl⟩
    obtain ⟨ts', rfl⟩ := looks_only (t := .amp) hl rfl (by simp) (by simp)
    rw [if_pos rfl]
    refine wp_bind.2 (wp_take hj fun _ j1 _ hj1 => ?_)
    refine wp_mono (ih hj1 (Nat.lt_of_succ_lt_succ hn)) fun c' j2 hc => ?_
    obtain ⟨k, ts2, rfl, hj2, rfl⟩ := hc
    exact ⟨k + 1, ts2, rfl, hj2, rfl⟩

/-- a function of the parser returns a tree of the grammar for the tokens that it takes, or it panics; n bounds the depth of its
calls, and it needs four for each token and k more -/
def Returns (G : List Tok → Cmd → Prop) (s : Str) (p : ℕ → P Cmd) (k n : ℕ) : Prop :=
  ∀ {i ts}, At s i ts → 4 * ts.length + k ≤ n →
    wp Panics (p n) (fun c j => ∃ ts1 ts2, ts = ts1 ++ ts2 ∧ At s j ts2 ∧ G ts1 c) i

structure Sound (s : Str) (n : ℕ) : Prop where
  line : Returns IsLine s (parseline s) 4 n
  pipe : Returns IsPipe s (parsepipe s) 3 n
  exec : Returns IsExec s (parseexec s) 2 n
  block : Returns IsExec s (parseblock s) 1 n

theorem line_sound (h : Sound s n) : Returns IsLine s (parseline s) 4 (n + 1) := by
  intro i ts hi hn
  rw [parseline]
  refine wp_seq (h.pipe hi (by omega)) fun c j hc => ?_
  obtain ⟨ts1, ts2, rfl, hj, hpipe⟩ := hc
  rw [length_append] at hn
  refine wp_seq (back_sound n hj (by omega)) fun c' j1 hc' => ?_
  obtain ⟨k, ts3, rfl, hj1, rfl⟩ := hc'
  refine wp_bind.2 (wp_peek hj1 (by decide) (fun j2 hl hj2 => ?_) fun j2 _ hj2 => ?_)
  swap
  · rw [if_neg (by decide)]
    exact wp_pure.2 ⟨ts1 ++ List.replicate k .amp, ts3, by rw [append_assoc], hj2, .single k hpipe⟩
  obtain ⟨ts4, rfl⟩ := looks_only (t := .semi) hl rfl (by simp) (by simp)
  rw [if_pos rfl]
  refine wp_bind.2 (wp_take hj2 fun _ j3 _ hj3 => ?_)
  have hlen : 4 * ts4.length + 4 ≤ n := by
    rw [length_append, length_cons] at hn
    omega
  refine wp_seq (h.line hj3 hlen) fun c' j4 hc' => wp_pure.2 ?_
  obtain ⟨ts5, ts6, rfl, hj4, hline⟩ := hc'
  refine ⟨ts1 ++ List.replicate k .amp ++ .semi :: ts5, ts6, ?_, hj4, .seq k hpipe hline⟩
  simp only [append_assoc, cons_append]

theorem pipe_sound (h : Sound s n) : Returns IsPipe s (parsepipe s) 3 (n + 1) := by
  intro i ts hi hn
  rw [parsepipe]
  refine wp_seq (h.exec hi (by omega)) fun c j hc => ?_
  obtain ⟨ts1, ts2, rfl, hj, hexec⟩ := hc
  rw [length_append] at hn
  refine wp_bind.2 (wp_peek hj (by decide) (fun j1 hl hj1 => ?_) fun j1 _ hj1 => ?_)
  swap
  · rw [if_neg (by decide)]
    exact wp_pure.2 ⟨ts1, ts2, rfl, hj1, .single hexec⟩
  obtain ⟨ts3, rfl⟩ := looks_only (t := .pipe) hl rfl (by simp) (by simp)
  rw [if_pos rfl]
  refine wp_bind.2 (wp_take hj1 fun _ j2 _ hj2 => ?_)
  have hlen : 4 * ts3.length + 3 ≤ n := by
    rw [length_cons] at hn
    omega
  refine wp_seq (h.pipe hj2 hlen) fun c' j3 hc' => wp_pure.2 ?_
  obtain ⟨ts4, ts5, rfl, hj3, hpipe⟩ := hc'
  refine ⟨ts1 ++ .pipe :: ts4, ts5, ?_, hj3, .pipe hexec hpipe⟩
  rw [append_assoc, cons_append]

theorem block_sound (h : Sound s n) : Returns IsExec s (parseblock s) 1 (n + 1) := by
  intro i ts hi hn
  rw [parseblock]
  refine wp_bind.2 (wp_peek hi (by decide) (fun j hl hj => ?_) fun j _ _ => ?_)
  swap
  · rw [if_neg (by decide)]
    exact wp_throw.2 ⟨_, rfl⟩
  obtain ⟨ts1, rfl⟩ := looks_only (t := .lparen) hl rfl (by simp) (by simp)
  rw [if_pos rfl]
  refine wp_bind.2 (wp_take hj fun _ j1 _ hj1 => ?_)
  rw [length_cons] at hn
  refine wp_seq (h.line hj1 (by omega)) fun c j2 hc => ?_
  obtain ⟨ts2, ts3, rfl, hj2, hline⟩ := hc
  refine wp_bind.2 (wp_peek hj2 (by decide) (fun j3 hl hj3 => ?_) fun j3 _ _ => ?_)
  swap
  · rw [if_neg (by decide)]
    exact wp_throw.2 ⟨_, rfl⟩
  obtain ⟨ts4, rfl⟩ := looks_only (t := .rparen) hl rfl (by simp) (by simp)
  rw [if_pos rfl]
  refine wp_bind.2 (wp_take hj3 fun _ j4 _ hj4 => ?_)
  have hlen : ts4.length < n := by
    rw [length_append, length_cons] at hn
    omega
  refine wp_seq (redirs_sound n hj4 hlen) fun rs j5 hrs => wp_pure.2 ?_
  obtain ⟨ts5, ts6, rfl, hj5, hrs⟩ := hrs
  refine ⟨.lparen :: (ts2 ++ .rparen :: ts5), ts6, ?_, hj5, .block hline hrs⟩
  simp only [append_assoc, cons_append]

theorem exec_sound (h : Sound s n) : Returns IsExec s (parseexec s) 2 (n + 1) := by
  intro i ts hi hn
  rw [parseexec]
  refine wp_bind.2 (wp_peek hi (by decide) (fun j hl hj => ?_) fun j _ hj => ?_)
  · rw [if_pos rfl]
    exact h.block hj (by omega)
  rw [if_neg (by decide)]
  refine wp_seq (redirs_sound n hj (by omega)) fun rs j1 hrs => ?_
  obtain ⟨ts1, ts2, rfl, hj1, hrs⟩ := hrs
  rw [length_append] at hn
  refine wp_seq (words_sound n hj1 (by omega) (by decide)) fun r j2 hr => ?_
  obtain ⟨ts3, ts4, ws, rfl, hj2, hws, hargv, hmax⟩ := hr
  rw [wp_ite]
  refine ⟨fun hb => absurd hmax hb, fun _ => wp_pure.2 ?_⟩
  rw [nil_append] at hargv
  rw [hargv] at hmax ⊢
  exact ⟨ts1 ++ ts3, ts4, by rw [append_assoc], hj2, .words hrs hws hmax⟩

/-- **What the parser returns is in the grammar, and with enough fuel it returns or panics.** -/
theorem sound (s : Str) (n : ℕ) : Sound s n := by
  induction n with
  | zero => exact ⟨fun _ h => absurd h (by omega), fun _ h => absurd h (by omega), fun _ h => absurd h (by omega),
      fun _ h => absurd h (by omega)⟩
  | succ n ih => exact ⟨line_sound ih, pipe_sound ih, exec_sound ih, block_sound ih⟩

/-! ## What is in the grammar is what the parser returns -/

theorem redirs_complete (hrs : IsRedirs ts rs) (n : ℕ) (hn : ts.length < n) (hend : ¬ looks ['<', '>'] ts')
    (h : At s i (ts ++ ts')) : wp E (parseredirs s n) (fun rs' j => rs' = rs ∧ At s j ts') i := by
  induction n generalizing i ts rs with
  | zero => exact absurd hn (Nat.not_lt_zero _)
  | succ n ih =>
    rw [parseredirs]
    cases hrs with
    | nil =>
      refine wp_bind.2 (wp_peek h (by decide) (fun j hl _ => absurd hl hend) fun j _ hj => ?_)
      rw [if_neg (by decide)]
      exact wp_pure.2 ⟨rfl, hj⟩
    | @cons op file ts rs hrs =>
      have hl : looks ['<', '>'] (.redir op :: .word file :: ts ++ ts') := by
        cases op with
        | lt | gt | gtgt => exact looks_head rfl (by decide)
      refine wp_bind.2 (wp_peek h (by decide) (fun j _ hj => ?_) fun j hno _ => absurd hl hno)
      rw [if_pos rfl]
      refine wp_bind.2 (wp_take hj fun _ j1 _ hj1 => ?_)
      refine wp_bind.2 (wp_take hj1 fun w j2 hword hj2 => ?_)
      obtain rfl := hword file rfl
      refine wp_ite.2 ⟨fun hcode => absurd rfl hcode, fun _ => ?_⟩
      refine wp_seq (ih hrs ?_ hj2) fun rs' j3 hrs' => wp_redir ⟨by rw [hrs'.1], hrs'.2⟩
      simp only [length_cons] at hn
      omega

/-- an operator that ends a command is one that the loop of parseexec looks for -/
theorem looks_after (h : Follows afterExec (t :: ts)) : looks ['|', ')', '&', ';'] (t :: ts) := by
  have ht := h t rfl
  simp only [afterExec, mem_cons, not_mem_nil, or_false] at ht
  rcases ht with rfl | rfl | rfl | rfl
  all_goals exact looks_head rfl (by decide)

theorem not_looks_word (w : Word) : ¬ looks toks (.word w :: ts) := by
  intro hl
  obtain ⟨t, ht, c, -, hsign⟩ := hl
  obtain rfl : .word w = t := some.inj ht
  cases hsign

/-- words start with a word -/
theorem words_head {ws : List Word} (h : IsWords ts ws rs) (hend : Follows afterExec ts')
    (htoks : unlike afterExec toks) : ¬ looks toks (ts ++ ts') := by
  cases h with
  | nil => exact not_looks hend htoks
  | cons => exact not_looks_word _

theorem words_complete {ws argv : List Word} (hws : IsWords ts ws rs) (n : ℕ) (hn : ts.length < n)
    (hmax : argv.length + ws.length < MAXARGS) (hend : Follows afterExec ts') (h : At s i (ts ++ ts')) :
    wp E (parsewords s n argv) (fun r j => r = (argv ++ ws, rs) ∧ At s j ts') i := by
  induction n generalizing i ts rs ws argv with
  | zero => exact absurd hn (Nat.not_lt_zero _)
  | succ n ih =>
    rw [parsewords]
    cases hws with
    | nil =>
      rw [append_nil]
      rw [nil_append] at h
      refine wp_bind.2 (wp_peek h (by decide) (fun j _ hj => ?_) fun j hno hj => ?_)
      · rw [if_pos rfl]
        exact wp_pure.2 ⟨rfl, hj⟩
      · rw [if_neg (by decide)]
        refine wp_bind.2 (wp_gettoken hj (fun _ j1 hnil hj1 => ?_) fun t ts1 _ j1 ht _ _ => ?_)
        · rw [if_pos rfl]
          exact wp_pure.2 ⟨rfl, by rwa [hnil]⟩
        · rw [ht] at hend hno
          exact absurd (looks_after hend) hno
    | @cons w ts ts1 rs rs1 ws hrs hws =>
      rw [cons_append, append_assoc] at h
      refine wp_bind.2 (wp_peek h (by decide) (fun j hl _ => absurd hl (not_looks_word w)) fun j _ hj => ?_)
      rw [if_neg (by decide)]
      refine wp_bind.2 (wp_take hj fun v j1 hword hj1 => ?_)
      obtain rfl := hword w rfl
      simp only [length_cons, length_append] at hn hmax
      simp only [wp_ite]
      refine ⟨fun h0 => absurd h0 (code_ne_zero _), fun _ => ⟨fun hcode => absurd rfl hcode, fun _ => ⟨fun hb => ?_, fun _ =>
        ⟨fun hb => ?_, fun _ => ?_⟩⟩⟩⟩
      · omega
      · omega
      refine wp_seq (redirs_complete hrs n (by omega) (words_head hws hend (by decide)) hj1) fun rs' j2 hrs' => ?_
      refine wp_seq (ih hws (by omega) ?_ hrs'.2) fun r j3 hr => wp_pure.2 ⟨?_, hr.2⟩
      · rw [length_append, length_singleton]
        omega
      · rw [hr.1, hrs'.1, append_assoc, singleton_append]

theorem back_complete {c : Cmd} (k n : ℕ) (hk : k < n) (hend : ¬ looks ['&'] ts) (h : At s i (List.replicate k .amp ++ ts)) :
    wp E (parseback s n c) (fun c' j => c' = Cmd.back^[k] c ∧ At s j ts) i := by
  induction n generalizing i k c with
  | zero => exact absurd hk (Nat.not_lt_zero _)
  | succ n ih =>
    rw [parseback]
    cases k with
    | zero =>
      refine wp_bind.2 (wp_peek h (by decide) (fun j hl _ => absurd hl hend) fun j _ hj => ?_)
      rw [if_neg (by decide)]
      exact wp_pure.2 ⟨rfl, hj⟩
    | succ k =>
      rw [replicate_succ, cons_append] at h
      refine wp_bind.2 (wp_peek h (by decide) (fun j _ hj => ?_) fun j hno _ => absurd (looks_head rfl (by decide)) hno)
      rw [if_pos rfl]
      exact wp_bind.2 (wp_take hj fun _ j1 _ hj1 => ih k (by omega) hj1)

/-- a function of the parser returns the tree that the grammar gives to tokens, if what follows cannot belong to them -/
def Accepts (G : List Tok → Cmd → Prop) (K : List Tok) (s : Str) (p : ℕ → P Cmd) (k n : ℕ) : Prop :=
  ∀ {i ts ts' c}, G ts c → Follows K ts' → 4 * ts.length + k ≤ n → At s i (ts ++ ts') →
    wp (fun _ => False) (p n) (fun c' j => c' = c ∧ At s j ts') i

structure Complete (s : Str) (n : ℕ) : Prop where
  line : Accepts IsLine afterLine s (parseline s) 4 n
  pipe : Accepts IsPipe afterPipe s (parsepipe s) 3 n
  exec : Accepts IsExec afterExec s (parseexec s) 2 n
  block : ∀ {i ts ts' ts'' c rs}, IsLine ts c → IsRedirs ts' rs → Follows afterExec ts'' →
    4 * (ts.length + ts'.length + 2) + 1 ≤ n → At s i (.lparen :: (ts ++ .rparen :: (ts' ++ ts''))) →
    wp (fun _ => False) (parseblock s n) (fun c' j => c' = wrap c rs ∧ At s j ts'') i

theorem line_complete (h : Complete s n) : Accepts IsLine afterLine s (parseline s) 4 (n + 1) := by
  intro i ts ts' c hline hend hn hi
  have hnoamp : ¬ looks ['&'] ts' := not_looks hend (by decide)
  rw [parseline]
  cases hline with
  | @single ts c k hpipe =>
    have hafter : Follows afterPipe (List.replicate k .amp ++ ts') := by
      cases k with
      | zero => exact follows_mono hend (by decide)
      | succ k => exact follows_head (by decide)
    rw [length_append, length_replicate] at hn
    rw [append_assoc] at hi
    refine wp_seq (h.pipe hpipe hafter (by omega) hi) fun c' j hc' => ?_
    obtain ⟨rfl, hj⟩ := hc'
    refine wp_seq (back_complete k n (by omega) hnoamp hj) fun c'' j1 hc'' => ?_
    refine wp_bind.2 (wp_peek hc''.2 (by decide) (fun j2 hl _ => absurd hl (not_looks hend (by decide))) fun j2 _ hj2 => ?_)
    rw [if_neg (by decide)]
    exact wp_pure.2 ⟨hc''.1, hj2⟩
  | @seq ts ts1 c c1 k hpipe hline =>
    have hafter : Follows afterPipe (List.replicate k .amp ++ .semi :: (ts1 ++ ts')) := by
      cases k with
      | zero | succ k => exact follows_head (by decide)
    simp only [length_append, length_replicate, length_cons] at hn
    simp only [append_assoc, cons_append] at hi
    refine wp_seq (h.pipe hpipe hafter (by omega) hi) fun c' j hc' => ?_
    obtain ⟨rfl, hj⟩ := hc'
    have hsemi : ¬ looks ['&'] (.semi :: (ts1 ++ ts')) :=
      not_looks (K := [.semi]) (follows_head (by decide)) (by decide)
    refine wp_seq (back_complete k n (by omega) hsemi hj) fun c'' j1 hc'' => ?_
    refine wp_bind.2 (wp_peek hc''.2 (by decide) (fun j2 _ hj2 => ?_) fun j2 hno _ => absurd (looks_head rfl (by decide)) hno)
    rw [if_pos rfl]
    refine wp_bind.2 (wp_take hj2 fun _ j3 _ hj3 => ?_)
    refine wp_seq (h.line hline hend (by omega) hj3) fun c2 j4 hc2 => wp_pure.2 ⟨?_, hc2.2⟩
    rw [hc''.1, hc2.1]

theorem pipe_complete (h : Complete s n) : Accepts IsPipe afterPipe s (parsepipe s) 3 (n + 1) := by
  intro i ts ts' c hpipe hend hn hi
  rw [parsepipe]
  cases hpipe with
  | single hexec =>
    refine wp_seq (h.exec hexec (follows_mono hend (by decide)) (by omega) hi) fun c' j hc' => ?_
    refine wp_bind.2 (wp_peek hc'.2 (by decide) (fun j1 hl _ => absurd hl (not_looks hend (by decide))) fun j1 _ hj1 => ?_)
    rw [if_neg (by decide)]
    exact wp_pure.2 ⟨hc'.1, hj1⟩
  | @pipe ts ts1 c c1 hexec hpipe =>
    simp only [length_append, length_cons] at hn
    simp only [append_assoc, cons_append] at hi
    refine wp_seq (h.exec hexec (follows_head (by decide)) (by omega) hi) fun c' j hc' => ?_
    refine wp_bind.2 (wp_peek hc'.2 (by decide) (fun j1 _ hj1 => ?_) fun j1 hno _ => absurd (looks_head rfl (by decide)) hno)
    rw [if_pos rfl]
    refine wp_bind.2 (wp_take hj1 fun _ j2 _ hj2 => ?_)
    refine wp_seq (h.pipe hpipe hend (by omega) hj2) fun c2 j3 hc2 => wp_pure.2 ⟨?_, hc2.2⟩
    rw [hc'.1, hc2.1]

theorem block_complete (h : Complete s n) {ts'' : List Tok} {c : Cmd} (hline : IsLine ts c)
    (hrs : IsRedirs ts' rs) (hend : Follows afterExec ts'') (hn : 4 * (ts.length + ts'.length + 2) + 1 ≤ n + 1)
    (hi : At s i (.lparen :: (ts ++ .rparen :: (ts' ++ ts'')))) :
    wp (fun _ => False) (parseblock s (n + 1)) (fun c' j => c' = wrap c rs ∧ At s j ts'') i := by
  rw [parseblock]
  refine wp_bind.2 (wp_peek hi (by decide) (fun j _ hj => ?_) fun j hno _ => absurd (looks_head rfl (by decide)) hno)
  rw [if_pos rfl]
  refine wp_bind.2 (wp_take hj fun _ j1 _ hj1 => ?_)
  refine wp_seq (h.line hline (follows_head (by decide)) (by omega) hj1) fun c' j2 hc' => ?_
  refine wp_bind.2 (wp_peek hc'.2 (by decide) (fun j3 _ hj3 => ?_) fun j3 hno _ => absurd (looks_head rfl (by decide)) hno)
  rw [if_pos rfl]
  refine wp_bind.2 (wp_take hj3 fun _ j4 _ hj4 => ?_)
  refine wp_seq (redirs_complete hrs n (by omega) (not_looks hend (by decide)) hj4) fun rs' j5 hrs' => wp_pure.2 ⟨?_, hrs'.2⟩
  rw [hc'.1, hrs'.1]

/-- redirections start with a redirection -/
theorem redirs_head (h : IsRedirs ts rs) (hno : ¬ looks ['('] ts') : ¬ looks ['('] (ts ++ ts') := by
  cases h with
  | nil => exact hno
  | @cons op file ts rs h =>
    refine not_looks (K := [.redir op]) (follows_head (mem_singleton_self _)) ?_
    cases op <;> decide

theorem exec_complete (h : Complete s n) : Accepts IsExec afterExec s (parseexec s) 2 (n + 1) := by
  intro i ts ts' c hexec hend hn hi
  rw [parseexec]
  cases hexec with
  | @block ts ts1 c rs hline hrs =>
    simp only [length_append, length_cons] at hn
    simp only [append_assoc, cons_append] at hi
    refine wp_bind.2 (wp_peek hi (by decide) (fun j _ hj => ?_) fun j hno _ => absurd (looks_head rfl (by decide)) hno)
    rw [if_pos rfl]
    exact h.block hline hrs hend (by omega) hj
  | @words ts ts1 rs rs1 ws hrs hws hmax =>
    rw [length_append] at hn
    rw [append_assoc] at hi
    have hno : ¬ looks ['('] (ts ++ (ts1 ++ ts')) := redirs_head hrs (words_head hws hend (by decide))
    refine wp_bind.2 (wp_peek hi (by decide) (fun j hl _ => absurd hl hno) fun j _ hj => ?_)
    rw [if_neg (by decide)]
    refine wp_seq (redirs_complete hrs n (by omega) (words_head hws hend (by decide)) hj) fun rs' j1 hrs' => ?_
    refine wp_seq (words_complete hws n (by omega) (by simpa using hmax) hend hrs'.2) fun r j2 hr => ?_
    obtain ⟨rfl, hj2⟩ := hr
    refine wp_ite.2 ⟨fun hb => absurd hmax hb, fun _ => wp_pure.2 ⟨?_, hj2⟩⟩
    rw [hrs'.1]
    rfl

/-- **A tree of the grammar is what the parser returns.** -/
theorem complete (s : Str) (n : ℕ) : Complete s n := by
  induction n with
  | zero =>
    exact ⟨fun _ _ h => absurd h (by omega), fun _ _ h => absurd h (by omega), fun _ _ h => absurd h (by omega),
      fun _ _ _ h => absurd h (by omega)⟩
  | succ n ih => exact ⟨line_complete ih, pipe_complete ih, exec_complete ih, block_complete ih⟩

/-! ## parsecmd -/

theorem lex_length (cs : List UInt8) (i : ℕ) : (lex cs i).length ≤ cs.length := by
  induction cs, i using lex.induct with
  | case1 i =>
    rw [lex_nil]
    exact le_refl _
  | case2 c cs i hc ih =>
    rw [lex_space hc, length_cons]
    omega
  | case3 c cs i hc t ht ih =>
    rw [lex, if_neg hc, ht]
    simp only [length_cons]
    omega
  | case4 cs i hgt hc hop ih =>
    rw [lex, if_neg hc, hop]
    simp only [if_pos, if_pos hgt, length_cons]
    rw [length_tail] at ih
    omega
  | case5 cs i hgt hc hop ih =>
    rw [lex, if_neg hc, hop]
    simp only [if_pos, if_neg hgt, length_cons]
    omega
  | case6 c cs i hc hop hgt ih =>
    rw [lex, if_neg hc, hop]
    simp only [if_neg hgt, length_cons]
    have hle := (dropWhile_suffix (l := cs) isWord).length_le
    omega

theorem at_start (s : Str) : At s 0 (tokens s) := ⟨Nat.zero_le _, rfl⟩

/-- no token is left exactly at the end of the line -/
theorem at_end (h : At s i ts) : s.skip isSpace i = s.length ↔ ts = [] := by
  have hskip := at_skip h
  cases hd : s.bytes.drop (s.skip isSpace i) with
  | nil =>
    have hle := drop_eq_nil_iff.1 hd
    have hts := hskip.toks
    rw [hd, lex_nil] at hts
    exact ⟨fun _ => hts.symm, fun _ => le_antisymm hskip.le hle⟩
  | cons c cs =>
    obtain ⟨-, -, -, hlt⟩ := drop_cons hd
    obtain ⟨t, hlex, -⟩ := token_at hd (skipped hd)
    have hts := hskip.toks
    rw [hd, hlex] at hts
    rw [← hts]
    exact ⟨fun he => absurd he (by omega), fun hnil => by cases hnil⟩

/-- the end of parsecmd: no token is left -/
theorem wp_leftovers {Q : Cmd → ℕ → Prop} {c : Cmd} (h : At s i ts) (hpanic : ts ≠ [] → E (.panic "syntax"))
    (hQ : ∀ j, ts = [] → Q c j) :
    wp E (do
      let _ ← peek s []
      if (← get) ≠ s.length then throw (.panic "syntax") else return c) Q i := by
  unfold peek
  simp only [wp_bind, wp_get, wp_set, wp_pure, wp_ite, wp_throw]
  exact ⟨fun hne => hpanic fun hnil => hne ((at_end h).2 hnil), fun heq => hQ _ ((at_end h).1 (not_not.1 heq))⟩

theorem tree_sound (hn : 4 * s.length + 4 ≤ n) : wp Panics (parsetree s n) (fun c _ => IsLine (tokens s) c) 0 := by
  have hlen : (tokens s).length ≤ s.length := lex_length s.bytes 0
  unfold parsetree
  refine wp_seq ((sound s n).line (at_start s) (by omega)) fun c j hc => ?_
  obtain ⟨ts1, ts2, hts, hj, hline⟩ := hc
  refine wp_leftovers hj (fun _ => ⟨_, rfl⟩) fun j1 hnil => ?_
  rwa [hts, hnil, append_nil]

theorem tree_complete {c : Cmd} (hn : 4 * s.length + 4 ≤ n) (h : IsLine (tokens s) c) :
    wp (fun _ => False) (parsetree s n) (fun c' _ => c' = c) 0 := by
  have hlen : (tokens s).length ≤ s.length := lex_length s.bytes 0
  have hstart := at_start s
  rw [← append_nil (tokens s)] at hstart
  unfold parsetree
  refine wp_seq ((complete s n).line h (fun _ ht => (by cases ht)) (by omega) hstart) fun c' j hc => ?_
  exact wp_leftovers hc.2 (fun hne => absurd rfl hne) fun _ _ => hc.1

/-- **The shell's parser accepts exactly its grammar.** For every line, with a bound on the depth of calls and the rounds of loops
that is not too small: parsecmd returns the tree c exactly if the grammar gives c to the tokens of the line; and if it does not
return, it is by one of the shell's own error messages: it does not go on for ever, and argv and eargv are not indexed out
of bounds. -/
theorem parser_accepts_grammar (s : Str) (n : ℕ) (hn : 4 * s.length + 4 ≤ n) :
    (∀ c, (∃ m, parsecmd s n = .ok (c, m)) ↔ IsLine (tokens s) c) ∧
      ∀ e, parsecmd s n = .error e → ∃ msg, e = .panic msg := by
  have hsound := tree_sound hn
  unfold parsecmd
  cases hrun : parsetree s n 0 with
  | ok x =>
    obtain ⟨c, j⟩ := x
    have hline := wp_ok hsound hrun
    refine ⟨fun c' => ⟨fun h => ?_, fun h => ?_⟩, fun e he => by cases he⟩
    · obtain ⟨m, hm⟩ := h
      cases hm
      exact hline
    · obtain rfl := wp_ok (tree_complete hn h) hrun
      exact ⟨_, rfl⟩
  | error e =>
    refine ⟨fun c' => ⟨fun h => ?_, fun h => ?_⟩, fun e' he => ?_⟩
    · obtain ⟨m, hm⟩ := h
      cases hm
    · exact (wp_error (tree_complete hn h) hrun).elim
    · cases he
      have hpanic := wp_error hsound hrun
      exact hpanic

/-- `a | b > c` -/
def pipeLine : Str := ⟨[97, 32, 124, 32, 98, 32, 62, 32, 99], by decide⟩

theorem parser_accepts_grammar_pipeLine :
    IsLine (tokens pipeLine) (.pipe (.exec [⟨0, 1⟩]) (.redir (.exec [⟨4, 5⟩]) ⟨8, 9⟩ (O_WRONLY ||| O_CREATE) 1)) :=
  ((parser_accepts_grammar pipeLine 40 (by decide)).1 _).1 ⟨_, rfl⟩

end Xv6.Sh
