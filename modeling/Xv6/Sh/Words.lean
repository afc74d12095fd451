/-
nulterminate (sh.c) ends the words of a command in the line itself, and no word is hurt.

- `Cmd.words`: the words and the files of a command.
- `Text s w`: w is a maximal run of word characters of the line.
- `Reads m q bs`: the memory from q on holds bs and a NUL behind it.

Results:
- `line_words`: the words of a command are tokens of the line;
- `token_text`: the words of a line are maximal, so the end of one is not inside another;
- `nulterminate_at`: nulterminate writes a NUL at the end of each word, and nothing else;
- `words_survive`: **after parsecmd every word and every file reads as the text of its token, and no NUL is inside a token**.
-/
import Mathlib.Data.List.TakeWhile
import Xv6.Sh.Grammar

namespace Xv6.Sh

open Fallible Function List

variable {s : Str} {i j n x : ℕ} {w : Word} {c : Cmd} {ts : List Tok}

/-! ## The words of a command -/

def Cmd.words : Cmd → List Word
  | .exec argv => argv
  | .redir cmd file _ _ => cmd.words ++ [file]
  | .pipe left right => left.words ++ right.words
  | .list left right => left.words ++ right.words
  | .back cmd => cmd.words

theorem words_redircmd (c : Cmd) (r : Redir) : (redircmd c r).words = c.words ++ [r.file] := by
  unfold redircmd
  cases r.op <;> rfl

theorem words_wrap (c : Cmd) (rs : List Redir) : (wrap c rs).words = c.words ++ rs.map Redir.file := by
  unfold wrap
  induction rs generalizing c with
  | nil => exact (append_nil _).symm
  | cons r rs ih => rw [foldl_cons, ih, words_redircmd, append_assoc, map_cons, singleton_append]

theorem words_back (k : ℕ) (c : Cmd) : (Cmd.back^[k] c).words = c.words := by
  induction k generalizing c with
  | zero => rfl
  | succ k ih => rw [Function.iterate_succ_apply, ih, Cmd.words]

theorem redirs_words {rs : List Redir} (h : IsRedirs ts rs) (hw : w ∈ rs.map Redir.file) : .word w ∈ ts := by
  induction h with
  | nil => cases hw
  | cons h ih =>
    rw [map_cons, mem_cons] at hw
    rcases hw with rfl | hw
    · exact mem_cons_of_mem _ mem_cons_self
    · exact mem_cons_of_mem _ (mem_cons_of_mem _ (ih hw))

theorem words_words {ws : List Word} {rs : List Redir} (h : IsWords ts ws rs) (hw : w ∈ ws ++ rs.map Redir.file) :
    .word w ∈ ts := by
  induction h with
  | nil => cases hw
  | cons hrs h ih =>
    simp only [mem_cons, mem_append, map_append, cons_append] at hw ih ⊢
    rcases hw with rfl | hw | hw | hw
    · exact .inl rfl
    · exact .inr (.inr (ih (.inl hw)))
    · exact .inr (.inl (redirs_words hrs hw))
    · exact .inr (.inr (ih (.inr hw)))

/-- every word of a command is a token -/
def FromTokens (ts : List Tok) (c : Cmd) : Prop := ∀ w ∈ c.words, .word w ∈ ts

theorem line_words (h : IsLine ts c) : FromTokens ts c := by
  refine @IsLine.rec (fun ts c _ => FromTokens ts c) (fun ts c _ => FromTokens ts c) (fun ts c _ => FromTokens ts c)
    ?_ ?_ ?_ ?_ ?_ ?_ ts c h
  · intro ts c k _ ih w hw
    rw [words_back] at hw
    exact mem_append_left _ (ih w hw)
  · intro ts ts' c c' k _ _ ih ih' w hw
    rw [Cmd.words, words_back] at hw
    rcases mem_append.1 hw with hw | hw
    · exact mem_append_left _ (mem_append_left _ (ih w hw))
    · exact mem_append_right _ (mem_cons_of_mem _ (ih' w hw))
  · intro ts c _ ih
    exact ih
  · intro ts ts' c c' _ _ ih ih' w hw
    rcases mem_append.1 hw with hw | hw
    · exact mem_append_left _ (ih w hw)
    · exact mem_append_right _ (mem_cons_of_mem _ (ih' w hw))
  · intro ts ts' c rs _ hrs ih w hw
    rw [words_wrap] at hw
    refine mem_cons_of_mem _ ?_
    rcases mem_append.1 hw with hw | hw
    · exact mem_append_left _ (ih w hw)
    · exact mem_append_right _ (mem_cons_of_mem _ (redirs_words hrs hw))
  · intro ts ts' rs rs' ws hrs hws _ w hw
    rw [words_wrap, map_append, Cmd.words] at hw
    simp only [mem_append] at hw ⊢
    rcases hw with hw | hw | hw
    · exact .inr (words_words hws (mem_append_left _ hw))
    · exact .inl (redirs_words hrs hw)
    · exact .inr (words_words hws (mem_append_right _ hw))

/-! ## The words of a line -/

structure Text (s : Str) (w : Word) : Prop where
  start : w.q < w.eq
  inside : w.eq ≤ s.length
  all : ∀ k, w.q ≤ k → k < w.eq → isWord (s.char k) = true
  maximal : w.eq = s.length ∨ isWord (s.char w.eq) = false

theorem skip_all (p : UInt8 → Bool) {k : ℕ} (hk : i ≤ k) (hk' : k < s.skip p i) : p (s.char k) = true := by
  unfold Str.skip at hk'
  have hlt : k - i < ((s.bytes.drop i).takeWhile p).length := by omega
  have hp := mem_takeWhile_imp (getElem_mem hlt)
  have hpre := ( takeWhile_prefix (l := s.bytes.drop i) p).getElem hlt
  have hlen := ( takeWhile_prefix (l := s.bytes.drop i) p).length_le
  have hin : k < s.bytes.length := by
    rw [length_drop] at hlen
    omega
  rw [hpre, getElem_drop] at hp
  rw [Str.char, getD_eq_getElem?_getD, getElem?_eq_getElem hin, Option.getD_some]
  have hk : i + (k - i) = k := by omega
  simpa only [hk] using hp

theorem skip_stop (p : UInt8 → Bool) (hi : i ≤ s.length) : s.skip p i = s.length ∨ p (s.char (s.skip p i)) = false := by
  cases hd : s.bytes.drop (s.skip p i) with
  | nil => exact .inl (le_antisymm (skip_le hi) (drop_eq_nil_iff.1 hd))
  | cons c cs =>
    right
    rw [(drop_cons hd).1]
    rw [drop_skip] at hd
    have hhead := head?_dropWhile_not p (s.bytes.drop i)
    rw [hd, head?_cons] at hhead
    simpa using hhead

theorem token_word (h : (tokenAt s i).1 = 'a'.toUInt8) : (tokenAt s i).2 = s.skip isWord i := by
  unfold tokenAt at h ⊢
  simp only at h ⊢
  split_ifs at h ⊢ with h1 h2 h3 h4
  · cases h
  · have hc : s.char i = 'a'.toUInt8 := h
    rw [hc] at h2
    exact absurd h2 (by decide)
  · cases h
  · cases h
  · rfl

/-- the words among the tokens are maximal runs -/
theorem token_text (h : At s i ts) (hw : .word w ∈ ts) : Text s w := by
  induction ts generalizing i with
  | nil => cases hw
  | cons t ts ih =>
    have hskip := at_skip h
    have hspace : ∀ {c cs}, s.bytes.drop (s.skip isSpace i) = c :: cs → isSpace c = false := fun hd => skipped hd
    generalize s.skip isSpace i = q at hskip hspace
    cases hd : s.bytes.drop q with
    | nil =>
      have hts := hskip.toks
      rw [hd, lex_nil] at hts
      cases hts
    | cons c cs =>
      obtain ⟨t', hlex, hcode, hle, hword, hsign⟩ := token_at hd (hspace hd)
      have hts := hskip.toks
      rw [hd, hlex] at hts
      obtain ⟨rfl, hrest⟩ := cons_eq_cons.1 hts
      rcases mem_cons.1 hw with rfl | hw
      · have heq := token_word hcode
        obtain rfl := hword w rfl
        obtain ⟨hchar, -, -, hlt⟩ := drop_cons hd
        have hwc : isWord c = true := isWord_iff.2 ⟨hspace hd, by
          rcases hsign with hsome | ⟨-, hsym⟩
          · cases hsome
          · exact hsym⟩
        refine ⟨?_, hle, fun k hk hk' => ?_, ?_⟩
        · simp only [heq]
          rw [Str.skip, hd, takeWhile_cons_of_pos hwc, length_cons]
          omega
        · simp only [heq] at hk'
          exact skip_all isWord hk hk'
        · simp only [heq]
          exact skip_stop isWord hskip.le
      · exact ih ⟨hle, hrest⟩ hw

/-- the end of a word is not inside a word -/
theorem end_outside {v : Word} (hv : Text s v) (hw : Text s w) : ¬ (w.q ≤ v.eq ∧ v.eq < w.eq) := by
  intro hin
  rcases hv.maximal with hend | hstop
  · have hle := hw.inside
    omega
  · rw [hw.all v.eq hin.1 hin.2] at hstop
    cases hstop

/-! ## nulterminate -/

theorem terminate_at (ws : List Word) (m : ℕ → UInt8) (x : ℕ) : terminate ws m x = if x ∈ ws.map Word.eq then 0 else m x := by
  unfold terminate
  induction ws generalizing m with
  | nil => rfl
  | cons w ws ih =>
    rw [foldl_cons, ih, update_apply]
    simp only [map_cons, mem_cons]
    by_cases hx : x ∈ ws.map Word.eq
    · rw [if_pos hx, if_pos (.inr hx)]
    · rw [if_neg hx]
      by_cases he : x = w.eq
      · rw [if_pos he, if_pos (.inl he)]
      · rw [if_neg he, if_neg fun hor => hor.elim he hx]

theorem ite_append {α : Type} {l l' : List ℕ} {a b : α} :
    (if x ∈ l' then a else if x ∈ l then a else b) = if x ∈ l ++ l' then a else b := by
  simp only [mem_append]
  by_cases h' : x ∈ l'
  · rw [if_pos h', if_pos (.inr h')]
  · rw [if_neg h']
    exact if_congr ⟨.inl, fun hor => hor.resolve_right h'⟩ rfl rfl

/-- a NUL at the end of each word, and nothing else -/
theorem nulterminate_at (c : Cmd) (m : ℕ → UInt8) (x : ℕ) :
    nulterminate c m x = if x ∈ c.words.map Word.eq then 0 else m x := by
  induction c generalizing m with
  | exec argv => exact terminate_at argv m x
  | redir cmd file mode fd ih =>
    rw [nulterminate, update_apply, ih, Cmd.words, map_append, ← ite_append, map_singleton]
    simp only [mem_singleton]
  | pipe left right ihl ihr | list left right ihl ihr => rw [nulterminate, ihr, ihl, Cmd.words, map_append, ite_append]
  | back cmd ih => rw [nulterminate, ih, Cmd.words]

def Reads (m : ℕ → UInt8) (q : ℕ) (bs : List UInt8) : Prop := 0 ∉ bs ∧ ∀ k ≤ bs.length, m (q + k) = bs.getD k 0

/-- the text of a token -/
def Str.text (s : Str) (w : Word) : List UInt8 := (s.bytes.drop w.q).take (w.eq - w.q)

theorem text_length (h : Text s w) : (s.text w).length = w.eq - w.q := by
  have h1 := h.start
  have h2 := h.inside
  unfold Str.length at h2
  rw [Str.text, length_take, length_drop]
  omega

theorem text_getD {k : ℕ} (hk : k < w.eq - w.q) : (s.text w).getD k 0 = s.char (w.q + k) := by
  rw [Str.text, getD_eq_getElem?_getD, getElem?_take_of_lt hk, getElem?_drop, Str.char,
    getD_eq_getElem?_getD]

/-- **Ending the words in place hurts none of them.** When parsecmd returns a command: each of its words and files is a token of the
line, and the memory there reads as the text of the token, up to a NUL; the NULs are where these tokens end, none of which is
inside a word of the line; and nothing else has changed. -/
theorem words_survive (s : Str) (n : ℕ) (hn : 4 * s.length + 4 ≤ n) (c : Cmd) (m : ℕ → UInt8) (h : parsecmd s n = .ok (c, m)) :
    (∀ w ∈ c.words, .word w ∈ tokens s ∧ Reads m w.q (s.text w)) ∧
      (∀ w ∈ c.words, m w.eq = 0 ∧ ∀ v, .word v ∈ tokens s → ¬ (v.q ≤ w.eq ∧ w.eq < v.eq)) ∧
      ∀ x, m x ≠ s.memory x → ∃ w ∈ c.words, x = w.eq := by
  unfold parsecmd at h
  cases hrun : parsetree s n 0 with
  | error e =>
    rw [hrun] at h
    cases h
  | ok y =>
    obtain ⟨c', j⟩ := y
    rw [hrun] at h
    cases h
    have hsound := tree_sound hn
    have hline := wp_ok hsound hrun
    have hwords := line_words hline
    have htext : ∀ w, .word w ∈ tokens s → Text s w := fun w hw => token_text (at_start s) hw
    have hend : ∀ w ∈ c.words, nulterminate c s.memory w.eq = 0 := by
      intro w hw
      rw [nulterminate_at, if_pos (mem_map_of_mem hw)]
    refine ⟨fun w hw => ⟨hwords w hw, ?_, fun k hk => ?_⟩, fun w hw => ⟨hend w hw, fun v hv => ?_⟩, fun x hx => ?_⟩
    · intro h0
      exact s.clean (mem_of_mem_drop (mem_of_mem_take h0))
    · have hw' := htext w (hwords w hw)
      have hstart := hw'.start
      rw [text_length hw'] at hk
      rcases Nat.lt_or_ge k (w.eq - w.q) with hlt | hge
      · rw [text_getD hlt, nulterminate_at, if_neg fun hmem => ?_]
        · rfl
        · obtain ⟨v, hv, hveq⟩ := mem_map.1 hmem
          exact end_outside (htext v (hwords v hv)) hw' (by omega)
      · have hke : w.q + k = w.eq := by omega
        rw [hke, hend w hw, getD_eq_getElem?_getD, getElem?_eq_none (by rw [text_length hw']; omega)]
        rfl
    · exact end_outside (htext w (hwords w hw)) (htext v hv)
    · rw [nulterminate_at] at hx
      split_ifs at hx with hmem
      · obtain ⟨w, hw, heq⟩ := mem_map.1 hmem
        exact ⟨w, hw, heq.symm⟩
      · exact absurd rfl hx

/-- `a>b` -/
def redirLine : Str := ⟨[97, 62, 98], by decide⟩

/-- The NUL behind `a` is where the `>` was. -/
theorem words_survive_redir : ∃ c m, parsecmd redirLine 16 = .ok (c, m) ∧ c.words = [⟨0, 1⟩, ⟨2, 3⟩] ∧ Reads m 0 [97] := by
  refine ⟨_, _, rfl, rfl, ?_⟩
  exact ((words_survive redirLine 16 (by decide) _ _ rfl).1 ⟨0, 1⟩ (by decide)).2

end Xv6.Sh
