/-
The disk as blocks of bytes: the constants of param.h and fs.h.

A block is a buffer of BSIZE bytes, a disk is a function from block numbers to blocks. Block numbers (`uint`) are natural
numbers.
-/
import Xv6.Lib.Bytes

namespace Xv6.Fs

open Bytes

abbrev BSIZE : ℕ := 512
abbrev MAXOPBLOCKS : ℕ := 10
abbrev LOGSIZE : ℕ := MAXOPBLOCKS * 3
abbrev NBUF : ℕ := MAXOPBLOCKS * 3

instance : NeZero NBUF := ⟨by decide⟩

theorem BSIZE_eq : BSIZE = 512 := rfl
theorem LOGSIZE_eq : LOGSIZE = 30 := rfl

abbrev Block := Bytes.Buf BSIZE
abbrev Disk := ℕ → Block

end Xv6.Fs
