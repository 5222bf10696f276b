import Mathlib

/-! # A buffered writer

The buffered writer of the standard library over a file that takes whole
pieces: a piece that does not fit makes room by flushing, a piece as large as
the buffer bypasses it.  Nothing is lost or reordered (`contents_writeAll`),
but what is buffered is not in the file yet. -/
set_option autoImplicit false

namespace KindDb.Lib

structure BufWriter (Piece : Type) where
  file : List Piece
  buf : List Piece
deriving Repr

namespace BufWriter

variable {Piece : Type} (size : Piece → Nat) (capacity : Nat)

def new : BufWriter Piece := { file := [], buf := [] }

def buffered (w : BufWriter Piece) : Nat := (w.buf.map size).sum

def flushBuf (w : BufWriter Piece) : BufWriter Piece := { file := w.file ++ w.buf, buf := [] }

def writeAllCold (w : BufWriter Piece) (p : Piece) : BufWriter Piece :=
  let w := if size p > capacity - w.buffered size then w.flushBuf else w
  if capacity ≤ size p then { w with file := w.file ++ [p] } else { w with buf := w.buf ++ [p] }

def writeAll (w : BufWriter Piece) (p : Piece) : BufWriter Piece :=
  if size p < capacity - w.buffered size then { w with buf := w.buf ++ [p] }
  else w.writeAllCold size capacity p

/-- Everything written, in the file or not. -/
def contents (w : BufWriter Piece) : List Piece := w.file ++ w.buf

@[simp] theorem contents_new : (new : BufWriter Piece).contents = [] := rfl

@[simp] theorem contents_flushBuf (w : BufWriter Piece) : w.flushBuf.contents = w.contents := by
  simp [flushBuf, contents]

@[simp] theorem file_flushBuf (w : BufWriter Piece) : w.flushBuf.file = w.contents := rfl

variable {size capacity}

/-- A piece is written once; a direct write may overtake buffered pieces only if
these are empty texts. -/
theorem contents_writeAll (w : BufWriter Piece) (p : Piece) :
    (w.writeAll size capacity p).contents.Perm (w.contents ++ [p]) := by
  have direct : ∀ w : BufWriter Piece,
      ({ w with file := w.file ++ [p] } : BufWriter Piece).contents.Perm (w.contents ++ [p]) := by
    intro w
    simp only [contents, List.append_assoc]
    exact List.Perm.append_left w.file List.perm_append_comm
  have delayed : ∀ w : BufWriter Piece,
      ({ w with buf := w.buf ++ [p] } : BufWriter Piece).contents.Perm (w.contents ++ [p]) := by
    intro w
    simp [contents]
  unfold writeAll
  split
  · exact delayed w
  · unfold writeAllCold
    have room : (if size p > capacity - w.buffered size then w.flushBuf else w).contents =
        w.contents := by
      split
      · exact contents_flushBuf w
      · rfl
    rw [← room]
    dsimp only
    split
    · exact direct _
    · exact delayed _

/-- Nothing overtakes texts that are not empty. -/
theorem contents_writeAll_of_pos (room : 0 < capacity) (w : BufWriter Piece) (p : Piece)
    (positive : ∀ q ∈ w.buf, 0 < size q) :
    (w.writeAll size capacity p).contents = w.contents ++ [p] := by
  unfold writeAll
  split
  · simp [contents]
  · unfold writeAllCold
    split
    · simp only [flushBuf]
      split <;> simp [contents]
    · rename_i fits
      dsimp only
      split
      · have empty : w.buffered size = 0 := by omega
        have nothing : w.buf = [] := by
          refine List.eq_nil_iff_forall_not_mem.mpr fun q member => ?_
          have counted : size q ≤ w.buffered size := List.le_sum_of_mem (List.mem_map_of_mem member)
          have := positive q member
          omega
        simp [contents, nothing]
      · simp [contents]

end BufWriter

end KindDb.Lib
