import Mathlib.Data.Nat.Digits.Defs
import Ydb.PieceMatching

/-!
# Pieces that differ

Two strings are compared piece by piece, in the ranges of pieces that are asked for. Pieces
that are not asked for are skipped. The numbers of the pieces that differ are listed.
-/

namespace Ydb

open Lib

/-! ## Numbers -/

/-- The loop of `i2asc`, from the last digit on. -/
def i2ascLoop (n : Nat) (digits : List UInt8) : List UInt8 :=
  if n = 0 then digits else i2ascLoop (n / 10) (UInt8.ofNat (n % 10 + 48) :: digits)
termination_by n

/-- A number as text. -/
def i2asc (n : Nat) : List UInt8 := if n = 0 then [48] else i2ascLoop n []

/-- The same, short numbers first. -/
def I2A_INLINE (num : Nat) : List UInt8 :=
  if num < 1000 then
    let n2 := num / 100 % 10
    let hundreds := if n2 ≠ 0 then [UInt8.ofNat (n2 + 48)] else []
    let n1 := num / 10 % 10
    let tens := if n1 ≠ 0 ∨ n2 ≠ 0 then [UInt8.ofNat (n1 + 48)] else []
    hundreds ++ tens ++ [UInt8.ofNat (num % 10 + 48)]
  else i2asc num

/-! ## Scans -/

/-- A scan of a string: what is left of it, and whether its end has been seen. -/
structure PieceScan where
  ptr : Nat
  len : Nat
  end_seen : Bool

/-- A piece that was matched: how long it is, and where the scan goes on behind it. -/
structure PieceMatch where
  match_len : Nat
  match_end : Nat
  piece_exists : Bool

/-- The bytes at a position. There is no result if they are not all in the string. -/
def bytesAt (str : List UInt8) (ptr len : Nat) : Option (List UInt8) :=
  if ptr + len ≤ str.length then some ((str.drop ptr).take len) else none

/-- Skip pieces. -/
def SKIP_PIECES (delim str : List UInt8) (scan : PieceScan) (skppcs : Nat) : Option PieceScan :=
  if scan.len ≠ 0 then do
    let bytes ← bytesAt str scan.ptr scan.len
    let (match_end, match_res, _) ← matchb delim bytes skppcs
    if match_res ≠ 0 then some { scan with len := scan.len - match_end, ptr := scan.ptr + match_end }
    else some { scan with len := 0, end_seen := true }
  else some { scan with end_seen := true }

/-- The piece at the scan. -/
def MATCH_CURPIECE (delim str : List UInt8) (scan : PieceScan) : Option (PieceScan × PieceMatch) :=
  if scan.end_seen = false then do
    let bytes ← bytesAt str scan.ptr scan.len
    let (match_end, match_res, _) ← matchb delim bytes 1
    if match_res = 0 then some ({ scan with end_seen := true }, ⟨match_end, match_end, true⟩)
    else some (scan, ⟨match_end - delim.length, match_end, true⟩)
  else some (scan, ⟨0, 0, false⟩)

/-- Go on behind the piece. -/
def UPDATE_PTR_LEN (scan : PieceScan) (piece : PieceMatch) : PieceScan :=
  if scan.end_seen = false then
    { scan with len := scan.len - piece.match_end, ptr := scan.ptr + piece.match_end }
  else scan

/-! ## The loop -/

/-- A range of pieces, with both ends. -/
structure gtm_num_range_t where
  min : Nat
  max : Nat

def MAXPOSINT4 : Nat := 2147483647

/-- The pieces that are not asked for are skipped, if there are any. -/
def skipTo (delim str : List UInt8) (scan : PieceScan) (skippcs : Nat) : Option PieceScan :=
  if skippcs ≠ 0 then SKIP_PIECES delim str scan skippcs else some scan

/-- Whether the current pieces differ. -/
def piecesDiffer (oldstr newstr : List UInt8) (old new : PieceScan) (oldPiece newPiece : PieceMatch) :
    Option Bool :=
  if oldPiece.piece_exists ≠ newPiece.piece_exists ∨ oldPiece.match_len ≠ newPiece.match_len then some true
  else do
    let left ← bytesAt oldstr old.ptr oldPiece.match_len
    let right ← bytesAt newstr new.ptr oldPiece.match_len
    some (left ≠ right)

/-- A piece number is added to the list. -/
def addPiece (pcdiff : List UInt8) (curpiece : Nat) : List UInt8 :=
  (if pcdiff ≠ [] then pcdiff ++ [0x2C] else pcdiff) ++ I2A_INLINE curpiece

/-- The loop, for so many turns. -/
def pieceDiffLoop (delim oldstr newstr : List UInt8) :
    Nat → (old new : PieceScan) → (curpiece nextmin nextmax : Nat) → List gtm_num_range_t → List UInt8 →
      Option (List UInt8)
  | 0, _, _, _, _, _, _, _ => none
  | turns + 1, old, new, curpiece, nextmin, nextmax, piecearray, pcdiff =>
    if old.end_seen ∧ new.end_seen then some pcdiff
    else do
      let skippcs := nextmin - curpiece
      let old ← skipTo delim oldstr old skippcs
      let new ← skipTo delim newstr new skippcs
      if skippcs ≠ 0 ∧ old.end_seen ∧ new.end_seen then some pcdiff
      else
        let curpiece := nextmin
        let (old, oldPiece) ← MATCH_CURPIECE delim oldstr old
        let (new, newPiece) ← MATCH_CURPIECE delim newstr new
        if oldPiece.piece_exists = false ∧ newPiece.piece_exists = false then some pcdiff
        else
          let differ ← piecesDiffer oldstr newstr old new oldPiece newPiece
          let pcdiff := if differ then addPiece pcdiff curpiece else pcdiff
          let old := UPDATE_PTR_LEN old oldPiece
          let new := UPDATE_PTR_LEN new newPiece
          let curpiece := curpiece + 1
          if nextmin = nextmax then
            match piecearray with
            | [] => some pcdiff
            | range :: piecearray =>
              pieceDiffLoop delim oldstr newstr turns old new curpiece range.min range.max piecearray pcdiff
          else pieceDiffLoop delim oldstr newstr turns old new curpiece (nextmin + 1) nextmax piecearray pcdiff

/-- The numbers of the pieces that differ, with commas between them. No range stands for all pieces. -/
def strpiecediff (oldstr newstr delim : List UInt8) (piecearray : List gtm_num_range_t) :
    Option (List UInt8) :=
  let turns := oldstr.length + newstr.length + 3
  let old : PieceScan := ⟨0, oldstr.length, false⟩
  let new : PieceScan := ⟨0, newstr.length, false⟩
  match piecearray with
  | [] => pieceDiffLoop delim oldstr newstr turns old new 1 1 MAXPOSINT4 [] []
  | range :: piecearray =>
    pieceDiffLoop delim oldstr newstr turns old new 1 range.min range.max piecearray []

end Ydb
