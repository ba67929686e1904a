import Ydb.KeyBuilding
import Ydb.ZwriteFormat

/-!
# Decoding a subscript

`gvsub2str` turns the bytes of a subscript back into the string of its value. The
digits of a number come in pairs; the exponent tells after how many digits the
point belongs, and the loop places it before, inside or behind the current pair.
Behind a point at most one zero is superfluous, and the point itself if nothing
follows it; before the point zeros may be missing.
-/

namespace Ydb

open Lib

/-! ## The routine -/

abbrev SPANGLOB_SUB_ESCAPE : UInt8 := 0x02
/-- An exponent beyond reach: the point has been written. -/
def LARGE_EXP : Int := 10000
def SPAN_BLKID_BASE : Nat := 255

/-- The value of a byte as a signed character. -/
def signedChar (ch : UInt8) : Int := if ch.toNat < 128 then ch.toNat else ch.toNat - 256

/-- The digits of a pair code: `dpos`, read from one entry before its start. -/
def dpos (ch : UInt8) : List UInt8 :=
  let i := ch.toNat - 1
  [UInt8.ofNat (0x30 + i / 16), if i % 16 < 10 then UInt8.ofNat (0x30 + i % 16) else 0x2a]

/-- The digits of a complemented pair code: `dneg`. -/
def dneg (ch : UInt8) : List UInt8 :=
  let row := ch.toNat / 16
  let column := ch.toNat % 16
  if row < 6 then [UInt8.ofNat (0x30 + row), 0x2b]
  else
    [UInt8.ofNat (0x3f - row),
      if 5 ≤ column ∧ column < 15 then UInt8.ofNat (0x3e - column) else 0x2a]

/-- Copy a string up to its delimiter, without the escapes. -/
def unescape : List UInt8 → List UInt8 × List UInt8
  | [] => ([], [])
  | ch :: sub =>
    if ch = KEY_DELIMITER then ([], sub)
    else if ch = STR_SUB_ESCAPE then
      match sub with
      | [] => ([(0 : UInt8) - 1], [])
      | next :: sub =>
        let (rest, after) := unescape sub
        ((next - 1) :: rest, after)
    else
      let (rest, after) := unescape sub
      (ch :: rest, after)

/-- Write one zero, and `count` more while there is room. -/
def leadingZeros (targ_end : Nat) : Nat → List UInt8 → List UInt8
  | 0, targ => targ ++ [Ascii.zero]
  | count + 1, targ =>
    let targ := targ ++ [Ascii.zero]
    if targ.length < targ_end then leadingZeros targ_end count targ else targ

/-- The loop over the pairs: what remains of the exponent, the text and the
bytes behind the one that ended the loop. -/
def convertDigits (tbl : UInt8 → List UInt8) (trail_ch : UInt8) (targ_end : Nat) :
    Int → List UInt8 → List UInt8 → Int × List UInt8 × List UInt8
  | expon, targ, [] => (expon, targ, [])
  | expon, targ, ch :: sub =>
    if ch ≠ 0 ∧ ch ≠ trail_ch ∧ targ.length < targ_end then
      let expon := expon - 2
      if expon ≤ 0 then
        if expon ≠ 0 then
          convertDigits tbl trail_ch targ_end LARGE_EXP (targ ++ (Ascii.dot :: tbl ch)) sub
        else
          -- The point goes between the two digits.
          convertDigits tbl trail_ch targ_end LARGE_EXP
            (targ ++ ((tbl ch).take 1 ++ (Ascii.dot :: (tbl ch).drop 1))) sub
      else convertDigits tbl trail_ch targ_end expon (targ ++ tbl ch) sub
    else (expon, targ, sub)

/-- Fill an integer with the zeros its code leaves out. -/
def trailingZeros (targ_end : Nat) : Nat → List UInt8 → List UInt8
  | 0, targ => targ
  | count + 1, targ =>
    if targ.length < targ_end then trailingZeros targ_end count (targ ++ [Ascii.zero]) else targ

/-- Remove `ch` from the end of the text. -/
def dropLast (ch : UInt8) (targ : List UInt8) : List UInt8 :=
  if targ.getLast? = some ch then targ.dropLast else targ

/-- The digits of a number with the unbiased exponent `ch`, behind the sign. -/
def decodeMagnitude (tbl : UInt8 → List UInt8) (trail_ch : UInt8) (targ_end : Nat) (ch : UInt8)
    (targ sub : List UInt8) : List UInt8 × List UInt8 :=
  let (expon, targ) :=
    if signedChar ch ≤ 0 then
      -- A large exponent keeps the loop from writing another point.
      (LARGE_EXP, leadingZeros targ_end (-signedChar ch).toNat (targ ++ [Ascii.dot]))
    else ((ch.toNat : Int), targ)
  let (expon, targ, sub) := convertDigits tbl trail_ch targ_end expon targ sub
  if LARGE_EXP - 100 < expon then (dropLast Ascii.dot (dropLast Ascii.zero targ), sub)
  else (trailingZeros targ_end (expon - 1).toNat targ, sub)

/-- A number other than zero. -/
def decodeNumber (targ_end : Nat) (ch : UInt8) (sub : List UInt8) : List UInt8 × List UInt8 :=
  let bias := UInt8.ofNat (SUBSCRIPT_BIAS - 1)
  if 0 ≤ signedChar ch ∧ 0 < targ_end then
    decodeMagnitude dneg NEG_MNTSSA_END targ_end (~~~ ch - bias) [Ascii.minus] sub
  else decodeMagnitude dpos KEY_DELIMITER targ_end (ch - bias) [] sub

/-- Count and remove the zeros at the low end of a number. -/
def spanTrailZeros : Nat → Nat → Nat × Nat
  | 0, num => (0, num)
  | room + 1, num =>
    if num % 10 = 0 then
      let (trail_zero, rest) := spanTrailZeros room (num / 10)
      (trail_zero + 1, rest)
    else (0, num)

/-- Reverse the digits of a number. -/
def spanReverse : Nat → Nat → Nat → Nat
  | 0, _, rev_num => rev_num
  | room + 1, num, rev_num =>
    if num > 0 then spanReverse room (num / 10) (rev_num * 10 + num % 10) else rev_num

/-- Write the digits of a reversed number. -/
def spanDigits (targ_end : Nat) : Nat → Nat → List UInt8 → List UInt8
  | 0, _, targ => targ
  | room + 1, rev_num, targ =>
    if rev_num > 0 ∧ targ.length < targ_end then
      spanDigits targ_end room (rev_num / 10) (targ ++ [digitByte (rev_num % 10)])
    else targ

abbrev SPAN_PREFIX : List UInt8 := [0x23, 0x53, 0x50, 0x41, 0x4e]

/-- The subscript of one block of a spanning node. Blocks are numbered from zero
in the key and from one in the text. -/
def decodeSpan (targ_end : Nat) (sub : List UInt8) : List UInt8 × List UInt8 :=
  let b_first := (sub.getD 0 0).toNat
  let b_sec := (sub.getD 1 0).toNat
  let num := (b_first - 1) * SPAN_BLKID_BASE + b_sec - 1 + 1
  let sub := sub.drop 2
  let (trail_zero, num) := spanTrailZeros MAX_DIGITS_IN_INT num
  let rev_num := spanReverse MAX_DIGITS_IN_INT num 0
  let targ := spanDigits targ_end MAX_DIGITS_IN_INT rev_num SPAN_PREFIX
  let targ := trailingZeros targ_end trail_zero targ
  (targ ++ (if sub.getD 0 0 ≠ 0 then [0x2a] else []), sub)

/-- Decode the subscript at `sub` into a buffer of `len` bytes: the text, and the
bytes behind those that were read. With `xlat_flg` a string is given in ZWRITE
form. -/
def gvsub2str (isctl : UInt8 → Bool) (env : SubscEnv) (sub : List UInt8) (len : Nat)
    (xlat_flg : Bool) : Except RtsError (List UInt8 × List UInt8) :=
  let ch := sub.getD 0 0
  let after := sub.drop 1
  if ch = STR_SUB_PREFIX ∨ (ch = SUBSCRIPT_STDCOL_NULL ∧ after.getD 0 0 = KEY_DELIMITER) then do
    let (copied, rest) := unescape after
    let bytes ←
      match env.gv_target.collseq with
      | some collseq =>
        if env.transform then do
          let back ← collseq.xback copied
          if len < back.length then .error .gvsuboflow else .ok back
        else .ok copied
      | none => .ok copied
    if xlat_flg then do
      let (text, _) ← format2zwr isctl bytes len
      return (text, rest)
    else return (bytes, rest)
  else if ch = SUBSCRIPT_ZERO then .ok ([Ascii.zero], after)
  else if ch = SPANGLOB_SUB_ESCAPE then .ok (decodeSpan len after)
  else .ok (decodeNumber len ch after)

/-! ## Pair codes -/

/-- A table reads a code of pairs, and neither end of the digits is a code. -/
structure PairTable (tbl : UInt8 → List UInt8) (trail_ch : UInt8) (code : Nat → UInt8) : Prop where
  nonzero : ∀ p, p < 100 → code p ≠ 0
  notTrail : ∀ p, p < 100 → code p ≠ trail_ch
  read : ∀ p, p < 100 → tbl (code p) = [digitByte (p / 10), digitByte (p % 10)]

theorem pairTable_dpos : PairTable dpos KEY_DELIMITER (pos_code.getD · 0) := by
  have value : ∀ p, p < 100 → (pos_code.getD p 0) ≠ 0 := by
    intro p small zero
    have code := pos_code_toNat p small
    rw [zero] at code
    simp at code
  refine ⟨value, value, fun p small => ?_⟩
  have code := pos_code_toNat p small
  simp only [dpos, code, digitByte]
  rw [if_pos (by omega)]
  congr 2
  · omega
  · congr 1
    omega

theorem pairTable_dneg : PairTable dneg NEG_MNTSSA_END (fun p => ~~~ pos_code.getD p 0) := by
  have value : ∀ p, p < 100 → (~~~ pos_code.getD p 0).toNat = 254 - (p / 10 * 16 + p % 10) := by
    intro p small
    rw [UInt8.toNat_not, pos_code_toNat p small, UInt8.size]
    omega
  refine ⟨fun p small same => ?_, fun p small same => ?_, fun p small => ?_⟩
  · have code := value p small
    rw [same, show (0 : UInt8).toNat = 0 from rfl] at code
    omega
  · have code := value p small
    rw [same, show NEG_MNTSSA_END.toNat = 255 from rfl] at code
    omega
  · have row : (254 - (p / 10 * 16 + p % 10)) / 16 = 15 - p / 10 := by omega
    have column : (254 - (p / 10 * 16 + p % 10)) % 16 = 14 - p % 10 := by omega
    simp only [dneg, value p small, row, column, digitByte]
    rw [if_neg (by omega), if_pos (by omega)]
    congr 2
    · omega
    · congr 1
      omega

/-- The digits of a list of pairs. -/
def pairDigits (ps : List Nat) : List Nat := ps.flatMap fun p => [p / 10, p % 10]

theorem pairDigits_length (ps : List Nat) : (pairDigits ps).length = 2 * ps.length := by
  induction ps with
  | nil => rfl
  | cons p ps ih =>
    simp only [pairDigits, List.flatMap_cons, List.length_append, List.length_cons,
      List.length_nil] at *
    omega

theorem pairDigits_cons (p : Nat) (ps : List Nat) :
    pairDigits (p :: ps) = p / 10 :: p % 10 :: pairDigits ps := rfl

/-- The pairs of a decimal spell its significant digits, with at most one zero
more. -/
theorem Decimal.pairDigits_pairs (d : Decimal) :
    pairDigits d.pairs = d.significant ∨ pairDigits d.pairs = d.significant ++ [0] := by
  have stripped : stripZeros (pairDigits d.pairs) = d.significant := by
    obtain ⟨n, restored⟩ := stripZeros_restore (digits 100 9 d.mant)
    have zeros : pairDigits (List.replicate n 0) = List.replicate (2 * n) 0 := by
      clear restored
      induction n with
      | zero => rfl
      | succ n ih =>
        rw [List.replicate_succ, pairDigits_cons, ih,
          show 2 * (n + 1) = 2 * n + 1 + 1 by ring, List.replicate_succ, List.replicate_succ]
    have all : digits 10 18 d.mant = pairDigits d.pairs ++ List.replicate (2 * n) 0 := by
      rw [← zeros, pairDigits, pairDigits, ← List.flatMap_append, Decimal.pairs, ← restored]
      exact digits_pairs 10 9 d.mant
    rw [Decimal.significant, all, stripZeros_append_replicate]
  obtain ⟨kept, last, split, nonzero⟩ : ∃ kept last, d.pairs = kept ++ [last] ∧ last ≠ 0 := by
    rcases stripZeros_last (digits 100 9 d.mant) with vacant | ⟨kept, last, nonzero, same⟩
    · obtain ⟨first, rest, same, _⟩ := d.pairs_head
      rw [Decimal.pairs, vacant] at same
      cases same
    · exact ⟨kept, last, same, nonzero⟩
  have ends : pairDigits d.pairs = (pairDigits kept ++ [last / 10]) ++ [last % 10] := by
    rw [split, pairDigits, List.flatMap_append, pairDigits]
    simp
  by_cases units : last % 10 = 0
  · refine .inr ?_
    have tens : last / 10 ≠ 0 := by omega
    rw [ends, units, stripZeros_concat_zero, stripZeros_concat _ _ tens] at stripped
    rw [ends, units, stripped]
  · refine .inl ?_
    rw [ends, stripZeros_concat _ _ units] at stripped
    rw [ends, stripped]

/-! ## The loops -/

theorem leadingZeros_eq (targ_end n : Nat) (targ : List UInt8)
    (room : targ.length + n + 1 ≤ targ_end) :
    leadingZeros targ_end n targ = targ ++ List.replicate (n + 1) Ascii.zero := by
  induction n generalizing targ with
  | zero => rfl
  | succ n ih =>
    rw [leadingZeros]
    simp only [List.length_append, List.length_singleton]
    have next : (targ ++ [Ascii.zero]).length + n + 1 ≤ targ_end := by
      simp only [List.length_append, List.length_singleton]
      omega
    rw [if_pos (by omega), ih _ next, List.append_assoc]
    rfl

theorem trailingZeros_eq (targ_end n : Nat) (targ : List UInt8)
    (room : targ.length + n ≤ targ_end) :
    trailingZeros targ_end n targ = targ ++ List.replicate n Ascii.zero := by
  induction n generalizing targ with
  | zero => simp [trailingZeros]
  | succ n ih =>
    have next : (targ ++ [Ascii.zero]).length + n ≤ targ_end := by
      simp only [List.length_append, List.length_singleton]
      omega
    rw [trailingZeros, if_pos (by omega), ih _ next, List.append_assoc]
    rfl

section Pairs

variable {tbl : UInt8 → List UInt8} {trail_ch stop : UInt8} {code : Nat → UInt8}
variable (table : PairTable tbl trail_ch code) (stops : stop = 0 ∨ stop = trail_ch)

include stops in
theorem convertDigits_stop (targ_end : Nat) (expon : Int) (targ tail : List UInt8) :
    convertDigits tbl trail_ch targ_end expon targ (stop :: tail) = (expon, targ, tail) := by
  rw [convertDigits, if_neg]
  rintro ⟨nonzero, notTrail, _⟩
  exact stops.elim nonzero notTrail

include table stops in
/-- Pairs that do not reach the point, or stand behind it, are copied. -/
theorem convertDigits_plain (targ_end : Nat) (ps : List Nat) (small : ∀ p ∈ ps, p < 100)
    (expon : Int) (targ tail : List UInt8) (before : 2 * ps.length < expon)
    (room : targ.length + 2 * ps.length ≤ targ_end) :
    convertDigits tbl trail_ch targ_end expon targ (ps.map code ++ stop :: tail) =
      (expon - 2 * ps.length, targ ++ (pairDigits ps).map digitByte, tail) := by
  induction ps generalizing expon targ with
  | nil =>
    rw [List.map_nil, List.nil_append, convertDigits_stop stops]
    simp [pairDigits]
  | cons p ps ih =>
    have pair : p < 100 := small p List.mem_cons_self
    rw [List.length_cons] at before room
    push_cast at before
    rw [List.map_cons, List.cons_append, convertDigits,
      if_pos ⟨table.nonzero p pair, table.notTrail p pair, by omega⟩]
    dsimp only
    rw [if_neg (by omega), table.read p pair,
      ih (fun q member => small q (List.mem_cons_of_mem p member)) _ _ (by omega)
        (by simp only [List.length_append, List.length_cons, List.length_nil]; omega),
      pairDigits_cons]
    simp only [List.map_cons, List.append_assoc, List.cons_append, List.nil_append,
      List.length_cons, Prod.mk.injEq, and_true]
    push_cast
    ring

include table stops in
/-- Pairs among which the point falls are laid out around it. -/
theorem convertDigits_point (targ_end : Nat) (ps : List Nat) (small : ∀ p ∈ ps, p < 100)
    (few : ps.length ≤ 9) (expon : Int) (targ tail : List UInt8) (positive : 1 ≤ expon)
    (reached : expon ≤ 2 * ps.length) (room : targ.length + 2 * ps.length + 1 ≤ targ_end) :
    ∃ left, LARGE_EXP - 100 < left ∧
      convertDigits tbl trail_ch targ_end expon targ (ps.map code ++ stop :: tail) =
        (left, targ ++ Decimal.layout (expon - 1) (pairDigits ps), tail) := by
  induction ps generalizing expon targ with
  | nil => simp at reached; omega
  | cons p ps ih =>
    have pair : p < 100 := small p List.mem_cons_self
    have others : ∀ q ∈ ps, q < 100 := fun q member => small q (List.mem_cons_of_mem p member)
    rw [List.length_cons] at reached room few
    push_cast at reached
    rw [List.map_cons, List.cons_append, convertDigits,
      if_pos ⟨table.nonzero p pair, table.notTrail p pair, by omega⟩]
    dsimp only
    rw [table.read p pair, pairDigits_cons]
    have behind : ∀ text : List UInt8, text.length ≤ targ.length + 3 →
        convertDigits tbl trail_ch targ_end LARGE_EXP text (ps.map code ++ stop :: tail) =
          (LARGE_EXP - 2 * ps.length, text ++ (pairDigits ps).map digitByte, tail) :=
      fun text length => convertDigits_plain table stops targ_end ps others LARGE_EXP text tail
        (by simp only [LARGE_EXP]; omega) (by omega)
    by_cases first : expon = 1
    · subst first
      rw [if_pos (by omega), if_pos (by omega), behind _ (by simp)]
      refine ⟨LARGE_EXP - 2 * ps.length, by simp only [LARGE_EXP]; omega, ?_⟩
      rw [Int.sub_self, Decimal.layout_zero _ (by simp)]
      simp
    · by_cases second : expon = 2
      · subst second
        rw [if_pos (by omega), if_neg (by omega), behind _ (by simp)]
        refine ⟨LARGE_EXP - 2 * ps.length, by simp only [LARGE_EXP]; omega, ?_⟩
        rw [Decimal.layout, if_neg (by omega), show (2 : Int) - 1 - 1 = 0 by ring,
          Decimal.layout_zero _ (by simp)]
        simp
      · rw [if_neg (by omega)]
        obtain ⟨left, large, result⟩ := ih others (by omega) (expon - 2)
          (targ ++ [digitByte (p / 10), digitByte (p % 10)]) (by omega) (by omega)
          (by simp only [List.length_append, List.length_cons, List.length_nil]; omega)
        refine ⟨left, large, ?_⟩
        rw [result, Decimal.layout, if_neg (by omega), Decimal.layout, if_neg (by omega),
          show expon - 1 - 1 - 1 = expon - 2 - 1 by ring, List.append_assoc]
        rfl

end Pairs

/-! ## Repair of the end -/

theorem dropLast_of_ne (ch : UInt8) (text : List UInt8) (last : UInt8) (other : last ≠ ch) :
    dropLast ch (text ++ [last]) = text ++ [last] := by
  rw [dropLast, List.getLast?_concat, if_neg (fun same => other (Option.some.inj same))]

theorem dropLast_of_eq (ch : UInt8) (text : List UInt8) : dropLast ch (text ++ [ch]) = text := by
  rw [dropLast, List.getLast?_concat, if_pos rfl, List.dropLast_concat]

/-- A digit behind the point is laid out after the others. -/
theorem Decimal.layout_concat (exp : Int) (ds : List Nat) (d : Nat) (behind : exp < ds.length) :
    layout exp (ds ++ [d]) = layout exp ds ++ [digitByte d] := by
  induction ds generalizing exp with
  | nil =>
    simp only [List.length_nil, Nat.cast_zero] at behind
    rw [List.nil_append, layout_neg _ _ behind, layout_neg _ _ behind]
    rfl
  | cons first rest ih =>
    rw [List.length_cons] at behind
    push_cast at behind
    rw [List.cons_append, layout, layout, ih (exp - 1) (by omega)]
    split <;> rfl

/-- Behind the point, the significant digits are what remains once a superfluous
zero and a bare point are gone. -/
theorem Decimal.repair (d : Decimal) (text : List UInt8) (exp : Int)
    (point : exp < (pairDigits d.pairs).length) (some : exp ≤ d.significant.length) :
    dropLast Ascii.dot (dropLast Ascii.zero (text ++ layout exp (pairDigits d.pairs))) =
      text ++ layout exp d.significant := by
  obtain ⟨kept, final, last, nonzero⟩ := d.significant_last
  have small := d.significant_lt final (by rw [last]; simp)
  have noZero := mt (digitByte_eq_zero final small).mp nonzero
  have noDot := digitByte_ne final small Ascii.dot rfl
  have ends : exp < d.significant.length →
      ∃ before, layout exp d.significant = before ++ [digitByte final] := by
    intro within
    rw [last, List.length_append, List.length_singleton] at within
    push_cast at within
    by_cases inside : exp < kept.length
    · exact ⟨_, by rw [last, layout_concat exp kept final inside]⟩
    · have atEnd : exp = kept.length := by omega
      refine ⟨kept.map digitByte ++ [Ascii.dot], ?_⟩
      rw [last, atEnd, layout_append_of_le _ _ _ le_rfl, Int.sub_self, layout_zero _ (by simp),
        List.append_assoc]
      rfl
  rcases d.pairDigits_pairs with same | same
  · rw [same] at point ⊢
    obtain ⟨before, text'⟩ := ends point
    rw [text', ← List.append_assoc, dropLast_of_ne _ _ _ noZero, dropLast_of_ne _ _ _ noDot]
  · rw [same]
    by_cases inside : exp < d.significant.length
    · obtain ⟨before, text'⟩ := ends inside
      rw [layout_concat exp _ 0 inside, digitByte_zero, ← List.append_assoc, dropLast_of_eq, text',
        ← List.append_assoc, dropLast_of_ne _ _ _ noDot]
    · have atEnd : exp = d.significant.length := by omega
      have whole : layout exp d.significant = d.significant.map digitByte := by
        have laid := layout_append_of_le exp d.significant [] (by omega)
        rw [List.append_nil, atEnd, Int.sub_self] at laid
        rw [atEnd, laid]
        simp [layout]
      have regroup : text ++ layout exp (d.significant ++ [0]) =
          (text ++ d.significant.map digitByte ++ [Ascii.dot]) ++ [Ascii.zero] := by
        rw [atEnd, layout_append_of_le _ _ _ le_rfl, Int.sub_self, layout_zero _ (by simp)]
        simp
      rw [regroup, dropLast_of_eq, dropLast_of_eq, whole]

/-! ## Numbers -/

theorem signedChar_of_lt (ch : UInt8) (value : Int) (low : -128 ≤ value) (high : value < 128)
    (same : (ch.toNat : Int) = value ∨ (ch.toNat : Int) = value + 256) : signedChar ch = value := by
  have := ch.toNat_lt
  unfold signedChar
  split <;> omega

/-- The exponent byte, unbiased. -/
theorem signedChar_exponent (d : Decimal) (inRange : d.InRange) (byte : UInt8)
    (same : (byte.toNat : Int) = d.exp + 190) :
    signedChar (byte - UInt8.ofNat (SUBSCRIPT_BIAS - 1)) = d.exp + 1 ∧
      (0 ≤ d.exp → ((byte - UInt8.ofNat (SUBSCRIPT_BIAS - 1)).toNat : Int) = d.exp + 1) := by
  obtain ⟨low, high⟩ := inRange
  have difference : (byte - UInt8.ofNat (SUBSCRIPT_BIAS - 1)).toNat =
      (256 - 189 + byte.toNat) % 256 := by
    rw [UInt8.toNat_sub]
    rfl
  constructor
  · apply signedChar_of_lt _ _ (by omega) (by omega)
    omega
  · intro positive
    omega

/-- The scale of a decimal decides how its pairs are laid out; the sign has been
written already. -/
theorem decodePairs_eq (d : Decimal) (inRange : d.InRange) {tbl : UInt8 → List UInt8}
    {trail_ch stop : UInt8} {code : Nat → UInt8} (table : PairTable tbl trail_ch code)
    (stops : stop = 0 ∨ stop = trail_ch) (targ_end : Nat) (tail : List UInt8)
    (room : d.text.length + 2 ≤ targ_end) (expon : Int) (opened : List UInt8)
    (opening : (expon, opened) = if d.exp < 0
      then (LARGE_EXP, Decimal.signText d.neg ++ (Ascii.dot ::
        List.replicate (-d.exp).toNat Ascii.zero))
      else (d.exp + 1, Decimal.signText d.neg)) :
    ∃ left text, convertDigits tbl trail_ch targ_end expon opened
        (d.pairs.map code ++ stop :: tail) = (left, text, tail) ∧
      (if LARGE_EXP - 100 < left then dropLast Ascii.dot (dropLast Ascii.zero text)
       else trailingZeros targ_end (left - 1).toNat text) = d.text := by
  obtain ⟨low, high⟩ := inRange
  have few : d.pairs.length ≤ 9 := by
    have bound := stripZeros_length_le (digits 100 9 d.mant)
    rwa [digits_length] at bound
  have length := pairDigits_length d.pairs
  have atMost : (pairDigits d.pairs).length ≤ d.significant.length + 1 := by
    rcases d.pairDigits_pairs with same | same <;> simp [same]
  have atLeast : d.significant.length ≤ (pairDigits d.pairs).length := by
    rcases d.pairDigits_pairs with same | same <;> simp [same]
  by_cases fraction : d.exp < 0
  · rw [if_pos fraction, Prod.mk.injEq] at opening
    obtain ⟨rfl, rfl⟩ := opening
    have text : d.text = (Decimal.signText d.neg ++ (Ascii.dot ::
        List.replicate (-d.exp).toNat Ascii.zero)) ++ Decimal.layout d.exp d.significant := by
      rw [Decimal.text, Decimal.opening, if_pos fraction, List.append_assoc]
    have size := congrArg List.length text
    rw [List.length_append, Decimal.layout_neg _ _ fraction, List.length_map] at size
    refine ⟨_, _, convertDigits_plain table stops targ_end d.pairs d.pairs_lt LARGE_EXP _ tail
      (by simp only [LARGE_EXP]; omega) (by omega), ?_⟩
    rw [if_pos (by simp only [LARGE_EXP]; omega), text,
      ← Decimal.layout_neg d.exp (pairDigits d.pairs) fraction]
    exact d.repair _ d.exp (by omega) (by omega)
  · rw [if_neg fraction, Prod.mk.injEq] at opening
    obtain ⟨rfl, rfl⟩ := opening
    have text : d.text = Decimal.signText d.neg ++ Decimal.layout d.exp d.significant := by
      rw [Decimal.text, Decimal.opening, if_neg fraction, List.nil_append]
    have size := congrArg List.length text
    rw [List.length_append] at size
    by_cases whole : (2 * d.pairs.length : Int) < d.exp + 1
    · have laid : Decimal.layout d.exp d.significant = (pairDigits d.pairs).map digitByte ++
          List.replicate (d.exp - 2 * d.pairs.length).toNat Ascii.zero := by
        have stripped : Decimal.layout d.exp d.significant =
            Decimal.layout d.exp (pairDigits d.pairs) := by
          rw [← Decimal.layout_stripZeros d.exp (pairDigits d.pairs) (by omega)]
          rcases d.pairDigits_pairs with same | same
          · rw [same, Decimal.significant, stripZeros_idem]
          · rw [same, stripZeros_concat_zero, Decimal.significant, stripZeros_idem]
        have plain := Decimal.layout_append_of_le d.exp (pairDigits d.pairs) [] (by omega)
        rw [List.append_nil, length, Decimal.layout] at plain
        rw [stripped, plain]
        push_cast
        rfl
      rw [laid, List.length_append, List.length_map, List.length_replicate] at size
      refine ⟨_, _, convertDigits_plain table stops targ_end d.pairs d.pairs_lt (d.exp + 1) _ tail
        whole (by omega), ?_⟩
      rw [if_neg (by simp only [LARGE_EXP]; omega), trailingZeros_eq _ _ _ (by
        simp only [List.length_append, List.length_map]; omega), text, laid, List.append_assoc]
      congr 3
      omega
    · have more : d.exp < (pairDigits d.pairs).length := by omega
      have inside : d.significant.length ≤ (Decimal.layout d.exp d.significant).length := by
        clear size text
        generalize d.exp = exp
        induction d.significant generalizing exp with
        | nil => simp
        | cons first rest ih =>
          rw [Decimal.layout]
          have behind := ih (exp - 1)
          split <;> simp only [List.length_cons] <;> omega
      obtain ⟨left, large, result⟩ := convertDigits_point table stops targ_end d.pairs d.pairs_lt
        few (d.exp + 1) (Decimal.signText d.neg) tail (by omega) (by omega) (by omega)
      refine ⟨left, _, result, ?_⟩
      rw [if_pos large, text, Int.add_sub_cancel]
      exact d.repair _ d.exp more (by omega)

/-- Behind the sign, the exponent and the pairs of a decimal are read back as its
text. -/
theorem decodeMagnitude_eq (d : Decimal) (inRange : d.InRange) {tbl : UInt8 → List UInt8}
    {trail_ch stop : UInt8} {code : Nat → UInt8} (table : PairTable tbl trail_ch code)
    (stops : stop = 0 ∨ stop = trail_ch) (targ_end : Nat) (tail : List UInt8)
    (room : d.text.length + 2 ≤ targ_end) (first : UInt8)
    (value : (first.toNat : Int) = d.exp + 190) :
    decodeMagnitude tbl trail_ch targ_end (first - UInt8.ofNat (SUBSCRIPT_BIAS - 1))
      (Decimal.signText d.neg) (d.pairs.map code ++ stop :: tail) = (d.text, tail) := by
  obtain ⟨exponent, positive⟩ := signedChar_exponent d inRange first value
  have opening : (if signedChar (first - UInt8.ofNat (SUBSCRIPT_BIAS - 1)) ≤ 0 then
      (LARGE_EXP, leadingZeros targ_end
        (-signedChar (first - UInt8.ofNat (SUBSCRIPT_BIAS - 1))).toNat
        (Decimal.signText d.neg ++ [Ascii.dot]))
      else (((first - UInt8.ofNat (SUBSCRIPT_BIAS - 1)).toNat : Int), Decimal.signText d.neg)) =
      if d.exp < 0 then (LARGE_EXP, Decimal.signText d.neg ++ (Ascii.dot ::
        List.replicate (-d.exp).toNat Ascii.zero))
      else (d.exp + 1, Decimal.signText d.neg) := by
    rw [exponent]
    by_cases fraction : d.exp < 0
    · rw [if_pos (by omega), if_pos fraction]
      rw [Decimal.text, Decimal.opening, if_pos fraction] at room
      simp only [List.length_append, List.length_cons, List.length_replicate] at room
      rw [leadingZeros_eq _ _ _ (by
          simp only [List.length_append, List.length_singleton]; omega),
        List.append_assoc, show (-(d.exp + 1)).toNat + 1 = (-d.exp).toNat by omega]
      rfl
    · rw [if_neg (by omega), if_neg fraction, positive (by omega)]
  rw [decodeMagnitude, opening]
  generalize started : (if d.exp < 0 then _ else _ : Int × List UInt8) = start
  obtain ⟨expon, targ⟩ := start
  obtain ⟨left, text, converted, repaired⟩ :=
    decodePairs_eq d inRange table stops targ_end tail room expon targ started.symm
  dsimp only
  rw [converted]
  dsimp only
  rw [← repaired]
  split <;> rfl

/-- The code of a decimal is read back as its text. The delimiter ends the digits
of a positive number and is read; a negative number has an end of its own. -/
theorem decodeNumber_code (d : Decimal) (inRange : d.InRange) (targ_end : Nat)
    (room : d.text.length + 2 ≤ targ_end) (tail : List UInt8) {ch : UInt8} {sub : List UInt8}
    (code : d.code ++ KEY_DELIMITER :: tail = ch :: sub) :
    decodeNumber targ_end ch sub = (d.text, if d.neg then KEY_DELIMITER :: tail else tail) := by
  obtain ⟨first, rest, magnitude, value⟩ := d.magnitudeCode_head inRange
  have pairs : rest = d.pairs.map (pos_code.getD · 0) := by
    rw [Decimal.magnitudeCode] at magnitude
    exact (List.cons.inj magnitude).2.symm
  have range := inRange
  obtain ⟨low, high⟩ := range
  rw [Decimal.code, magnitude, pairs] at code
  cases sign : d.neg with
  | false =>
    rw [sign, if_neg (by decide)] at code
    obtain ⟨rfl, rfl⟩ := List.cons.inj code
    have positive : ¬ (0 ≤ signedChar first ∧ 0 < targ_end) := by
      rintro ⟨nonnegative, _⟩
      unfold signedChar at nonnegative
      split at nonnegative <;> omega
    have decoded := decodeMagnitude_eq d inRange pairTable_dpos (.inl rfl) targ_end tail room
      first value
    rw [sign] at decoded
    rw [decodeNumber, if_neg positive]
    exact decoded
  | true =>
    rw [sign, if_pos rfl, List.cons_append, List.map_cons, List.map_append, List.map_map,
      List.cons_append, List.append_assoc] at code
    obtain ⟨rfl, rfl⟩ := List.cons.inj code
    have negative : 0 ≤ signedChar (~~~ first) ∧ 0 < targ_end := by
      have complement : (~~~ first).toNat = 255 - first.toNat := UInt8.toNat_not first
      refine ⟨?_, by omega⟩
      unfold signedChar
      split <;> omega
    have decoded := decodeMagnitude_eq d inRange pairTable_dneg (.inr rfl) targ_end
      (KEY_DELIMITER :: tail) room first value
    rw [sign] at decoded
    rw [decodeNumber, if_pos negative, UInt8.not_not]
    exact decoded

/-! ## Strings -/

/-- Escaped characters are read back up to the delimiter. -/
theorem unescape_escape (bytes tail : List UInt8) :
    unescape (escape bytes ++ KEY_DELIMITER :: tail) = (bytes, tail) := by
  induction bytes with
  | nil =>
    rw [escape, List.flatMap_nil, List.nil_append, unescape.eq_def]
    rfl
  | cons ch bytes ih =>
    rw [escape, List.flatMap_cons, List.append_assoc, ← escape, escapeByte]
    by_cases low : ch ≤ 1
    · rw [if_pos low, List.cons_append, List.cons_append, List.nil_append, unescape,
        if_neg (by decide), if_pos rfl]
      dsimp only
      rw [ih, UInt8.add_sub_cancel]
    · rw [UInt8.not_le, UInt8.lt_iff_toNat_lt] at low
      have delimiter : ch ≠ KEY_DELIMITER := by
        rintro rfl
        exact absurd low (by decide)
      have escaped : ch ≠ STR_SUB_ESCAPE := by
        rintro rfl
        exact absurd low (by decide)
      rw [if_neg (by rw [UInt8.not_le, UInt8.lt_iff_toNat_lt]; exact low), List.cons_append,
        List.nil_append, unescape.eq_def]
      dsimp only
      rw [if_neg delimiter, if_neg escaped, ih]

/-! ## One subscript -/

/-- What the decoder leaves unread behind a code: only the codes of zero and of
negative numbers tell their own end, all others are read with their delimiter. -/
def Subscript.unread (tail : List UInt8) : Subscript → List UInt8
  | .number q => if 0 < q then tail else KEY_DELIMITER :: tail
  | _ => tail

/-- The string of a value: a number is printed, anything else is its own
characters. -/
def Mval.mString (v : Mval) : List UInt8 :=
  if v.mvtype.nm ∧ ¬ v.mvtype.numApprox then (n2s v).str else v.str

/-- The string of a subscript. -/
inductive Subscript.Text : Subscript → List UInt8 → Prop
  | null : Text .null []
  | zero : Text (.number 0) [Ascii.zero]
  | decimal (d : Decimal) (inRange : d.InRange) : Text (.number d.value) d.text
  | string (bytes : List UInt8) (some : bytes ≠ []) : Text (.string bytes) bytes

/-- The string of a value is that of its subscript. -/
theorem Mval.Represents.text {v : Mval} {s : Subscript} (represents : v.Represents s) :
    s.Text v.mString := by
  have ofText : v.IsText → v.mString = v.str := by
    rintro (isString | ⟨approx, _⟩)
    · rw [Mval.mString, if_neg (by simp [isString.mvtype])]
    · rw [Mval.mString, if_neg (by simp [approx])]
  cases represents with
  | number form exact notNull =>
    have nm : v.mvtype.nm = true := form.elim (·.nm) (·.nm)
    rw [Mval.mString, if_pos (by simp [nm, exact]), n2s]
    rcases v.form_cases form with ⟨value, isInt, zero⟩ | ⟨d, value, inRange⟩
    · rw [value, n2sText_zero zero]
      exact .zero
    · rw [← value, n2sText_eq form d value]
      exact .decimal d inRange
  | zeroText isString text =>
    rw [ofText (.inl isString), text]
    exact .zero
  | numeral isString d inRange text =>
    rw [ofText (.inl isString), text]
    exact .decimal d inRange
  | null isText empty =>
    rw [ofText isText, empty]
    exact .null
  | string isText some notNumeral =>
    rw [ofText isText]
    exact .string v.str some

/-- The code of a decimal starts with none of the bytes that announce another kind
of subscript. -/
theorem Decimal.code_lead (d : Decimal) (inRange : d.InRange) : ∃ first rest,
    d.code = first :: rest ∧ first ∉ [STR_SUB_PREFIX, SUBSCRIPT_STDCOL_NULL, SUBSCRIPT_ZERO,
      SPANGLOB_SUB_ESCAPE] := by
  have outside : ∀ first : UInt8, 2 < first.toNat → first.toNat ≠ 128 → first.toNat < 255 →
      first ∉ [STR_SUB_PREFIX, SUBSCRIPT_STDCOL_NULL, SUBSCRIPT_ZERO, SPANGLOB_SUB_ESCAPE] := by
    intro first low notZero high member
    simp only [List.mem_cons, List.not_mem_nil, or_false] at member
    rcases member with rfl | rfl | rfl | rfl
    · exact absurd high (by decide)
    · exact absurd low (by decide)
    · exact notZero rfl
    · exact absurd low (by decide)
  obtain ⟨first, rest, code, value⟩ := d.magnitudeCode_head inRange
  obtain ⟨low, high⟩ := inRange
  rw [Decimal.code, code]
  cases d.neg
  · exact ⟨first, rest, rfl, outside first (by omega) (by omega) (by omega)⟩
  · have complement : (~~~ first).toNat = 255 - first.toNat := UInt8.toNat_not first
    exact ⟨~~~ first, _, rfl, outside _ (by omega) (by omega) (by omega)⟩

/-- The code of a subscript is read back as its string. -/
theorem gvsub2str_code (isctl : UInt8 → Bool) {env : SubscEnv} (plain : env.Plain) {std : Bool}
    {s : Subscript} {code text : List UInt8} (coded : s.Code std code) (printed : s.Text text)
    (len : Nat) (room : text.length + 2 ≤ len) (tail : List UInt8) :
    gvsub2str isctl env (code ++ KEY_DELIMITER :: tail) len false =
      .ok (text, s.unread tail) := by
  have asString : ∀ ch bytes, (ch = STR_SUB_PREFIX ∨
        (ch = SUBSCRIPT_STDCOL_NULL ∧ (escape bytes ++ KEY_DELIMITER :: tail).getD 0 0 =
          KEY_DELIMITER)) →
      gvsub2str isctl env (ch :: escape bytes ++ KEY_DELIMITER :: tail) len false =
        .ok (bytes, tail) := by
    intro ch bytes isString
    rw [gvsub2str, List.cons_append, List.getD_cons_zero, List.drop_one, List.tail_cons]
    dsimp only
    rw [if_pos isString, unescape_escape, plain.collseq]
    rfl
  cases coded with
  | null =>
    cases printed
    cases std
    · exact asString _ [] (.inl rfl)
    · exact asString _ [] (.inr ⟨rfl, rfl⟩)
  | zero =>
    generalize zero : (0 : ℚ) = q at printed
    cases printed with
    | zero => rfl
    | decimal d => exact absurd zero.symm d.value_ne_zero
  | decimal d inRange =>
    have same : text = d.text := by
      generalize number : d.value = q at printed
      cases printed with
      | zero => exact absurd number d.value_ne_zero
      | decimal other => rw [Decimal.value_injective number]
    subst same
    obtain ⟨first, rest, code, head⟩ := d.code_lead inRange
    have other : ∀ ch : UInt8, ch ∈ [STR_SUB_PREFIX, SUBSCRIPT_STDCOL_NULL, SUBSCRIPT_ZERO,
        SPANGLOB_SUB_ESCAPE] → first ≠ ch := by
      rintro ch member rfl
      exact head member
    have decoded := decodeNumber_code d inRange len room tail
      (show d.code ++ KEY_DELIMITER :: tail = first :: (rest ++ KEY_DELIMITER :: tail) by
        rw [code]; rfl)
    rw [gvsub2str, code, List.cons_append, List.getD_cons_zero, List.drop_one, List.tail_cons]
    dsimp only
    rw [if_neg (not_or.mpr ⟨other _ (by simp), fun null => other _ (by simp) null.1⟩),
      if_neg (other _ (by simp)), if_neg (other _ (by simp)), decoded, Subscript.unread]
    have sign := d.neg_iff
    by_cases negative : d.neg
    · rw [if_pos negative, if_neg (not_lt.mpr (le_of_lt (sign.mp negative)))]
    · have positive : 0 < d.value := by
        rw [sign, not_lt] at negative
        exact lt_of_le_of_ne negative (Ne.symm d.value_ne_zero)
      rw [if_neg negative, if_pos positive]
  | string =>
    cases printed
    exact asString _ text (.inl rfl)

/-- What `mval2subsc` writes, `gvsub2str` reads back as the string of the value,
wherever the code and its delimiter stand. It stops behind the delimiter, or
before it for zero and the negative numbers. -/
theorem gvsub2str_undoes_mval2subsc (isctl : UInt8 → Bool) {env : SubscEnv} (plain : env.Plain)
    (std_null_coll : Bool) {v v' : Mval} {s : Subscript} (represents : v.Represents s)
    {key key' : GvKey} {bytes : List UInt8} (terminated : key.Terminated bytes)
    (written : mval2subsc env v key std_null_coll = .ok (v', key')) (len : Nat)
    (room : v.mString.length + 2 ≤ len) :
    ∃ code, key'.base = bytes ++ (code ++ [KEY_DELIMITER]) ++ [KEY_DELIMITER] ∧
      ∀ tail, gvsub2str isctl env (code ++ KEY_DELIMITER :: tail) len false =
        .ok (v.mString, s.unread tail) := by
  obtain ⟨code, coded, ends⟩ := mval2subsc_code plain represents terminated written
  exact ⟨code, ends.base, gvsub2str_code isctl plain coded represents.text len room⟩

/-- The number -1.5 below a global named `x`. -/
theorem gvsub2str_undoes_mval2subsc_minus_one_and_a_half :
    gvsub2str (fun _ => false) ⟨⟨false, false⟩, true, ⟨false, none⟩⟩
      [0x40, 0xe9, 0xff, 0, 0] 8 false = .ok ([0x2d, 0x31, 0x2e, 0x35], [0, 0]) := by
  let v : Mval := ⟨⟨true, true, false, false, false⟩, false, 0, 0, -1500, []⟩
  let env : SubscEnv := ⟨⟨false, false⟩, true, ⟨false, none⟩⟩
  let key : GvKey := ⟨1052, 2, 0, [0x78, 0, 0]⟩
  have represents : v.Represents (.number v.value) :=
    .number (.inl ⟨rfl, rfl, by decide⟩) rfl rfl
  have written : mval2subsc env v key true =
      .ok (v, ⟨1052, 6, 2, [0x78, 0, 0x40, 0xe9, 0xff, 0, 0]⟩) := by decide +kernel
  obtain ⟨code, base, decoded⟩ := gvsub2str_undoes_mval2subsc (fun _ => false)
    (show env.Plain from ⟨rfl, rfl⟩) true represents (⟨rfl, rfl⟩ : key.Terminated [0x78, 0])
    written 8 (by decide +kernel)
  have same : code = [0x40, 0xe9, 0xff] := by
    have behind := List.append_cancel_left
      (show [0x78, 0] ++ [0x40, 0xe9, 0xff, 0, 0] = [0x78, 0] ++ (code ++ [0, 0]) by
        simpa using base)
    exact (List.append_cancel_right (show [0x40, 0xe9, 0xff] ++ [0, 0] = code ++ [0, 0] from
      behind)).symm
  have negative : ¬ 0 < v.value := by norm_num [v, Mval.value, MV_BIAS]
  have unread : Subscript.unread [0] (.number v.value) = [0, 0] := if_neg negative
  have text : v.mString = [0x2d, 0x31, 0x2e, 0x35] := by decide +kernel
  have result := decoded [0]
  rw [same, text, unread] at result
  exact result

/-- The bytes that are read are not the written code with a fixed number of bytes
behind it: the code of zero is read alone, that of one with its delimiter. -/
theorem gvsub2str_reads_uneven_ends : ¬ ∃ behind : Nat, ∀ v v' key' text rest,
    v.mvtype = ⟨true, true, false, false, false⟩ →
    mval2subsc ⟨⟨false, false⟩, true, ⟨false, none⟩⟩ v ⟨1052, 2, 0, [0x78, 0, 0]⟩ true =
      .ok (v', key') →
    gvsub2str (fun _ => false) ⟨⟨false, false⟩, true, ⟨false, none⟩⟩ (key'.base.drop 2) 8 false =
      .ok (text, rest) →
    (key'.base.drop 2).length - rest.length = (key'.end_ - 2 - 1) + behind := by
  rintro ⟨behind, even⟩
  have zero := even ⟨⟨true, true, false, false, false⟩, false, 0, 0, 0, []⟩
    ⟨⟨true, true, false, false, false⟩, false, 0, 0, 0, []⟩
    ⟨1052, 4, 2, [0x78, 0, 0x80, 0, 0]⟩ [0x30] [0, 0] rfl (by decide +kernel) (by decide +kernel)
  have one := even ⟨⟨true, true, false, false, false⟩, false, 0, 0, 1000, []⟩
    ⟨⟨true, true, false, false, false⟩, false, 0, 0, 1000, []⟩
    ⟨1052, 5, 2, [0x78, 0, 0xbf, 0x11, 0, 0]⟩ [0x31] [0] rfl (by decide +kernel)
    (by decide +kernel)
  simp only [List.drop_succ_cons, List.drop_zero, List.length_cons, List.length_nil] at zero one
  omega

end Ydb
