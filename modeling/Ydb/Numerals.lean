import Ydb.CanonicalNumbers

/-!
# Numerals at the start of a string

A numeral has signs, digits around at most one point, and an exponent. `s2n`
looks for the longest one that a string starts with, in one pass over the
string. The pass is followed here from the signs to the exponent: it packs the
significant digits of the longest numeral and finds the place of their point.

The pass departs from the numeral in two ways. Of an exponent only the first
three significant digits are kept. And once eighteen digits are packed without a
point, the loop that passes over the rest of the mantissa accepts any number of
points, so that it can reach an exponent behind the numeral.
-/

namespace Ydb

open Lib

/-! ## Numerals -/

/-- The byte of a sign. -/
def signByte (minus : Bool) : UInt8 := if minus then Ascii.minus else Ascii.plus

/-- An exponent: an `E`, an optional sign and digits. -/
structure ExponentText where
  sign : Option Bool
  digits : List Nat
  bounded : ∀ d ∈ digits, d < 10
  nonempty : digits ≠ []

/-- The text of an exponent. -/
def ExponentText.text (e : ExponentText) : List UInt8 :=
  Ascii.upperE :: (e.sign.toList.map signByte ++ e.digits.map digitByte)

/-- The signed number that digits of the exponent stand for. -/
def ExponentText.signed (e : ExponentText) (digits : List Nat) : Int :=
  if e.sign = some true then -(evalFrom 10 0 digits : Int) else evalFrom 10 0 digits

/-- The value of an exponent. -/
def ExponentText.power (e : ExponentText) : Int := e.signed e.digits

/-- The exponent cut to its first three significant digits. -/
def ExponentText.cutPower (e : ExponentText) : Int :=
  e.signed ((e.digits.dropWhile (· == 0)).take 3)

/-- A numeral: signs, digits, optionally a point and more digits, optionally an
exponent. The mantissa has a digit. -/
structure Numeral where
  /-- The signs, minus or not. -/
  signs : List Bool
  whole : List Nat
  fraction : Option (List Nat)
  exponent : Option ExponentText
  bounded : ∀ d ∈ whole ++ fraction.getD [], d < 10
  nonempty : whole ++ fraction.getD [] ≠ []

namespace Numeral

/-- The point and what follows. -/
def fractionText : Option (List Nat) → List UInt8
  | none => []
  | some ds => Ascii.dot :: ds.map digitByte

/-- The exponent, if there is one. -/
def exponentText : Option ExponentText → List UInt8
  | none => []
  | some e => e.text

/-- The text of a numeral. -/
def text (n : Numeral) : List UInt8 :=
  n.signs.map signByte ++ (n.whole.map digitByte ++
    (fractionText n.fraction ++ exponentText n.exponent))

/-- The digits of the mantissa. -/
def mantissa (n : Numeral) : List Nat := n.whole ++ n.fraction.getD []

/-- The power of ten it names. -/
def power (n : Numeral) : Int := (n.exponent.map ExponentText.power).getD 0

/-- Whether an odd number of minus signs leads. -/
def negative (n : Numeral) : Bool := n.signs.count true % 2 == 1

/-- The number that the numeral stands for. -/
def value (n : Numeral) : ℚ :=
  signFactor n.negative *
    (evalFrom 10 0 n.mantissa * (10 : ℚ) ^ (n.power - (n.fraction.getD []).length))

/-- The numeral is the longest that starts the text. -/
def Longest (n : Numeral) (text : List UInt8) : Prop :=
  n.text <+: text ∧ ∀ m : Numeral, m.text <+: text → m.text.length ≤ n.text.length

/-- The mantissa from its first digit that is not zero. -/
def significant (n : Numeral) : List Nat := n.mantissa.dropWhile (· == 0)

/-- The place of the point, counted from the first significant digit. -/
def place (n : Numeral) : Int :=
  n.whole.length - (n.mantissa.takeWhile (· == 0)).length

/-- A character that the pass over excess digits accepts. -/
def IsExcess (c : UInt8) : Prop := c = Ascii.dot ∨ isDigit c = true

instance (c : UInt8) : Decidable (IsExcess c) := inferInstanceAs (Decidable (_ ∨ _))

/-- An exponent behind the numeral that is reached over digits and points: the
numeral has eighteen significant digits in front of its point. -/
structure Stray (n : Numeral) (rest : List UInt8) (e : ExponentText) : Prop where
  long : 18 ≤ n.place
  point : n.fraction ≠ none
  bare : n.exponent = none
  reached : ∃ passed more, rest = passed ++ (e.text ++ more) ∧ (∀ c ∈ passed, IsExcess c) ∧
    NoDigit more

end Numeral

/-! ## The loops on a whole text -/

theorem scanSigns_run (sign : Nat) (signs : List Bool) (body : List UInt8)
    (stops : body.head? ≠ some Ascii.minus ∧ body.head? ≠ some Ascii.plus) :
    ∃ total, scanSigns sign (signs.map signByte ++ body) = (total, body) ∧
      total % 2 = (sign + signs.count true) % 2 := by
  induction signs generalizing sign with
  | nil =>
    refine ⟨sign, ?_, by simp⟩
    cases body with
    | nil => rfl
    | cons c rest =>
      simp only [List.head?_cons, ne_eq, Option.some.injEq] at stops
      rw [List.map_nil, List.nil_append, scanSigns, if_neg stops.1, if_neg stops.2]
  | cons minus signs ih =>
    cases minus with
    | true =>
      obtain ⟨total, scanned, parity⟩ := ih (sign + 1)
      refine ⟨total, ?_, ?_⟩
      · rw [List.map_cons, List.cons_append, scanSigns, if_pos (by decide), scanned]
      · rw [parity, List.count_cons_self]
        omega
    | false =>
      obtain ⟨total, scanned, parity⟩ := ih (sign + 2)
      refine ⟨total, ?_, ?_⟩
      · rw [List.map_cons, List.cons_append, scanSigns, if_neg (by decide),
          if_pos (by decide), scanned]
      · rw [parity, List.count_cons_of_ne (by decide)]
        omega

theorem scanExcess_run (dot dotseen : Bool) (z : Nat) (ds : List Nat) (rest : List UInt8)
    (bounded : ∀ d ∈ ds, d < 10) :
    scanExcess dot dotseen z (ds.map digitByte ++ rest) =
      scanExcess dot dotseen (if dotseen then z else z + ds.length) rest := by
  induction ds generalizing z with
  | nil => simp
  | cons d ds ih =>
    have small : d < 10 := bounded d List.mem_cons_self
    have later : ∀ e ∈ ds, e < 10 := fun e member => bounded e (List.mem_cons_of_mem d member)
    have noDot : digitByte d ≠ Ascii.dot := digitByte_ne d small _ rfl
    rw [List.map_cons, List.cons_append, scanExcess, if_pos (.inr (isDigit_digitByte d small))]
    simp only [noDot, decide_false, Bool.or_false]
    rw [ih _ later]
    cases dotseen with
    | true => rfl
    | false =>
      simp only [Bool.false_eq_true, if_false, List.length_cons]
      congr 1
      omega

theorem scanExcess_stop (dot dotseen : Bool) (z : Nat) (rest : List UInt8) (stops : NoDigit rest)
    (noPoint : dot = true ∨ rest.head? ≠ some Ascii.dot) :
    scanExcess dot dotseen z rest = (z, rest) := by
  cases rest with
  | nil => rfl
  | cons c rest =>
    rw [scanExcess, if_neg]
    rintro (⟨point, unseen⟩ | digit)
    · rcases noPoint with seen | other
      · rw [seen] at unseen
        cases unseen
      · exact other (by rw [point]; rfl)
    · rw [stops c rest rfl] at digit
      cases digit

/-- Behind a point that was not packed, digits and points are passed over alike. -/
theorem scanExcess_seen (z : Nat) (rest : List UInt8) :
    scanExcess false true z rest = (z, rest.dropWhile fun c => decide (Numeral.IsExcess c)) := by
  induction rest with
  | nil => rfl
  | cons c rest ih =>
    rw [scanExcess, List.dropWhile_cons]
    by_cases excess : Numeral.IsExcess c
    · rw [if_pos (excess.imp_left fun point => ⟨point, rfl⟩)]
      simp only [Bool.true_or, if_true, excess, decide_true, ih]
    · rw [if_neg (fun passed => excess (passed.imp_left And.left))]
      simp [excess]

theorem scanExponent_run (x expdigits : Nat) (ds : List Nat) (rest : List UInt8)
    (bounded : ∀ d ∈ ds, d < 10) (stops : NoDigit rest) (few : expdigits ≤ 3) :
    scanExponent x expdigits (ds.map digitByte ++ rest) =
      (evalFrom 10 x (ds.take (3 - expdigits)), expdigits + (ds.take (3 - expdigits)).length,
        rest) := by
  induction ds generalizing x expdigits with
  | nil =>
    cases rest with
    | nil => simp [scanExponent, evalFrom]
    | cons c rest => simp [scanExponent, stops c rest rfl, evalFrom]
  | cons d ds ih =>
    have small : d < 10 := bounded d List.mem_cons_self
    have later : ∀ e ∈ ds, e < 10 := fun e member => bounded e (List.mem_cons_of_mem d member)
    rw [List.map_cons, List.cons_append, scanExponent, if_pos (isDigit_digitByte d small)]
    by_cases room : expdigits < MAX_DIGITS_IN_EXP + 1
    · rw [if_pos room, ih _ _ later (by simp only [MAX_DIGITS_IN_EXP] at room; omega)]
      simp only [MAX_DIGITS_IN_EXP] at room
      rw [digitVal_digitByte d small, show 3 - expdigits = (3 - (expdigits + 1)) + 1 by omega,
        List.take_succ_cons, evalFrom, List.length_cons]
      congr 2
      omega
    · rw [if_neg room, ih _ _ later few]
      simp only [MAX_DIGITS_IN_EXP] at room
      rw [show 3 - expdigits = 0 by omega]
      simp

theorem dropWhile_zeros (n : Nat) (more : List Nat) (noZero : more.head? ≠ some 0) :
    (List.replicate n 0 ++ more).dropWhile (· == 0) = more ∧
      ((List.replicate n 0 ++ more).takeWhile (· == 0)).length = n := by
  induction n with
  | zero =>
    cases more with
    | nil => exact ⟨rfl, rfl⟩
    | cons d more =>
      have other : (d == 0) = false := by simpa using noZero
      simp [other]
  | succ n ih =>
    simpa [List.replicate_succ, List.dropWhile_cons, List.takeWhile_cons] using ih

/-! ## The mantissa of a numeral -/

/-- What the scan finds between the signs and the exponent: the significant
digits of the mantissa `ds`, the place of their point, and the text behind. -/
structure ScansBody (body : List UInt8) (ds : List Nat) (place : Int) (behind : List UInt8)
    (leading : Nat) (r : Mantissa) (z : Nat) : Prop where
  scanned : ∃ c₂ dot y c₃, scanZeros 0 body = (leading, c₂) ∧ scanPoint c₂ = (dot, y, c₃) ∧
    scanMantissa y dot c₃ = r
  excess : scanExcess r.dot r.dot r.z r.rest = (z, behind)
  holds : r.Holds ds
  place : ds ≠ [] → (if r.dot then r.y else z) = place
  digit : z ≠ 0 ∨ r.y ≠ 0 ∨ leading ≠ 0

theorem head_digits {W : List Nat} (rest : List UInt8) (bounded : ∀ d ∈ W, d < 10) (some : W ≠ []) :
    ∃ d ds, W = d :: ds ∧ d < 10 ∧
      W.map digitByte ++ rest = digitByte d :: (ds.map digitByte ++ rest) := by
  cases W with
  | nil => exact absurd rfl some
  | cons d ds => exact ⟨d, ds, rfl, bounded d List.mem_cons_self, rfl⟩

/-- In front of a digit there is no point to be read. -/
theorem scanPoint_digit {W : List Nat} (rest : List UInt8) (bounded : ∀ d ∈ W, d < 10)
    (some : W ≠ []) (noZero : W.head? ≠ Option.some 0) :
    scanPoint (W.map digitByte ++ rest) = (false, 0, W.map digitByte ++ rest) ∧
      (W.map digitByte ++ rest).head? ≠ Option.some Ascii.zero := by
  obtain ⟨d, ds, rfl, small, text⟩ := head_digits rest bounded some
  have nonzero : digitByte d ≠ Ascii.zero := by
    intro zero
    exact noZero (by rw [(digitByte_eq_zero d small).mp zero]; rfl)
  rw [text]
  constructor
  · have zeros : scanZeros 0 (digitByte d :: (ds.map digitByte ++ rest)) =
        (0, digitByte d :: (ds.map digitByte ++ rest)) := by rw [scanZeros, if_neg nonzero]
    simp [scanPoint, digitByte_ne d small Ascii.dot rfl, zeros]
  · simpa using nonzero

theorem head_ne_zero {T : List UInt8} (stops : NoDigit T) : T.head? ≠ some Ascii.zero := by
  intro zero
  obtain ⟨after, text⟩ := List.head?_eq_some_iff.mp zero
  cases stops _ _ text

theorem Mantissa.Leaves.bounded {r : Mantissa} {ds more : List Nat} {rest : List UInt8}
    (leaves : r.Leaves ds more rest) (bounded : ∀ d ∈ ds, d < 10) : ∀ d ∈ more, d < 10 := by
  obtain ⟨k, beyond⟩ := leaves.beyond
  intro d member
  exact bounded d (List.mem_of_mem_drop (by rw [beyond]; exact List.mem_append_right _ member))

/-- Significant digits in front of a text without a point. -/
theorem scansBody_whole (n : Nat) (W : List Nat) (T : List UInt8) (bounded : ∀ d ∈ W, d < 10)
    (some : W ≠ []) (noZero : W.head? ≠ Option.some 0) (stops : NoDigit T)
    (noPoint : T.head? ≠ Option.some Ascii.dot) :
    ∃ r z, ScansBody (List.replicate n Ascii.zero ++ (W.map digitByte ++ T)) W W.length T n r z := by
  obtain ⟨point, head⟩ := scanPoint_digit T bounded some noZero
  have zeros := scanZeros_run 0 n _ head
  rw [Nat.zero_add] at zeros
  obtain ⟨holds, _, dot, more, leaves, count⟩ :=
    scanMantissa_run 0 false W bounded T stops (.inr (.inl noPoint)) _ rfl
  have positive : 0 < W.length := List.length_pos_iff.mpr some
  refine ⟨_, W.length, ⟨_, _, _, _, zeros, point, rfl⟩, ?_, holds, ?_, .inl (by omega)⟩
  · rw [leaves.text, scanExcess_run _ _ _ _ _ (leaves.bounded bounded), dot,
      scanExcess_stop _ _ _ _ stops (.inr noPoint)]
    simp [count]
  · intro _
    rw [dot]
    rfl

/-- Fewer than eighteen significant digits in front of a point. -/
theorem scansBody_point (n : Nat) (W F : List Nat) (T : List UInt8) (bounded : ∀ d ∈ W, d < 10)
    (fractionBounded : ∀ d ∈ F, d < 10) (some : W ≠ []) (noZero : W.head? ≠ Option.some 0)
    (early : W.length < 18) (stops : NoDigit T) :
    ∃ r z, ScansBody (List.replicate n Ascii.zero ++
      (W.map digitByte ++ Ascii.dot :: (F.map digitByte ++ T))) (W ++ F) W.length T n r z := by
  obtain ⟨point, head⟩ := scanPoint_digit (Ascii.dot :: (F.map digitByte ++ T)) bounded some noZero
  have zeros := scanZeros_run 0 n _ head
  rw [Nat.zero_add] at zeros
  obtain ⟨r, scanned⟩ : ∃ r, scanMantissa 0 false
      (W.map digitByte ++ Ascii.dot :: (F.map digitByte ++ T)) = r := ⟨_, rfl⟩
  obtain ⟨holds, y, dot, more, leaves⟩ :=
    scanMantissa_point 0 W F bounded fractionBounded early T stops r scanned
  have allBounded : ∀ d ∈ W ++ F, d < 10 := bounded_append bounded fractionBounded
  have positive : 0 < W.length := List.length_pos_iff.mpr some
  refine ⟨r, r.z, ⟨_, _, _, _, zeros, point, scanned⟩, ?_, holds, ?_, .inr (.inl (by omega))⟩
  · rw [leaves.text, scanExcess_run _ _ _ _ _ (leaves.bounded allBounded), dot,
      scanExcess_stop _ _ _ _ stops (.inl rfl)]
    rfl
  · intro _
    rw [dot]
    exact y

/-- Digits beyond the eighteenth do not reach the words. -/
theorem Mantissa.Holds.append {r : Mantissa} {W : List Nat} (holds : r.Holds W)
    (long : 18 ≤ W.length) (F : List Nat) : r.Holds (W ++ F) := by
  have taken : (W ++ F).take 9 = W.take 9 := List.take_append_of_le_length (by omega)
  have dropped : ((W ++ F).drop 9).take 9 = (W.drop 9).take 9 := by
    rw [List.drop_append_of_le_length (by omega),
      List.take_append_of_le_length (by rw [List.length_drop]; omega)]
  obtain ⟨m1, low, room, m0⟩ := holds
  constructor
  · rw [m1, taken]
  · rw [low, taken]
  · rw [room, taken]
  · rw [m0, dropped]

/-- Eighteen significant digits in front of a point: the words are full, and the
excess is passed over, points included. -/
theorem scansBody_late (n : Nat) (W F : List Nat) (T : List UInt8) (bounded : ∀ d ∈ W, d < 10)
    (fractionBounded : ∀ d ∈ F, d < 10) (noZero : W.head? ≠ Option.some 0)
    (late : 18 ≤ W.length) :
    ∃ r z, ScansBody (List.replicate n Ascii.zero ++
      (W.map digitByte ++ Ascii.dot :: (F.map digitByte ++ T))) (W ++ F) W.length
      (T.dropWhile fun c => decide (Numeral.IsExcess c)) n r z := by
  have some : W ≠ [] := List.length_pos_iff.mp (by omega)
  obtain ⟨point, head⟩ := scanPoint_digit (Ascii.dot :: (F.map digitByte ++ T)) bounded some noZero
  have zeros := scanZeros_run 0 n _ head
  rw [Nat.zero_add] at zeros
  obtain ⟨holds, y, dot, more, leaves, count⟩ := scanMantissa_run 0 false W bounded
    (Ascii.dot :: (F.map digitByte ++ T)) (noDigit_dot _) (.inr (.inr late)) _ rfl
  refine ⟨_, W.length, ⟨_, _, _, _, zeros, point, rfl⟩, ?_, holds.append late F, ?_,
    .inl (by omega)⟩
  · rw [leaves.text, scanExcess_run _ _ _ _ _ (leaves.bounded bounded), dot, scanExcess,
      if_pos (.inl ⟨rfl, rfl⟩)]
    simp only [Bool.false_or, decide_true, if_true, Bool.false_eq_true, if_false, count]
    rw [scanExcess_run _ _ _ _ _ fractionBounded, scanExcess_seen]
    simp
  · intro _
    rw [dot]
    rfl

/-- A point with no significant digit in front of it. -/
theorem scansBody_fraction (n f : Nat) (G : List Nat) (T : List UInt8) (bounded : ∀ d ∈ G, d < 10)
    (noZero : G.head? ≠ Option.some 0) (stops : NoDigit T) (some : n ≠ 0 ∨ f ≠ 0 ∨ G ≠ []) :
    ∃ r z, ScansBody (List.replicate n Ascii.zero ++
      Ascii.dot :: (List.replicate f Ascii.zero ++ (G.map digitByte ++ T))) G (-f) T n r z := by
  have zeros := scanZeros_run 0 n
    (Ascii.dot :: (List.replicate f Ascii.zero ++ (G.map digitByte ++ T)))
    (by rw [List.head?_cons]; decide)
  rw [Nat.zero_add] at zeros
  have head : (G.map digitByte ++ T).head? ≠ Option.some Ascii.zero := by
    by_cases none : G = []
    · rw [none]
      exact head_ne_zero stops
    · exact (scanPoint_digit T bounded none noZero).2
  have point : scanPoint (Ascii.dot :: (List.replicate f Ascii.zero ++ (G.map digitByte ++ T))) =
      (true, -(f : Int), G.map digitByte ++ T) := by
    simp [scanPoint, scanZeros_run 0 f _ head]
  obtain ⟨r, scanned⟩ : ∃ r, scanMantissa (-f) true (G.map digitByte ++ T) = r := ⟨_, rfl⟩
  obtain ⟨holds, y, dot, more, leaves, count⟩ :=
    scanMantissa_run (-f) true G bounded T stops (.inl rfl) r scanned
  refine ⟨r, r.z, ⟨_, _, _, _, zeros, point, scanned⟩, ?_, holds, ?_, ?_⟩
  · rw [leaves.text, scanExcess_run _ _ _ _ _ (leaves.bounded bounded), dot,
      scanExcess_stop _ _ _ _ stops (.inl rfl)]
    rfl
  · intro _
    rw [dot]
    exact y
  · rcases some with leading | behind | digits
    · exact .inr (.inr leading)
    · exact .inr (.inl (by rw [y]; omega))
    · left
      obtain ⟨k, beyond⟩ := leaves.beyond
      have sizes := congrArg List.length beyond
      have positive : 0 < G.length := List.length_pos_iff.mpr digits
      simp only [List.length_drop, List.length_append, List.length_replicate] at sizes
      omega

/-- Zeros alone. -/
theorem scansBody_zeros (n : Nat) (T : List UInt8) (stops : NoDigit T)
    (noPoint : T.head? ≠ some Ascii.dot) (some : n ≠ 0) :
    ∃ r z, ScansBody (List.replicate n Ascii.zero ++ T) [] 0 T n r z := by
  have zeros := scanZeros_run 0 n T (head_ne_zero stops)
  rw [Nat.zero_add] at zeros
  have point : scanPoint T = (false, 0, T) := by
    cases T with
    | nil => rfl
    | cons c rest =>
      have other : c ≠ Ascii.dot := by simpa using noPoint
      have again := scanZeros_run 0 0 (c :: rest) (head_ne_zero stops)
      rw [List.replicate_zero, List.nil_append] at again
      simp [scanPoint, other, again]
  obtain ⟨r, scanned⟩ : ∃ r, scanMantissa 0 false T = r := ⟨_, rfl⟩
  obtain ⟨holds, _, dot, more, leaves, count⟩ :=
    scanMantissa_run 0 false [] (by simp) T stops (.inr (.inl noPoint)) r scanned
  refine ⟨r, r.z, ⟨_, _, _, _, zeros, point, scanned⟩, ?_, holds, fun digits => absurd rfl digits,
    .inr (.inr some)⟩
  have text := leaves.text
  rw [leaves.nothing 0 rfl, List.map_nil, List.nil_append] at text
  rw [text, dot, scanExcess_stop _ _ _ _ stops (.inr noPoint)]

/-- The text that the scan reaches behind the mantissa. -/
def Numeral.reached (n : Numeral) (T : List UInt8) : List UInt8 :=
  if 18 ≤ n.place ∧ n.fraction ≠ none then T.dropWhile fun c => decide (IsExcess c) else T

theorem map_zeros (n : Nat) (W : List Nat) (rest : List UInt8) :
    (List.replicate n 0 ++ W).map digitByte ++ rest =
      List.replicate n Ascii.zero ++ (W.map digitByte ++ rest) := by
  rw [List.map_append, List.map_replicate, digitByte_zero, List.append_assoc]

/-- The scan of a numeral's mantissa, in front of text that it does not go on
into. -/
theorem Numeral.scansBody (n : Numeral) (T : List UInt8) (stops : NoDigit T)
    (noPoint : n.fraction = none → T.head? ≠ some Ascii.dot) :
    ∃ leading r z, ScansBody (n.whole.map digitByte ++ (fractionText n.fraction ++ T))
      n.significant n.place (n.reached T) leading r z := by
  obtain ⟨k, W, whole, noZero⟩ := exists_leading_zeros n.whole
  have bounded := n.bounded
  have nonempty := n.nonempty
  simp only [significant, place, reached, mantissa, whole] at bounded nonempty ⊢
  cases fraction : n.fraction with
  | none =>
    have noPoint := noPoint fraction
    simp only [fraction, Option.getD_none, List.append_nil, fractionText, List.nil_append, ne_eq,
      not_true, and_false, if_false] at bounded nonempty ⊢
    obtain ⟨digits, zeros⟩ := dropWhile_zeros k W noZero
    rw [digits, zeros, map_zeros]
    have wBounded : ∀ d ∈ W, d < 10 := fun d member => bounded d (List.mem_append_right _ member)
    by_cases empty : W = []
    · subst empty
      have positive : k ≠ 0 := by
        rintro rfl
        exact nonempty rfl
      obtain ⟨r, z, scans⟩ := scansBody_zeros k T stops noPoint positive
      exact ⟨k, r, z, by simpa using scans⟩
    · obtain ⟨r, z, scans⟩ := scansBody_whole k W T wBounded empty noZero stops noPoint
      exact ⟨k, r, z, by simpa using scans⟩
  | some F =>
    simp only [fraction, Option.getD_some, fractionText, List.cons_append, ne_eq, reduceCtorEq,
      not_false_eq_true, and_true] at bounded nonempty ⊢
    have wBounded : ∀ d ∈ W, d < 10 := fun d member => bounded d (by simp [member])
    have fBounded : ∀ d ∈ F, d < 10 := fun d member => bounded d (by simp [member])
    by_cases empty : W = []
    · subst empty
      obtain ⟨f, G, behind, noZero'⟩ := exists_leading_zeros F
      obtain ⟨digits, zeros⟩ := dropWhile_zeros (k + f) G noZero'
      have gBounded : ∀ d ∈ G, d < 10 := by
        intro d member
        exact fBounded d (by rw [behind]; exact List.mem_append_right _ member)
      have joined : List.replicate k 0 ++ [] ++ F = List.replicate (k + f) 0 ++ G := by
        rw [behind, List.append_nil, ← List.append_assoc, List.replicate_append_replicate]
      rw [joined] at nonempty
      rw [joined, digits, zeros, map_zeros, behind, map_zeros]
      obtain ⟨r, z, scans⟩ := scansBody_fraction k f G T gBounded noZero' stops (by
        by_contra none
        simp only [not_or, not_not] at none
        exact nonempty (by rw [none.1, none.2.1, none.2.2]; rfl))
      refine ⟨k, r, z, ?_⟩
      rw [if_neg (by simp; omega)]
      simpa using scans
    · have noZero' : (W ++ F).head? ≠ some 0 := by
        obtain ⟨first, more, same⟩ := List.exists_cons_of_ne_nil empty
        rw [same] at noZero ⊢
        exact noZero
      obtain ⟨digits, zeros⟩ := dropWhile_zeros k (W ++ F) noZero'
      rw [List.append_assoc, digits, zeros, map_zeros]
      have place : ((List.replicate k 0 ++ W).length : Int) - k = W.length := by simp
      rw [place]
      rcases Nat.lt_or_ge W.length 18 with early | late
      · obtain ⟨r, z, scans⟩ := scansBody_point k W F T wBounded fBounded empty noZero early stops
        exact ⟨k, r, z, by rw [if_neg (by omega)]; exact scans⟩
      · obtain ⟨r, z, scans⟩ := scansBody_late k W F T wBounded fBounded noZero late
        exact ⟨k, r, z, by rw [if_pos (by omega)]; exact scans⟩

/-! ## The exponent -/

theorem signByte_cases (minus : Bool) : (signByte minus = Ascii.minus ∨ signByte minus = Ascii.plus) ∧
    (signByte minus = Ascii.minus ↔ minus = true) := by
  cases minus <;> decide

/-- The digits of an exponent, read behind its sign. -/
theorem scanExponent_digits (ds : List Nat) (more : List UInt8) (bounded : ∀ d ∈ ds, d < 10)
    (some : ds ≠ []) (stops : NoDigit more) :
    ∃ count, scanExponent 0 0 (scanZeros 0 (ds.map digitByte ++ more)).2 =
      (evalFrom 10 0 ((ds.dropWhile (· == 0)).take 3), count, more) ∧
      more.length ≠ (ds.map digitByte ++ more).length := by
  obtain ⟨n, D, same, noZero, zeros⟩ := scanZeros_digits ds more bounded stops
  have dBounded : ∀ d ∈ D, d < 10 := by
    intro d member
    exact bounded d (by rw [same]; exact List.mem_append_right _ member)
  rw [zeros, scanExponent_run 0 0 D more dBounded stops (by omega), same,
    (dropWhile_zeros n D noZero).1]
  refine ⟨_, rfl, ?_⟩
  rw [← same, List.length_append, List.length_map]
  have positive : 0 < ds.length := List.length_pos_iff.mpr some
  omega

theorem exponentPart_text (e : ExponentText) (more : List UInt8) (stops : NoDigit more) :
    (exponentPart (e.text ++ more)).1 = e.cutPower := by
  obtain ⟨count, digits, progress⟩ :=
    scanExponent_digits e.digits more e.bounded e.nonempty stops
  cases sign : e.sign with
  | none =>
    obtain ⟨d, ds, _, small, text⟩ := head_digits more e.bounded e.nonempty
    have noMinus : digitByte d ≠ Ascii.minus := digitByte_ne d small _ rfl
    have noPlus : digitByte d ≠ Ascii.plus := digitByte_ne d small _ rfl
    rw [text] at digits progress
    simp only [ExponentText.text, sign, Option.toList_none, List.map_nil, List.nil_append,
      List.cons_append, text, exponentPart, noMinus, noPlus, or_self, if_false, digits]
    rw [if_neg (fun stuck => progress stuck.2)]
    simp [ExponentText.cutPower, ExponentText.signed, sign]
  | some minus =>
    obtain ⟨isSign, isMinus⟩ := signByte_cases minus
    simp only [ExponentText.text, sign, Option.toList_some, List.map_cons, List.map_nil,
      List.cons_append, List.nil_append, exponentPart, isSign, if_true, digits]
    rw [if_neg (fun stuck => progress stuck.2)]
    simp [ExponentText.cutPower, ExponentText.signed, sign, isMinus]

/-- Without a digit behind the sign there is no exponent. -/
theorem exponentPart_none {T : List UInt8} (none : ∀ e : ExponentText, ¬ e.text <+: T)
    (starts : T.head? = some Ascii.upperE) : (exponentPart T).1 = 0 := by
  obtain ⟨c, rfl⟩ := List.head?_eq_some_iff.mp starts
  cases c with
  | nil => rfl
  | cons s rest =>
    have stuck : ∀ d : List UInt8, NoDigit d →
        (scanExponent 0 0 (scanZeros 0 d).2) = (0, 0, d) := by
      intro d stops
      have zeros := scanZeros_run 0 0 d (head_ne_zero stops)
      rw [List.replicate_zero, List.nil_append] at zeros
      rw [zeros]
      exact scanExponent_run 0 0 [] d (by simp) stops (by omega)
    have digitless : ∀ sign : Option Bool, ∀ d : List UInt8,
        s :: rest = sign.toList.map signByte ++ d → NoDigit d := by
      intro sign d split c after text
      by_contra digit
      rw [Bool.not_eq_false] at digit
      refine none ⟨sign, [digitVal c], by simpa using digitVal_lt c digit, by simp⟩ ⟨after, ?_⟩
      rw [split, text]
      simp [ExponentText.text, digitByte_digitVal c digit]
    simp only [exponentPart]
    by_cases isSign : s = Ascii.minus ∨ s = Ascii.plus
    · have stops : NoDigit rest := by
        rcases isSign with rfl | rfl
        · exact digitless (some true) rest rfl
        · exact digitless (some false) rest rfl
      rw [if_pos isSign, stuck rest stops]
      simp
    · rw [if_neg isSign, stuck _ (digitless Option.none _ rfl)]
      simp

/-! ## The longest numeral -/

/-- The text behind a longest numeral does not go on with it. -/
theorem Numeral.Longest.not_longer {n : Numeral} {text rest : List UInt8} (longest : n.Longest text)
    (split : text = n.text ++ rest) (m : Numeral) {c : UInt8} {more : List UInt8}
    (longer : m.text = n.text ++ c :: more) : ¬ (c :: more) <+: rest := by
  rintro ⟨after, same⟩
  have begins : m.text <+: text := by
    rw [longer, split, ← same]
    exact ⟨after, by simp⟩
  have short := longest.2 m begins
  rw [longer, List.length_append, List.length_cons] at short
  omega

/-- What the text behind a longest numeral cannot start with. -/
structure Numeral.Ends (n : Numeral) (rest : List UInt8) : Prop where
  digit : NoDigit rest
  point : n.exponent = none → n.fraction = none → rest.head? ≠ some Ascii.dot
  exponent : n.exponent = none → ∀ e : ExponentText, ¬ e.text <+: rest

theorem bounded_snoc {ds : List Nat} {c : UInt8} (bounded : ∀ d ∈ ds, d < 10)
    (digit : isDigit c = true) : ∀ d ∈ ds ++ [digitVal c], d < 10 :=
  bounded_append bounded (by simpa using digitVal_lt c digit)

/-- What follows the longest numeral ends it. -/
theorem Numeral.Longest.ends {n : Numeral} {text rest : List UInt8} (longest : n.Longest text)
    (split : text = n.text ++ rest) : n.Ends rest := by
  constructor
  · intro c after same
    by_contra isNot
    have digit : isDigit c = true := by simpa using isNot
    have begins : [c] <+: rest := ⟨after, by rw [same]; rfl⟩
    cases exponent : n.exponent with
    | some e =>
      let e' : ExponentText := ⟨e.sign, e.digits ++ [digitVal c], bounded_snoc e.bounded digit, by simp⟩
      refine longest.not_longer split { n with exponent := some e' } ?_ begins
      simp [Numeral.text, exponentText, exponent, ExponentText.text, e', digitByte_digitVal c digit]
    | none =>
      cases fraction : n.fraction with
      | some F =>
        have bounded := n.bounded
        rw [fraction, Option.getD_some] at bounded
        have longer : ∀ d ∈ n.whole ++ (some (F ++ [digitVal c])).getD [], d < 10 := by
          rw [Option.getD_some, ← List.append_assoc]
          exact bounded_snoc bounded digit
        refine longest.not_longer split
          { n with fraction := some (F ++ [digitVal c]), bounded := longer, nonempty := by simp } ?_ begins
        simp [Numeral.text, exponentText, exponent, fractionText, fraction,
          digitByte_digitVal c digit]
      | none =>
        have bounded := n.bounded
        rw [fraction, Option.getD_none, List.append_nil] at bounded
        have longer : ∀ d ∈ (n.whole ++ [digitVal c]) ++ n.fraction.getD [], d < 10 := by
          rw [fraction, Option.getD_none, List.append_nil]
          exact bounded_snoc bounded digit
        refine longest.not_longer split
          { n with whole := n.whole ++ [digitVal c], bounded := longer, nonempty := by simp } ?_ begins
        simp [Numeral.text, exponentText, exponent, fractionText, fraction,
          digitByte_digitVal c digit]
  · intro exponent fraction starts
    obtain ⟨after, same⟩ := List.head?_eq_some_iff.mp starts
    have begins : [Ascii.dot] <+: rest := ⟨after, by rw [same]; rfl⟩
    have bounded := n.bounded
    have nonempty := n.nonempty
    rw [fraction, Option.getD_none] at bounded nonempty
    refine longest.not_longer split
      { n with fraction := some [], bounded := bounded, nonempty := nonempty } ?_ begins
    simp [Numeral.text, exponentText, exponent, fractionText, fraction]
  · intro exponent e begins
    refine longest.not_longer split { n with exponent := some e } ?_ begins
    simp [Numeral.text, exponentText, exponent, ExponentText.text]

/-- Runs of signs in front of something else are compared sign by sign. -/
theorem signs_of_prefix {first second : List Bool} {b c : List UInt8} (some : b ≠ [])
    (notSign : b.head? ≠ Option.some Ascii.minus ∧ b.head? ≠ Option.some Ascii.plus)
    (notSign' : c.head? ≠ Option.some Ascii.minus ∧ c.head? ≠ Option.some Ascii.plus)
    (begins : first.map signByte ++ b <+: second.map signByte ++ c) : first = second ∧ b <+: c := by
  induction first generalizing second with
  | nil =>
    cases second with
    | nil => exact ⟨rfl, begins⟩
    | cons minus second =>
      obtain ⟨x, rest, rfl⟩ := List.exists_cons_of_ne_nil some
      have same := (List.cons_prefix_cons.mp begins).1
      have isSign := (signByte_cases minus).1
      simp only [List.head?_cons, ne_eq, Option.some.injEq, same] at notSign
      exact absurd isSign (not_or.mpr notSign)
  | cons minus first ih =>
    cases second with
    | nil =>
      rw [List.map_nil, List.nil_append] at begins
      have isSign := (signByte_cases minus).1
      obtain ⟨more, rfl⟩ := begins
      simp only [List.map_cons, List.cons_append, List.head?_cons, ne_eq,
        Option.some.injEq] at notSign'
      exact absurd isSign (not_or.mpr notSign')
    | cons minus' second =>
      obtain ⟨same, rest⟩ := List.cons_prefix_cons.mp begins
      obtain ⟨tails, behind⟩ := ih rest
      have heads : minus = minus' := by
        revert same
        cases minus <;> cases minus' <;> decide
      exact ⟨by rw [heads, tails], behind⟩

/-- Runs of digits in front of something else are compared digit by digit, unless
the first text ends inside the second run. -/
theorem digits_of_prefix {first second : List Nat} {b c : List UInt8}
    (bounded : ∀ d ∈ first, d < 10) (bounded' : ∀ d ∈ second, d < 10) (stops : NoDigit b)
    (stops' : NoDigit c) (begins : first.map digitByte ++ b <+: second.map digitByte ++ c) :
    (first.length = second.length ∧ b <+: c) ∨ (b = [] ∧ first.length ≤ second.length) := by
  induction first generalizing second with
  | nil =>
    cases second with
    | nil => exact .inl ⟨rfl, begins⟩
    | cons d second =>
      cases b with
      | nil => exact .inr ⟨rfl, Nat.zero_le _⟩
      | cons x rest =>
        have same := (List.cons_prefix_cons.mp begins).1
        have digit := isDigit_digitByte d (bounded' d List.mem_cons_self)
        rw [← same, stops x rest rfl] at digit
        cases digit
  | cons d first ih =>
    have digit := isDigit_digitByte d (bounded d List.mem_cons_self)
    cases second with
    | nil =>
      obtain ⟨more, rfl⟩ := begins
      rw [stops' _ _ rfl] at digit
      cases digit
    | cons d' second =>
      obtain ⟨_, rest⟩ := List.cons_prefix_cons.mp begins
      have behind := ih (fun e member => bounded e (List.mem_cons_of_mem d member))
        (fun e member => bounded' e (List.mem_cons_of_mem d' member)) rest
      simpa using behind

theorem ExponentText.length_le {e e' : ExponentText} {rest : List UInt8} (stops : NoDigit rest)
    (begins : e.text <+: e'.text ++ rest) : e.text.length ≤ e'.text.length := by
  have body : e.sign.toList.map signByte ++ e.digits.map digitByte <+:
      e'.sign.toList.map signByte ++ (e'.digits.map digitByte ++ rest) := by
    rw [← List.append_assoc]
    exact (List.cons_prefix_cons.mp begins).2
  obtain ⟨d, ds, _, small, text⟩ := head_digits [] e.bounded e.nonempty
  obtain ⟨d', ds', _, small', text'⟩ := head_digits rest e'.bounded e'.nonempty
  rw [List.append_nil] at text
  have signs := signs_of_prefix (by simp [e.nonempty])
    (by
      rw [text]
      simp [digitByte_ne d small Ascii.minus rfl, digitByte_ne d small Ascii.plus rfl])
    (by
      rw [text']
      simp [digitByte_ne d' small' Ascii.minus rfl, digitByte_ne d' small' Ascii.plus rfl])
    body
  have digits := digits_of_prefix (b := []) e.bounded e'.bounded noDigit_nil stops (by
    rw [List.append_nil]
    exact signs.2)
  have shorter : e.digits.length ≤ e'.digits.length := by omega
  simp only [ExponentText.text, List.length_cons, List.length_append, List.length_map, signs.1]
  omega

theorem Numeral.body_head (n : Numeral) (T : List UInt8) :
    (n.whole.map digitByte ++ (fractionText n.fraction ++ T)).head? ≠ some Ascii.minus ∧
      (n.whole.map digitByte ++ (fractionText n.fraction ++ T)).head? ≠ some Ascii.plus := by
  have bounded := n.bounded
  have nonempty := n.nonempty
  cases whole : n.whole with
  | cons d ds =>
    have small : d < 10 := bounded d (by simp [whole])
    have noMinus : digitByte d ≠ Ascii.minus := digitByte_ne d small _ rfl
    have noPlus : digitByte d ≠ Ascii.plus := digitByte_ne d small _ rfl
    simp [noMinus, noPlus]
  | nil =>
    cases fraction : n.fraction with
    | none => simp [whole, fraction] at nonempty
    | some F =>
      simp only [fractionText, List.map_nil, List.nil_append, List.cons_append, List.head?_cons]
      decide

theorem noDigit_fraction (fraction : Option (List Nat)) {T : List UInt8} (stops : NoDigit T) :
    NoDigit (Numeral.fractionText fraction ++ T) := by
  cases fraction with
  | none => exact stops
  | some F => exact noDigit_dot _

theorem noDigit_exponent (exponent : Option ExponentText) {T : List UInt8} (stops : NoDigit T) :
    NoDigit (Numeral.exponentText exponent ++ T) := by
  cases exponent with
  | none => exact stops
  | some e =>
    intro c after same
    cases same
    rfl

/-- The exponents of two numerals, read from the same place. -/
theorem Numeral.Ends.exponent_le {n : Numeral} {rest : List UInt8} (ends : n.Ends rest)
    (exponent : Option ExponentText)
    (begins : exponentText exponent <+: exponentText n.exponent ++ rest) :
    (exponentText exponent).length ≤ (exponentText n.exponent).length := by
  cases exponent with
  | none => exact Nat.zero_le _
  | some e =>
    cases own : n.exponent with
    | none =>
      rw [own] at begins
      exact absurd begins (ends.exponent own e)
    | some e' =>
      rw [own] at begins
      exact ExponentText.length_le ends.digit begins

/-- The fractions of two numerals, read from the same place. -/
theorem Numeral.Ends.fraction_le {n m : Numeral} {rest : List UInt8} (ends : n.Ends rest)
    (begins : fractionText m.fraction ++ exponentText m.exponent <+:
      fractionText n.fraction ++ (exponentText n.exponent ++ rest)) :
    (fractionText m.fraction ++ exponentText m.exponent).length ≤
      (fractionText n.fraction ++ exponentText n.exponent).length := by
  cases mine : m.fraction with
  | none =>
    rw [mine] at begins
    cases own : n.fraction with
    | none =>
      rw [own] at begins
      exact ends.exponent_le m.exponent begins
    | some F =>
      cases exponent : m.exponent with
      | none => exact Nat.zero_le _
      | some e =>
        rw [own, exponent] at begins
        have impossible := (List.cons_prefix_cons.mp begins).1
        cases impossible
  | some F =>
    rw [mine] at begins
    cases own : n.fraction with
    | none =>
      rw [own] at begins
      have starts : (exponentText n.exponent ++ rest).head? = some Ascii.dot := by
        obtain ⟨more, same⟩ := begins
        rw [fractionText, List.nil_append] at same
        rw [← same]
        rfl
      cases exponent : n.exponent with
      | none =>
        rw [exponent] at starts
        exact absurd starts (ends.point exponent own)
      | some e =>
        rw [exponent] at starts
        cases starts
    | some F' =>
      rw [own] at begins
      have behind := (List.cons_prefix_cons.mp begins).2
      have mBounded := m.bounded
      have nBounded := n.bounded
      rw [mine, Option.getD_some] at mBounded
      rw [own, Option.getD_some] at nBounded
      have mStops := noDigit_exponent m.exponent noDigit_nil
      rw [List.append_nil] at mStops
      simp only [fractionText, List.cons_append, List.length_cons, List.length_append,
        List.length_map]
      rcases digits_of_prefix (fun d member => mBounded d (List.mem_append_right _ member))
        (fun d member => nBounded d (List.mem_append_right _ member)) mStops
        (noDigit_exponent n.exponent ends.digit) behind with ⟨same, exponents⟩ | ⟨none, short⟩
      · have shorter := ends.exponent_le m.exponent exponents
        omega
      · rw [none, List.length_nil]
        omega

/-- A numeral that the text behind it does not go on with is the longest. -/
theorem Numeral.Ends.longest {n : Numeral} {rest : List UInt8} (ends : n.Ends rest) :
    n.Longest (n.text ++ rest) := by
  refine ⟨List.prefix_append _ _, ?_⟩
  intro m begins
  have body : m.text <+: n.signs.map signByte ++ (n.whole.map digitByte ++
      (fractionText n.fraction ++ (exponentText n.exponent ++ rest))) := by
    simpa [Numeral.text] using begins
  have mHead := m.body_head (exponentText m.exponent)
  have some : m.whole.map digitByte ++ (fractionText m.fraction ++ exponentText m.exponent) ≠ [] := by
    intro empty
    have nonempty := m.nonempty
    simp only [List.append_eq_nil_iff, List.map_eq_nil_iff] at empty
    cases fraction : m.fraction with
    | none => simp [fraction, empty.1] at nonempty
    | some F => simp [fraction, fractionText] at empty
  obtain ⟨signs, behind⟩ := signs_of_prefix some mHead (n.body_head _) body
  have mStops : NoDigit (fractionText m.fraction ++ exponentText m.exponent) := by
    have stops := noDigit_exponent m.exponent noDigit_nil
    rw [List.append_nil] at stops
    exact noDigit_fraction _ stops
  simp only [Numeral.text, List.length_append, List.length_map, signs]
  rcases digits_of_prefix (fun d member => m.bounded d (List.mem_append_left _ member))
    (fun d member => n.bounded d (List.mem_append_left _ member)) mStops
    (noDigit_fraction _ (noDigit_exponent n.exponent ends.digit)) behind with
      ⟨same, fractions⟩ | ⟨none, short⟩
  · have shorter := ends.fraction_le fractions
    simp only [List.length_append] at shorter
    omega
  · have empty := List.append_eq_nil_iff.mp none
    rw [empty.1, empty.2, List.length_nil]
    omega

/-- A text that starts with a numeral starts with a longest one. -/
theorem Numeral.exists_longest {text : List UInt8} (some : ∃ n : Numeral, n.text <+: text) :
    ∃ n : Numeral, n.Longest text := by
  by_contra none
  -- without a longest there would be ever longer ones
  have longer : ∀ k, ∃ n : Numeral, n.text <+: text ∧ k ≤ n.text.length := by
    intro k
    induction k with
    | zero =>
      obtain ⟨n, begins⟩ := some
      exact ⟨n, begins, Nat.zero_le _⟩
    | succ k ih =>
      obtain ⟨n, begins, long⟩ := ih
      by_contra stuck
      refine none ⟨n, begins, fun m starts => ?_⟩
      by_contra more
      exact stuck ⟨m, starts, by omega⟩
  obtain ⟨n, begins, long⟩ := longer (text.length + 1)
  have bound := begins.length_le
  omega

/-- The exponent that the scan reads from the text that it reached. -/
def readPower (T : List UInt8) : Int :=
  if T.head? = some Ascii.upperE then (exponentPart T).1 else 0

/-- The fields of a scan that decide the number. -/
structure Scan.Finds (sc : Scan) (ds : List Nat) (place power : Int) (negative : Bool) : Prop where
  m1 : sc.m1 = evalFrom 10 0 (ds.take 9)
  low : sc.i = lowZeros 0 (ds.take 9)
  room : sc.k = 9 - (ds.take 9).length
  m0 : sc.m0 = evalFrom 10 0 ((ds.drop 9).take 9) * 10 ^ (9 - ((ds.drop 9).take 9).length)
  digit : sc.digit = true
  exponent : ds ≠ [] → sc.x + (if sc.dot then sc.y else sc.z) = place + power
  sign : decide (sc.sign % 2 = 1) = negative

/-- The scan of a text that starts with a longest numeral. -/
theorem Numeral.Longest.scan {n : Numeral} {text rest : List UInt8} (longest : n.Longest text)
    (split : text = n.text ++ rest) :
    (scan text).Finds n.significant n.place
      (readPower (n.reached (exponentText n.exponent ++ rest))) n.negative := by
  have ends := longest.ends split
  obtain ⟨T, behind⟩ : ∃ T, T = exponentText n.exponent ++ rest := ⟨_, rfl⟩
  have body : text = n.signs.map signByte ++
      (n.whole.map digitByte ++ (fractionText n.fraction ++ T)) := by
    rw [split, behind]
    simp [Numeral.text]
  have stops : NoDigit T := by
    rw [behind]
    cases exponent : n.exponent with
    | none => exact ends.digit
    | some e =>
      intro c after same
      cases same
      rfl
  have noPoint : n.fraction = none → T.head? ≠ some Ascii.dot := by
    intro fraction
    rw [behind]
    cases exponent : n.exponent with
    | none => exact ends.point exponent fraction
    | some e =>
      change some Ascii.upperE ≠ some Ascii.dot
      decide
  obtain ⟨sign, signs, parity⟩ := scanSigns_run 0 n.signs _ (n.body_head T)
  obtain ⟨leading, r, z, scans⟩ := n.scansBody T stops noPoint
  obtain ⟨c₂, dot, y, c₃, zeros, point, mantissa⟩ := scans.scanned
  rw [← behind]
  have digit : (z ≠ 0 ∨ r.y ≠ 0 ∨ leading ≠ 0) := scans.digit
  have whole : Ydb.scan text = ⟨sign, leading, r.dot, r.y, z, r.first.i, r.first.room, r.first.m,
      r.m0, endsBadly text r.rest r.dot, true,
      decide ((n.reached T).head? = some Ascii.upperE),
      (if (n.reached T).head? = some Ascii.upperE then exponentPart (n.reached T)
        else (0, n.reached T)).1,
      (if (n.reached T).head? = some Ascii.upperE then exponentPart (n.reached T)
        else (0, n.reached T)).2⟩ := by
    simp only [Ydb.scan, body, signs, zeros, point, mantissa, scans.excess]
    simp [digit]
  rw [whole]
  refine ⟨scans.holds.m1, scans.holds.low, scans.holds.room, scans.holds.m0, rfl, ?_, ?_⟩
  · intro digits
    rw [← scans.place digits, Int.add_comm, readPower]
    split <;> rfl
  · rw [Numeral.negative]
    rw [Nat.zero_add] at parity
    simp only [parity]
    exact Bool.eq_iff_iff.mpr (by simp)

end Ydb
