import Ydb.LeafInsertion
import Ydb.BlockKill

/-!
# The range of a kill

The keys from a key on and below the alternate key of the kill are those that begin with the key without its
last delimiter, the key and its descendants. Without descendants, it is the key alone.
-/

namespace Ydb.BlockUpdate

open Lib

/-- What the keys that are killed begin with. -/
def killPrefix (do_subtree : Bool) (key : List UInt8) : List UInt8 := if do_subtree then key.dropLast else key

/-- What all keys of the range begin with, and the two ends of the range. -/
structure KillEnds (do_subtree : Bool) (key altkey q : List UInt8) : Prop where
  first : key = q ++ [KEY_DELIMITER] ∨ key = q ++ [KEY_DELIMITER, KEY_DELIMITER]
  behind : altkey = q ++ [1, KEY_DELIMITER, KEY_DELIMITER]
  begins : killPrefix do_subtree key = q ++ [KEY_DELIMITER]

section Order

variable {a b q x : List UInt8} {key altkey : List UInt8} {do_subtree : Bool}

/-- What lies between two sequences with one beginning has this beginning. -/
theorem between_prefix (low : ¬ x < q ++ a) (high : x < q ++ b) : ∃ y, x = q ++ y ∧ ¬ y < a ∧ y < b := by
  induction q generalizing x with
  | nil => exact ⟨x, rfl, low, high⟩
  | cons c q ih =>
    cases x with
    | nil => exact absurd (List.nil_lt_cons _ _) low
    | cons d x =>
      rw [List.cons_append, List.cons_lt_cons_iff] at low high
      cases high with
      | inl less => exact absurd (.inl less) low
      | inr same =>
        obtain ⟨rfl, high⟩ := same
        obtain ⟨y, rfl, atLeast, less⟩ := ih (fun less => low (.inr ⟨rfl, less⟩)) high
        exact ⟨y, rfl, atLeast, less⟩

theorem append_lt_append (less : a < b) : q ++ a < q ++ b := by
  induction q with
  | nil => exact less
  | cons c q ih => exact List.cons_lt_cons_iff.mpr (.inr ⟨rfl, ih⟩)

theorem not_append_lt : ¬ q ++ a < q := by
  induction q with
  | nil => exact List.not_lt_nil a
  | cons c q ih =>
    intro less
    cases List.cons_lt_cons_iff.mp less with
    | inl smaller => exact UInt8.lt_irrefl c smaller
    | inr same => exact ih same.2

/-- The last two bytes of a key are delimiters. -/
theorem wellFormed_last_two {front back : List UInt8} (wellFormed : WellFormedKey (front ++ back))
    (two : back.length = 2) : back = [KEY_DELIMITER, KEY_DELIMITER] := by
  obtain ⟨body, whole, _⟩ := wellFormed.ends
  have lens := congrArg List.length whole
  rw [List.length_append, List.length_append, two] at lens
  exact (List.append_inj whole (Nat.add_right_cancel lens)).2

theorem not_wellFormed_one : ¬ WellFormedKey (q ++ [1]) := by
  intro wellFormed
  obtain ⟨body, whole, _⟩ := wellFormed.ends
  have last := congrArg List.getLast? whole
  rw [List.getLast?_append, List.getLast?_append] at last
  have same : some (1 : UInt8) = some KEY_DELIMITER := last
  exact absurd same (by decide)

theorem not_wellFormed_one_delimiter : ¬ WellFormedKey (q ++ [1, KEY_DELIMITER]) := by
  intro wellFormed
  exact absurd (wellFormed_last_two wellFormed rfl) (by decide)

/-- The keys in the range are those with the prefix. -/
theorem KillEnds.mem_iff (ends : KillEnds do_subtree key altkey q) (target : WellFormedKey key)
    (wellFormed : WellFormedKey x) : (¬ x < key ∧ x < altkey) ↔ killPrefix do_subtree key <+: x := by
  rw [ends.begins, ends.behind]
  constructor
  · intro ⟨low, high⟩
    have least : ¬ x < q ++ [KEY_DELIMITER] := by
      intro less
      apply low
      cases ends.first with
      | inl same => exact same ▸ less
      | inr same =>
        rw [same]
        exact List.lt_trans less (append_lt_append (by decide))
    obtain ⟨y, rfl, atLeast, less⟩ := between_prefix least high
    cases y with
    | nil => exact absurd (List.nil_lt_cons _ _) atLeast
    | cons c y =>
      cases List.cons_lt_cons_iff.mp less with
      | inl zero =>
        have isZero : c = KEY_DELIMITER := by
          have small := UInt8.lt_iff_toNat_lt.mp zero
          apply UInt8.toNat_inj.mp
          change c.toNat < 1 at small
          change c.toNat = 0
          omega
        rw [isZero]
        exact ⟨y, by rw [List.append_assoc]; rfl⟩
      | inr rest =>
        -- such a sequence does not end like a key
        obtain ⟨rfl, below⟩ := rest
        exfalso
        cases y with
        | nil => exact not_wellFormed_one wellFormed
        | cons d y =>
          cases List.cons_lt_cons_iff.mp below with
          | inl less => exact absurd less (UInt8.not_lt_zero)
          | inr same =>
            obtain ⟨rfl, last⟩ := same
            cases y with
            | nil => exact not_wellFormed_one_delimiter wellFormed
            | cons e y =>
              cases List.cons_lt_cons_iff.mp last with
              | inl less => exact absurd less (UInt8.not_lt_zero)
              | inr same => exact absurd same.2 (List.not_lt_nil y)
  · intro ⟨rest, same⟩
    subst same
    refine ⟨?_, ?_⟩
    · cases ends.first with
      | inl exact' =>
        rw [exact']
        exact not_append_lt
      | inr longer =>
        intro less
        rw [longer, List.append_assoc] at less
        -- a key with this beginning goes on with a delimiter at least
        cases rest with
        | nil =>
          rw [List.append_nil] at wellFormed
          have begins : q ++ [KEY_DELIMITER] <+: key := ⟨[KEY_DELIMITER], by rw [longer, List.append_assoc]; rfl⟩
          have equal := wellFormed.eq_of_prefix target begins
          rw [longer] at equal
          have lens := congrArg List.length equal
          simp at lens
        | cons c rest =>
          have more : ¬ [KEY_DELIMITER] ++ c :: rest < [KEY_DELIMITER, KEY_DELIMITER] := by
            intro smaller
            cases List.cons_lt_cons_iff.mp smaller with
            | inl impossible => exact UInt8.lt_irrefl _ impossible
            | inr tail =>
              cases List.cons_lt_cons_iff.mp tail.2 with
              | inl impossible => exact absurd impossible UInt8.not_lt_zero
              | inr tail => exact List.not_lt_nil rest tail.2
          have split : ∃ y, q ++ ([KEY_DELIMITER] ++ c :: rest) = q ++ y ∧ ¬ y < [] ∧
              y < [KEY_DELIMITER, KEY_DELIMITER] := between_prefix (by rw [List.append_nil]; exact not_append_lt) less
          obtain ⟨y, same, _, smaller⟩ := split
          rw [← List.append_cancel_left same] at smaller
          exact more smaller
    · rw [List.append_assoc]
      exact append_lt_append (List.cons_lt_cons_iff.mpr (.inl (by decide)))

/-- A key with a one in front of the delimiters, after a beginning of a key. -/
theorem wellFormed_with_one (starts : (q ++ [KEY_DELIMITER]).head? ≠ some KEY_DELIMITER ∨ q = [])
    (chain : q.IsChain NotBothDelimiters) : WellFormedKey (q ++ [1, KEY_DELIMITER, KEY_DELIMITER]) := by
  refine ⟨?_, q ++ [1], by rw [List.append_assoc]; rfl, ?_⟩
  · cases q with
    | nil => exact fun same => absurd same (by decide)
    | cons c q =>
      cases starts with
      | inl starts => exact starts
      | inr empty => cases empty
  · rw [List.append_assoc]
    apply chain.append
    · exact .cons_cons (.inl (by decide)) (.singleton _)
    · intro a _ b next
      obtain rfl : 1 = b := Option.some.inj next
      exact .inr (by decide)

end Order

/-! ## The keys of a kill -/

section Keys

variable {gv_currkey gv_altkey : KeyBuffer} {do_subtree : Bool}

theorem store_same (base : ByteMemory) (cp : Nat) (ch : UInt8) : store base cp ch cp = ch :=
  Function.update_self _ _ _

theorem store_other {base : ByteMemory} {cp a : Nat} (ch : UInt8) (other : a ≠ cp) : store base cp ch a = base a :=
  Function.update_of_ne other _ _

/-- The bytes of the alternate key: a beginning of the key, a one and two delimiters. -/
theorem killAltKey_bytes (target : WellFormedTarget gv_currkey) :
    (killAltKey do_subtree gv_currkey gv_altkey).bytes =
      gv_currkey.bytes.take (gv_currkey.end_ - if do_subtree then 1 else 0) ++ [1, KEY_DELIMITER, KEY_DELIMITER] := by
  have long := target.wellFormed.length_ge
  have width := gv_currkey.length_bytes
  have front : ∀ n ≤ gv_currkey.end_ + 1, gv_currkey.bytes.take n = gv_currkey.base.read 0 n := fun n within =>
    (ByteMemory.read_take within).symm
  have last : gv_currkey.base gv_currkey.end_ = KEY_DELIMITER := by
    obtain ⟨body, whole, _⟩ := target.wellFormed.ends
    have lens := congrArg List.length whole
    rw [width, List.length_append] at lens
    have place : body.length + 1 = gv_currkey.end_ := by
      simp only [List.length_cons, List.length_nil] at lens
      omega
    have split : gv_currkey.base.read 0 (gv_currkey.end_ + 1) = (body ++ [KEY_DELIMITER]) ++ KEY_DELIMITER :: [] := by
      rw [List.append_assoc]
      exact whole
    have found := ByteMemory.of_read split
    rw [List.length_append, Nat.zero_add] at found
    rw [← place]
    exact found
  have three : ∀ (mem : ByteMemory) n, mem n = 1 → mem (n + 1) = KEY_DELIMITER → mem (n + 2) = KEY_DELIMITER →
      mem.read n 3 = [1, KEY_DELIMITER, KEY_DELIMITER] := by
    intro mem n one first second
    have bytes : mem.read n 3 = [mem n, mem (n + 1), mem (n + 2)] := rfl
    rw [bytes, one, first, second]
  cases do_subtree with
  | true =>
    rw [if_pos rfl, front _ (by omega)]
    have parts : gv_currkey.end_ + 1 + 1 = gv_currkey.end_ - 1 + 3 := by omega
    have whole : (killAltKey true gv_currkey gv_altkey).bytes =
        (store (store gv_currkey.base (gv_currkey.end_ - 1) 1) (gv_currkey.end_ + 1) KEY_DELIMITER).read 0
          (gv_currkey.end_ + 1 + 1) := rfl
    rw [whole, parts, ByteMemory.read_add, Nat.zero_add]
    congr 1
    · apply ByteMemory.read_congr
      intro i less
      rw [store_other _ (by omega), store_other _ (by omega)]
    · apply three
      · rw [store_other _ (by omega), store_same]
      · have place : gv_currkey.end_ - 1 + 1 = gv_currkey.end_ := by omega
        rw [place, store_other _ (by omega), store_other _ (by omega), last]
      · have place : gv_currkey.end_ - 1 + 2 = gv_currkey.end_ + 1 := by omega
        rw [place, store_same]
  | false =>
    rw [if_neg Bool.false_ne_true, Nat.sub_zero, front _ (by omega)]
    have whole : (killAltKey false gv_currkey gv_altkey).bytes =
        (store (store (store gv_currkey.base gv_currkey.end_ 1) (gv_currkey.end_ + 1) KEY_DELIMITER)
          (gv_currkey.end_ + 2) KEY_DELIMITER).read 0 (gv_currkey.end_ + 3) := rfl
    rw [whole, ByteMemory.read_add, Nat.zero_add]
    congr 1
    · apply ByteMemory.read_congr
      intro i less
      rw [store_other _ (by omega), store_other _ (by omega), store_other _ (by omega)]
    · apply three
      · rw [store_other _ (by omega), store_other _ (by omega), store_same]
      · rw [store_other _ (by omega), store_same]
      · exact store_same _ _ _

/-- The alternate key ends the range, and the tree can be searched for it. -/
theorem killAltKey_ends (target : WellFormedTarget gv_currkey) (hidden : gv_currkey.end_ + 3 ≤ MAX_KEY_SZ) :
    WellFormedTarget (killAltKey do_subtree gv_currkey gv_altkey) ∧
      ∃ q, KillEnds do_subtree gv_currkey.bytes (killAltKey do_subtree gv_currkey gv_altkey).bytes q := by
  have bytes := @killAltKey_bytes gv_currkey gv_altkey do_subtree target
  have short : (killAltKey do_subtree gv_currkey gv_altkey).bytes.length ≤ MAX_KEY_SZ := by
    rw [bytes, List.length_append, List.length_take]
    simp only [List.length_cons, List.length_nil]
    omega
  obtain ⟨body, whole, chain⟩ := target.wellFormed.ends
  have starts := target.wellFormed.starts
  have width := gv_currkey.length_bytes
  have lens := congrArg List.length whole
  rw [width, List.length_append] at lens
  simp only [List.length_cons, List.length_nil] at lens
  have inner := (List.isChain_append.mp chain).1
  cases do_subtree with
  | true =>
    have place : gv_currkey.end_ - (if true = true then 1 else 0) = body.length := by
      rw [if_pos rfl]
      omega
    rw [place, whole, List.take_left] at bytes
    refine ⟨⟨?_, short⟩, body, ?_⟩
    · rw [bytes]
      apply wellFormed_with_one _ inner
      cases body with
      | nil => exact .inr rfl
      | cons c body =>
        rw [whole] at starts
        exact .inl starts
    · refine ⟨.inr whole, bytes, ?_⟩
      unfold killPrefix
      rw [if_pos rfl, whole, List.dropLast_append_of_ne_nil (by decide)]
      rfl
  | false =>
    have split : gv_currkey.bytes = (body ++ [KEY_DELIMITER]) ++ [KEY_DELIMITER] := by
      rw [List.append_assoc]
      exact whole
    have place : gv_currkey.end_ - (if false = true then 1 else 0) = (body ++ [KEY_DELIMITER]).length := by
      rw [if_neg Bool.false_ne_true, List.length_append]
      simp only [List.length_cons, List.length_nil]
      omega
    rw [place, split, List.take_left] at bytes
    refine ⟨⟨?_, short⟩, body ++ [KEY_DELIMITER], ?_⟩
    · rw [bytes]
      apply wellFormed_with_one _ chain
      rw [split] at starts
      exact .inl starts
    · refine ⟨.inl split, bytes, ?_⟩
      unfold killPrefix
      rw [if_neg Bool.false_ne_true, split]

end Keys

end Ydb.BlockUpdate
