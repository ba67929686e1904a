import Ydb.GlobalDirectory

/-!
# Searching global directory maps

The keys of a map are ordered bytewise, a key before its extensions. The byte
comparisons of the searches tell this order although the keys in memory are followed by
other bytes: within a key no two zero bytes follow each other, and at its end two do.
-/

namespace Ydb

open Lib

/-! ## Comparisons of strings of one length -/

theorem Lib.Diverges.lt {left right : List Nat} (apart : Diverges left right) : left < right := by
  induction apart with
  | here smaller => exact List.cons_lt_cons_iff.mpr (.inl smaller)
  | later _ ih => exact List.cons_lt_cons_iff.mpr (.inr ⟨rfl, ih⟩)

/-- The bytes as numbers; their lists are ordered. -/
def codes (bytes : List UInt8) : List Nat := bytes.map UInt8.toNat

@[simp] theorem codes_append (xs ys : List UInt8) : codes (xs ++ ys) = codes xs ++ codes ys := by
  simp [codes]

/-- `memcmp` shows in which order two keys diverge. -/
theorem memcmp_cases {xs ys : List UInt8} (length : xs.length = ys.length) :
    (memcmp xs ys < 0 ∧ Diverges (codes xs) (codes ys)) ∨ (memcmp xs ys = 0 ∧ xs = ys) ∨
      (0 < memcmp xs ys ∧ Diverges (codes ys) (codes xs)) := by
  induction xs generalizing ys with
  | nil =>
    have empty : ys = [] := List.length_eq_zero_iff.mp length.symm
    exact .inr (.inl ⟨by rw [memcmp]; simp, empty.symm⟩)
  | cons x xs ih =>
    cases ys with
    | nil => simp at length
    | cons y ys =>
      rw [memcmp]
      by_cases same : x = y
      · subst same
        rw [if_pos rfl]
        rcases ih (Nat.succ.inj length) with ⟨less, apart⟩ | ⟨zero, equal⟩ | ⟨more, apart⟩
        · exact .inl ⟨less, .later apart⟩
        · exact .inr (.inl ⟨zero, equal ▸ rfl⟩)
        · exact .inr (.inr ⟨more, .later apart⟩)
      · rw [if_neg same]
        have differ : x.toNat ≠ y.toNat := fun equal => same (UInt8.toNat_inj.mp equal)
        rcases Nat.lt_or_gt_of_ne differ with less | more
        · exact .inl ⟨by omega, .here less⟩
        · exact .inr (.inr ⟨by omega, .here more⟩)

/-! ## Keys -/

/-- A zero byte in a string is followed by another byte than zero. -/
def Isolated (bytes : List UInt8) : Prop :=
  ∀ front back, bytes = front ++ 0 :: back → ∃ c rest, back = c :: rest ∧ c ≠ 0

theorem Isolated.prepend {bytes : List UInt8} (isolated : Isolated bytes) {front : List UInt8}
    (noZero : 0 ∉ front) : Isolated (front ++ bytes) := by
  induction front with
  | nil => exact isolated
  | cons x front ih =>
    obtain ⟨first, others⟩ := not_or.mp (List.mem_cons.not.mp noZero)
    intro before back split
    cases before with
    | nil =>
      rw [List.cons_append, List.nil_append, List.cons.injEq] at split
      exact absurd split.1.symm first
    | cons y before =>
      rw [List.cons_append, List.cons_append, List.cons.injEq] at split
      exact ih others before back split.2

/-- A key without its terminators: a name, and each subscript behind a zero byte. -/
structure MapKey where
  name : List UInt8
  subs : List (List UInt8)
  named : name ≠ []
  noZero : 0 ∉ name
  subscripts : ∀ sub ∈ subs, sub ≠ [] ∧ 0 ∉ sub

namespace MapKey

/-- Subscripts, each behind a zero byte. -/
def subscriptBytes (subs : List (List UInt8)) : List UInt8 := subs.flatMap fun sub => 0 :: sub

/-- The bytes of a key of the map. -/
def bytes (key : MapKey) : List UInt8 := key.name ++ subscriptBytes key.subs

/-- No subscript begins with a zero byte. -/
theorem isolated_subscripts {subs : List (List UInt8)} (subscripts : ∀ sub ∈ subs, sub ≠ [] ∧ 0 ∉ sub) :
    Isolated (subscriptBytes subs) := by
  induction subs with
  | nil =>
    intro front back split
    simp [subscriptBytes] at split
  | cons sub subs ih =>
    obtain ⟨nonempty, noZero⟩ := subscripts sub List.mem_cons_self
    have rest := ih fun other member => subscripts other (List.mem_cons_of_mem sub member)
    have tail := rest.prepend noZero
    have whole : subscriptBytes (sub :: subs) = 0 :: (sub ++ subscriptBytes subs) := rfl
    rw [whole]
    intro front back split
    cases front with
    | nil =>
      rw [List.nil_append, List.cons.injEq] at split
      obtain ⟨c, others, first⟩ := List.exists_cons_of_ne_nil nonempty
      refine ⟨c, others ++ subscriptBytes subs, by rw [← split.2, first]; rfl, ?_⟩
      rintro rfl
      exact noZero (first ▸ List.mem_cons_self)
    | cons x front =>
      rw [List.cons_append, List.cons.injEq] at split
      exact tail front back split.2

theorem isolated (key : MapKey) : Isolated key.bytes :=
  (isolated_subscripts key.subscripts).prepend key.noZero

end MapKey

/-- The first difference of two strings. -/
theorem Lib.Diverges.split {xs ys : List UInt8} (apart : Diverges (codes xs) (codes ys)) :
    ∃ common x y front back, xs = common ++ x :: front ∧ ys = common ++ y :: back ∧ x.toNat < y.toNat := by
  induction xs generalizing ys with
  | nil => exact nomatch apart
  | cons x xs ih =>
    cases ys with
    | nil => exact nomatch apart
    | cons y ys =>
      rcases Diverges.cons_iff.mp apart with smaller | ⟨same, rest⟩
      · exact ⟨[], x, y, xs, ys, rfl, rfl, smaller⟩
      · obtain ⟨common, c, d, front, back, rfl, rfl, less⟩ := ih rest
        exact ⟨x :: common, c, d, front, back, rfl, by rw [UInt8.toNat_inj.mp same]; rfl, less⟩

theorem diverges_of_split {common front back : List UInt8} {x y : UInt8} (less : x.toNat < y.toNat) :
    Diverges (codes (common ++ x :: front)) (codes (common ++ y :: back)) := by
  rw [codes_append, codes_append]
  exact Diverges.prepend (.here less) _

theorem codes_lt_append (bytes : List UInt8) (c : UInt8) (rest : List UInt8) :
    codes bytes < codes (bytes ++ c :: rest) := by
  induction bytes with
  | nil => exact List.nil_lt_cons _ _
  | cons x bytes ih => exact List.cons_lt_cons_iff.mpr (.inr ⟨rfl, ih⟩)

/-- The bytes of a key and what follows them, at a difference from another key: the key
goes on so far, or it ends, and the other one goes on. -/
theorem MapKey.at_difference {key other : MapKey} {common front back rest : List UInt8} {x y : UInt8}
    (here : key.bytes = common ++ x :: front)
    (there : other.bytes ++ 0 :: 0 :: back = common ++ y :: rest) :
    (∃ more, other.bytes = common ++ y :: more) ∨
      (y = 0 ∧ ∃ c more, key.bytes = other.bytes ++ c :: more) := by
  rcases List.append_eq_append_iff.mp there with ⟨passed, common_eq, zeros⟩ | ⟨passed, other_eq, behind⟩
  · right
    match passed, zeros with
    | [], zeros =>
      rw [List.nil_append, List.cons.injEq] at zeros
      exact ⟨zeros.1.symm, x, front, by rw [here, common_eq, List.append_nil]⟩
    | [a], zeros =>
      rw [List.singleton_append, List.cons.injEq, List.cons.injEq] at zeros
      exact ⟨zeros.2.1.symm, a, x :: front, by rw [here, common_eq]; simp⟩
    | a :: b :: passed, zeros =>
      rw [List.cons_append, List.cons_append, List.cons.injEq, List.cons.injEq] at zeros
      obtain ⟨rfl, rfl, _⟩ := zeros
      have twice : key.bytes = other.bytes ++ 0 :: (0 :: (passed ++ x :: front)) := by
        rw [here, common_eq]
        simp
      obtain ⟨c, _, first, nonzero⟩ := key.isolated _ _ twice
      rw [List.cons.injEq] at first
      exact absurd first.1.symm nonzero
  · cases passed with
    | nil =>
      right
      rw [List.nil_append, List.cons.injEq] at behind
      exact ⟨behind.1, x, front, by rw [here, other_eq, List.append_nil]⟩
    | cons a passed =>
      left
      rw [List.cons_append, List.cons.injEq] at behind
      exact ⟨passed, by rw [other_eq, behind.1]⟩

/-- A comparison with the bytes of a key and what follows them tells the order of the two
keys. When it is negative they differ at some byte, and when it is zero the one is the
other or its beginning. -/
theorem compare_key {key other : MapKey} {back read : List UInt8}
    (stored : read = (other.bytes ++ 0 :: 0 :: back).take key.bytes.length)
    (enough : read.length = key.bytes.length) :
    (memcmp key.bytes read < 0 ∧ Diverges (codes key.bytes) (codes other.bytes)) ∨
      (0 < memcmp key.bytes read ∧ codes other.bytes < codes key.bytes) ∨
      (memcmp key.bytes read = 0 ∧ key.bytes <+: other.bytes) := by
  have whole : other.bytes ++ 0 :: 0 :: back =
      read ++ (other.bytes ++ 0 :: 0 :: back).drop key.bytes.length := by
    rw [stored, List.take_append_drop]
  rcases memcmp_cases enough.symm with ⟨less, apart⟩ | ⟨zero, equal⟩ | ⟨more, apart⟩
  · left
    refine ⟨less, ?_⟩
    obtain ⟨common, x, y, front, rest, here, there, smaller⟩ := apart.split
    rw [there, List.append_assoc, List.cons_append] at whole
    rcases MapKey.at_difference here whole with ⟨tail, goesOn⟩ | ⟨zero, _⟩
    · rw [here, goesOn]
      exact diverges_of_split smaller
    · rw [zero] at smaller
      exact absurd smaller (Nat.not_lt_zero _)
  · right; right
    refine ⟨zero, ?_⟩
    rw [← equal] at whole
    rcases List.append_eq_append_iff.mp whole with ⟨passed, key_eq, zeros⟩ | ⟨passed, other_eq, _⟩
    · -- the key would be longer and go on with a zero byte, which stands before another one
      cases passed with
      | nil => exact ⟨[], by rw [key_eq, List.append_nil, List.append_nil]⟩
      | cons a passed =>
        rw [List.cons_append, List.cons.injEq] at zeros
        obtain ⟨rfl, zeros⟩ := zeros
        obtain ⟨c, tail, rfl, nonzero⟩ := key.isolated _ _ key_eq
        rw [List.cons_append, List.cons.injEq] at zeros
        exact absurd zeros.1.symm nonzero
    · exact ⟨passed, other_eq.symm⟩
  · right; left
    refine ⟨more, ?_⟩
    obtain ⟨common, y, x, rest, front, there, here, smaller⟩ := apart.split
    rw [there, List.append_assoc, List.cons_append] at whole
    rcases MapKey.at_difference here whole with ⟨tail, goesOn⟩ | ⟨_, c, tail, longer⟩
    · rw [here, goesOn]
      exact (diverges_of_split smaller).lt
    · rw [longer]
      exact codes_lt_append _ c tail

/-! ## Maps -/

/-- A global directory: the keys of the entries, in ascending order. The second is that of
`%`, and the last one consists of the greatest byte. -/
structure GlobalDirectory (mem : ByteMemory) (addr : gd_addr) (keys : Nat → MapKey) : Prop where
  count : 3 ≤ addr.n_maps
  placed : ∀ i < addr.n_maps, mem.read (addr.maps i).gvkey ((keys i).bytes.length + 2) =
    (keys i).bytes ++ [0, 0]
  gvname_len : ∀ i < addr.n_maps, (addr.maps i).gvname_len = (keys i).name.length
  gvkey_len : ∀ i < addr.n_maps, (addr.maps i).gvkey_len = (keys i).bytes.length + 1
  ascending : ∀ i j, i < j → j < addr.n_maps → codes (keys i).bytes < codes (keys j).bytes
  percent : (keys 1).bytes = [0x25]
  last : ∀ c ∈ (keys (addr.n_maps - 1)).bytes, c = 0xFF

/-- References start with `%` or a greater byte, but not with the greatest one. -/
def MapKey.Searchable (key : MapKey) : Prop :=
  ∃ c rest, key.name = c :: rest ∧ 0x25 ≤ c.toNat ∧ c.toNat < 0xFF

/-- The first entry of a map above a key. -/
structure FirstAbove (addr : gd_addr) (keys : Nat → MapKey) (key : MapKey) (i : Nat) : Prop where
  inside : i < addr.n_maps
  above : codes key.bytes < codes (keys i).bytes
  first : ∀ j < i, codes (keys j).bytes ≤ codes key.bytes

variable {mem : ByteMemory} {addr : gd_addr} {keys : Nat → MapKey} {key : MapKey} {i : Nat}

theorem FirstAbove.unique (first : FirstAbove addr keys key i) {j : Nat}
    (other : FirstAbove addr keys key j) : i = j := by
  rcases Nat.lt_trichotomy i j with before | same | after
  · exact absurd first.above (not_lt.mpr (other.first i before))
  · exact same
  · exact absurd other.above (not_lt.mpr (first.first j after))

namespace GlobalDirectory

theorem compareMap_key (directory : GlobalDirectory mem addr keys) (key : MapKey)
    (inside : i < addr.n_maps) :
    (compareMap mem key.bytes (addr.maps i) < 0 ∧ Diverges (codes key.bytes) (codes (keys i).bytes)) ∨
      (0 < compareMap mem key.bytes (addr.maps i) ∧ codes (keys i).bytes < codes key.bytes) ∨
      (compareMap mem key.bytes (addr.maps i) = 0 ∧ key.bytes <+: (keys i).bytes) := by
  have placed := directory.placed i inside
  have stored : mem.read (addr.maps i).gvkey key.bytes.length = ((keys i).bytes ++ 0 :: 0 ::
      mem.read ((addr.maps i).gvkey + ((keys i).bytes.length + 2)) key.bytes.length).take
        key.bytes.length := by
    have whole : mem.read (addr.maps i).gvkey ((keys i).bytes.length + 2 + key.bytes.length) = _ :=
      ByteMemory.read_add _ _ _
    have short : mem.read (addr.maps i).gvkey key.bytes.length =
        (mem.read (addr.maps i).gvkey ((keys i).bytes.length + 2 + key.bytes.length)).take
          key.bytes.length := ByteMemory.read_take (Nat.le_add_left _ _)
    rw [short, whole, placed]
    simp
  exact compare_key stored ByteMemory.length_read

/-- What the searches compare tells whether an entry is above the key. -/
theorem compareMap_cases (directory : GlobalDirectory mem addr keys) (key : MapKey)
    (inside : i < addr.n_maps) :
    (compareMap mem key.bytes (addr.maps i) < 0 ∧ codes key.bytes < codes (keys i).bytes) ∨
      (0 < compareMap mem key.bytes (addr.maps i) ∧ codes (keys i).bytes < codes key.bytes) ∨
      (compareMap mem key.bytes (addr.maps i) = 0 ∧ key.bytes.length < (addr.maps i).gvkey_len - 1 ∧
        codes key.bytes < codes (keys i).bytes) ∨
      (compareMap mem key.bytes (addr.maps i) = 0 ∧ ¬ key.bytes.length < (addr.maps i).gvkey_len - 1 ∧
        codes (keys i).bytes = codes key.bytes) := by
  rcases directory.compareMap_key key inside with ⟨less, apart⟩ | more | ⟨zero, rest, equal⟩
  · exact .inl ⟨less, apart.lt⟩
  · exact .inr (.inl more)
  · have size := directory.gvkey_len i inside
    cases rest with
    | nil =>
      rw [List.append_nil] at equal
      exact .inr (.inr (.inr ⟨zero, by rw [size, ← equal]; omega, by rw [equal]⟩))
    | cons c rest =>
      have longer : (keys i).bytes.length = key.bytes.length + (rest.length + 1) := by
        rw [← equal, List.length_append, List.length_cons]
      exact .inr (.inr (.inl ⟨zero, by omega, equal ▸ codes_lt_append _ c rest⟩))

/-! ## The binary search -/

/-- The binary search finds the entry. -/
theorem mapLoop_spec (directory : GlobalDirectory mem addr keys) {low high : Nat} (le : low ≤ high)
    (inside : high < addr.n_maps) (above : codes key.bytes < codes (keys high).bytes)
    (passed : ∀ j < low, codes (keys j).bytes ≤ codes key.bytes) :
    FirstAbove addr keys key (mapLoop mem addr key.bytes low high) := by
  have upTo : ∀ mid < addr.n_maps, codes (keys mid).bytes ≤ codes key.bytes →
      ∀ j < mid + 1, codes (keys j).bytes ≤ codes key.bytes := by
    intro mid within below j less
    rcases Nat.lt_succ_iff_lt_or_eq.mp less with before | rfl
    · exact (directory.ascending j mid before within).le.trans below
    · exact below
  induction low, high using mapLoop.induct mem addr key.bytes with
  | case1 low high less mid map res negative ih =>
    have within : mid < addr.n_maps := by omega
    rw [mapLoop, if_pos less, if_pos negative]
    rcases directory.compareMap_cases key within with ⟨_, higher⟩ | ⟨more, _⟩ | ⟨zero, _⟩ | ⟨zero, _⟩
    · exact ih (by omega) within higher passed
    · exact absurd negative (Int.not_lt.mpr more.le)
    · exact absurd negative (Int.not_lt.mpr zero.ge)
    · exact absurd negative (Int.not_lt.mpr zero.ge)
  | case2 low high less mid map res negative positive ih =>
    have within : mid < addr.n_maps := by omega
    rw [mapLoop, if_pos less, if_neg negative, if_pos positive]
    rcases directory.compareMap_cases key within with ⟨lower, _⟩ | ⟨_, below⟩ | ⟨zero, _⟩ | ⟨zero, _⟩
    · exact absurd lower negative
    · exact ih (by omega) inside above (upTo mid within below.le)
    · exact absurd positive (Int.not_lt.mpr zero.le)
    · exact absurd positive (Int.not_lt.mpr zero.le)
  | case3 low high less mid map res negative positive shorter ih =>
    have within : mid < addr.n_maps := by omega
    rw [mapLoop, if_pos less, if_neg negative, if_neg positive, if_pos shorter]
    rcases directory.compareMap_cases key within with ⟨lower, _⟩ | ⟨more, _⟩ | ⟨_, _, higher⟩ | ⟨_, whole, _⟩
    · exact absurd lower negative
    · exact absurd more positive
    · exact ih (by omega) within higher passed
    · exact absurd shorter whole
  | case4 low high less mid map res negative positive shorter =>
    have within : mid < addr.n_maps := by omega
    rw [mapLoop, if_pos less, if_neg negative, if_neg positive, if_neg shorter]
    rcases directory.compareMap_cases key within with ⟨lower, _⟩ | ⟨more, _⟩ | ⟨_, less', _⟩ | ⟨_, _, equal⟩
    · exact absurd lower negative
    · exact absurd more positive
    · exact absurd less' shorter
    · refine ⟨by omega, ?_, upTo mid within equal.le⟩
      rw [← equal]
      exact directory.ascending mid (mid + 1) (Nat.lt_succ_self mid) (by omega)
  | case5 low high stop =>
    rw [mapLoop, if_neg stop]
    have equal : low = high := by omega
    exact ⟨equal ▸ inside, equal ▸ above, passed⟩

/-- A reference is above the entry of `%` and below the last one. -/
theorem bounds (directory : GlobalDirectory mem addr keys) (searchable : key.Searchable) :
    codes (keys 1).bytes ≤ codes key.bytes ∧
      codes key.bytes < codes (keys (addr.n_maps - 1)).bytes := by
  obtain ⟨c, rest, name, low, high⟩ := searchable
  have bytes : key.bytes = c :: (rest ++ MapKey.subscriptBytes key.subs) := by
    rw [MapKey.bytes, name]
    rfl
  constructor
  · rw [directory.percent, bytes]
    rcases Nat.eq_or_lt_of_le low with equal | more
    · have same : c = 0x25 := UInt8.toNat_inj.mp equal.symm
      rw [same]
      cases rest ++ MapKey.subscriptBytes key.subs with
      | nil => exact le_refl _
      | cons d tail => exact (codes_lt_append [0x25] d tail).le
    · exact List.cons_lt_cons_iff.mpr (.inl more) |>.le
  · obtain ⟨first, others, last⟩ := List.exists_cons_of_ne_nil (keys (addr.n_maps - 1)).named
    have greatest : (keys (addr.n_maps - 1)).bytes =
        first :: (others ++ MapKey.subscriptBytes (keys (addr.n_maps - 1)).subs) := by
      rw [MapKey.bytes, last]
      rfl
    have top : first = 0xFF := directory.last first (greatest ▸ List.mem_cons_self)
    rw [greatest, bytes, top]
    exact List.cons_lt_cons_iff.mpr (.inl high)

theorem gv_srch_map_first (directory : GlobalDirectory mem addr keys) (searchable : key.Searchable) :
    FirstAbove addr keys key (gv_srch_map mem addr key.bytes) := by
  have count := directory.count
  obtain ⟨low, high⟩ := directory.bounds searchable
  apply directory.mapLoop_spec (by omega) (by omega) high
  intro j less
  rcases Nat.lt_succ_iff_lt_or_eq.mp less with before | rfl
  · exact (directory.ascending j 1 before (by omega)).le.trans low
  · exact low

/-! ## The linear searches -/

/-- The forward search finds the entry. -/
theorem linearLoop_spec (directory : GlobalDirectory mem addr keys) (first : FirstAbove addr keys key i) :
    ∀ (left start : Nat), start + left = addr.n_maps → start ≤ i →
      linearLoop mem addr key.bytes left start = some i := by
  have last := first.inside
  intro left
  induction left with
  | zero =>
    intro start total before
    omega
  | succ left ih =>
    intro start total before
    rw [linearLoop]
    have here : codes key.bytes < codes (keys start).bytes → start = i := by
      intro above
      by_contra other
      exact absurd above (not_lt.mpr (first.first start (by omega)))
    have later : codes (keys start).bytes ≤ codes key.bytes → start + 1 ≤ i := by
      intro below
      by_contra none
      have same : start = i := by omega
      exact absurd first.above (not_lt.mpr (same ▸ below))
    rcases directory.compareMap_cases key (by omega : start < addr.n_maps) with
      ⟨less, above⟩ | ⟨more, below⟩ | ⟨zero, shorter, above⟩ | ⟨zero, whole, equal⟩
    · rw [if_neg (Int.not_lt.mpr less.le), if_pos less, here above]
    · rw [if_pos more]
      exact ih (start + 1) (by omega) (later below.le)
    · rw [zero, if_neg (lt_irrefl 0), if_neg (lt_irrefl 0), if_pos shorter, here above]
    · have next := later equal.le
      have above : codes key.bytes < codes (keys (start + 1)).bytes := by
        rw [← equal]
        exact directory.ascending start (start + 1) (Nat.lt_succ_self start) (by omega)
      have same : start + 1 = i := by
        by_contra other
        exact absurd above (not_lt.mpr (first.first (start + 1) (by omega)))
      rw [zero, if_neg (lt_irrefl 0), if_neg (lt_irrefl 0), if_neg whole, same]

/-- The backward search finds the entry. -/
theorem backwardLoop_spec (directory : GlobalDirectory mem addr keys) (searchable : key.Searchable)
    (first : FirstAbove addr keys key i) :
    ∀ start, i ≤ start → start ≤ addr.n_maps → backwardLoop mem addr key.bytes start = some i := by
  intro start
  induction start with
  | zero =>
    intro before _
    have count := directory.count
    have zero : i = 0 := Nat.le_zero.mp before
    have low := (directory.bounds searchable).1
    have under := directory.ascending 0 1 Nat.zero_lt_one (by omega)
    have above := first.above
    rw [zero] at above
    exact absurd (under.trans_le low) above.asymm
  | succ start ih =>
    intro before inside
    rw [backwardLoop]
    have here : codes (keys start).bytes ≤ codes key.bytes → start + 1 = i := by
      intro below
      by_contra other
      have earlier : i ≤ start := by omega
      rcases Nat.lt_or_eq_of_le earlier with less | rfl
      · exact absurd (first.above.trans (directory.ascending i start less (by omega))) (not_lt.mpr below)
      · exact absurd first.above (not_lt.mpr below)
    have earlier : codes key.bytes < codes (keys start).bytes → i ≤ start := by
      intro above
      by_contra more
      exact absurd above (not_lt.mpr (first.first start (by omega)))
    rcases directory.compareMap_cases key (by omega : start < addr.n_maps) with
      ⟨less, above⟩ | ⟨more, below⟩ | ⟨zero, shorter, above⟩ | ⟨zero, whole, equal⟩
    · rw [if_neg (Int.not_lt.mpr less.le), if_pos less]
      exact ih (earlier above) (by omega)
    · rw [if_pos more, here below.le]
    · rw [zero, if_neg (lt_irrefl 0), if_neg (lt_irrefl 0), if_pos shorter]
      exact ih (earlier above) (by omega)
    · rw [zero, if_neg (lt_irrefl 0), if_neg (lt_irrefl 0), if_neg whole, here equal.le]

/-! ## Spanning regions -/

end GlobalDirectory

/-- The reference to a global as a whole. -/
def MapKey.unsubscripted (key : MapKey) : MapKey :=
  ⟨key.name, [], key.named, key.noZero, nofun⟩

theorem MapKey.unsubscripted_bytes (key : MapKey) : key.unsubscripted.bytes = key.name :=
  List.append_nil _

theorem MapKey.codes_unsubscripted_le (key : MapKey) : codes key.unsubscripted.bytes ≤ codes key.bytes := by
  rw [unsubscripted_bytes, bytes]
  cases subscriptBytes key.subs with
  | nil => rw [List.append_nil]
  | cons c rest => exact (codes_lt_append key.name c rest).le

theorem memcmp_self (xs : List UInt8) : memcmp xs xs = 0 := by
  induction xs with
  | nil => rw [memcmp]; simp
  | cons x xs ih => rw [memcmp, if_pos rfl, ih]

/-- A name at the beginning of a key is its name or the beginning of its name. -/
theorem MapKey.name_prefix {key other : MapKey} (starts : key.name <+: other.bytes) :
    other.name = key.name ∨ ∃ c rest, other.name = key.name ++ c :: rest := by
  obtain ⟨tail, whole⟩ := starts
  rcases List.append_eq_append_iff.mp whole with ⟨more, longer, _⟩ | ⟨more, shorter, zeros⟩
  · cases more with
    | nil => exact .inl (by rw [longer, List.append_nil])
    | cons c rest => exact .inr ⟨c, rest, longer⟩
  · cases more with
    | nil => exact .inl (by rw [shorter, List.append_nil])
    | cons c rest =>
      have zero : c = 0 := by
        cases subs : other.subs with
        | nil =>
          rw [subs] at zeros
          exact nomatch zeros
        | cons sub subs' =>
          rw [subs] at zeros
          exact (List.cons.inj zeros).1.symm
      exact absurd (shorter ▸ List.mem_append_right _ (zero ▸ List.mem_cons_self)) key.noZero

namespace GlobalDirectory

/-- The name of an entry of the global compares equal. -/
theorem compareMap_own (directory : GlobalDirectory mem addr keys) (inside : i < addr.n_maps)
    (own : (keys i).name = key.name) : compareMap mem key.name (addr.maps i) = 0 := by
  have placed := directory.placed i inside
  have bytes : (keys i).bytes = key.name ++ MapKey.subscriptBytes (keys i).subs := by
    rw [MapKey.bytes, own]
  have shorter : mem.read (addr.maps i).gvkey key.name.length =
      (mem.read (addr.maps i).gvkey ((keys i).bytes.length + 2)).take key.name.length := by
    apply ByteMemory.read_take
    rw [bytes, List.length_append]
    omega
  rw [compareMap, shorter, placed, bytes, List.append_assoc, List.take_left, memcmp_self]

/-- The loop stops at an entry above the name exactly if it is not of this global. -/
theorem spanLoop_stops (directory : GlobalDirectory mem addr keys) (inside : i < addr.n_maps)
    (above : codes key.unsubscripted.bytes < codes (keys i).bytes) :
    (0 > compareMap mem key.name (addr.maps i) ∨
      (0 = compareMap mem key.name (addr.maps i) ∧ key.name.length < (addr.maps i).gvname_len)) ↔
      (keys i).name ≠ key.name := by
  have size := directory.gvname_len i inside
  constructor
  · intro stops own
    have zero := directory.compareMap_own inside own
    rcases stops with less | ⟨_, longer⟩
    · omega
    · rw [size, own] at longer
      exact absurd longer (Nat.lt_irrefl _)
  · intro other
    have compared := directory.compareMap_key key.unsubscripted inside
    rw [MapKey.unsubscripted_bytes] at compared above
    rcases compared with ⟨less, _⟩ | ⟨_, below⟩ | ⟨zero, starts⟩
    · exact .inl less
    · exact absurd above below.asymm
    · rcases MapKey.name_prefix starts with own | ⟨c, rest, longer⟩
      · exact absurd own other
      · right
        rw [size, longer, List.length_append, List.length_cons]
        exact ⟨zero.symm, by omega⟩

/-- An entry above the name that is not of the global is above all its references. -/
theorem above_references (directory : GlobalDirectory mem addr keys) (inside : i < addr.n_maps)
    (above : codes key.unsubscripted.bytes < codes (keys i).bytes) (other : (keys i).name ≠ key.name) :
    codes key.bytes < codes (keys i).bytes := by
  have compared := directory.compareMap_key key.unsubscripted inside
  rw [MapKey.unsubscripted_bytes] at compared above
  rcases compared with ⟨_, apart⟩ | ⟨_, below⟩ | ⟨_, starts⟩
  · have further := (apart.append (codes (MapKey.subscriptBytes key.subs)) []).lt
    rwa [List.append_nil, ← codes_append] at further
  · exact absurd above below.asymm
  · rcases MapKey.name_prefix starts with own | ⟨c, rest, longer⟩
    · exact absurd own other
    · have nonzero : (0 : UInt8).toNat < c.toNat := by
        have member : c ∈ (keys i).name := longer ▸ List.mem_append_right _ List.mem_cons_self
        have present : c ≠ 0 := fun zero => (keys i).noZero (zero ▸ member)
        exact Nat.pos_of_ne_zero fun zero => present (UInt8.toNat_inj.mp zero)
      have entry : (keys i).bytes = key.name ++ c :: (rest ++ MapKey.subscriptBytes (keys i).subs) := by
        rw [MapKey.bytes, longer]
        simp
      rw [entry, MapKey.bytes]
      cases subs : key.subs with
      | nil =>
        have none : key.name ++ MapKey.subscriptBytes [] = key.name := List.append_nil _
        rw [none]
        exact codes_lt_append key.name c _
      | cons sub subs' => exact (diverges_of_split nonzero).lt

/-- The loop passes the entries of the global, up to the first one above all its references, and
finds the least and the greatest of their regions. -/
theorem spanLoop_spec (directory : GlobalDirectory mem addr keys) (searchable : key.Searchable) :
    ∀ (left start low high : Nat), start + left = addr.n_maps → 0 < left →
      codes key.unsubscripted.bytes < codes (keys start).bytes →
      ∃ finish low' high', spanLoop mem addr key.name left start low high = some (finish, low', high') ∧
        start ≤ finish ∧ finish < addr.n_maps ∧ (∀ j, start ≤ j → j < finish → (keys j).name = key.name) ∧
        (keys finish).name ≠ key.name ∧ low' ≤ low ∧ high ≤ high' ∧
        ∀ j, start ≤ j → j ≤ finish → low' ≤ (addr.maps j).reg ∧ (addr.maps j).reg ≤ high' := by
  intro left
  induction left with
  | zero =>
    intro start low high total some
    omega
  | succ left ih =>
    intro start low high total _ above
    have inside : start < addr.n_maps := by omega
    have stops := directory.spanLoop_stops inside above
    rw [spanLoop]
    have lower : (if low > (addr.maps start).reg then (addr.maps start).reg else low) ≤ low ∧
        (if low > (addr.maps start).reg then (addr.maps start).reg else low) ≤ (addr.maps start).reg := by
      split
      · omega
      · omega
    have higher : high ≤ (if high < (addr.maps start).reg then (addr.maps start).reg else high) ∧
        (addr.maps start).reg ≤ (if high < (addr.maps start).reg then (addr.maps start).reg else high) := by
      split
      · omega
      · omega
    by_cases own : (keys start).name = key.name
    · have goesOn := fun stop => stops.mp stop own
      rw [if_neg goesOn]
      have last : start ≠ addr.n_maps - 1 := by
        -- the name of the last entry cannot be that of a reference
        rintro final
        obtain ⟨c, rest, name, _, notGreatest⟩ := searchable
        have greatest : c = 0xFF := by
          apply directory.last
          rw [← final, MapKey.bytes, own, name]
          exact List.mem_cons_self
        rw [greatest] at notGreatest
        exact absurd notGreatest (by decide)
      have next := directory.ascending start (start + 1) (Nat.lt_succ_self start) (by omega)
      obtain ⟨finish, low', high', result, before, within, passed, stop, least, most, range⟩ :=
        ih (start + 1) _ _ (by omega) (by omega) (above.trans next)
      refine ⟨finish, low', high', result, by omega, within, ?_, stop, least.trans lower.1,
        higher.1.trans most, ?_⟩
      · intro j from' less
        rcases Nat.eq_or_lt_of_le from' with rfl | more
        · exact own
        · exact passed j more less
      · intro j from' le
        rcases Nat.eq_or_lt_of_le from' with rfl | more
        · exact ⟨least.trans lower.2, higher.2.trans most⟩
        · exact range j more le
    · rw [if_pos (stops.mpr own)]
      refine ⟨start, _, _, rfl, Nat.le_refl start, inside, ?_, own, lower.1, higher.1, ?_⟩
      · intro j from' less
        omega
      · intro j from' le
        obtain rfl : start = j := by omega
        exact ⟨lower.2, higher.2⟩

/-- The entries up to the end that the loop finds are those that references of the global
belong to. -/
theorem interval (directory : GlobalDirectory mem addr keys) (searchable : key.Searchable) {finish : Nat}
    (inside : finish < addr.n_maps) (before : gv_srch_map mem addr key.name ≤ finish)
    (passed : ∀ j, gv_srch_map mem addr key.name ≤ j → j < finish → (keys j).name = key.name)
    (stop : (keys finish).name ≠ key.name) (j : Nat) :
    gv_srch_map mem addr key.name ≤ j ∧ j ≤ finish ↔
      ∃ reference : MapKey, reference.name = key.name ∧ gv_srch_map mem addr reference.bytes = j := by
  have start : FirstAbove addr keys key.unsubscripted _ := directory.gv_srch_map_first searchable
  rw [MapKey.unsubscripted_bytes] at start
  have anySearchable : ∀ reference : MapKey, reference.name = key.name → reference.Searchable := by
    intro reference own
    obtain ⟨c, rest, name, range⟩ := searchable
    exact ⟨c, rest, own.trans name, range⟩
  constructor
  · rintro ⟨from', upTo⟩
    rcases Nat.eq_or_lt_of_le from' with rfl | later
    · exact ⟨key.unsubscripted, rfl, by rw [MapKey.unsubscripted_bytes]⟩
    · -- the key of the entry before is a reference of the global
      have own := passed (j - 1) (by omega) (by omega)
      refine ⟨keys (j - 1), own, ?_⟩
      have found := directory.gv_srch_map_first (anySearchable _ own)
      apply found.unique
      refine ⟨by omega, directory.ascending (j - 1) j (by omega) (by omega), ?_⟩
      intro i less
      rcases Nat.eq_or_lt_of_le (Nat.le_sub_one_of_lt less) with rfl | earlier
      · exact le_refl _
      · exact (directory.ascending i (j - 1) earlier (by omega)).le
  · rintro ⟨reference, own, rfl⟩
    have found := directory.gv_srch_map_first (anySearchable reference own)
    have shared : reference.unsubscripted.bytes = key.unsubscripted.bytes := by
      rw [MapKey.unsubscripted_bytes, MapKey.unsubscripted_bytes, own]
    have above : codes reference.unsubscripted.bytes < codes (keys finish).bytes := by
      rw [shared]
      rcases Nat.eq_or_lt_of_le before with equal | later
      · exact equal ▸ start.above
      · exact start.above.trans (directory.ascending _ _ later inside)
    have beyond := directory.above_references inside above (by rw [own]; exact stop)
    have least := reference.codes_unsubscripted_le
    rw [shared] at least
    constructor
    · by_contra early
      exact absurd found.above (not_lt.mpr ((start.first _ (by omega)).trans least))
    · by_contra late
      exact absurd beyond (not_lt.mpr (found.first finish (by omega)))

/-- The three searches find the first entry above a reference, and the interval recorded for a
global is that of the entries found for its references. -/
theorem searches_agree (directory : GlobalDirectory mem addr keys) :
    (∀ key : MapKey, key.Searchable →
      FirstAbove addr keys key (gv_srch_map mem addr key.bytes) ∧
      (∀ start ≤ gv_srch_map mem addr key.bytes,
        gv_srch_map_linear mem addr key.bytes start = some (gv_srch_map mem addr key.bytes)) ∧
      ∀ start < addr.n_maps, gv_srch_map mem addr key.bytes ≤ start + 1 →
        gv_srch_map_linear_backward mem addr key.bytes start = some (gv_srch_map mem addr key.bytes)) ∧
    ∀ key : MapKey, key.Searchable → ∃ gvspan,
      gvnh_spanreg_init mem addr key.name false (gv_srch_map mem addr key.name) = some gvspan ∧
      (gvspan = none → ∀ reference : MapKey, reference.name = key.name →
        gv_srch_map mem addr reference.bytes = gv_srch_map mem addr key.name) ∧
      ∀ span, gvspan = some span →
        (∀ j, span.start_map_index ≤ j ∧ j ≤ span.end_map_index ↔
          ∃ reference : MapKey, reference.name = key.name ∧ gv_srch_map mem addr reference.bytes = j) ∧
        ∀ j, span.start_map_index ≤ j → j ≤ span.end_map_index →
          span.min_reg_index ≤ (addr.maps j).reg ∧ (addr.maps j).reg ≤ span.max_reg_index := by
  constructor
  · intro key searchable
    have first := directory.gv_srch_map_first searchable
    have inside := first.inside
    refine ⟨first, ?_, ?_⟩
    · intro start before
      exact directory.linearLoop_spec first _ start (by omega) before
    · intro start less before
      exact directory.backwardLoop_spec searchable first (start + 1) before less
  · intro key searchable
    have start : FirstAbove addr keys key.unsubscripted _ := directory.gv_srch_map_first searchable
    rw [MapKey.unsubscripted_bytes] at start
    have inside := start.inside
    obtain ⟨finish, low, high, result, before, within, passed, stop, _, _, range⟩ :=
      directory.spanLoop_spec searchable (addr.n_maps - gv_srch_map mem addr key.name) _ addr.n_regions 0
        (by omega) (by omega) start.above
    have exact' := directory.interval searchable within before passed stop
    rw [gvnh_spanreg_init, if_neg (by decide), result, Option.map_some]
    dsimp only
    refine ⟨_, rfl, ?_, ?_⟩
    · intro single reference own
      have equal : finish = gv_srch_map mem addr key.name := by
        by_contra other
        rw [if_neg other] at single
        exact nomatch single
      have found := (exact' _).mpr ⟨reference, own, rfl⟩
      omega
    · intro span several
      have other : finish ≠ gv_srch_map mem addr key.name := by
        intro equal
        rw [if_pos equal] at several
        exact nomatch several
      rw [if_neg other, Option.some.injEq] at several
      subst several
      refine ⟨exact', ?_⟩
      intro j from' upTo
      refine ⟨?_, (range j from' upTo).2⟩
      dsimp only
      split
      · exact Nat.zero_le _
      · exact (range j from' upTo).1

/-- Keys of a small directory, where the references of `a` from the subscript `B` on are in another
region. -/
def smallKeys : Nat → MapKey
  | 0 => ⟨[0x23], [], by decide, by decide, nofun⟩
  | 1 => ⟨[0x25], [], by decide, by decide, nofun⟩
  | 2 => ⟨[0x61], [[0xFF, 0x42]], by decide, by decide, by decide⟩
  | _ => ⟨[0xFF], [], by decide, by decide, nofun⟩

/-- Three keys of a directory. -/
def smallDirectory : gd_addr where
  maps i := ⟨10 * i, if i = 2 then 1 else 0, (smallKeys i).name.length, (smallKeys i).bytes.length + 1⟩
  n_maps := 4
  n_regions := 2

/-- Where the three keys stand. -/
def smallMemory : ByteMemory := fun a => ((smallKeys (a / 10)).bytes ++ [0, 0]).getD (a % 10) 0

/-- The searches of a small directory, from every start. -/
theorem searches_agree_small :
    (FirstAbove smallDirectory smallKeys (smallKeys 2).unsubscripted
        (gv_srch_map smallMemory smallDirectory [0x61]) ∧
      (∀ start ≤ gv_srch_map smallMemory smallDirectory [0x61],
        gv_srch_map_linear smallMemory smallDirectory [0x61] start =
          some (gv_srch_map smallMemory smallDirectory [0x61])) ∧
      ∀ start < 4, gv_srch_map smallMemory smallDirectory [0x61] ≤ start + 1 →
        gv_srch_map_linear_backward smallMemory smallDirectory [0x61] start =
          some (gv_srch_map smallMemory smallDirectory [0x61])) ∧
    ∃ gvspan, gvnh_spanreg_init smallMemory smallDirectory [0x61] false
        (gv_srch_map smallMemory smallDirectory [0x61]) = some gvspan ∧
      (gvspan = none → ∀ reference : MapKey, reference.name = [0x61] →
        gv_srch_map smallMemory smallDirectory reference.bytes =
          gv_srch_map smallMemory smallDirectory [0x61]) ∧
      ∀ span, gvspan = some span →
        (∀ j, span.start_map_index ≤ j ∧ j ≤ span.end_map_index ↔
          ∃ reference : MapKey, reference.name = [0x61] ∧
            gv_srch_map smallMemory smallDirectory reference.bytes = j) ∧
        ∀ j, span.start_map_index ≤ j → j ≤ span.end_map_index →
          span.min_reg_index ≤ (smallDirectory.maps j).reg ∧
            (smallDirectory.maps j).reg ≤ span.max_reg_index := by
  have ordered : ∀ j < 4, ∀ i < j, codes (smallKeys i).bytes < codes (smallKeys j).bytes := by decide
  have directory : GlobalDirectory smallMemory smallDirectory smallKeys := by
    refine ⟨by decide, by decide, fun _ _ => rfl, fun _ _ => rfl, ?_, rfl, fun c there => List.mem_singleton.mp there⟩
    intro i j less inside
    exact ordered j inside i less
  have searchable : (smallKeys 2).unsubscripted.Searchable := ⟨0x61, [], rfl, by decide, by decide⟩
  exact ⟨(searches_agree directory).1 _ searchable, (searches_agree directory).2 _ searchable⟩

end GlobalDirectory

end Ydb
