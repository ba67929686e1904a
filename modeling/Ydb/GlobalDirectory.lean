import Mathlib.Data.List.Lex
import Ydb.Lib.ByteMemory
import Ydb.Lib.Divergence
import Ydb.LocalTree

/-!
# Global directory maps

The map of a global directory is an array of keys in ascending order, each with the
region of the keys below it. A reference belongs to the first entry above it. A global
spans regions when there are entries between its references.
-/

namespace Ydb

open Lib

/-- One entry of the map, with where its key stands. -/
structure gd_binding where
  gvkey : Nat
  reg : Nat
  gvname_len : Nat
  gvkey_len : Nat

/-- A global directory. -/
structure gd_addr where
  maps : Nat → gd_binding
  n_maps : Nat
  n_regions : Nat

variable (mem : ByteMemory) (addr : gd_addr) (key : List UInt8)

/-- Compare a key with the beginning of an entry's key. -/
def compareMap (map : gd_binding) : Int := memcmp key (mem.read map.gvkey key.length)

/-- The binary search. The code stops where `low` equals `high`, and `low` is never
above. -/
def mapLoop (low high : Nat) : Nat :=
  if low < high then
    let mid := (low + high) / 2
    let map := addr.maps mid
    let res := compareMap mem key map
    if 0 > res then mapLoop low mid
    else if 0 < res then mapLoop (mid + 1) high
    else if key.length < map.gvkey_len - 1 then mapLoop low mid
    else mid + 1
  else low
termination_by high - low
decreasing_by all_goals omega

/-- The entry for a key: get past local locks and the first entry, which is always `%`. -/
def gv_srch_map : Nat := mapLoop mem addr key 2 (addr.n_maps - 1)

/-- The forward search; so many entries are left, and none is there behind them. -/
def linearLoop : Nat → Nat → Option Nat
  | 0, _ => none
  | left + 1, i =>
    let map := addr.maps i
    let res := compareMap mem key map
    if 0 < res then linearLoop left (i + 1)
    else if 0 > res then some i
    else if key.length < map.gvkey_len - 1 then some i
    else some (i + 1)

/-- Search forward from `start_map`. -/
def gv_srch_map_linear (start_map : Nat) : Option Nat :=
  linearLoop mem addr key (addr.n_maps - start_map) start_map

/-- The backward search, from the entry before the given one on. -/
def backwardLoop : Nat → Option Nat
  | 0 => none
  | i + 1 =>
    let map := addr.maps i
    let res := compareMap mem key map
    if 0 < res then some (i + 1)
    else if 0 > res then backwardLoop i
    else if key.length < map.gvkey_len - 1 then backwardLoop i
    else some (i + 1)

/-- Search backward from `start_map`. -/
def gv_srch_map_linear_backward (start_map : Nat) : Option Nat :=
  backwardLoop mem addr key (start_map + 1)

/-! ## Spanning regions -/

/-- The regions that a global spans. -/
structure gvnh_spanreg_t where
  min_reg_index : Nat
  max_reg_index : Nat
  start_map_index : Nat
  end_map_index : Nat
deriving DecidableEq

/-- The name of the statistics globals, `%YGS`. -/
def STATSDB_GBLNAME : List UInt8 := [0x25, 0x59, 0x47, 0x53]

variable (name : List UInt8)

/-- Pass the entries for the references of a global: the last one, and the least and the
greatest region. So many entries are left. -/
def spanLoop : Nat → Nat → Nat → Nat → Option (Nat × Nat × Nat)
  | 0, _, _, _ => none
  | left + 1, gvmap_end, min_reg_index, max_reg_index =>
    let map := addr.maps gvmap_end
    let res := compareMap mem name map
    let min_reg_index := if min_reg_index > map.reg then map.reg else min_reg_index
    let max_reg_index := if max_reg_index < map.reg then map.reg else max_reg_index
    if 0 > res ∨ (0 = res ∧ name.length < map.gvname_len) then
      some (gvmap_end, min_reg_index, max_reg_index)
    else spanLoop left (gvmap_end + 1) min_reg_index max_reg_index

/-- What is recorded for a global whose name maps to an entry: null if it does not span
regions, or if spanning globals are ignored. None outside is no result. -/
def gvnh_spanreg_init (no_spangbls : Bool) (gvmap_start : Nat) : Option (Option gvnh_spanreg_t) :=
  if no_spangbls then some none
  else (spanLoop mem addr name (addr.n_maps - gvmap_start) gvmap_start addr.n_regions 0).map
    fun (gvmap_end, min_reg_index, max_reg_index) =>
      if gvmap_end = gvmap_start then none
      else some
        { min_reg_index := if name = STATSDB_GBLNAME then 0 else min_reg_index
          max_reg_index := max_reg_index
          start_map_index := gvmap_start
          end_map_index := gvmap_end }

end Ydb
