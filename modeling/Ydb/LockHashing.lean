import Ydb.MurmurHashPieces

/-!
# Hashes of lock names

The hash of a lock name is that of its subscripts, each behind its length. It is built
for all leading parts of a name that a process asks for, for one node of the lock tree
from its ancestors, and for all nodes of the tree when its hash table is built again.
-/

namespace Ydb.LockHashing

open Lib

/-! ## The lock tree -/

/-- A subscript with its own hash. -/
structure mlk_shrsub where
  length : UInt8
  data : List UInt8
  sized : data.length = length.toNat

/-- The pointers of a node. A pointer that is zero points to no node. -/
structure mlk_shrblk where
  value : Nat
  parent : Nat
  children : Nat
  rsib : Nat

/-- Lock nodes and their subscripts. -/
structure LockSpace where
  shrblk : Nat → mlk_shrblk
  shrsub : Nat → mlk_shrsub

/-- The subscript of a node. -/
def LockSpace.subscript (space : LockSpace) (d : Nat) : mlk_shrsub := space.shrsub (space.shrblk d).value

/-- A subscript as it stands in memory. -/
def mlk_shrsub.bytes (shrsub : mlk_shrsub) : List UInt8 := shrsub.length :: shrsub.data

/-! ## A name -/

/-- The part of a hash that is kept. -/
def MLK_SUBHASH_RES_VAL (res : ydb_uint16) : BitVec 64 := res.one

/-- The hashes of the subscripts that are left, from the offset `cp` on. -/
def subhashes (aligned : Bool) (value : List UInt8) (address : Nat) :
    Nat → Nat → hash128_state_t → List (BitVec 64)
  | 0, _, _ => []
  | left + 1, cp, accstate =>
    let size := (value.getD cp 0).toNat + 1
    let accstate := ydb_mmrhash_128_ingest aligned accstate (address + cp) ((value.drop cp).take size)
    let cp := cp + size
    let hashres := ydb_mmrhash_128_result accstate (BitVec.ofNat 32 cp)
    MLK_SUBHASH_RES_VAL hashres :: subhashes aligned value address left cp accstate

/-- The hash of one subscript. -/
def MLK_PVTBLK_SUBHASH_GEN (aligned : Bool) (hash_seed : BitVec 64) (value : List UInt8) (address : Nat)
    (subscript_cnt : Nat) : List (BitVec 64) :=
  subhashes aligned value address subscript_cnt 0 (HASH128_STATE_INIT hash_seed)

/-! ## A node -/

/-- Hash a node's name, from the root down. -/
def mlk_shrhash_val_build (aligned : Bool) (space : LockSpace) :
    Nat → Nat → BitVec 32 → hash128_state_t → Option (BitVec 32 × hash128_state_t)
  | 0, _, _, _ => none
  | fuel + 1, d, total_len, hs =>
    let above :=
      if (space.shrblk d).parent ≠ 0 then
        mlk_shrhash_val_build aligned space fuel (space.shrblk d).parent total_len hs
      else some (total_len, hs)
    above.map fun (total_len, hs) =>
      let shrsub := space.subscript d
      (total_len + (shrsub.length.toBitVec.setWidth 32 + 1),
        ydb_mmrhash_128_ingest aligned hs ((space.shrblk d).value + 8) shrsub.bytes)

/-- How the hash of a node is built from it and checked against the one it keeps. -/
def hashOfNode (aligned : Bool) (hash_seed : BitVec 64) (space : LockSpace) (fuel d : Nat) :
    Option (BitVec 64) :=
  (mlk_shrhash_val_build aligned space fuel d 0 (HASH128_STATE_INIT hash_seed)).map fun (total_len, hs) =>
    MLK_SUBHASH_RES_VAL (ydb_mmrhash_128_result hs total_len)

/-! ## All nodes -/

variable {τ : Type}

/-- The loop over the nodes from `node` to the last before `head`; each takes its hash and
enters the table, then its children do. -/
def mlk_rehash_tree (aligned : Bool) (space : LockSpace) (mlk_shrhash_add : τ → Nat → BitVec 64 → Option τ) :
    Nat → (head node : Nat) → (parent_state : hash128_state_t) → (parent_len : BitVec 32) → (count : Int) →
      (hash : Nat → BitVec 64) → (table : τ) → Option (Int × (Nat → BitVec 64) × τ)
  | 0, _, _, _, _, _, _, _ => none
  | fuel + 1, head, node, parent_state, parent_len, count, hash, table =>
    let address := (space.shrblk node).value
    let node_sub := space.subscript node
    let node_state := ydb_mmrhash_128_ingest aligned parent_state (address + 8) [node_sub.length]
    let node_len : BitVec 32 := 1
    let node_state := ydb_mmrhash_128_ingest aligned node_state (address + 9) node_sub.data
    let node_len := node_len + node_sub.length.toBitVec.setWidth 32
    let node_res := ydb_mmrhash_128_result node_state (parent_len + node_len)
    let hash := fun d => if d = node then MLK_SUBHASH_RES_VAL node_res else hash d
    match mlk_shrhash_add table node (hash node) with
    | none => some (-1, hash, table)
    | some table =>
      let count := count + 1
      let children := (space.shrblk node).children
      let below :=
        if children ≠ 0 then
          mlk_rehash_tree aligned space mlk_shrhash_add fuel children children node_state
            (parent_len + node_len) 0 hash table
        else some (0, hash, table)
      match below with
      | none => none
      | some (child_count, hash, table) =>
        if child_count < 0 then some (-1, hash, table)
        else
          let count := count + child_count
          let node := (space.shrblk node).rsib
          if node ≠ head then
            mlk_rehash_tree aligned space mlk_shrhash_add fuel head node parent_state parent_len count hash table
          else some (count, hash, table)

/-! ## The hash of a name -/

/-- A name as it stands in memory. -/
def nameBytes (name : List mlk_shrsub) : List UInt8 := (name.map mlk_shrsub.bytes).flatten

/-- The hash of a name that is ingested at once. -/
def lockHash (aligned : Bool) (seed : BitVec 64) (name : List mlk_shrsub) : BitVec 64 :=
  MLK_SUBHASH_RES_VAL (ydb_mmrhash_128_result
    (ydb_mmrhash_128_ingest aligned (HASH128_STATE_INIT seed) 0 (nameBytes name))
    (BitVec.ofNat 32 (nameBytes name).length))

/-- The state after a name. -/
def nameState (seed : BitVec 64) (name : List mlk_shrsub) : hash128_state_t :=
  absorbed ⟨seed, seed⟩ (nameBytes name)

/-- The length of a name. -/
def nameLength (name : List mlk_shrsub) : BitVec 32 := BitVec.ofNat 32 (nameBytes name).length

variable {aligned : Bool} {seed : BitVec 64} {space : LockSpace} {front name : List mlk_shrsub}

@[simp] theorem mlk_shrsub.bytes_length (shrsub : mlk_shrsub) :
    shrsub.bytes.length = shrsub.length.toNat + 1 := by
  rw [mlk_shrsub.bytes, List.length_cons, shrsub.sized]

theorem nameBytes_append (front : List mlk_shrsub) (shrsub : mlk_shrsub) :
    nameBytes (front ++ [shrsub]) = nameBytes front ++ shrsub.bytes := by
  simp [nameBytes]

theorem lockHash_eq (aligned : Bool) (seed : BitVec 64) (name : List mlk_shrsub) :
    lockHash aligned seed name =
      MLK_SUBHASH_RES_VAL (ydb_mmrhash_128_result (nameState seed name) (nameLength name)) := by
  rw [lockHash, HASH128_STATE_INIT_eq, ydb_mmrhash_128_ingest_absorbed, List.nil_append]
  rfl

theorem nameState_nil (seed : BitVec 64) : HASH128_STATE_INIT seed = nameState seed [] :=
  HASH128_STATE_INIT_eq seed

theorem ingest_bytes (address : Nat) (shrsub : mlk_shrsub) :
    ydb_mmrhash_128_ingest aligned (nameState seed front) address shrsub.bytes =
      nameState seed (front ++ [shrsub]) := by
  rw [nameState, ydb_mmrhash_128_ingest_absorbed, ← nameBytes_append]
  rfl

/-- The length and the data ingested one after the other. -/
theorem ingest_length_data (address : Nat) (shrsub : mlk_shrsub) :
    ydb_mmrhash_128_ingest aligned
      (ydb_mmrhash_128_ingest aligned (nameState seed front) (address + 8) [shrsub.length])
      (address + 9) shrsub.data = nameState seed (front ++ [shrsub]) := by
  rw [nameState, ydb_mmrhash_128_ingest_absorbed, ydb_mmrhash_128_ingest_absorbed, List.append_assoc]
  have bytes : nameBytes front ++ ([shrsub.length] ++ shrsub.data) = nameBytes (front ++ [shrsub]) :=
    (nameBytes_append front shrsub).symm
  rw [bytes]
  rfl

theorem nameLength_append (front : List mlk_shrsub) (shrsub : mlk_shrsub) :
    nameLength (front ++ [shrsub]) = nameLength front + (1 + shrsub.length.toBitVec.setWidth 32) := by
  apply BitVec.eq_of_toNat_eq
  simp [nameLength, nameBytes_append]
  omega

/-! ## The hashes of leading parts -/

theorem subhashes_eq (front left : List mlk_shrsub) (address : Nat) :
    subhashes aligned (nameBytes (front ++ left)) address left.length (nameBytes front).length
        (nameState seed front) =
      (List.range left.length).map fun i => lockHash aligned seed (front ++ left.take (i + 1)) := by
  induction left generalizing front with
  | nil => rfl
  | cons shrsub left ih =>
    have split : nameBytes (front ++ shrsub :: left) = nameBytes front ++ (shrsub.bytes ++ nameBytes left) := by
      simp [nameBytes]
    have size : ((nameBytes (front ++ shrsub :: left)).getD (nameBytes front).length 0).toNat + 1 =
        shrsub.bytes.length := by
      rw [split, mlk_shrsub.bytes_length, mlk_shrsub.bytes]
      simp
    have piece : ((nameBytes (front ++ shrsub :: left)).drop (nameBytes front).length).take
        shrsub.bytes.length = shrsub.bytes := by
      rw [split, List.drop_left, List.take_left]
    have next : (nameBytes front).length + shrsub.bytes.length = (nameBytes (front ++ [shrsub])).length := by
      rw [nameBytes_append, List.length_append]
    have others := ih (front ++ [shrsub])
    rw [List.append_assoc, List.singleton_append] at others
    rw [List.length_cons, subhashes, size, piece, ingest_bytes, next, others, List.range_succ_eq_map, List.map_cons, List.map_map,
      lockHash_eq]
    simp [nameLength]

theorem MLK_PVTBLK_SUBHASH_GEN_eq (name : List mlk_shrsub) (address : Nat) :
    MLK_PVTBLK_SUBHASH_GEN aligned seed (nameBytes name) address name.length =
      (List.range name.length).map fun i => lockHash aligned seed (name.take (i + 1)) := by
  rw [MLK_PVTBLK_SUBHASH_GEN, nameState_nil]
  exact subhashes_eq [] name address

/-! ## The hash of a node -/

/-- The name of a node, from its ancestors. -/
inductive Names (space : LockSpace) : Nat → List mlk_shrsub → Prop
  | none : Names space 0 []
  | node {d : Nat} {front : List mlk_shrsub} (some : d ≠ 0) (before : Names space (space.shrblk d).parent front) :
      Names space d (front ++ [space.subscript d])

theorem mlk_shrhash_val_build_eq {d : Nat} (names : Names space d name) (some : d ≠ 0) {fuel : Nat}
    (enough : name.length ≤ fuel) :
    mlk_shrhash_val_build aligned space fuel d 0 (HASH128_STATE_INIT seed) =
      .some (nameLength name, nameState seed name) := by
  induction names generalizing fuel with
  | none => exact absurd rfl some
  | @node d front there before ih =>
    rw [List.length_append, List.length_singleton] at enough
    obtain ⟨fuel, rfl⟩ : ∃ more, fuel = more + 1 := ⟨fuel - 1, by omega⟩
    have above : (if (space.shrblk d).parent ≠ 0 then
        mlk_shrhash_val_build aligned space fuel (space.shrblk d).parent 0 (HASH128_STATE_INIT seed)
          else .some (0, HASH128_STATE_INIT seed)) = .some (nameLength front, nameState seed front) := by
      by_cases top : (space.shrblk d).parent = 0
      · rw [top] at before
        cases before with
        | none =>
          rw [if_neg (not_not_intro top), nameState_nil]
          rfl
        | node other => exact absurd rfl other
      · rw [if_pos top, ih top (by omega)]
    rw [mlk_shrhash_val_build]
    dsimp only
    rw [above]
    change Option.some (nameLength front + ((space.subscript d).length.toBitVec.setWidth 32 + 1),
      ydb_mmrhash_128_ingest aligned (nameState seed front) ((space.shrblk d).value + 8)
        (space.subscript d).bytes) = _
    rw [ingest_bytes, nameLength_append, BitVec.add_comm 1]

theorem hashOfNode_eq {d : Nat} (names : Names space d name) (some : d ≠ 0) {fuel : Nat}
    (enough : name.length ≤ fuel) :
    hashOfNode aligned seed space fuel d = .some (lockHash aligned seed name) := by
  rw [hashOfNode, mlk_shrhash_val_build_eq names some enough, lockHash_eq]
  rfl

/-! ## The hashes of all nodes -/

/-- The nodes that the tree with the first node `root` links. -/
inductive Below (space : LockSpace) (root : Nat) : Nat → Prop
  | root : Below space root root
  | sibling {d : Nat} (before : Below space root d) : Below space root (space.shrblk d).rsib
  | child {d : Nat} (above : Below space root d) (some : (space.shrblk d).children ≠ 0) :
      Below space root (space.shrblk d).children

/-- Siblings have one parent, and a child points back. -/
structure Linked (space : LockSpace) (root : Nat) : Prop where
  top : (space.shrblk root).parent = 0
  present : ∀ d, Below space root d → d ≠ 0
  sibling : ∀ d, Below space root d → (space.shrblk (space.shrblk d).rsib).parent = (space.shrblk d).parent
  child : ∀ d, Below space root d → (space.shrblk d).children ≠ 0 →
    (space.shrblk (space.shrblk d).children).parent = d

/-- From `node` on the siblings lead to `head`, and so do the children of each around to the eldest. -/
inductive Siblings (space : LockSpace) : Nat → Nat → Prop
  | last {head node : Nat} (back : (space.shrblk node).rsib = head)
      (below : (space.shrblk node).children ≠ 0 →
        Siblings space (space.shrblk node).children (space.shrblk node).children) :
      Siblings space head node
  | next {head node : Nat} (more : (space.shrblk node).rsib ≠ head)
      (below : (space.shrblk node).children ≠ 0 →
        Siblings space (space.shrblk node).children (space.shrblk node).children)
      (others : Siblings space head (space.shrblk node).rsib) :
      Siblings space head node

/-- One node keeps its hash. -/
def keepHash (hash : Nat → BitVec 64) (node : Nat) (value : BitVec 64) (d : Nat) : BitVec 64 :=
  if d = node then value else hash d

variable {add : τ → Nat → BitVec 64 → Option τ} {root : Nat}

/-- A turn of the loop, by the names. -/
theorem mlk_rehash_tree_turn (fuel head node : Nat) (count : Int) (hash : Nat → BitVec 64) (table : τ) :
    mlk_rehash_tree aligned space add (fuel + 1) head node (nameState seed front) (nameLength front)
        count hash table =
      let name := front ++ [space.subscript node]
      let value := lockHash aligned seed name
      match add table node value with
      | none => some (-1, keepHash hash node value, table)
      | some table =>
        let below :=
          if (space.shrblk node).children ≠ 0 then
            mlk_rehash_tree aligned space add fuel (space.shrblk node).children (space.shrblk node).children
              (nameState seed name) (nameLength name) 0 (keepHash hash node value) table
          else some (0, keepHash hash node value, table)
        match below with
        | none => none
        | some (child_count, hash, table) =>
          if child_count < 0 then some (-1, hash, table)
          else if (space.shrblk node).rsib ≠ head then
            mlk_rehash_tree aligned space add fuel head (space.shrblk node).rsib (nameState seed front)
              (nameLength front) (count + 1 + child_count) hash table
          else some (count + 1 + child_count, hash, table) := by
  rw [mlk_rehash_tree]
  dsimp only
  rw [ingest_length_data, ← nameLength_append, ← lockHash_eq, if_pos rfl]
  rfl

/-- The nodes that were visited have the hashes of their names. -/
structure Rehashed (aligned : Bool) (seed : BitVec 64) (space : LockSpace) (hash hash' : Nat → BitVec 64)
    (visited : Nat → Prop) : Prop where
  right : ∀ d, visited d → ∃ name, Names space d name ∧ hash' d = lockHash aligned seed name
  frame : ∀ d, ¬ visited d → hash' d = hash d

/-- Nothing that follows a visited node was left out, from `node` on to `head`. -/
structure Covered (space : LockSpace) (head node : Nat) (visited : Nat → Prop) : Prop where
  first : visited node
  sibling : ∀ d, visited d → visited (space.shrblk d).rsib ∨ (space.shrblk d).rsib = head
  child : ∀ d, visited d → (space.shrblk d).children ≠ 0 → visited (space.shrblk d).children

variable {hash hash' hash'' : Nat → BitVec 64} {visited visited' : Nat → Prop}

theorem Rehashed.none : Rehashed aligned seed space hash hash fun _ => False where
  right _ never := never.elim
  frame _ _ := rfl

theorem Rehashed.node {node : Nat} (names : Names space node name) :
    Rehashed aligned seed space hash (keepHash hash node (lockHash aligned seed name)) (· = node) where
  right _ here := ⟨name, here ▸ names, if_pos here⟩
  frame _ other := if_neg other

theorem Rehashed.trans (first : Rehashed aligned seed space hash hash' visited)
    (second : Rehashed aligned seed space hash' hash'' visited') :
    Rehashed aligned seed space hash hash'' fun d => visited d ∨ visited' d where
  right d either := by
    by_cases again : visited' d
    · exact second.right d again
    · have before := either.resolve_right again
      rw [second.frame d again]
      exact first.right d before
  frame d neither := by
    rw [second.frame d fun again => neither (.inr again), first.frame d fun before => neither (.inl before)]

/-- The children of a node are covered; a node without children has none to cover. -/
structure Inside (space : LockSpace) (node : Nat) (visited : Nat → Prop) : Prop where
  eldest : (space.shrblk node).children ≠ 0 → visited (space.shrblk node).children
  sibling : ∀ d, visited d → visited (space.shrblk d).rsib
  child : ∀ d, visited d → (space.shrblk d).children ≠ 0 → visited (space.shrblk d).children

theorem Covered.inside {node : Nat}
    (covered : Covered space (space.shrblk node).children (space.shrblk node).children visited) :
    Inside space node visited where
  eldest _ := covered.first
  sibling d there := by
    cases covered.sibling d there with
    | inl next => exact next
    | inr around =>
      rw [around]
      exact covered.first
  child := covered.child

/-- The last of the siblings. -/
theorem Covered.last {head node : Nat} (inside : Inside space node visited)
    (back : (space.shrblk node).rsib = head) : Covered space head node fun d => d = node ∨ visited d where
  first := .inl rfl
  sibling d there := by
    cases there with
    | inl same => exact .inr (same ▸ back)
    | inr below => exact .inl (.inr (inside.sibling d below))
  child d there some := by
    cases there with
    | inl same =>
      subst same
      exact .inr (inside.eldest some)
    | inr below => exact .inr (inside.child d below some)

/-- A node before other siblings. -/
theorem Covered.next {head node : Nat} (inside : Inside space node visited)
    (others : Covered space head (space.shrblk node).rsib visited') :
    Covered space head node fun d => (d = node ∨ visited d) ∨ visited' d where
  first := .inl (.inl rfl)
  sibling d there := by
    rcases there with (same | below) | after
    · subst same
      exact .inl (.inr others.first)
    · exact .inl (.inl (.inr (inside.sibling d below)))
    · exact (others.sibling d after).imp_left .inr
  child d there some := by
    rcases there with (same | below) | after
    · subst same
      exact .inl (.inr (inside.eldest some))
    · exact .inl (.inr (inside.child d below some))
    · exact .inr (others.child d after some)

/-- The table did not take a node of the tree with the hash of its name. -/
def Refused (aligned : Bool) (seed : BitVec 64) (space : LockSpace) (root : Nat)
    (add : τ → Nat → BitVec 64 → Option τ) : Prop :=
  ∃ table d name, Below space root d ∧ Names space d name ∧ add table d (lockHash aligned seed name) = none

/-- After a run, a node that was visited has the hash of its name. A run that did not fail visited all nodes, and
a run fails only where the table does not take a node. -/
theorem mlk_rehash_tree_spec (linked : Linked space root) {fuel head node : Nat} {count count' : Int}
    {table table' : τ} (here : Below space root node) (names : Names space (space.shrblk node).parent front)
    (start : 0 ≤ count)
    (run : mlk_rehash_tree aligned space add fuel head node (nameState seed front) (nameLength front)
      count hash table = some (count', hash', table')) :
    (∃ visited, Rehashed aligned seed space hash hash' visited ∧
      (0 ≤ count' → Covered space head node visited)) ∧
      (count' < 0 → Refused aligned seed space root add) := by
  induction fuel generalizing head node front count hash table count' hash' table' with
  | zero => cases run
  | succ fuel ih =>
    have named : Names space node (front ++ [space.subscript node]) := .node (linked.present node here) names
    have kept : Rehashed aligned seed space hash (keepHash hash node
        (lockHash aligned seed (front ++ [space.subscript node]))) (· = node) := .node named
    rw [mlk_rehash_tree_turn] at run
    dsimp only at run
    generalize valueIs : lockHash aligned seed (front ++ [space.subscript node]) = value at run kept
    cases added : add table node value with
    | none =>
      -- the table is full
      rw [added] at run
      obtain ⟨rfl, rfl, rfl⟩ : -1 = count' ∧ keepHash hash node value = hash' ∧ table = table' := by
        simpa using run
      exact ⟨⟨_, kept, fun fine => absurd fine (by decide)⟩, fun _ => ⟨table, node, _, here, named, valueIs ▸ added⟩⟩
    | some filled =>
      rw [added] at run
      dsimp only at run
      generalize lower : (if (space.shrblk node).children ≠ 0 then _ else _) = below at run
      cases below with
      | none => cases run
      | some result =>
        obtain ⟨child_count, hash₁, table₁⟩ := result
        dsimp only at run
        have below : (∃ visited, Rehashed aligned seed space (keepHash hash node value) hash₁ visited ∧
            (0 ≤ child_count → Inside space node visited)) ∧
            (child_count < 0 → Refused aligned seed space root add) := by
          by_cases leaf : (space.shrblk node).children = 0
          · rw [if_neg (not_not_intro leaf)] at lower
            obtain ⟨rfl, rfl, -⟩ : 0 = child_count ∧ keepHash hash node value = hash₁ ∧ filled = table₁ := by
              simpa using lower
            exact ⟨⟨_, .none, fun _ => ⟨fun some => absurd leaf some, nofun, nofun⟩⟩,
              fun failed => absurd failed (by decide)⟩
          · rw [if_pos leaf] at lower
            have parent := linked.child node here leaf
            obtain ⟨⟨visited, rehashed, covered⟩, refused⟩ :=
              ih (here.child leaf) (parent.symm ▸ named) (Int.le_refl 0) lower
            exact ⟨⟨visited, rehashed, fun fine => (covered fine).inside⟩, refused⟩
        obtain ⟨⟨visited₁, rehashed₁, inside⟩, refused⟩ := below
        by_cases failed : child_count < 0
        · rw [if_pos failed] at run
          obtain ⟨rfl, rfl, rfl⟩ : -1 = count' ∧ hash₁ = hash' ∧ table₁ = table' := by simpa using run
          exact ⟨⟨_, kept.trans rehashed₁, fun fine => absurd fine (by decide)⟩, fun _ => refused failed⟩
        rw [if_neg failed] at run
        by_cases back : (space.shrblk node).rsib = head
        · rw [if_neg (not_not_intro back)] at run
          obtain ⟨rfl, rfl, -⟩ : count + 1 + child_count = count' ∧ hash₁ = hash' ∧ table₁ = table' := by
            simpa using run
          exact ⟨⟨_, kept.trans rehashed₁, fun _ => .last (inside (by omega)) back⟩, fun fails => by omega⟩
        · rw [if_pos back] at run
          have parent := linked.sibling node here
          obtain ⟨⟨visited₂, rehashed₂, covered⟩, refused'⟩ :=
            ih here.sibling (parent.symm ▸ names) (by omega) run
          exact ⟨⟨_, (kept.trans rehashed₁).trans rehashed₂, fun fine => .next (inside (by omega)) (covered fine)⟩,
            refused'⟩

/-- With enough fuel a run over a finite tree returns. -/
theorem mlk_rehash_tree_returns {head node : Nat} (siblings : Siblings space head node) :
    ∃ least, ∀ fuel ≥ least, ∀ front count hash table,
      (mlk_rehash_tree aligned space add fuel head node (nameState seed front) (nameLength front)
        count hash table).isSome := by
  have turn {head node least : Nat}
      (below : (space.shrblk node).children ≠ 0 → ∀ fuel ≥ least, ∀ front count hash table,
        (mlk_rehash_tree aligned space add fuel (space.shrblk node).children (space.shrblk node).children
          (nameState seed front) (nameLength front) count hash table).isSome)
      (others : (space.shrblk node).rsib ≠ head → ∀ fuel ≥ least, ∀ front count hash table,
        (mlk_rehash_tree aligned space add fuel head (space.shrblk node).rsib (nameState seed front)
          (nameLength front) count hash table).isSome) :
      ∀ fuel ≥ least + 1, ∀ front count hash table,
        (mlk_rehash_tree aligned space add fuel head node (nameState seed front) (nameLength front)
          count hash table).isSome := by
    intro fuel enough front count hash table
    obtain ⟨fuel, rfl⟩ : ∃ more, fuel = more + 1 := ⟨fuel - 1, by omega⟩
    have few : fuel ≥ least := by omega
    rw [mlk_rehash_tree_turn]
    dsimp only
    cases add table node (lockHash aligned seed (front ++ [space.subscript node])) with
    | none => rfl
    | some filled =>
      dsimp only
      generalize lower : (if (space.shrblk node).children ≠ 0 then _ else _) = result
      have returned : result.isSome := by
        subst lower
        split
        · exact below ‹_› fuel few _ _ _ _
        · rfl
      obtain ⟨⟨child_count, hash, table⟩, rfl⟩ := Option.isSome_iff_exists.mp returned
      dsimp only
      split
      · rfl
      · split
        · exact others ‹_› fuel few _ _ _ _
        · rfl
  induction siblings with
  | @last head node back below ih =>
    by_cases leaf : (space.shrblk node).children = 0
    · exact ⟨0 + 1, turn (fun some => absurd leaf some) fun more => absurd back more⟩
    · obtain ⟨least, returns⟩ := ih leaf
      exact ⟨least + 1, turn (fun _ => returns) fun more => absurd back more⟩
  | @next head node more below others lower after =>
    obtain ⟨second, returns'⟩ := after
    by_cases leaf : (space.shrblk node).children = 0
    · exact ⟨second + 1, turn (fun some => absurd leaf some) fun _ => returns'⟩
    · obtain ⟨first, returns⟩ := lower leaf
      exact ⟨max first second + 1,
        turn (fun _ fuel enough => returns fuel (Nat.le_trans (Nat.le_max_left first second) enough))
          fun _ fuel enough => returns' fuel (Nat.le_trans (Nat.le_max_right first second) enough)⟩

/-- A run that did not fail covers the tree. -/
theorem Covered.below (covered : Covered space root root visited) {d : Nat} (below : Below space root d) :
    visited d := by
  induction below with
  | root => exact covered.first
  | sibling _ ih =>
    cases covered.sibling _ ih with
    | inl next => exact next
    | inr around => exact around.symm ▸ covered.first
  | child _ some ih => exact covered.child _ ih some

/-- A run over the whole tree returns. It gives every node the hash of its name, unless the table does not take
one. -/
theorem mlk_rehash_tree_hashes (linked : Linked space root) (siblings : Siblings space root root)
    (seed : BitVec 64) (hash : Nat → BitVec 64) (table : τ) :
    ∃ least, ∀ fuel ≥ least, ∃ count hash' table',
      mlk_rehash_tree aligned space add fuel root root (HASH128_STATE_INIT seed) 0 0 hash table =
        some (count, hash', table') ∧
      (∀ d, hash' d = hash d ∨ ∃ name, Names space d name ∧ hash' d = lockHash aligned seed name) ∧
      (0 ≤ count → ∀ d, Below space root d →
        ∃ name, Names space d name ∧ hash' d = lockHash aligned seed name) ∧
      (count < 0 → Refused aligned seed space root add) := by
  obtain ⟨least, returns⟩ := mlk_rehash_tree_returns siblings
  refine ⟨least, fun fuel enough => ?_⟩
  have returned := returns fuel enough [] 0 hash table
  obtain ⟨⟨count, hash', table'⟩, run⟩ := Option.isSome_iff_exists.mp returned
  have names : Names space (space.shrblk root).parent [] := linked.top.symm ▸ .none
  obtain ⟨⟨visited, rehashed, covered⟩, refused⟩ := mlk_rehash_tree_spec linked .root names (Int.le_refl 0) run
  rw [← nameState_nil] at run
  refine ⟨count, hash', table', run, ?_, fun fine d below => rehashed.right d ((covered fine).below below), refused⟩
  intro d
  by_cases there : visited d
  · exact .inr (rehashed.right d there)
  · exact .inl (rehashed.frame d there)

/-- However a string is cut, its hash is the same: the 128-bit MurmurHash3 of the whole. The hash of a lock
name is the same for a name asked for, for a node below its ancestors and for a node of a tree hashed again; all
nodes of the tree are hashed again, unless the table does not take one. -/
theorem hash_independent_of_pieces (aligned : Bool) :
    (∀ (seed : BitVec 64) (pieces : List (Nat × List UInt8)) (address : Nat) (total_len : BitVec 32),
      ydb_mmrhash_128_result (pieces.foldl
          (fun state piece => ydb_mmrhash_128_ingest aligned state piece.1 piece.2) (HASH128_STATE_INIT seed))
        total_len =
      ydb_mmrhash_128_result (ydb_mmrhash_128_ingest aligned (HASH128_STATE_INIT seed) address
        (pieces.map (·.2)).flatten) total_len) ∧
    (∀ (seed : BitVec 32) (pieces : List (Nat × List UInt8)), (pieces.map (·.2)).flatten.length < 2 ^ 31 →
      ydb_mmrhash_128_result (pieces.foldl
          (fun state piece => ydb_mmrhash_128_ingest aligned state piece.1 piece.2)
          (HASH128_STATE_INIT (seed.setWidth 64)))
        (BitVec.ofNat 32 (pieces.map (·.2)).flatten.length) =
      MurmurHash3_x64_128 (pieces.map (·.2)).flatten seed) ∧
    (∀ (seed : BitVec 64) (name : List mlk_shrsub) (address : Nat),
      MLK_PVTBLK_SUBHASH_GEN aligned seed (nameBytes name) address name.length =
        (List.range name.length).map fun i => lockHash aligned seed (name.take (i + 1))) ∧
    (∀ (seed : BitVec 64) (space : LockSpace) (d : Nat) (name : List mlk_shrsub) (fuel : Nat),
      Names space d name → d ≠ 0 → name.length ≤ fuel →
      hashOfNode aligned seed space fuel d = some (lockHash aligned seed name)) ∧
    (∀ (space : LockSpace) (root : Nat), Linked space root → Siblings space root root →
      ∀ (τ : Type) (add : τ → Nat → BitVec 64 → Option τ) (seed : BitVec 64) (hash : Nat → BitVec 64) (table : τ),
      ∃ least, ∀ fuel ≥ least, ∃ count hash' table',
        mlk_rehash_tree aligned space add fuel root root (HASH128_STATE_INIT seed) 0 0 hash table =
          some (count, hash', table') ∧
        (∀ d, hash' d = hash d ∨ ∃ name, Names space d name ∧ hash' d = lockHash aligned seed name) ∧
        (0 ≤ count → ∀ d, Below space root d →
          ∃ name, Names space d name ∧ hash' d = lockHash aligned seed name) ∧
        (count < 0 → Refused aligned seed space root add)) := by
  have pieces_eq (seed : BitVec 64) (pieces : List (Nat × List UInt8)) :
      pieces.foldl (fun state piece => ydb_mmrhash_128_ingest aligned state piece.1 piece.2)
        (HASH128_STATE_INIT seed) = absorbed ⟨seed, seed⟩ (pieces.map (·.2)).flatten := by
    rw [HASH128_STATE_INIT_eq, ingest_pieces, List.nil_append]
  refine ⟨fun seed pieces address total_len => ?_, fun seed pieces small => ?_,
    fun seed name address => MLK_PVTBLK_SUBHASH_GEN_eq name address,
    fun seed space d name fuel names some enough => hashOfNode_eq names some enough,
    fun space root linked siblings τ add seed hash table =>
      mlk_rehash_tree_hashes linked siblings seed hash table⟩
  · rw [pieces_eq, HASH128_STATE_INIT_eq, ydb_mmrhash_128_ingest_absorbed, List.nil_append]
  · rw [pieces_eq, ydb_mmrhash_128_result_absorbed small]

/-- An empty subscript. -/
def emptyName : mlk_shrsub := ⟨0, [], rfl⟩

/-- A subscript of one byte. -/
def byteName : mlk_shrsub := ⟨1, [65], rfl⟩

/-- A lock space with two names at the top, 1 and 2, and 3 below the first. -/
def threeNodes : LockSpace where
  shrblk d := if d = 1 then ⟨1, 0, 3, 2⟩ else if d = 2 then ⟨2, 0, 0, 1⟩ else ⟨1, 1, 0, 3⟩
  shrsub value := if value = 1 then emptyName else byteName

theorem threeNodes_below {d : Nat} (below : Below threeNodes 1 d) : d = 1 ∨ d = 2 ∨ d = 3 := by
  induction below with
  | root => exact .inl rfl
  | sibling before ih =>
    rcases ih with rfl | rfl | rfl
    · exact .inr (.inl rfl)
    · exact .inl rfl
    · exact .inr (.inr rfl)
  | child above some ih =>
    rcases ih with rfl | rfl | rfl
    · exact .inr (.inr rfl)
    · exact absurd rfl some
    · exact absurd rfl some

theorem threeNodes_linked : Linked threeNodes 1 := by
  refine ⟨rfl, ?_, ?_, ?_⟩
  · intro d below
    rcases threeNodes_below below with rfl | rfl | rfl <;> decide
  · intro d below
    rcases threeNodes_below below with rfl | rfl | rfl <;> rfl
  · intro d below some
    rcases threeNodes_below below with rfl | rfl | rfl
    · rfl
    · exact absurd rfl some
    · exact absurd rfl some

theorem threeNodes_siblings : Siblings threeNodes 1 1 :=
  .next (by decide) (fun _ => .last rfl fun some => absurd rfl some) (.last rfl fun some => absurd rfl some)

/-- Three pieces of a string, a node below another, and a tree of three nodes for a table that takes them. -/
theorem hash_independent_of_pieces_three :
    ydb_mmrhash_128_result (ydb_mmrhash_128_ingest true (ydb_mmrhash_128_ingest true
      (ydb_mmrhash_128_ingest true (HASH128_STATE_INIT 7) 3 [65]) 9 []) 9 [66, 67]) 3 =
        MurmurHash3_x64_128 [65, 66, 67] 7 ∧
    hashOfNode true 7 threeNodes 2 3 = some (lockHash true 7 [emptyName, emptyName]) ∧
    (∃ least, ∀ fuel ≥ least, ∃ count hash' table',
      mlk_rehash_tree true threeNodes (fun _ _ _ => some ()) fuel 1 1 (HASH128_STATE_INIT 7) 0 0 (fun _ => 0) () =
        some (count, hash', table') ∧ 0 ≤ count ∧
      ∀ d, Below threeNodes 1 d → ∃ name, Names threeNodes d name ∧ hash' d = lockHash true 7 name) := by
  have named : Names threeNodes 3 (([] ++ [threeNodes.subscript 1]) ++ [threeNodes.subscript 3]) :=
    .node (by decide) (.node (by decide) .none)
  obtain ⟨least, hashes⟩ := (hash_independent_of_pieces true).2.2.2.2 threeNodes 1 threeNodes_linked
    threeNodes_siblings Unit (fun _ _ _ => some ()) 7 (fun _ => 0) ()
  refine ⟨(hash_independent_of_pieces true).2.1 7 [(3, [65]), (9, []), (9, [66, 67])] (by decide),
    (hash_independent_of_pieces true).2.2.2.1 7 threeNodes 3 [emptyName, emptyName] 2 named (by decide) (by decide),
    least, fun fuel enough => ?_⟩
  obtain ⟨count, hash', table', run, -, right, refused⟩ := hashes fuel enough
  have fine : 0 ≤ count := by
    by_contra fails
    obtain ⟨_, _, _, _, _, none⟩ := refused (by omega)
    cases none
  exact ⟨count, hash', table', run, fine, right fine⟩

end Ydb.LockHashing
