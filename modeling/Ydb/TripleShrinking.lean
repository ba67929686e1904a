import Mathlib.Algebra.BigOperators.Group.Finset.Basic

/-!
# Shrinking the code of triples

After the addresses of the triples are laid out with sizes that are large enough, jumps and
references to literals are generated again, and what they need less is taken off the
addresses behind them, until nothing gets shorter.
-/

namespace Ydb.TripleShrinking

/-! ## Triples -/

/-- The opcodes that matter to jumps. -/
inductive opctype where
  | OC_NOOP
  | OC_LDADDR
  | OC_FORLOOP
  | OC_LIT
  | OC_PARAMETER
  | OC_TRIPSIZE
  | other (code : Nat)
deriving DecidableEq

/-- The bits of an operation's type that are looked at. -/
structure octabstruct where
  OCT_JUMP : Bool
  OCT_CGSKIP : Bool

/-- An operand; triples are referred to by their places in the chain. -/
inductive oprtype where
  | TRIP_REF (tref : Nat)
  | TJMP_REF (tref : Nat)
  | TSIZ_REF (ct : Nat)
  | other

/-- The triple that an operand refers to. -/
def oprtype.tref : oprtype → Nat
  | TRIP_REF tref | TJMP_REF tref | TSIZ_REF tref => tref
  | other => 0

/-- A triple of the program. -/
structure triple where
  opcode : opctype
  operand0 : oprtype
  operand1 : oprtype

/-- Whether an operand, or any that it is chained to, is a literal. A chain of parameters is not longer than
the chain of triples. -/
def litref_triple_oprcheck (trips : Nat → triple) : Nat → oprtype → Bool
  | 0, _ => false
  | fuel + 1, .TRIP_REF tref =>
    match (trips tref).opcode with
    | .OC_LIT => true
    | .OC_PARAMETER =>
      litref_triple_oprcheck trips fuel (trips tref).operand0 ||
        litref_triple_oprcheck trips fuel (trips tref).operand1
    | _ => false
  | _ + 1, _ => false

/-- The table of operations, and the size of the code that is generated for a triple: that of a jump depends
on the distance to its target. -/
structure CodeGenerator where
  oc_tab : opctype → octabstruct
  jumpSize : Nat → Nat → Nat
  tripSize : Nat → Nat

variable (gen : CodeGenerator)

/-- Whether the size of a triple depends on the distance to another one. -/
def isJump (t : triple) : Bool :=
  (gen.oc_tab t.opcode).OCT_JUMP || t.opcode = .OC_LDADDR || t.opcode = .OC_FORLOOP

/-- The chain of triples as the compiler builds it. It ends with a triple for which no code is generated: the
`OC_NOOP` of the last fetch, or an operand of an error that was found when references were resolved. -/
structure Chain where
  trips : Nat → triple
  length : Nat
  targets : ∀ i < length, isJump gen (trips i) → (trips i).operand0.tref < length
  ends : ∀ i, i + 1 = length → isJump gen (trips i) = false ∧ (gen.oc_tab (trips i).opcode).OCT_CGSKIP = true

variable {gen} (chain : Chain gen)

/-- Whether the triple is a jump. -/
def Chain.jumps (i : Nat) : Bool := isJump gen (chain.trips i)

/-- Whether the triple is generated with references to literals. -/
def Chain.hasLiteral (i : Nat) : Bool :=
  !(gen.oc_tab (chain.trips i).opcode).OCT_CGSKIP &&
    (litref_triple_oprcheck chain.trips chain.length (chain.trips i).operand0 ||
      litref_triple_oprcheck chain.trips chain.length (chain.trips i).operand1)

/-! ## The state -/

/-- The addresses of the triples; behind them the head of the chain, whose address is not maintained. The
sizes that are recorded for calls, by the places of the triples that hold them. -/
structure Layout where
  rtaddr : Nat → Int
  tsize : Nat → Int
  code_size : Int
  codegen_padlen : Int

/-- The size of the code that is generated for a triple. -/
def trip_gen (rtaddr : Nat → Int) (i : Nat) : Int :=
  if chain.jumps i then gen.jumpSize i (rtaddr (chain.trips i).operand0.tref - rtaddr i).natAbs
  else gen.tripSize i

/-- Move the address of a triple. -/
def moveAddr (rtaddr : Nat → Int) (i : Nat) (shrink : Int) : Nat → Int :=
  fun j => if j = i then rtaddr i - shrink else rtaddr j

/-- What a pass maintains. -/
structure Pass where
  rtaddr : Nat → Int
  tsize : Nat → Int
  shrink : Int

/-- The part of a turn that resizes a triple. A size that grows fails the assertion. -/
def resize (first_pass : Bool) (i : Nat) (p : Pass) : Option Pass :=
  let old_size := p.rtaddr (i + 1) - p.rtaddr i
  let moved := moveAddr p.rtaddr i p.shrink
  if chain.jumps i then
    let new_size :=
      if p.rtaddr (chain.trips i).operand0.tref - p.rtaddr i < 0 then trip_gen chain moved i
      else trip_gen chain p.rtaddr i
    if old_size ≥ new_size then some { p with rtaddr := moved, shrink := p.shrink + (old_size - new_size) }
    else none
  else if first_pass && chain.hasLiteral i then
    let new_size := trip_gen chain p.rtaddr i
    if old_size ≥ new_size then some { p with rtaddr := moved, shrink := p.shrink + (old_size - new_size) }
    else none
  else some { p with rtaddr := moved }

/-- The part of a turn that records the size of a call. -/
def recordSize (i : Nat) (p : Pass) : Pass :=
  if 0 = p.shrink ∧ (chain.trips i).opcode = .OC_TRIPSIZE then
    { p with tsize := fun j =>
        if j = i then trip_gen chain p.rtaddr (chain.trips i).operand0.tref else p.tsize j }
  else p

/-- The turns of a pass up to a place in the chain. -/
def passUpTo (first_pass : Bool) (p : Pass) : Nat → Option Pass
  | 0 => some p
  | i + 1 => do
    let p ← passUpTo first_pass p i
    let p ← resize chain first_pass i p
    some (recordSize chain i p)

/-- One pass: the layout, and how much shorter it is. -/
def shrinkPass (first_pass : Bool) (l : Layout) : Option (Layout × Int) :=
  (passUpTo chain first_pass ⟨l.rtaddr, l.tsize, 0⟩ chain.length).map fun p =>
    (⟨p.rtaddr, p.tsize, l.code_size - p.shrink, l.codegen_padlen⟩, p.shrink)

/-- Passes until nothing gets shorter. -/
def shrinkLoop (first_pass : Bool) (l : Layout) : Nat → Option Layout
  | 0 => none
  | passes + 1 => do
    let (l, shrink) ← shrinkPass chain first_pass l
    if 0 ≠ shrink then shrinkLoop false l passes else some l

def SECTION_ALIGN_BOUNDARY : Int := 16

/-- The bytes up to the next multiple of a power of two. -/
def PADLEN (value bndry : Int) : Int := (value + (bndry - 1)) / bndry * bndry - value

/-- Shrink the triples, in so many passes, and pad the code. -/
def shrink_trips (l : Layout) (passes : Nat) : Option Layout :=
  (shrinkLoop chain true l passes).map fun l =>
    let code_size := l.code_size - l.codegen_padlen
    let codegen_padlen := PADLEN code_size SECTION_ALIGN_BOUNDARY
    { l with code_size := code_size + codegen_padlen, codegen_padlen := codegen_padlen }

end Ydb.TripleShrinking
