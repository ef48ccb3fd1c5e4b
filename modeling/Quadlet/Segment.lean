import Quadlet.ValueType

/-!
# The typed address space

Every address belongs to at most one segment: a range of one thousand cells kept for one pair of
lifetime and type. The address alone tells where a value lives and what type it has. The layout
places its segments one behind the other from address 1000 on.

Embeds duckling's `Segment` and its layout; `SPEC_FULL.md` §3 and §H.
-/

namespace Quadlet

/-- The address of a cell; the same field of a quadruple may hold a jump target or a position. -/
abbrev Address := Int

/-- The address with the bits of an index. An address is a signed word, so the upper half of the
indices stands for the negative addresses. -/
def Address.ofIndex (i : UInt64) : Address := i.toInt64.toInt

/-- How long the cells of a segment live. -/
inductive Lifetime where
  /-- Variables of the program and the identities of functions. -/
  | global
  /-- Results of operators. -/
  | temporary
  /-- Literals. -/
  | constant
  /-- Parameters and variables of a function, one copy for each active call. -/
  | call
  deriving DecidableEq, Repr

/-- The name of a lifetime inside the name of a segment. -/
def Lifetime.name : Lifetime → String
  | .global => "global"
  | .temporary => "temp"
  | .constant => "const"
  | .call => "local"

/-- The name of a lifetime in data for other programs. -/
def Lifetime.title : Lifetime → String
  | .global => "Global"
  | .temporary => "Temporary"
  | .constant => "Constant"
  | .call => "Local"

/-- Every lifetime. -/
def Lifetime.all : List Lifetime := [.global, .temporary, .constant, .call]

/-- A pair of lifetime and type; the layout has a range for some of them. -/
structure Segment where
  lifetime : Lifetime
  type : ValueType
  deriving DecidableEq, Repr

namespace Segment

/-- The number of cells of every segment. -/
def size : Nat := 1000

/-- The segments that have a range, in the order of their addresses. -/
def layout : List Segment := [
  ⟨.global, .void⟩, ⟨.global, .int⟩, ⟨.global, .float⟩,
  ⟨.temporary, .int⟩, ⟨.temporary, .float⟩, ⟨.temporary, .bool⟩,
  ⟨.constant, .int⟩, ⟨.constant, .float⟩, ⟨.constant, .string⟩,
  ⟨.call, .int⟩, ⟨.call, .float⟩]

/-- Whether every active call has cells of its own there. -/
def isLocal (s : Segment) : Bool := s.lifetime = .call

/-- The segments that live as long as the program. -/
def programWide : List Segment := layout.filter fun s => !s.isLocal

/-- The first address of a segment. Duckling `Segment.base`. -/
def base? (s : Segment) : Option Address :=
  (layout.idxOf? s).map fun i => (size * (i + 1) : Nat)

/-- The segment of an address and the place in it. Duckling `Segment.of` and `Segment.offset_of`. -/
def locate? (a : Address) : Option (Segment × Nat) :=
  if a < size then none
  else (layout[a.toNat / size - 1]?).map fun s => (s, a.toNat % size)

/-- The segment of an address. -/
def ofAddress? (a : Address) : Option Segment := (locate? a).map Prod.fst

/-- The place of an address in its segment. -/
def offset? (a : Address) : Option Nat := (locate? a).map Prod.snd

/-- The name of a segment, as in `global.int`. -/
def name (s : Segment) : String := s.lifetime.name ++ "." ++ s.type.name

/-- The segment of the layout with that name. -/
def ofName? (s : String) : Option Segment := layout.find? fun seg => seg.name = s

/-- Every cell of a segment is found at its base plus its place. -/
theorem locate?_base {s : Segment} {b : Address} (h : s.base? = some b) {i : Nat} (hi : i < size) :
    locate? (b + i) = some (s, i) := by
  obtain ⟨n, hn, rfl⟩ := Option.map_eq_some_iff.mp h
  have hlt : ¬(((size * (n + 1) : Nat) : Int) + i < size) := by simp only [size] at *; omega
  have hto : (((size * (n + 1) : Nat) : Int) + i).toNat = size * (n + 1) + i := by omega
  have hdiv : (size * (n + 1) + i) / size - 1 = n := by
    rw [Nat.mul_add_div (by decide), Nat.div_eq_of_lt hi]; omega
  have hmod : (size * (n + 1) + i) % size = i := by
    rw [Nat.mul_add_mod, Nat.mod_eq_of_lt hi]
  have hget : layout[n]? = some s := by
    rw [List.idxOf?_eq_some_iff] at hn
    obtain ⟨hl, he, -⟩ := hn
    rw [List.getElem?_eq_getElem hl, he]
  simp only [locate?, if_neg hlt, hto, hdiv, hmod, hget, Option.map_some]

/-- A segment of the layout is found under its own name. -/
theorem ofName?_name {s : Segment} (h : s ∈ layout) : ofName? s.name = some s := by
  simp only [layout, List.mem_cons, List.not_mem_nil, or_false] at h
  rcases h with rfl | rfl | rfl | rfl | rfl | rfl | rfl | rfl | rfl | rfl | rfl <;> decide

end Segment

end Quadlet
