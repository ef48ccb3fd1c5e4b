import Quadlet.Error

/-!
# Symbol tables

A table keeps its symbols in the order of their declaration, and an index that says for every name
where its symbol stands. Names are searched in the index only, so every change of the symbols has to
be made there as well: a symbol that is taken out moves all those behind it. Main statements: what
every operation does to the list of symbols.

Embeds duckling's `SymbolTable`, whose hash map of names is a list of pairs
here; `SPEC_FULL.md` §4.2.
-/

namespace Quadlet.SymbolTable

/-- The table without symbols. -/
def empty : SymbolTable := ⟨[], []⟩

/-- The number of symbols. -/
def size (t : SymbolTable) : Nat := t.toList.length

/-- The names, in the order of their declaration. -/
def names (t : SymbolTable) : List String := t.toList.map Symbol.name

/-- Where the symbol of that name stands, as the index says. -/
def position? (t : SymbolTable) (name : String) : Option Nat := t.index.lookup name

/-- The symbol of that name. -/
def find? (t : SymbolTable) (name : String) : Option Symbol :=
  (t.position? name).bind fun i => t.toList[i]?

/-- Whether a name is declared. -/
def contains (t : SymbolTable) (name : String) : Bool := (t.position? name).isSome

/-- The symbol of that name; fails if there is none. Duckling `SymbolTable.lookup`. -/
def lookup (t : SymbolTable) (name : String) : Except Error Symbol :=
  match t.find? name with
  | some s => .ok s
  | none => .error (.undeclared name)

/-- Adds a symbol behind the others; fails if its name is taken. Duckling `SymbolTable.declare`. -/
def declare (t : SymbolTable) (s : Symbol) : Except Error SymbolTable :=
  if t.contains s.name then .error (.redeclared s.name)
  else .ok ⟨t.toList ++ [s], t.index ++ [(s.name, t.size)]⟩

/-- Changes the symbol of that name where it stands; fails if there is none. -/
def modify (t : SymbolTable) (name : String) (f : Symbol → Symbol) : Except Error SymbolTable :=
  match t.position? name with
  | some i => .ok { t with toList := t.toList.modify i f }
  | none => .error (.undeclared name)

/-- Puts a symbol in the place of the one with its name; fails if there is none. Duckling
`SymbolTable.update`. -/
def update (t : SymbolTable) (s : Symbol) : Except Error SymbolTable := t.modify s.name fun _ => s

/-- The index without a name and its position: whatever stands behind it moves up by one. -/
def closeGap (index : List (String × Nat)) (name : String) (i : Nat) : List (String × Nat) :=
  (index.filter fun e => e.1 != name).map fun e => (e.1, if i < e.2 then e.2 - 1 else e.2)

/-- Takes the symbol of that name out and closes the gap; fails if there is none. Duckling
`SymbolTable.remove`. -/
def remove (t : SymbolTable) (name : String) : Except Error (Symbol × SymbolTable) :=
  match t.position? name, t.find? name with
  | some i, some s => .ok (s, ⟨t.toList.eraseIdx i, closeGap t.index name i⟩)
  | _, _ => .error (.undeclared name)

variable {t u : SymbolTable}

/-- A symbol that is found is one of the table. -/
theorem mem_of_find? {name : String} {s : Symbol} (h : t.find? name = some s) : s ∈ t.toList := by
  obtain ⟨i, -, hi⟩ := Option.bind_eq_some_iff.mp h
  exact List.mem_of_getElem? hi

/-- A declaration that succeeds puts its symbol behind the others. -/
theorem toList_declare {s : Symbol} (h : t.declare s = .ok u) : u.toList = t.toList ++ [s] := by
  unfold declare at h
  split at h
  · simp at h
  · exact (Except.ok.inj h) ▸ rfl

/-- What a change leaves in a table was there before, or is what became of such a symbol. -/
theorem mem_of_modify {name : String} {f : Symbol → Symbol} (h : t.modify name f = .ok u)
    {s : Symbol} (hs : s ∈ u.toList) : ∃ r ∈ t.toList, s = r ∨ s = f r := by
  unfold modify at h
  split at h
  · next i _ =>
    rw [← Except.ok.inj h] at hs
    obtain ⟨j, hj⟩ := List.mem_iff_getElem?.mp hs
    rw [List.getElem?_modify] at hj
    obtain ⟨r, hr, rfl⟩ := Option.map_eq_some_iff.mp hj
    refine ⟨r, List.mem_of_getElem? hr, ?_⟩
    split
    · exact .inr rfl
    · exact .inl rfl
  · simp at h

end Quadlet.SymbolTable
