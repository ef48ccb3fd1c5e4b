import Quadlet.Proofs.Symbol.Table

/-!
# Tables are dictionaries in the order of declaration

A table answers through its index, and the index has to follow every symbol that is put in or taken
out. Main statement: whatever is asked of a table, one thing after the other, it answers as a plain
list of symbols does that knows no index.
-/

namespace Quadlet.SymbolTable

/-! ## Operations -/

/-- What can be asked of a table. -/
inductive Operation where
  | declare (s : Symbol)
  | update (s : Symbol)
  | remove (name : String)
  | lookup (name : String)
  | contains (name : String)
  /-- Notes where the body of a function starts. -/
  | setStart (name : String) (start : Option Nat)

/-- What is answered. -/
inductive Answer where
  | done
  | symbol (s : Symbol)
  | truth (b : Bool)
  | refused (e : Error)

/-- The answer of a change, which is not made if it fails. -/
def settle (t : SymbolTable) : Except Error SymbolTable → Answer × SymbolTable
  | .ok u => (.done, u)
  | .error e => (.refused e, t)

namespace Operation

/-- What a table answers, and what becomes of it. -/
def onTable : Operation → SymbolTable → Answer × SymbolTable
  | .declare s, t => t.settle (t.declare s)
  | .update s, t => t.settle (t.update s)
  | .remove x, t =>
    match t.remove x with
    | .ok (s, u) => (.symbol s, u)
    | .error e => (.refused e, t)
  | .lookup x, t =>
    match t.lookup x with
    | .ok s => (.symbol s, t)
    | .error e => (.refused e, t)
  | .contains x, t => (.truth (t.contains x), t)
  | .setStart x start, t => t.settle (t.modify x fun s => { s with start })

/-- Whether a symbol of a list has a name. -/
def has (ss : List Symbol) (x : String) : Bool := ss.any fun s => s.name == x

/-- A list with the symbol of a name changed where it stands. -/
def change (ss : List Symbol) (x : String) (f : Symbol → Symbol) : List Symbol :=
  ss.map fun s => if s.name == x then f s else s

/-- What a plain list of symbols answers, and what becomes of it. -/
def onList : Operation → List Symbol → Answer × List Symbol
  | .declare s, ss =>
    if has ss s.name then (.refused (.redeclared s.name), ss) else (.done, ss ++ [s])
  | .update s, ss =>
    if has ss s.name then (.done, change ss s.name fun _ => s) else
      (.refused (.undeclared s.name), ss)
  | .remove x, ss =>
    match ss.find? fun s => s.name == x with
    | some s => (.symbol s, ss.filter fun s => s.name != x)
    | none => (.refused (.undeclared x), ss)
  | .lookup x, ss =>
    match ss.find? fun s => s.name == x with
    | some s => (.symbol s, ss)
    | none => (.refused (.undeclared x), ss)
  | .contains x, ss => (.truth (has ss x), ss)
  | .setStart x start, ss =>
    if has ss x then (.done, change ss x fun s => { s with start }) else
      (.refused (.undeclared x), ss)

/-- The answers to a row of operations, and what is left behind them. -/
def row {σ : Type} (step : Operation → σ → Answer × σ) : List Operation → σ → List Answer × σ
  | [], s => ([], s)
  | op :: ops, s =>
    ((step op s).1 :: (row step ops (step op s).2).1, (row step ops (step op s).2).2)

/-! ## Lists without a name twice -/

/-- No name comes twice. -/
def Distinct (ss : List Symbol) : Prop := (ss.map Symbol.name).Nodup

section

variable {ss before after : List Symbol} {s : Symbol} {x : String}

private theorem has_iff : has ss x = true ↔ x ∈ ss.map Symbol.name := by simp [has]

private theorem not_mem_of_not_has (h : ¬has ss x = true) : x ∉ ss.map Symbol.name :=
  fun hmem => h (has_iff.mpr hmem)

private theorem find?_of_not_has (h : ¬has ss x = true) :
    (ss.find? fun s => s.name == x) = none := by
  rw [List.find?_eq_none]
  intro s hs hname
  exact h (List.any_eq_true.mpr ⟨s, hs, hname⟩)

/-- The symbol of a name stands between symbols with other names. -/
theorem Distinct.split (h : Distinct ss) (hx : has ss x = true) : ∃ before s after,
    ss = before ++ s :: after ∧ s.name = x ∧ x ∉ before.map Symbol.name ∧
    x ∉ after.map Symbol.name := by
  obtain ⟨s, hs, hname⟩ := List.any_eq_true.mp hx
  obtain ⟨before, after, rfl⟩ := List.append_of_mem hs
  obtain rfl := eq_of_beq hname
  rw [Distinct, List.map_append, List.map_cons, List.nodup_append, List.nodup_cons] at h
  obtain ⟨-, ⟨hafter, -⟩, hdisjoint⟩ := h
  refine ⟨before, s, after, rfl, rfl, ?_, hafter⟩
  intro hbefore
  exact hdisjoint s.name hbefore s.name (by simp) rfl

private theorem filter_of_not_mem (h : x ∉ ss.map Symbol.name) :
    (ss.filter fun s => s.name != x) = ss := by
  rw [List.filter_eq_self]
  intro s hs
  exact bne_iff_ne.mpr fun hname => h (List.mem_map.mpr ⟨s, hs, hname⟩)

private theorem change_of_not_mem (h : x ∉ ss.map Symbol.name) (f : Symbol → Symbol) :
    change ss x f = ss := by
  refine (List.map_congr_left fun s hs => ?_).trans (List.map_id' ss)
  exact if_neg fun hname => h (List.mem_map.mpr ⟨s, hs, eq_of_beq hname⟩)

/-- The symbol of a name is the only one that is changed. -/
theorem change_append (hbefore : s.name ∉ before.map Symbol.name)
    (hafter : s.name ∉ after.map Symbol.name) (f : Symbol → Symbol) :
    change (before ++ s :: after) s.name f = before ++ f s :: after := by
  have hchange : change (before ++ s :: after) s.name f = change before s.name f ++ f s ::
      change after s.name f := by
    simp [change]
  rw [hchange, change_of_not_mem hbefore, change_of_not_mem hafter]

/-- The symbol of a name is the only one that is taken out. -/
theorem filter_append (hbefore : s.name ∉ before.map Symbol.name)
    (hafter : s.name ∉ after.map Symbol.name) :
    ((before ++ s :: after).filter fun r => r.name != s.name) = before ++ after := by
  rw [List.filter_append, filter_of_not_mem hbefore, List.filter_cons_of_neg (by simp),
    filter_of_not_mem hafter]

private theorem Distinct.concat (h : Distinct ss) (hs : ¬has ss s.name = true) :
    Distinct (ss ++ [s]) := by
  rw [Distinct, List.map_append, List.nodup_append]
  refine ⟨h, by simp, ?_⟩
  rintro y hy z hz rfl
  rw [List.map_singleton, List.mem_singleton] at hz
  exact not_mem_of_not_has hs (hz ▸ hy)

/-- Symbols may be changed if they keep their names. -/
theorem Distinct.change (h : Distinct ss) {f : Symbol → Symbol}
    (hf : ∀ s, s.name = x → (f s).name = x) : Distinct (change ss x f) := by
  have hnames : (Operation.change ss x f).map Symbol.name = ss.map Symbol.name := by
    rw [Operation.change, List.map_map]
    refine List.map_congr_left fun s _ => ?_
    rw [Function.comp_apply]
    split
    · next hname => rw [hf s (eq_of_beq hname), eq_of_beq hname]
    · rfl
  rw [Distinct, hnames]
  exact h

private theorem Distinct.filter (h : Distinct ss) (p : Symbol → Bool) : Distinct (ss.filter p) :=
  h.sublist (List.filter_sublist.map Symbol.name)

/-- A list without a name twice stays so. -/
theorem Distinct.onList (h : Distinct ss) (op : Operation) : Distinct (onList op ss).2 := by
  cases op with
  | declare s =>
    rw [Operation.onList]
    split
    · exact h
    · next hs => exact h.concat hs
  | update s =>
    rw [Operation.onList]
    split
    · exact h.change fun _ _ => rfl
    · exact h
  | remove x =>
    rw [Operation.onList]
    split
    · exact h.filter _
    · exact h
  | lookup x =>
    rw [Operation.onList]
    split <;> exact h
  | contains x => exact h
  | setStart x start =>
    rw [Operation.onList]
    split
    · exact h.change fun _ hs => hs
    · exact h

end

/-! ## Single operations -/

section

variable {ss : List Symbol} {x : String}

private theorem contains_eq (ss : List Symbol) (x : String) : (ofList ss).contains x = has ss x :=
  Bool.eq_iff_iff.mpr ((contains_ofList ss x).trans has_iff.symm)

private theorem declare_eq (ss : List Symbol) (s : Symbol) : (ofList ss).declare s =
    if has ss s.name then .error (.redeclared s.name) else .ok (ofList (ss ++ [s])) := by
  by_cases hs : has ss s.name = true
  · rw [SymbolTable.declare, contains_eq, if_pos hs, if_pos hs]
  · rw [declare_ofList (not_mem_of_not_has hs), if_neg hs]

/-- A change in place, of a symbol that keeps its name. -/
theorem modify_eq (h : Distinct ss) {f : Symbol → Symbol} (hf : ∀ s, s.name = x → (f s).name = x) :
    (ofList ss).modify x f =
      if has ss x then .ok (ofList (change ss x f)) else .error (.undeclared x) := by
  by_cases hx : has ss x = true
  · obtain ⟨before, s, after, rfl, rfl, hbefore, hafter⟩ := h.split hx
    rw [modify_ofList hbefore (hf s rfl), if_pos hx, change_append hbefore hafter]
  · rw [modify, position?_eq_none (not_mem_of_not_has hx), if_neg hx]

private theorem remove_eq (h : Distinct ss) (x : String) : (ofList ss).remove x =
    match ss.find? fun s => s.name == x with
    | some s => .ok (s, ofList (ss.filter fun s => s.name != x))
    | none => .error (.undeclared x) := by
  by_cases hx : has ss x = true
  · obtain ⟨before, s, after, rfl, rfl, hbefore, hafter⟩ := h.split hx
    rw [remove_ofList hbefore hafter, ← find?_ofList, find?_append hbefore,
      filter_append hbefore hafter]
  · rw [SymbolTable.remove, position?_eq_none (not_mem_of_not_has hx), find?_of_not_has hx]

/-- A table in good order answers as its list does, and is in good order again. -/
theorem onTable_ofList (h : Distinct ss) (op : Operation) :
    onTable op (ofList ss) = ((onList op ss).1, ofList (onList op ss).2) := by
  cases op with
  | declare s =>
    rw [onTable, onList, declare_eq]
    split <;> rfl
  | update s =>
    rw [onTable, onList, SymbolTable.update, modify_eq h fun _ _ => rfl]
    split <;> rfl
  | remove x =>
    rw [onTable, onList, remove_eq h]
    cases ss.find? fun s => s.name == x <;> rfl
  | lookup x =>
    rw [onTable, onList, SymbolTable.lookup, find?_ofList]
    cases ss.find? fun s => s.name == x <;> rfl
  | contains x => rw [onTable, onList, contains_eq]
  | setStart x start =>
    have hmodify := modify_eq h (f := fun s => { s with start }) fun _ (hs : _ = x) => hs
    rw [onTable, onList, hmodify]
    split <;> rfl

/-- A refused operation leaves a table as it is. -/
theorem onTable_of_refused {t : SymbolTable} {op : Operation} {e : Error}
    (h : (onTable op t).1 = .refused e) : (onTable op t).2 = t := by
  have hsettle {x : Except Error SymbolTable} (hx : (t.settle x).1 = .refused e) :
      (t.settle x).2 = t := by
    cases x with
    | ok u => cases hx
    | error e => rfl
  cases op with
  | declare | update | setStart => exact hsettle h
  | remove x =>
    rw [onTable] at h ⊢
    split
    · next hremove =>
      rw [hremove] at h
      cases h
    · rfl
  | lookup x =>
    rw [onTable]
    split <;> rfl
  | contains x => rfl

end

/-! ## Rows of operations -/

/-- Tables and lists go side by side. -/
theorem row_onTable {ss : List Symbol} (h : Distinct ss) (ops : List Operation) :
    row onTable ops (ofList ss) = ((row onList ops ss).1, ofList (row onList ops ss).2) ∧
      Distinct (row onList ops ss).2 := by
  induction ops generalizing ss with
  | nil => exact ⟨rfl, h⟩
  | cons op ops ih =>
    obtain ⟨hrow, hdistinct⟩ := ih (h.onList op)
    refine ⟨?_, hdistinct⟩
    rw [row, row, onTable_ofList h, hrow]

/-- Whatever is asked of a table that was empty at first, it gives the answers of a plain list of
symbols and holds the symbols of that list in the same order. Its names are distinct, its index
holds the position of every name and nothing else, and what it refuses to do leaves it as it is. -/
theorem row_answers_as_list (ops : List Operation) :
    (row onTable ops empty).1 = (row onList ops []).1 ∧
    (row onTable ops empty).2.toList = (row onList ops []).2 ∧
    (row onTable ops empty).2.names.Nodup ∧
    (∀ x i, (x, i) ∈ (row onTable ops empty).2.index ↔
      (row onTable ops empty).2.names[i]? = some x) ∧
    ∀ op e, (onTable op (row onTable ops empty).2).1 = .refused e →
      (onTable op (row onTable ops empty).2).2 = (row onTable ops empty).2 := by
  have hnil : Distinct [] := List.nodup_nil
  obtain ⟨hrow, hdistinct⟩ := row_onTable hnil ops
  have hempty : empty = ofList [] := rfl
  rw [hempty, hrow]
  refine ⟨rfl, rfl, hdistinct, ?_, fun _ _ => onTable_of_refused⟩
  intro x i
  exact List.mk_mem_zipIdx_iff_getElem?

end Operation

end Quadlet.SymbolTable
