import Quadlet.Symbol.Table

/-!
# Tables in good order

The index of a table in good order numbers the names of its symbols. Main statements: on such tables
every operation does to the list of symbols what it says, and leaves a table in good order.
-/

namespace Quadlet.SymbolTable

/-- The table of some symbols, with the index in good order. -/
def ofList (ss : List Symbol) : SymbolTable := ⟨ss, (ss.map Symbol.name).zipIdx⟩

/-- A numbered name is found at its first place. -/
theorem lookup_zipIdx (ss : List Symbol) (x : String) (k : Nat) :
    ((ss.map Symbol.name).zipIdx k).lookup x = (ss.findIdx? fun s => s.name == x).map (· + k) := by
  induction ss generalizing k with
  | nil => rfl
  | cons s ss ih =>
    rw [List.map_cons, List.zipIdx_cons, List.lookup_cons, List.findIdx?_cons]
    by_cases hx : s.name = x
    · simp [hx]
    · rw [beq_eq_false_iff_ne.mpr (Ne.symm hx), beq_eq_false_iff_ne.mpr hx, ih]
      simp [Function.comp_def, Nat.add_comm, Nat.add_left_comm]

private theorem position?_ofList (ss : List Symbol) (x : String) :
    (ofList ss).position? x = ss.findIdx? fun s => s.name == x := by
  rw [position?, ofList, lookup_zipIdx]
  simp

theorem find?_ofList (ss : List Symbol) (x : String) :
    (ofList ss).find? x = ss.find? fun s => s.name == x := by
  rw [find?, position?_ofList, List.find?_eq_bind_findIdx?_getElem?]
  rfl

/-- A name is declared exactly if a symbol has it. -/
theorem contains_ofList (ss : List Symbol) (x : String) :
    (ofList ss).contains x = true ↔ x ∈ ss.map Symbol.name := by
  rw [contains, position?_ofList, List.findIdx?_isSome]
  simp

/-- A name that no symbol has stands nowhere. -/
theorem position?_eq_none {ss : List Symbol} {x : String} (h : x ∉ ss.map Symbol.name) :
    (ofList ss).position? x = none := by
  rw [position?_ofList, List.findIdx?_eq_none_iff]
  intro s hs
  exact beq_eq_false_iff_ne.mpr fun hname => h (List.mem_map.mpr ⟨s, hs, hname⟩)

theorem contains_ofList_eq_false (ss : List Symbol) (x : String) :
    (ofList ss).contains x = false ↔ x ∉ ss.map Symbol.name := by
  rw [← contains_ofList, Bool.not_eq_true]

section

variable {before after : List Symbol} {s : Symbol}

/-- A symbol whose name is new stands behind those before it. -/
theorem position?_append (h : s.name ∉ before.map Symbol.name) :
    (ofList (before ++ s :: after)).position? s.name = some before.length := by
  have hbefore := position?_eq_none h
  rw [position?_ofList] at hbefore
  rw [position?_ofList, List.findIdx?_append, hbefore, List.findIdx?_cons]
  simp

theorem find?_append (h : s.name ∉ before.map Symbol.name) :
    (ofList (before ++ s :: after)).find? s.name = some s := by
  rw [find?, position?_append h]
  simp [ofList]

/-- A symbol with a new name is put behind the others. -/
theorem declare_ofList (h : s.name ∉ before.map Symbol.name) :
    (ofList before).declare s = .ok (ofList (before ++ [s])) := by
  rw [declare, (contains_ofList_eq_false before s.name).mpr h]
  simp [ofList, size, List.zipIdx_append]

/-- A symbol that keeps its name is changed where it stands. -/
theorem modify_ofList (h : s.name ∉ before.map Symbol.name) {f : Symbol → Symbol}
    (hf : (f s).name = s.name) :
    (ofList (before ++ s :: after)).modify s.name f = .ok (ofList (before ++ f s :: after)) := by
  rw [modify, position?_append h]
  simp [ofList, hf, List.modify_eq_take_cons_drop]

end

/-! ## Taking out -/

section

variable {names : List String} {x : String} {i k : Nat}

private theorem closeGap_append (index index' : List (String × Nat)) (x : String) (i : Nat) :
    closeGap (index ++ index') x i = closeGap index x i ++ closeGap index' x i := by
  simp [closeGap]

/-- Names in front of the gap stay where they are. -/
theorem closeGap_front (h : x ∉ names) (hi : k + names.length ≤ i) :
    closeGap (names.zipIdx k) x i = names.zipIdx k := by
  induction names generalizing k with
  | nil => rfl
  | cons y names ih =>
    rw [List.mem_cons, not_or] at h
    rw [List.length_cons] at hi
    rw [List.zipIdx_cons, ← List.singleton_append, closeGap_append, ih h.2 (by omega)]
    have hk : ¬i < k := by omega
    simp [closeGap, Ne.symm h.1, hk]

/-- Names behind the gap move up by one. -/
theorem closeGap_back (h : x ∉ names) (hi : i ≤ k) :
    closeGap (names.zipIdx (k + 1)) x i = names.zipIdx k := by
  induction names generalizing k with
  | nil => rfl
  | cons y names ih =>
    rw [List.mem_cons, not_or] at h
    rw [List.zipIdx_cons, List.zipIdx_cons, ← List.singleton_append, closeGap_append,
      ih h.2 (by omega)]
    have hk : i < k + 1 := by omega
    simp [closeGap, Ne.symm h.1, hk]

/-- A symbol whose name no other has is taken out, and the index is in good order again. -/
theorem remove_ofList {before after : List Symbol} {s : Symbol}
    (hbefore : s.name ∉ before.map Symbol.name) (hafter : s.name ∉ after.map Symbol.name) :
    (ofList (before ++ s :: after)).remove s.name = .ok (s, ofList (before ++ after)) := by
  have hgap : closeGap [(s.name, before.length)] s.name before.length = [] := by simp [closeGap]
  have hindex : closeGap (ofList (before ++ s :: after)).index s.name before.length =
      (ofList (before ++ after)).index := by
    simp only [ofList, List.map_append, List.map_cons, List.zipIdx_append, List.zipIdx_cons,
      List.length_map, Nat.zero_add]
    rw [← List.singleton_append, closeGap_append, closeGap_append, hgap,
      closeGap_front hbefore (by simp), closeGap_back hafter (Nat.le_refl _), List.nil_append]
  have hsymbols : (before ++ s :: after).eraseIdx before.length = before ++ after := by
    simp [List.eraseIdx_append_of_length_le]
  rw [remove, position?_append hbefore, find?_append hbefore]
  dsimp only
  rw [hindex]
  simp only [ofList, hsymbols]

end

end Quadlet.SymbolTable
