import Quadlet.Proofs.Lowering.Source

/-!
# The size of compiled programs

A token has a character of its own in the text, and a quadruple has a token of its own among those
of the tree. So a compiled program has no more quadruples than its source text has characters.
-/

namespace Quadlet

open Syntax

/-! ## Tokens -/

namespace Scanner

/-- A piece makes one token at most. -/
theorem size_note {s t : Scanner} {k : Cut} (h : note k s = .ok () t) :
    t.tokens.size ≤ s.tokens.size + 1 := by
  have hnoted := noted k s
  rw [h] at hnoted
  cases hnoted with
  | gap | skipped => exact Nat.le_succ _
  | token => exact Nat.le_of_eq (Array.size_push _)

private theorem size_passPieces {n : Nat} {s t : Scanner} (h : passPieces n s = .ok () t) :
    t.tokens.size ≤ s.tokens.size + n := by
  induction n generalizing s with
  | zero =>
    cases h
    exact Nat.le_refl _
  | succ n ih =>
    obtain ⟨u, u', hu, h⟩ := EStateM.bind_eq_ok.mp h
    cases hu
    cases hcs : s.rest with
    | nil =>
      rw [hcs] at h
      cases h
      exact Nat.le_add_right _ _
    | cons c cs =>
      rw [hcs] at h
      obtain ⟨⟨⟩, v, hv, h⟩ := EStateM.bind_eq_ok.mp h
      have hnote := size_note hv
      have hrest := ih h
      omega

/-- A text has no more tokens than characters, apart from the end marker. -/
theorem length_scan {source : String} {strict : Bool} {tokens : List Token} {s : Scanner}
    (h : scan (.ofSource source strict) = .ok tokens s) : tokens.length ≤ source.length + 1 := by
  obtain ⟨u, u', hu, h⟩ := EStateM.bind_eq_ok.mp h
  cases hu
  obtain ⟨⟨⟩, t, ht, h⟩ := EStateM.bind_eq_ok.mp h
  have hsize := size_passPieces ht
  cases h
  simpa [ofSource, String.length_toList] using hsize

end Scanner

/-- The tokens of a tree are no more than the characters of its source text. -/
theorem Syntax.Program.IsTreeOf.length_tokens {a : Program} {source : String} {strict : Bool}
    (h : a.IsTreeOf source strict) : a.tokens.length ≤ source.length := by
  obtain ⟨tokens, s, hscan, hkinds⟩ := h
  have hlength := congrArg List.length hkinds
  have hscan := Scanner.length_scan hscan
  simp only [List.length_map, List.length_append, List.length_singleton] at hlength
  omega

/-! ## Code -/

section

variable {env : Environment}

theorem length_operation {p : Planner} {op : Operator} {left right : Operand}
    {code : List Quadruple} {a : Computed} (h : p.operation op left right code = .ok a) :
    a.code.length = code.length + 1 := by
  obtain ⟨type, -, h⟩ := Except.bind_eq_ok.mp h
  obtain ⟨r, -, h⟩ := Except.bind_eq_ok.mp h
  cases h
  simp

theorem length_literal {p : Planner} {l : Literal} {a : Computed} (h : p.literal l = .ok a) :
    a.code = [] := by
  obtain ⟨r, -, h⟩ := Except.bind_eq_ok.mp h
  cases h
  rfl

/-- An expression has fewer quadruples than tokens. -/
theorem length_tree {r : Rank} (e : Tree r) {p : Planner} {a : Computed}
    (h : e.lower env p = .ok a) : a.code.length < e.tokens.length := by
  induction e generalizing p a with
  | int n | float x => simp [length_literal h, Tree.tokens]
  | name x =>
    obtain ⟨o, -, h⟩ := Except.bind_eq_ok.mp h
    cases h
    simp [Tree.tokens]
  | group e ih =>
    have hlt := ih h
    simp only [Tree.tokens, List.length_append, List.length_cons]
    omega
  | ofFactor e ih | ofTerm e ih | ofSum e ih => exact ih h
  | signed negative e ih =>
    obtain ⟨b, hb, h⟩ := Except.bind_eq_ok.mp h
    obtain ⟨c, -, h⟩ := Except.bind_eq_ok.mp h
    have hlt := ih hb
    rw [length_operation h, Tree.tokens, List.length_cons]
    omega
  | product l op _ r ihl ihr | addition l op _ r ihl ihr | comparison l op _ r ihl ihr =>
    obtain ⟨b, hb, h⟩ := Except.bind_eq_ok.mp h
    obtain ⟨c, hc, h⟩ := Except.bind_eq_ok.mp h
    have hleft := ihl hb
    have hright := ihr hc
    rw [length_operation h, Tree.tokens]
    simp only [List.length_append, List.length_cons]
    omega

/-- The tokens between the commas are among those of a list. -/
theorem length_flatMap_le_listed {α : Type} (f : α → List Token.Kind) (as : List α) :
    (as.flatMap f).length ≤ (listed f as).length := by
  cases as with
  | nil => exact Nat.le_refl _
  | cons a as =>
    have hmore (bs : List α) : (bs.flatMap f).length ≤
        (bs.flatMap fun b => .sign .comma :: f b).length := by
      induction bs with
      | nil => exact Nat.le_refl _
      | cons b bs ih =>
        simp only [List.flatMap_cons, List.length_append, List.length_cons]
        omega
    simp only [listed, List.flatMap_cons, List.length_append]
    exact Nat.add_le_add_left (hmore as) _

private theorem length_items {is : List Item} {p : Planner} {l : Laid}
    (h : Item.Lowers env is p l) : l.code.length ≤ (is.flatMap Item.tokens).length := by
  induction h with
  | nil p => exact Nat.le_refl _
  | @cons i is p a l first more ih =>
    have hitem : a.code.length < i.tokens.length := by
      cases i with
      | text s => simp [length_literal first, Item.tokens]
      | value e => exact length_tree e first
    simp only [List.length_append, List.length_singleton, List.flatMap_cons]
    omega

private theorem length_arguments {es : List Expression} {k : Nat} {p : Planner} {l : Laid}
    {types : List ValueType} (h : Tree.LowersArguments env k es p l types) :
    l.code.length ≤ (es.flatMap Tree.tokens).length := by
  induction h with
  | nil k p => exact Nat.le_refl _
  | cons first more ih =>
    have hfirst := length_tree _ first
    simp only [List.length_append, List.length_cons, List.flatMap_cons]
    omega

/-- A statement or a block has no more quadruples than tokens. -/
theorem length_phrase {r : Role} {s : Phrase r} {start : Nat} {p : Planner} {l : Laid}
    (h : s.Lowers env start p l) : l.code.length ≤ s.tokens.length := by
  induction h with
  | assign name value type =>
    have hvalue := length_tree _ value
    simp only [Phrase.tokens, List.length_append, List.length_cons, List.length_nil]
    omega
  | branch guard | choice guard | loop _ guard =>
    have hguard := length_tree _ guard
    simp only [Phrase.tokens, List.length_append, List.length_cons, List.length_nil]
    omega
  | @call f es start p c l types entry callee arguments =>
    have hlisted :=
      Nat.le_trans (length_arguments arguments) (length_flatMap_le_listed Tree.tokens es)
    simp only [Phrase.tokens, List.length_append, List.length_cons, List.length_nil]
    omega
  | @print i is start p l items =>
    have hlisted :=
      Nat.le_trans (length_items items) (length_flatMap_le_listed Item.tokens (i :: is))
    simp only [Phrase.tokens, List.length_append, List.length_cons]
    omega
  | nil start p => exact Nat.le_refl _
  | cons first more ihfirst ihmore =>
    simp only [Phrase.tokens, List.length_append]
    omega

end

private theorem length_functions {fs : List Function} {start : Nat} {d : Directory} {p : Planner}
    {r : Laid × Directory} (h : Function.lowerAll fs start d p = .ok r) :
    r.1.code.length ≤ (fs.flatMap Function.tokens).length := by
  induction fs generalizing start d p r with
  | nil =>
    cases h
    exact Nat.le_refl _
  | cons f fs ih =>
    obtain ⟨⟨a, d'⟩, ha, h⟩ := Except.bind_eq_ok.mp h
    obtain ⟨⟨b, d''⟩, hb, h⟩ := Except.bind_eq_ok.mp h
    cases h
    obtain ⟨-, id, p₀, d₁, d₂, p₂, d₃, p₃, d₄, body, -, -, -, -, -, hbody, hr⟩ :=
      Draft.lower_function_eq_ok ha
    cases hr
    have hbody := length_phrase (Phrase.lowers_of_lower hbody)
    have hmore : b.code.length ≤ _ := ih hb
    simp only [List.flatMap_cons, Function.tokens, List.length_append, List.length_cons,
      List.length_nil]
    omega

/-- A program has no more quadruples than tokens. -/
theorem Syntax.Program.size_lower {a : Program} {o : ObjectFile} (h : a.lower = .ok o) :
    o.quadruples.size ≤ a.tokens.length := by
  obtain ⟨⟨d, p⟩, -, h⟩ := Except.bind_eq_ok.mp h
  obtain ⟨⟨bodies, d'⟩, hbodies, h⟩ := Except.bind_eq_ok.mp h
  obtain ⟨main, hmain, h⟩ := Except.bind_eq_ok.mp h
  cases h
  have hfunctions : bodies.code.length ≤ _ := length_functions hbodies
  have hmain := length_phrase (Phrase.lowers_of_lower hmain)
  simp only [Program.tokens, List.size_toArray, List.length_append, List.length_cons]
  omega

end Quadlet
