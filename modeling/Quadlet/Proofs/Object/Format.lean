import Mathlib.Data.List.Forall2
import Quadlet.Proofs.Decimal.Spelling
import Quadlet.Proofs.Object.Text
import Quadlet.Proofs.Text.Fields

/-!
# The persisted form

Every line of a persisted program that is neither blank nor the end of a section has to spell an
entry of its section, which is the number of ends before it. Main statement: a text is read exactly
if its lines do and if it has three ends; it is then read as the entries in their order, and else
the first line that does not is blamed.
-/

namespace Quadlet

open Text Text.Numeral

namespace Segment

/-- A segment is found under its name and under no other. -/
theorem ofName?_eq_some_iff {x : String} {s : Segment} :
    ofName? x = some s ↔ s ∈ layout ∧ s.name = x := by
  constructor
  · intro h
    have hname := List.find?_some (p := fun seg : Segment => seg.name = x) h
    exact ⟨List.mem_of_find?_eq_some h, of_decide_eq_true hname⟩
  · rintro ⟨hs, rfl⟩
    exact ofName?_name hs

end Segment

namespace Opcode

/-- The numbers of opcodes go from 1 to 19, and an opcode is found under its own. -/
theorem ofCode?_eq_some_iff {n : Int} {op : Opcode} :
    ofCode? n = some op ↔ (1 ≤ n ∧ n ≤ 19) ∧ op.code = n := by
  have hcodes : ∀ i < 19, ∀ op, all[i]? = some op → op.code = ((i + 1 : Nat) : Int) := by decide
  constructor
  · intro h
    rw [ofCode?] at h
    split at h
    · cases h
    · next hlow =>
      have hlt : n.toNat - 1 < 19 := (List.getElem?_eq_some_iff.mp h).1
      have hcode := hcodes _ hlt op h
      omega
  · rintro ⟨-, rfl⟩
    exact ofCode?_code op

end Opcode

namespace ObjectFile

/-! ## Lines -/

/-- A literal of a constant of a type. -/
inductive SpellsLiteral : ValueType → List Char → Literal → Prop where
  | int {cs : List Char} {n : Int} (h : SpellsInt cs n) :
    SpellsLiteral .int cs (.int (Int64.ofInt n))
  | float {cs : List Char} {x : Float} (h : Decimal.SpellsFloat cs x) :
    SpellsLiteral .float cs (.float x)
  | string {cs : List Char} {s : String} (h : JsonString.Spells cs s) :
    SpellsLiteral .string cs (.string s)

/-- A line of a section spells an entry. -/
inductive Spells : Nat → List Char → Entry → Prop where
  /-- The name of a segment that lives as long as the program, and the number of its cells. -/
  | segment {line name cells : List Char} {s : Segment} {n : Nat}
    (fields : Fields [name, cells] line) (hlayout : s ∈ Segment.layout) (hlocal : s.isLocal = false)
    (hname : s.name = String.ofList name) (hcells : SpellsCount cells n) :
      Spells 0 line (.segment ⟨s, n⟩)
  /-- The word `function`, the number of a function, and the cells of its frame. -/
  | frame {line id ints floats : List Char} {f : Int} {i x : Nat}
    (fields : Fields [functionWord, id, ints, floats] line) (hid : SpellsInt id f)
    (hints : SpellsCount ints i) (hfloats : SpellsCount floats x) : Spells 0 line (.frame ⟨f, i, x⟩)
  /-- The address of a constant and, behind the first comma, a literal of the
  type that is kept there. -/
  | constant {left right : List Char} {a : Int} {s : Segment} {l : Literal} (hleft : ',' ∉ left)
    (haddress : SpellsInt (trim left) a) (hsegment : Segment.ofAddress? a = some s)
    (hconstant : s.lifetime = .constant) (hliteral : SpellsLiteral s.type (trim right) l) :
      Spells 1 (left ++ ',' :: right) (.constant ⟨a, l⟩)
  /-- The number of an opcode and three fields. -/
  | quadruple {line op left right result : List Char} {code l r x : Int} {o : Opcode}
    (fields : Fields [op, left, right, result] line) (hop : SpellsInt op code)
    (hcode : 1 ≤ code ∧ code ≤ 19) (ho : o.code = code) (hleft : SpellsInt left l)
      (hright : SpellsInt right r) (hresult : SpellsInt result x) :
    Spells 2 line (.quadruple ⟨o, l, r, x⟩)

private theorem readInt_eq_ok_iff {kind : Field} {cs : List Char} {n : Int} :
    readInt kind cs = .ok n ↔ SpellsInt cs n :=
  readInt_eq_ok.trans Numeral.readInt_eq_ok_iff

private theorem readCells_eq_ok_iff {cs : List Char} {n : Nat} :
    readCells cs = .ok n ↔ SpellsCount cs n :=
  readCells_eq_ok.trans readCount_eq_ok_iff

private theorem readMemory_eq_ok_iff {line : List Char} (h : IsTrimmed line)
    (hne : line ≠ []) {e : Entry} : readMemory line = .ok e ↔ Spells 0 line e := by
  have hfields := fields_words h hne
  constructor
  · intro h
    rw [readMemory] at h
    split at h
    · next name cells hwords =>
      rw [hwords] at hfields
      rw [readSegment] at h
      split at h
      · next s hs =>
        obtain ⟨hname, hlocal⟩ := Option.filter_eq_some_iff.mp hs
        obtain ⟨hlayout, hname⟩ := Segment.ofName?_eq_some_iff.mp hname
        obtain ⟨n, hn, h⟩ := Except.bind_eq_ok.mp h
        cases h
        exact .segment hfields hlayout (by simpa using hlocal) hname (readCells_eq_ok_iff.mp hn)
      · cases h
    · next head id ints floats hwords =>
      rw [hwords] at hfields
      split at h
      · next hhead =>
        obtain ⟨f, hf, h⟩ := Except.bind_eq_ok.mp h
        obtain ⟨i, hi, h⟩ := Except.bind_eq_ok.mp h
        obtain ⟨x, hx, h⟩ := Except.bind_eq_ok.mp h
        cases h
        exact .frame (hhead ▸ hfields) (readInt_eq_ok_iff.mp hf) (readCells_eq_ok_iff.mp hi)
          (readCells_eq_ok_iff.mp hx)
      · cases h
    · cases h
  · intro h
    cases h with
    | segment fields hlayout hlocal hname hcells =>
      have hfound := Option.filter_eq_some_iff (p := fun s => !s.isLocal) |>.mpr
        ⟨Segment.ofName?_eq_some_iff.mpr ⟨hlayout, hname⟩, by rw [hlocal]; rfl⟩
      simp only [readMemory, fields.words_eq, readSegment, hfound, readCells_eq_ok_iff.mpr hcells,
        Except.ok_bind, Except.pure_eq]
    | frame fields hid hints hfloats =>
      simp only [readMemory, fields.words_eq, if_true, readFrame, readInt_eq_ok_iff.mpr hid,
        readCells_eq_ok_iff.mpr hints, readCells_eq_ok_iff.mpr hfloats, Except.ok_bind,
        Except.pure_eq]

private theorem readLiteral_eq_ok_iff {type : ValueType}
    (htype : type = .int ∨ type = .float ∨ type = .string) {cs : List Char} {l : Literal} :
    readLiteral type cs = .ok l ↔ SpellsLiteral type cs l := by
  obtain rfl | rfl | rfl := htype
  · constructor
    · intro h
      obtain ⟨n, hn, h⟩ := Except.bind_eq_ok.mp h
      cases h
      exact .int (readInt_eq_ok_iff.mp hn)
    · intro h
      cases h with
      | int h => exact Except.bind_eq_ok.mpr ⟨_, readInt_eq_ok_iff.mpr h, rfl⟩
  · constructor
    · intro h
      obtain ⟨x, hx, h⟩ := Except.bind_eq_ok.mp h
      cases h
      exact .float (Decimal.readFloat_eq_some_iff.mp (readField_eq_ok.mp hx))
    · intro h
      cases h with
      | float h =>
        exact Except.bind_eq_ok.mpr ⟨_,
          readField_eq_ok.mpr (Decimal.readFloat_eq_some_iff.mpr h), rfl⟩
  · constructor
    · intro h
      rw [readLiteral] at h
      · split at h
        · next s hs =>
          cases h
          exact .string (JsonString.decode_eq_ok_iff.mp hs)
        · cases h
      all_goals simp
    · intro h
      cases h with
      | string h => simp only [readLiteral, JsonString.decode_eq_ok_iff.mpr h]

private theorem readConstant_eq_ok_iff {line : List Char} {e : Entry} :
    readConstant line = .ok e ↔ Spells 1 line e := by
  constructor
  · intro h
    rw [readConstant] at h
    split at h
    · cases h
    · next comma right hright =>
      obtain ⟨a, ha, h⟩ := Except.bind_eq_ok.mp h
      split at h
      · next s hs =>
        obtain ⟨haddress, hconstant⟩ := Option.filter_eq_some_iff.mp hs
        have hconstant := of_decide_eq_true hconstant
        obtain ⟨l, hl, h⟩ := Except.bind_eq_ok.mp h
        cases h
        have htype := type_of_constant (Segment.mem_layout_of_ofAddress? haddress) hconstant
        have hcomma : comma = ',' := by
          have hhead : (line.dropWhile fun c => decide (c ≠ ',')).head? = some comma := by
            rw [hright]; rfl
          simpa using head?_dropWhile hhead
        have hleft : ',' ∉ line.takeWhile fun c => decide (c ≠ ',') := fun hmem => by
          simpa using List.mem_takeWhile_imp hmem
        have hline : line.takeWhile (fun c => decide (c ≠ ',')) ++ ',' :: right = line := by
          rw [hcomma] at hright
          rw [← hright, List.takeWhile_append_dropWhile]
        rw [← hline]
        exact .constant hleft (readInt_eq_ok_iff.mp ha) haddress hconstant
          ((readLiteral_eq_ok_iff htype).mp hl)
      · cases h
  · intro h
    cases h with
    | @constant left right a s l hleft haddress hsegment hconstant hliteral =>
      have hsolid : ∀ c ∈ left, decide (c ≠ ',') = true := fun c hc => by
        simp only [decide_eq_true_eq]
        rintro rfl
        exact hleft hc
      have hdrop : (left ++ ',' :: right).dropWhile (· ≠ ',') = ',' :: right := by
        rw [List.dropWhile_append_of_pos hsolid]
        rfl
      have htake : (left ++ ',' :: right).takeWhile (· ≠ ',') = left := by
        rw [List.takeWhile_append_of_pos hsolid]
        simp
      have htype := type_of_constant (Segment.mem_layout_of_ofAddress? hsegment) hconstant
      simp only [readConstant, hdrop, htake, readInt_eq_ok_iff.mpr haddress,
        Except.ok_bind, hsegment, Option.filter_some, hconstant, decide_true, if_true,
        (readLiteral_eq_ok_iff htype).mpr hliteral, Except.pure_eq]

private theorem readQuadruple_eq_ok_iff {line : List Char} (h : IsTrimmed line)
    (hne : line ≠ []) {e : Entry} : readQuadruple line = .ok e ↔ Spells 2 line e := by
  constructor
  · intro hread
    rw [readQuadruple] at hread
    split at hread
    · next op left right result hwords =>
      have hfields := fields_words h hne
      rw [hwords] at hfields
      obtain ⟨code, hcode, hread⟩ := Except.bind_eq_ok.mp hread
      split at hread
      · next o ho =>
        obtain ⟨hrange, ho⟩ := Opcode.ofCode?_eq_some_iff.mp ho
        obtain ⟨l, hl, hread⟩ := Except.bind_eq_ok.mp hread
        obtain ⟨r, hr, hread⟩ := Except.bind_eq_ok.mp hread
        obtain ⟨x, hx, hread⟩ := Except.bind_eq_ok.mp hread
        cases hread
        exact .quadruple hfields (readInt_eq_ok_iff.mp hcode) hrange ho (readInt_eq_ok_iff.mp hl)
          (readInt_eq_ok_iff.mp hr) (readInt_eq_ok_iff.mp hx)
      · cases hread
    · cases hread
  · intro hspelled
    cases hspelled with
    | quadruple fields hop hrange ho hleft hright hresult =>
      simp only [readQuadruple, fields.words_eq, readInt_eq_ok_iff.mpr hop, Except.ok_bind,
        Opcode.ofCode?_eq_some_iff.mpr ⟨hrange, ho⟩, readInt_eq_ok_iff.mpr hleft,
        readInt_eq_ok_iff.mpr hright, readInt_eq_ok_iff.mpr hresult, Except.pure_eq]

/-- A line is read as an entry of its section exactly if it spells the entry. -/
theorem readEntry_eq_ok_iff {part : Nat} {line : List Char} (h : IsTrimmed line)
    (hne : line ≠ []) {e : Entry} : readEntry part line = .ok e ↔ Spells part line e := by
  obtain _ | _ | _ | part := part
  · exact readMemory_eq_ok_iff h hne
  · exact readConstant_eq_ok_iff
  · exact readQuadruple_eq_ok_iff h hne
  · constructor
    · intro h
      cases h
    · intro h
      cases h

/-! ## Sections -/

/-- The section of a line among lines that start in section `part`: one more behind
every end of a section. -/
def sectionAt (part : Nat) (ls : List (List Char)) (i : Nat) : Nat :=
  part + (ls.take i).count sectionEnd

/-- The lines that are neither blank nor the end of a section, each with its section. -/
def statements (part : Nat) (ls : List (List Char)) : List (Nat × List Char) :=
  (ls.zipIdx.filter fun x => x.1 ≠ [] ∧ x.1 ≠ sectionEnd).map fun x => (sectionAt part ls x.2, x.1)

/-- A line that is blank or the end of a section, or that spells an entry of its section. -/
def Proper (part : Nat) (ls : List (List Char)) (i : Nat) : Prop :=
  ∀ l, ls[i]? = some l → l = [] ∨ l = sectionEnd ∨ ∃ e, Spells (sectionAt part ls i) l e

/-- The lines of a text without blanks at their ends. -/
def trimmedLines (text : String) : List (List Char) := (lines text.toList).map trim

section

variable {part n : Nat} {l : List Char} {ls : List (List Char)}

private theorem sectionAt_cons (part i : Nat) (l : List Char) (ls : List (List Char)) :
    sectionAt part (l :: ls) (i + 1) = sectionAt (part + if l = sectionEnd then 1 else 0) ls i := by
  rw [sectionAt, sectionAt, List.take_succ_cons, List.count_cons]
  simp only [beq_iff_eq]
  omega

private theorem statements_cons (part : Nat) (l : List Char) (ls : List (List Char)) :
    statements part (l :: ls) = (if l ≠ [] ∧ l ≠ sectionEnd then [(part, l)] else []) ++
      statements (part + if l = sectionEnd then 1 else 0) ls := by
  have hrest : ((ls.zipIdx 1).filter fun x => x.1 ≠ [] ∧ x.1 ≠ sectionEnd).map
      (fun x => (sectionAt part (l :: ls) x.2, x.1)) =
        statements (part + if l = sectionEnd then 1 else 0) ls := by
    rw [List.zipIdx_succ, List.filter_map, List.map_map, statements]
    refine List.map_congr_left fun x _ => ?_
    exact congrArg (·, x.1) (sectionAt_cons part x.2 l ls)
  rw [← hrest, statements, List.zipIdx_cons, List.filter_cons]
  split
  · next h => rw [if_pos (of_decide_eq_true h)]; rfl
  · next h => rw [if_neg (fun hp => h (decide_eq_true hp))]; rfl

private theorem proper_cons_zero (part : Nat) (l : List Char) (ls : List (List Char)) :
    Proper part (l :: ls) 0 ↔ l = [] ∨ l = sectionEnd ∨ ∃ e, Spells part l e := by
  simp [Proper, sectionAt]

private theorem proper_cons_succ (part i : Nat) (l : List Char) (ls : List (List Char)) :
    Proper part (l :: ls) (i + 1) ↔ Proper (part + if l = sectionEnd then 1 else 0) ls i := by
  rw [Proper, Proper, sectionAt_cons]
  rfl

/-- A line without an entry is passed over; if it is the end of a section, the next one starts. -/
theorem readLines_cons_of_idle {line : List Char} (h : trim line = [] ∨ trim line = sectionEnd) :
    readLines part n (line :: ls) =
      readLines (part + if trim line = sectionEnd then 1 else 0) (n + 1) ls := by
  rw [readLines]
  obtain hnil | hend := h
  · rw [if_pos hnil, if_neg (by rw [hnil]; decide)]
    rfl
  · rw [if_neg (by rw [hend]; decide), if_pos hend, if_pos hend]

/-- Lines are read exactly if all of them spell entries; the ends of sections
among them are counted. -/
theorem readLines_eq_ok_iff {es : List Entry} {k : Nat} : readLines part n ls = .ok (es, k) ↔
    List.Forall₂ (fun x e => Spells x.1 x.2 e) (statements part (ls.map trim)) es ∧
      k = part + (ls.map trim).count sectionEnd := by
  induction ls generalizing part n es with
  | nil =>
    constructor
    · intro h
      cases h
      exact ⟨.nil, rfl⟩
    · rintro ⟨h, rfl⟩
      cases h
      rfl
  | cons line ls ih =>
    rw [List.map_cons, statements_cons, List.count_cons]
    -- A blank line and the end of a section add no entry; they differ only in the section of the
    -- lines behind.
    by_cases hidle : trim line = [] ∨ trim line = sectionEnd
    · have hnone : ¬(trim line ≠ [] ∧ trim line ≠ sectionEnd) := fun h => hidle.elim h.1 h.2
      rw [readLines_cons_of_idle hidle, ih, if_neg hnone, List.nil_append]
      simp only [beq_iff_eq, Nat.add_comm, Nat.add_left_comm]
    obtain ⟨hnil, hend⟩ := not_or.mp hidle
    have hread {e : Entry} : readEntry part (trim line) = .ok e ↔ Spells part (trim line) e :=
      readEntry_eq_ok_iff (isTrimmed_trim line) hnil
    rw [readLines, if_neg hnil, if_neg hend, if_pos ⟨hnil, hend⟩, if_neg hend,
      List.singleton_append, List.forall₂_cons_left_iff, if_neg (by simpa using hend)]
    constructor
    · intro h
      split at h
      · cases h
      · next e he =>
        obtain ⟨⟨es, k⟩, hr, heq⟩ := Except.map_eq_ok.mp h
        cases heq
        obtain ⟨hes, hk⟩ := ih.mp hr
        exact ⟨⟨e, es, hread.mp he, hes, rfl⟩, hk⟩
    · rintro ⟨⟨e, es, he, hes, rfl⟩, hk⟩
      rw [hread.mpr he]
      exact Except.map_eq_ok.mpr ⟨(es, k), ih.mpr ⟨hes, hk⟩, rfl⟩

/-- There is a result if every line is proper, and else the first that is not is blamed; the lines
are numbered from `n` on. -/
def Judges {α : Type} (part n : Nat) (ls : List (List Char)) (x : Except Error α) : Prop :=
  (∃ a, x = .ok a ∧ ∀ i, Proper part ls i) ∨
    ∃ i fault, x = .error (.malformed (n + i) fault) ∧ ¬Proper part ls i ∧ ∀ j < i, Proper part ls j

/-- Behind a proper line the others decide. -/
theorem Judges.cons {α β : Type} {x : Except Error α} (hl : Proper part (l :: ls) 0)
    (h : Judges (part + if l = sectionEnd then 1 else 0) (n + 1) ls x) (f : α → β) :
    Judges part n (l :: ls) (x.map f) := by
  have hcons {i : Nat} := proper_cons_succ part i l ls
  obtain ⟨a, rfl, hproper⟩ | ⟨i, fault, rfl, hi, hbefore⟩ := h
  · refine .inl ⟨f a, rfl, fun i => ?_⟩
    cases i with
    | zero => exact hl
    | succ i => exact hcons.mpr (hproper i)
  · refine .inr ⟨i + 1, fault, ?_, hcons.not.mpr hi, fun j hj => ?_⟩
    · rw [Nat.add_right_comm, Nat.add_assoc]
      rfl
    · cases j with
      | zero => exact hl
      | succ j => exact hcons.mpr (hbefore j (Nat.lt_of_succ_lt_succ hj))

private theorem readLines_judges (part n : Nat) (ls : List (List Char)) :
    Judges part n (ls.map trim) (readLines part n ls) := by
  induction ls generalizing part n with
  | nil => exact .inl ⟨([], part), rfl, by simp [Proper]⟩
  | cons line ls ih =>
    have hzero := proper_cons_zero part (trim line) (ls.map trim)
    rw [List.map_cons]
    by_cases hidle : trim line = [] ∨ trim line = sectionEnd
    · have hnext := Judges.cons (hzero.mpr (or_assoc.mp (.inl hidle))) (ih _ (n + 1)) id
      rwa [Except.map_id, id, ← readLines_cons_of_idle hidle] at hnext
    obtain ⟨hnil, hend⟩ := not_or.mp hidle
    have hentry {e : Entry} : readEntry part (trim line) = .ok e ↔ Spells part (trim line) e :=
      readEntry_eq_ok_iff (isTrimmed_trim line) hnil
    rw [readLines, if_neg hnil, if_neg hend]
    split
    -- The reader of an entry decides whether the first line is the one to blame.
    · next fault hfault =>
      refine .inr ⟨0, fault, rfl, fun hl => ?_, by simp⟩
      obtain hl | hl | ⟨e, he⟩ := hzero.mp hl
      · exact hnil hl
      · exact hend hl
      · rw [hentry.mpr he] at hfault
        cases hfault
    · next e he =>
      refine Judges.cons (hzero.mpr (.inr (.inr ⟨e, hentry.mp he⟩))) ?_ _
      rw [if_neg hend]
      exact ih part (n + 1)

/-- Blank lines state nothing. -/
theorem statements_filter (part : Nat) (ls : List (List Char)) :
    statements part (ls.filter (· ≠ [])) = statements part ls := by
  induction ls generalizing part with
  | nil => rfl
  | cons l ls ih =>
    by_cases hl : l = []
    · subst hl
      rw [List.filter_cons_of_neg (by simp), ih, statements_cons]
      rfl
    · rw [List.filter_cons_of_pos (by simpa using hl), statements_cons, statements_cons, ih]

/-! ## Texts -/

/-- A text is read exactly if it has three ends of sections and its other lines spell
entries, and as these. -/
theorem ofText_eq_ok_iff {text : String} {o : ObjectFile} : ofText text = .ok o ↔
    3 ≤ (trimmedLines text).count sectionEnd ∧
      ∃ es, List.Forall₂ (fun x e => Spells x.1 x.2 e) (statements 0 (trimmedLines text)) es ∧
      o = ofEntries es := by
  constructor
  · intro h
    obtain ⟨⟨es, k⟩, hr, h⟩ := Except.bind_eq_ok.mp h
    obtain ⟨hes, hk⟩ := readLines_eq_ok_iff.mp hr
    dsimp only at h
    split at h
    · cases h
    · next hge =>
      cases h
      refine ⟨?_, es, hes, rfl⟩
      rw [trimmedLines]
      omega
  · rintro ⟨hge, es, hes, rfl⟩
    refine Except.bind_eq_ok.mpr ⟨(es, _), readLines_eq_ok_iff.mpr ⟨hes, rfl⟩, ?_⟩
    dsimp only
    rw [if_neg (by rw [trimmedLines] at hge; omega)]
    rfl

private theorem readLines_map_trim (part n : Nat) (ls : List (List Char)) :
    readLines part n (ls.map trim) = readLines part n ls := by
  induction ls generalizing part n with
  | nil => rfl
  | cons line ls ih =>
    rw [List.map_cons, readLines, readLines, trim_of_isTrimmed (isTrimmed_trim line)]
    simp only [ih]

/-- Blanks around lines change nothing. -/
theorem ofText_congr {text text' : String} (h : trimmedLines text' = trimmedLines text) :
    ofText text' = ofText text := by
  have hlength : (lines text'.toList).length = (lines text.toList).length := by
    simpa only [trimmedLines, List.length_map] using congrArg List.length h
  have hread : readLines 0 1 (lines text'.toList) = readLines 0 1 (lines text.toList) := by
    rw [← readLines_map_trim, ← readLines_map_trim 0 1 (lines text.toList)]
    exact congrArg _ h
  rw [ofText, hread, hlength]
  rfl

/-- A text of proper lines is read unless a section is missing; in any other the first line
that is not is blamed. -/
theorem ofText_cases (text : String) :
    (∀ i, Proper 0 (trimmedLines text) i) ∧
      (3 ≤ (trimmedLines text).count sectionEnd ∧ (∃ o, ofText text = .ok o) ∨
        (trimmedLines text).count sectionEnd < 3 ∧
          ∃ fault, ofText text = .error (.malformed (trimmedLines text).length fault)) ∨
    ∃ i fault, ofText text = .error (.malformed (i + 1) fault) ∧ ¬Proper 0 (trimmedLines text) i ∧
      ∀ j < i, Proper 0 (trimmedLines text) j := by
  obtain ⟨⟨es, k⟩, hr, hproper⟩ | ⟨i, fault, hr, hi, hbefore⟩ :=
    readLines_judges 0 1 (lines text.toList)
  · refine .inl ⟨hproper, ?_⟩
    have hk : k = (trimmedLines text).count sectionEnd :=
      (readLines_eq_ok_iff.mp hr).2.trans (Nat.zero_add _)
    rw [ofText, hr, ← hk, trimmedLines, List.length_map]
    by_cases hlt : k < 3
    · exact .inr ⟨hlt, .sections k, if_pos hlt⟩
    · exact .inl ⟨Nat.le_of_not_lt hlt, ofEntries es, if_neg hlt⟩
  · refine .inr ⟨i, fault, ?_, hi, hbefore⟩
    rw [ofText, hr, Nat.add_comm]
    rfl

/-- Texts with the same lines, but for blank ones and for blanks around them, are read
alike if one is read. -/
theorem toOption_ofText_congr {text text' : String}
    (h : (trimmedLines text').filter (· ≠ []) = (trimmedLines text).filter (· ≠ [])) :
    (ofText text').toOption = (ofText text).toOption := by
  have hcount (ls : List (List Char)) : (ls.filter (· ≠ [])).count sectionEnd =
      ls.count sectionEnd :=
    List.count_filter (by decide)
  have hread (o : ObjectFile) : ofText text' = .ok o ↔ ofText text = .ok o := by
    rw [ofText_eq_ok_iff, ofText_eq_ok_iff, ← hcount, ← statements_filter, h, hcount,
      statements_filter]
  exact Option.ext fun o => by rw [Except.toOption_eq_some, Except.toOption_eq_some, hread]

/-- A text is read exactly if it has three ends of sections and every line is proper. It is then
read as the entries that its lines spell, in their order; blank lines, blanks around lines and
carriage returns change nothing. Else the first line that is not proper is blamed, or the last line
if only ends are missing. -/
theorem ofText_reads_exactly_proper_text (text : String) :
    ((∃ o, ofText text = .ok o) ↔
      3 ≤ (trimmedLines text).count sectionEnd ∧ ∀ i, Proper 0 (trimmedLines text) i) ∧
    (∀ o, ofText text = .ok o ↔ 3 ≤ (trimmedLines text).count sectionEnd ∧ ∃ es,
      List.Forall₂ (fun x e => Spells x.1 x.2 e) (statements 0 (trimmedLines text)) es ∧
        o = ⟨⟨es.filterMap Entry.segment?, es.filterMap Entry.frame?⟩, es.filterMap Entry.constant?,
          (es.filterMap Entry.quadruple?).toArray⟩) ∧
    (∀ text', (trimmedLines text').filter (· ≠ []) = (trimmedLines text).filter (· ≠ []) →
      (ofText text').toOption = (ofText text).toOption) ∧
    ofText (String.ofList (withReturns text.toList)) = ofText text ∧
    (∀ e, ofText text = .error e → ∃ n fault, e = .malformed n fault ∧
      ((∃ i, n = i + 1 ∧ ¬Proper 0 (trimmedLines text) i ∧
        ∀ j < i, Proper 0 (trimmedLines text) j) ∨
        n = (trimmedLines text).length ∧ ∀ i, Proper 0 (trimmedLines text) i)) := by
  have hreturns : trimmedLines (String.ofList (withReturns text.toList)) = trimmedLines text := by
    rw [trimmedLines, String.toList_ofList, map_trim_lines_withReturns, trimmedLines]
  refine ⟨?_, fun _ => ofText_eq_ok_iff, fun _ => toOption_ofText_congr, ofText_congr hreturns, ?_⟩
  · obtain ⟨hproper, ⟨hge, o, ho⟩ | ⟨hlt, fault, herr⟩⟩ | ⟨i, fault, herr, hi, -⟩ :=
      ofText_cases text
    · exact iff_of_true ⟨o, ho⟩ ⟨hge, hproper⟩
    · rw [herr]
      exact iff_of_false (by simp) fun h => Nat.not_le_of_lt hlt h.1
    · rw [herr]
      exact iff_of_false (by simp) fun h => hi (h.2 i)
  · intro e he
    obtain ⟨hproper, ⟨-, o, ho⟩ | ⟨-, fault, herr⟩⟩ | ⟨i, fault, herr, hi, hbefore⟩ :=
      ofText_cases text
    · rw [ho] at he
      cases he
    · rw [herr] at he
      cases he
      exact ⟨_, fault, rfl, .inr ⟨rfl, hproper⟩⟩
    · rw [herr] at he
      cases he
      exact ⟨_, fault, rfl, .inl ⟨i, rfl, hi, hbefore⟩⟩

end

end ObjectFile

end Quadlet
