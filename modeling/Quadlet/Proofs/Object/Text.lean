import Quadlet.Object.Text
import Quadlet.Proofs.Decimal.Floats
import Quadlet.Proofs.Text.JsonString

/-!
# Persisted programs are read back

A program can be stored if its numbers fit 64 bits, its segments live as long as the program, and
each of its constants has the type of its segment. A program that can be stored is read back from
its text, and whatever is read can be stored.
-/

namespace Quadlet

open Text Text.Numeral

namespace Segment

/-- An address with a segment is not below the first one, and counts the segments before its own. -/
theorem ofAddress?_eq_some {a : Address} {s : Segment} (h : ofAddress? a = some s) :
    (size : Int) ≤ a ∧ layout[a.toNat / size - 1]? = some s := by
  obtain ⟨⟨s, i⟩, hlocate, rfl⟩ := Option.map_eq_some_iff.mp h
  rw [locate?] at hlocate
  split at hlocate
  · cases hlocate
  · next hlow =>
    obtain ⟨t, ht, heq⟩ := Option.map_eq_some_iff.mp hlocate
    cases heq
    exact ⟨Int.not_lt.mp hlow, ht⟩

theorem mem_layout_of_ofAddress? {a : Address} {s : Segment} (h : ofAddress? a = some s) :
    s ∈ layout :=
  List.mem_of_getElem? (ofAddress?_eq_some h).2

/-- The addresses of segments fit 64 bits. -/
theorem isInt_of_ofAddress? {a : Address} {s : Segment} (h : ofAddress? a = some s) : IsInt a := by
  obtain ⟨hlow, hlayout⟩ := ofAddress?_eq_some h
  have hlt : a.toNat / size - 1 < 11 := (List.getElem?_eq_some_iff.mp hlayout).1
  simp only [IsInt, intLimit]
  simp only [size] at hlow hlt
  omega

private theorem isWord_name {s : Segment} (h : s ∈ layout) : IsWord s.name.toList := by
  simp only [layout, List.mem_cons, List.not_mem_nil, or_false] at h
  rcases h with rfl | rfl | rfl | rfl | rfl | rfl | rfl | rfl | rfl | rfl | rfl <;>
    exact isWord_of_all rfl

end Segment

namespace ObjectFile

/-! ## What can be stored -/

namespace Entry

/-- The section of an entry. -/
def part : Entry → Nat
  | .segment _ | .frame _ => 0
  | .constant _ => 1
  | .quadruple _ => 2

/-- The line of an entry. -/
def line : Entry → String
  | .segment s => segmentLine s
  | .frame f => frameLine f
  | .constant c => constantLine c
  | .quadruple q => q.text

/-- What an entry needs in order to be read back from its line. -/
def Storable : Entry → Prop
  | .segment s => s.segment ∈ Segment.programWide ∧ IsCount s.cells
  | .frame f => IsInt f.function ∧ IsCount f.ints ∧ IsCount f.floats
  | .constant c =>
    ∃ s, Segment.ofAddress? c.address = some s ∧ s.lifetime = .constant ∧ c.literal.type = s.type
  | .quadruple q => IsInt q.left ∧ IsInt q.right ∧ IsInt q.result

end Entry

/-- A program whose parts are read back from their lines. -/
structure Storable (o : ObjectFile) : Prop where
  /-- Sizes are stated for segments that live as long as the program. -/
  segments : ∀ s ∈ o.memory.segments, s.segment ∈ Segment.programWide ∧ IsCount s.cells
  frames : ∀ f ∈ o.memory.functions, IsInt f.function ∧ IsCount f.ints ∧ IsCount f.floats
  /-- Every constant stands at an address that is kept for constants of its type. -/
  constants : ∀ c ∈ o.constants,
    ∃ s, Segment.ofAddress? c.address = some s ∧ s.lifetime = .constant ∧ c.literal.type = s.type
  quadruples : ∀ q ∈ o.quadruples, IsInt q.left ∧ IsInt q.right ∧ IsInt q.result

/-! ## Fields -/

theorem readField_eq_ok {α : Type} {kind : Field} {value : Option α} {cs : List Char} {a : α} :
    readField kind value cs = .ok a ↔ value = some a := by
  cases value with
  | none => simp [readField]
  | some b => simp [readField]

/-- An integer is read as by the reader of numerals. -/
theorem readInt_eq_ok {kind : Field} {cs : List Char} {n : Int} :
    readInt kind cs = .ok n ↔ Numeral.readInt cs = .ok n :=
  readField_eq_ok.trans Except.toOption_eq_some

private theorem readInt_toString (kind : Field) {n : Int} (h : IsInt n) :
    readInt kind (toString n).toList = .ok n :=
  readInt_eq_ok.mpr (Numeral.readInt_toString h)

private theorem isInt_of_readInt {kind : Field} {cs : List Char} {n : Int}
    (h : readInt kind cs = .ok n) : IsInt n :=
  Numeral.isInt_of_readInt (readInt_eq_ok.mp h)

theorem readCells_eq_ok {cs : List Char} {n : Nat} : readCells cs = .ok n ↔ readCount cs = .ok n :=
  readField_eq_ok.trans Except.toOption_eq_some

private theorem readCells_toString {n : Nat} (h : IsCount n) :
    readCells (toString n).toList = .ok n :=
  readCells_eq_ok.mpr (readCount_toString h)

private theorem isCount_of_readCells {cs : List Char} {n : Nat} (h : readCells cs = .ok n) :
    IsCount n :=
  isCount_of_readCount (readCells_eq_ok.mp h)

/-! ## Lines -/

/-- A line that is found in a text and read as an entry. -/
structure States (part : Nat) (line : List Char) (e : Entry) : Prop where
  isLine : IsLine line
  isTrimmed : IsTrimmed line
  reads : readEntry part line = .ok e

private theorem isRow_segmentLine {s : SegmentSize} (h : s.segment ∈ Segment.layout) :
    IsRow [s.segment.name.toList, (toString s.cells).toList] (segmentLine s).toList := by
  have hline : segmentLine s = s.segment.name ++ " " ++ toString s.cells := rfl
  have hrow := isRow_intercalate [s.segment.name.toList, (toString s.cells).toList] (by
    simp only [List.forall_mem_cons]
    exact ⟨Segment.isWord_name h, isWord_nat _, by simp⟩)
  simpa [hline, List.intercalate] using hrow

/-- The line of a segment is read as its size. -/
theorem states_segment {s : SegmentSize} (h : (Entry.segment s).Storable) :
    States 0 (segmentLine s).toList (.segment s) := by
  obtain ⟨hs, hcells⟩ := h
  obtain ⟨hlayout, hlocal⟩ := List.mem_filter.mp hs
  have hrow := isRow_segmentLine hlayout
  have hname : (Segment.ofName? s.segment.name).filter (fun s => !s.isLocal) = some s.segment := by
    rw [Segment.ofName?_name hlayout]
    exact Option.filter_some_pos hlocal
  refine ⟨hrow.isLine, hrow.isTrimmed, ?_⟩
  simp only [readEntry, readMemory, hrow.words_eq, readSegment, String.ofList_toList, hname,
    readCells_toString hcells]
  rfl

private theorem isRow_frameLine (f : FrameSize) :
    IsRow [functionWord, (toString f.function).toList, (toString f.ints).toList,
      (toString f.floats).toList]
      (frameLine f).toList := by
  have hline : frameLine f = "function " ++ toString f.function ++ " " ++ toString f.ints ++ " " ++
      toString f.floats := rfl
  have hrow := isRow_intercalate [functionWord, (toString f.function).toList,
      (toString f.ints).toList, (toString f.floats).toList] (by
    simp only [List.forall_mem_cons]
    exact ⟨isWord_of_all rfl, isWord_int _, isWord_nat _, isWord_nat _, by simp⟩)
  simpa [hline, List.intercalate, functionWord] using hrow

/-- The line of a function is read as its frame. -/
theorem states_frame {f : FrameSize} (h : (Entry.frame f).Storable) :
    States 0 (frameLine f).toList (.frame f) := by
  obtain ⟨hfunction, hints, hfloats⟩ := h
  have hrow := isRow_frameLine f
  refine ⟨hrow.isLine, hrow.isTrimmed, ?_⟩
  simp only [readEntry, readMemory, hrow.words_eq, if_true, readFrame, readInt_toString _ hfunction,
    readCells_toString hints, readCells_toString hfloats]
  rfl

private theorem isRow_quadrupleText (q : Quadruple) :
    IsRow [(toString q.op.code).toList, (toString q.left).toList, (toString q.right).toList,
      (toString q.result).toList] q.text.toList := by
  have hline : q.text = toString q.op.code ++ " " ++ toString q.left ++ " " ++
      toString q.right ++ " " ++ toString q.result := rfl
  have hrow := isRow_intercalate [(toString q.op.code).toList, (toString q.left).toList,
      (toString q.right).toList, (toString q.result).toList] (by
    simp only [List.forall_mem_cons]
    exact ⟨isWord_int _, isWord_int _, isWord_int _, isWord_int _, by simp⟩)
  simpa [hline, List.intercalate] using hrow

private theorem isInt_code (op : Opcode) : IsInt op.code := by
  cases op <;> decide

/-- The line of a quadruple is read as the quadruple. -/
theorem states_quadruple {q : Quadruple} (h : (Entry.quadruple q).Storable) :
    States 2 q.text.toList (.quadruple q) := by
  obtain ⟨hleft, hright, hresult⟩ := h
  have hrow := isRow_quadrupleText q
  refine ⟨hrow.isLine, hrow.isTrimmed, ?_⟩
  simp only [readEntry, readQuadruple, hrow.words_eq, readInt_toString _ (isInt_code q.op),
    Except.ok_bind, Opcode.ofCode?_code, readInt_toString _ hleft, readInt_toString _ hright,
    readInt_toString _ hresult]
  rfl

/-- The text of a literal stands in one line, without blanks at its ends. -/
theorem isTrimmed_literalText (l : Literal) :
    IsLine (literalText l).toList ∧ IsTrimmed (literalText l).toList ∧
    (literalText l).toList ≠ [] := by
  cases l with
  | int n =>
    exact ⟨(isWord_int n.toInt).isLine, (isWord_int n.toInt).isTrimmed, (isWord_int n.toInt).ne_nil⟩
  | float x =>
    have hword := Decimal.isWord_floatText x
    exact ⟨hword.isLine, hword.isTrimmed, hword.ne_nil⟩
  | string s =>
    refine ⟨JsonString.isLine_encode s, JsonString.isTrimmed_encode s, ?_⟩
    rw [literalText, JsonString.toList_encode]
    exact List.cons_ne_nil _ _

/-- A literal is read back from its text as one of its type. -/
theorem readLiteral_literalText (l : Literal) :
    readLiteral l.type (literalText l).toList = .ok l := by
  cases l with
  | int n =>
    have hn : IsInt n.toInt := ⟨n.le_toInt, Int.lt_add_one_iff.mp n.toInt_lt⟩
    have hkey : literalText (.int n) = toString n.toInt := rfl
    simp only [Literal.type, readLiteral, hkey, readInt_toString _ hn, Except.ok_bind,
      Int64.ofInt_toInt]
    rfl
  | float x =>
    have hkey : literalText (.float x) = floatText x := rfl
    simp only [Literal.type, readLiteral, hkey, Decimal.readFloat_floatText]
    rfl
  | string s =>
    simp only [Literal.type, readLiteral, literalText, JsonString.decode_encode]

/-- The line of a constant is read as the constant. -/
theorem states_constant {c : Constant} (h : (Entry.constant c).Storable) :
    States 1 (constantLine c).toList (.constant c) := by
  obtain ⟨s, hs, hconstant, htype⟩ := h
  obtain ⟨hline, htrimmed, hne⟩ := isTrimmed_literalText c.literal
  have haddress := isWord_int c.address
  have hchars : (constantLine c).toList =
      (toString c.address).toList ++ ',' :: ' ' :: (literalText c.literal).toList := by
    have htext : constantLine c = toString c.address ++ ", " ++ literalText c.literal := rfl
    simp [htext]
  -- A literal may hold commas of its own, so the address must not.
  have hcomma : ∀ d ∈ (toString c.address).toList, decide (d ≠ ',') = true := by
    intro d hd
    refine decide_eq_true ?_
    rintro rfl
    exact absurd (mem_toString_int hd) (by decide)
  have hfilter : (Segment.ofAddress? c.address).filter (fun s => s.lifetime = .constant) =
      some s := by
    rw [hs]
    exact Option.filter_some_pos (by simp [hconstant])
  rw [hchars]
  refine ⟨?_, ?_, ?_⟩
  · simp only [IsLine, List.forall_mem_append, List.forall_mem_cons]
    exact ⟨haddress.isLine, by decide, by decide, hline⟩
  · have hends := haddress.isTrimmed_append htrimmed hne [',', ' ']
    simpa using hends
  · rw [readEntry, readConstant, List.dropWhile_append_of_pos hcomma,
      List.takeWhile_append_of_pos hcomma]
    simp only [ne_eq, not_true_eq_false, decide_false, Bool.false_eq_true, not_false_eq_true,
      List.dropWhile_cons_of_neg, List.takeWhile_cons_of_neg, List.append_nil,
      trim_of_isTrimmed haddress.isTrimmed, readInt_toString _ (Segment.isInt_of_ofAddress? hs),
      Except.ok_bind, hfilter, trim_cons_of_isTrimmed (show isBlank ' ' = true by decide) htrimmed,
        ← htype,
      readLiteral_literalText]
    rfl

/-- The line of an entry is read as the entry. -/
theorem states_line {e : Entry} (h : e.Storable) : States e.part e.line.toList e := by
  cases e with
  | segment s => exact states_segment h
  | frame f => exact states_frame h
  | constant c => exact states_constant h
  | quadruple q => exact states_quadruple h

/-! ## Sections -/

/-- A line that states something is neither empty nor the end of a section. -/
theorem States.ne {part : Nat} {line : List Char} {e : Entry} (h : States part line e) :
    line ≠ [] ∧ line ≠ sectionEnd := by
  have hreads := h.reads
  constructor <;> rintro rfl <;> obtain _ | _ | _ | part := part <;> cases hreads

private theorem readLines_states {part : Nat} {line : List Char} {e : Entry}
    (h : States part line e) (n : Nat) (ls : List (List Char)) :
    readLines part n (line :: ls) = (readLines part (n + 1) ls).map fun r => (e :: r.1, r.2) := by
  obtain ⟨hne, hend⟩ := h.ne
  simp only [readLines, trim_of_isTrimmed h.isTrimmed, if_neg hne, if_neg hend, h.reads]

private theorem readLines_sectionEnd (part n : Nat) (ls : List (List Char)) :
    readLines part n (sectionEnd :: ls) = readLines (part + 1) (n + 1) ls := by
  have htrim : trim sectionEnd = sectionEnd := by decide
  rw [readLines, htrim, if_neg (show sectionEnd ≠ [] by decide), if_pos rfl]

/-- The lines of entries, with an end behind them. -/
def sectionLines (es : List Entry) : List (List Char) :=
  es.map (fun e => e.line.toList) ++ [sectionEnd]

/-- The lines of entries of a section are read up to its end. -/
theorem readLines_entries {part : Nat} {es : List Entry}
    (hes : ∀ e ∈ es, e.Storable ∧ e.part = part) (n : Nat) (ls : List (List Char)) :
    ∃ n', readLines part n (sectionLines es ++ ls) =
      (readLines (part + 1) n' ls).map fun r => (es ++ r.1, r.2) := by
  induction es generalizing n with
  | nil =>
    refine ⟨n + 1, ?_⟩
    rw [sectionLines, List.map_nil, List.nil_append, List.singleton_append, readLines_sectionEnd]
    cases readLines (part + 1) (n + 1) ls with
    | error _ => rfl
    | ok _ => rfl
  | cons e es ih =>
    obtain ⟨⟨he, hpart⟩, hes⟩ := List.forall_mem_cons.mp hes
    obtain ⟨n', hn'⟩ := ih hes (n + 1)
    have hstates := states_line he
    rw [hpart] at hstates
    refine ⟨n', ?_⟩
    rw [sectionLines] at hn' ⊢
    rw [List.map_cons, List.cons_append, List.cons_append, readLines_states hstates, hn']
    cases readLines (part + 1) n' ls with
    | error _ => rfl
    | ok _ => rfl

/-! ## Programs -/

/-- The entries of the first section. -/
def memoryEntries (o : ObjectFile) : List Entry :=
  o.memory.segments.map Entry.segment ++ o.memory.functions.map Entry.frame

/-- The entries of the second section. -/
def constantEntries (o : ObjectFile) : List Entry := o.constants.map Entry.constant

/-- The entries of the third section. -/
def quadrupleEntries (o : ObjectFile) : List Entry := o.quadruples.toList.map Entry.quadruple

namespace Storable

variable {o : ObjectFile} (h : o.Storable)

include h

private theorem memoryEntries : ∀ e ∈ o.memoryEntries, e.Storable ∧ e.part = 0 := by
  simp only [ObjectFile.memoryEntries, List.forall_mem_append, List.forall_mem_map]
  exact ⟨fun s hs => ⟨h.segments s hs, rfl⟩, fun f hf => ⟨h.frames f hf, rfl⟩⟩

private theorem constantEntries : ∀ e ∈ o.constantEntries, e.Storable ∧ e.part = 1 := by
  simp only [ObjectFile.constantEntries, List.forall_mem_map]
  exact fun c hc => ⟨h.constants c hc, rfl⟩

private theorem quadrupleEntries : ∀ e ∈ o.quadrupleEntries, e.Storable ∧ e.part = 2 := by
  simp only [ObjectFile.quadrupleEntries, List.forall_mem_map]
  exact fun q hq => ⟨h.quadruples q (Array.mem_toList_iff.mp hq), rfl⟩

end Storable

private theorem isLine_of_mem_sectionLines {es : List Entry} {part : Nat}
    (hes : ∀ e ∈ es, e.Storable ∧ e.part = part) : ∀ l ∈ sectionLines es, IsLine l := by
  simp only [sectionLines, List.forall_mem_append, List.forall_mem_map, List.forall_mem_singleton]
  exact ⟨fun e he => (states_line (hes e he).1).isLine, by simp [IsLine, sectionEnd]⟩

/-- The lines of a text are those of its sections. -/
theorem lines_text {o : ObjectFile} (h : o.Storable) :
    lines o.text.toList =
      sectionLines o.memoryEntries ++
        (sectionLines o.constantEntries ++ sectionLines o.quadrupleEntries) := by
  have hlines : o.textLines.map String.toList =
      sectionLines o.memoryEntries ++
        (sectionLines o.constantEntries ++ sectionLines o.quadrupleEntries) := by
    simp [textLines, sectionLines, memoryEntries, constantEntries, quadrupleEntries,
      Entry.line, sectionEnd, Function.comp_def]
  have htext : o.text.toList = (o.textLines.map String.toList).flatMap fun l => l ++ ['\n'] := by
    simp [text, String.toList_join, List.flatMap_map]
  rw [htext, hlines, lines_flatMap]
  simp only [List.forall_mem_append]
  exact ⟨isLine_of_mem_sectionLines h.memoryEntries, isLine_of_mem_sectionLines h.constantEntries,
    isLine_of_mem_sectionLines h.quadrupleEntries⟩

private theorem ofEntries_entries (o : ObjectFile) :
    ofEntries (o.memoryEntries ++ (o.constantEntries ++ o.quadrupleEntries)) = o := by
  simp [ofEntries, memoryEntries, constantEntries, quadrupleEntries, List.filterMap_append,
    List.filterMap_map, Function.comp_def, Entry.segment?, Entry.frame?, Entry.constant?,
    Entry.quadruple?]

/-- A program that can be stored is read back from its text. -/
theorem ofText_text {o : ObjectFile} (h : o.Storable) : ofText o.text = .ok o := by
  obtain ⟨n₁, h₁⟩ := readLines_entries h.memoryEntries 1
    (sectionLines o.constantEntries ++ sectionLines o.quadrupleEntries)
  obtain ⟨n₂, h₂⟩ := readLines_entries h.constantEntries n₁ (sectionLines o.quadrupleEntries)
  obtain ⟨n₃, h₃⟩ := readLines_entries h.quadrupleEntries n₂ []
  rw [List.append_nil] at h₃
  have hread : readLines 0 1 (lines o.text.toList) =
      .ok (o.memoryEntries ++ (o.constantEntries ++ o.quadrupleEntries), 3) := by
    rw [lines_text h, h₁, h₂, h₃]
    simp [readLines, Except.map]
  rw [ofText, hread]
  simp [ofEntries_entries]

/-! ## What is read -/

private theorem storable_of_readMemory {line : List Char} {e : Entry}
    (h : readMemory line = .ok e) : e.Storable := by
  rw [readMemory] at h
  split at h
  · rw [readSegment] at h
    split at h
    · next s hs =>
      obtain ⟨hname, hlocal⟩ := Option.filter_eq_some_iff.mp hs
      obtain ⟨cells, hcells, h⟩ := Except.bind_eq_ok.mp h
      cases h
      exact ⟨List.mem_filter.mpr ⟨List.mem_of_find?_eq_some hname, hlocal⟩,
        isCount_of_readCells hcells⟩
    · cases h
  · split at h
    · obtain ⟨function, hfunction, h⟩ := Except.bind_eq_ok.mp h
      obtain ⟨ints, hints, h⟩ := Except.bind_eq_ok.mp h
      obtain ⟨floats, hfloats, h⟩ := Except.bind_eq_ok.mp h
      cases h
      exact ⟨isInt_of_readInt hfunction, isCount_of_readCells hints, isCount_of_readCells hfloats⟩
    · cases h
  · cases h

/-- The constants of the layout are integers, floating point numbers and strings. -/
theorem type_of_constant {s : Segment} (h : s ∈ Segment.layout) (hs : s.lifetime = .constant) :
    s.type = .int ∨ s.type = .float ∨ s.type = .string := by
  revert s
  decide

private theorem type_of_readLiteral {type : ValueType} {cs : List Char} {l : Literal}
    (htype : type = .int ∨ type = .float ∨ type = .string) (h : readLiteral type cs = .ok l) :
    l.type = type := by
  obtain rfl | rfl | rfl := htype
  · obtain ⟨n, -, h⟩ := Except.bind_eq_ok.mp h
    cases h
    rfl
  · obtain ⟨x, -, h⟩ := Except.bind_eq_ok.mp h
    cases h
    rfl
  · simp only [readLiteral] at h
    split at h
    · cases h
      rfl
    · cases h

private theorem storable_of_readConstant {line : List Char} {e : Entry}
    (h : readConstant line = .ok e) : e.Storable := by
  rw [readConstant] at h
  split at h
  · cases h
  · obtain ⟨address, -, h⟩ := Except.bind_eq_ok.mp h
    split at h
    · next s hs =>
      obtain ⟨haddress, hconstant⟩ := Option.filter_eq_some_iff.mp hs
      have hconstant := of_decide_eq_true hconstant
      obtain ⟨l, hl, h⟩ := Except.bind_eq_ok.mp h
      cases h
      have htype := type_of_constant (Segment.mem_layout_of_ofAddress? haddress) hconstant
      exact ⟨s, haddress, hconstant, type_of_readLiteral htype hl⟩
    · cases h

private theorem storable_of_readQuadruple {line : List Char} {e : Entry}
    (h : readQuadruple line = .ok e) : e.Storable := by
  rw [readQuadruple] at h
  split at h
  · obtain ⟨code, -, h⟩ := Except.bind_eq_ok.mp h
    split at h
    · obtain ⟨left, hleft, h⟩ := Except.bind_eq_ok.mp h
      obtain ⟨right, hright, h⟩ := Except.bind_eq_ok.mp h
      obtain ⟨result, hresult, h⟩ := Except.bind_eq_ok.mp h
      cases h
      exact ⟨isInt_of_readInt hleft, isInt_of_readInt hright, isInt_of_readInt hresult⟩
    · cases h
  · cases h

/-- What a line states can be stored. -/
theorem storable_of_readEntry {part : Nat} {line : List Char} {e : Entry}
    (h : readEntry part line = .ok e) : e.Storable := by
  obtain _ | _ | _ | part := part
  · exact storable_of_readMemory h
  · exact storable_of_readConstant h
  · exact storable_of_readQuadruple h
  · cases h

private theorem storable_of_readLines {part n : Nat} {ls : List (List Char)} {r : List Entry × Nat}
    (h : readLines part n ls = .ok r) : ∀ e ∈ r.1, e.Storable := by
  induction ls generalizing part n r with
  | nil =>
    cases h
    simp
  | cons line ls ih =>
    rw [readLines] at h
    split at h
    · exact ih h
    · split at h
      · exact ih h
      · split at h
        · cases h
        · next e he =>
          obtain ⟨r, hr, rfl⟩ := Except.map_eq_ok.mp h
          exact List.forall_mem_cons.mpr ⟨storable_of_readEntry he, ih hr⟩

/-- A program that entries make up can be stored if they can. -/
theorem storable_ofEntries {es : List Entry} (hes : ∀ e ∈ es, e.Storable) :
    (ofEntries es).Storable := by
  constructor
  · intro s hs
    obtain ⟨e, he, heq⟩ := List.mem_filterMap.mp hs
    cases e <;> cases heq
    exact hes _ he
  · intro f hf
    obtain ⟨e, he, heq⟩ := List.mem_filterMap.mp hf
    cases e <;> cases heq
    exact hes _ he
  · intro c hc
    obtain ⟨e, he, heq⟩ := List.mem_filterMap.mp hc
    cases e <;> cases heq
    exact hes _ he
  · intro q hq
    obtain ⟨e, he, heq⟩ := List.mem_filterMap.mp (List.mem_toArray.mp hq)
    cases e <;> cases heq
    exact hes _ he

/-- What a text is read as can be stored. -/
theorem storable_of_ofText {text : String} {o : ObjectFile} (h : ofText text = .ok o) :
    o.Storable := by
  obtain ⟨⟨es, part⟩, hr, h⟩ := Except.bind_eq_ok.mp h
  dsimp only at h
  split at h
  · cases h
  · cases h
    exact storable_ofEntries (storable_of_readLines hr)

end ObjectFile

end Quadlet
