import Quadlet.Proofs.Token.Reading

/-!
# Scans as rows of pieces

A scan passes the pieces of a text one after the other. What it gives depends on these pieces and on
their places alone: the tokens among them, the complaints about the illegal ones, and the first
fault. Main statements: every text is cut into sound pieces up to its end or up to a fault, and the
outcome of a scan is read off the row of pieces.
-/

namespace Quadlet

namespace Cut

/-- A piece that does not stop every scan. -/
def Sound (k : Cut) : Prop := ∀ f, k.piece ≠ .fault f

/-- A piece that no scan complains about. -/
def Quiet (k : Cut) : Prop := ∀ c, k.piece ≠ .illegal c

theorem quiet_or_illegal (k : Cut) : k.Quiet ∨ ∃ c, k.piece = .illegal c := by
  by_cases h : ∃ c, k.piece = .illegal c
  · exact .inr h
  · exact .inl fun c hc => h ⟨c, hc⟩

/-- The place of a piece that is found at `p`. -/
def placeAt (k : Cut) (p : Position) : Position := ⟨(p.after k.lexeme).line, p.column⟩

/-- The token that a piece found at `p` is. -/
def tokenAt? (k : Cut) (p : Position) : Option Token :=
  match k.piece with
  | .token kind => some ⟨kind, String.ofList k.lexeme, k.placeAt p⟩
  | _ => none

/-- The complaint about a piece that is found at `p`. -/
def complaintAt? (k : Cut) (p : Position) : Option Error :=
  match k.piece with
  | .illegal c => some (.illegal (k.placeAt p) c)
  | _ => none

theorem complaintAt?_eq_none {k : Cut} {p : Position} : k.complaintAt? p = none ↔ k.Quiet := by
  rw [complaintAt?, Quiet]
  split
  · next c hc => simp [hc]
  · next hc => simpa using hc

end Cut

namespace Scanner

/-! ## Rows of pieces -/

/-- A text is cut into sound pieces, and a rest is left behind them. -/
inductive Passes : List Char → List Cut → List Char → Prop where
  | nil (cs : List Char) : Passes cs [] cs
  | cons {c : Char} {cs rest : List Char} {k : Cut} {ks : List Cut} (first : cut c cs = k)
    (sound : k.Sound) (more : Passes k.rest ks rest) : Passes (c :: cs) (k :: ks) rest

/-- Where the pieces of a text end: at its end, or in front of a fault. -/
def Halts (rest : List Char) : Prop :=
  rest = [] ∨ ∃ c cs f, rest = c :: cs ∧ (cut c cs).piece = .fault f

/-- A row of pieces goes on from every piece in it. -/
theorem Passes.split {cs rest : List Char} {ks ls : List Cut} {k : Cut}
    (h : Passes cs (ks ++ k :: ls) rest) : ∃ c ds, Passes cs ks (c :: ds) ∧ cut c ds = k := by
  induction ks generalizing cs with
  | nil =>
    cases h with
    | @cons c cs rest k ks first sound more => exact ⟨c, cs, .nil _, first⟩
  | cons l ks ih =>
    cases h with
    | cons first sound more =>
      obtain ⟨c, ds, hks, hk⟩ := ih more
      exact ⟨c, ds, .cons first sound hks, hk⟩

/-- The pieces and the rest are the text. -/
theorem Passes.text {cs rest : List Char} {ks : List Cut} (h : Passes cs ks rest) :
    cs = ks.flatMap Cut.lexeme ++ rest := by
  induction h with
  | nil cs => rfl
  | @cons c cs rest k ks first sound more ih =>
    have happend := cut_append c cs
    rw [first] at happend
    rw [List.flatMap_cons, List.append_assoc, ← ih, happend]

/-- Every piece has a character. -/
theorem Passes.length_le {cs rest : List Char} {ks : List Cut} (h : Passes cs ks rest) :
    ks.length + rest.length ≤ cs.length := by
  induction h with
  | nil cs => simp
  | @cons c cs rest k ks first sound more ih =>
    have hle : k.rest.length ≤ cs.length := length_rest_cut first
    simp only [List.length_cons]
    omega

/-- Every text is cut into sound pieces up to its end or up to a fault. -/
theorem exists_passes (cs : List Char) : ∃ ks rest, Passes cs ks rest ∧ Halts rest := by
  match cs with
  | [] => exact ⟨[], [], .nil [], .inl rfl⟩
  | c :: cs =>
    by_cases hfault : ∃ f, (cut c cs).piece = .fault f
    · obtain ⟨f, hf⟩ := hfault
      exact ⟨[], c :: cs, .nil _, .inr ⟨c, cs, f, rfl, hf⟩⟩
    · have hle : (cut c cs).rest.length ≤ cs.length := length_rest_cut (rfl : cut c cs = ⟨_, _, _⟩)
      obtain ⟨ks, rest, hks, hrest⟩ := exists_passes (cut c cs).rest
      exact ⟨cut c cs :: ks, rest, .cons rfl (fun f hf => hfault ⟨f, hf⟩) hks, hrest⟩
termination_by cs.length
decreasing_by exact Nat.lt_succ_of_le hle

/-! ## What is found in a row of pieces -/

/-- What is found in pieces that start at `p`. -/
def gather {α : Type} (f : Cut → Position → Option α) : Position → List Cut → List α
  | _, [] => []
  | p, k :: ks => (f k p).toList ++ gather f (p.after k.lexeme) ks

private theorem gather_append {α : Type} (f : Cut → Position → Option α) (p : Position)
    (ks ls : List Cut) :
    gather f p (ks ++ ls) = gather f p ks ++ gather f (p.after (ks.flatMap Cut.lexeme)) ls := by
  induction ks generalizing p with
  | nil => rfl
  | cons k ks ih =>
    rw [List.cons_append, gather, gather, ih, List.append_assoc, List.flatMap_cons,
      Position.after_append]

/-- No complaint is found in quiet pieces, and in others there is one. -/
theorem gather_complaints_eq_nil {p : Position} {ks : List Cut} :
    gather Cut.complaintAt? p ks = [] ↔ ∀ k ∈ ks, k.Quiet := by
  induction ks generalizing p with
  | nil => simp [gather]
  | cons k ks ih =>
    rw [gather, List.append_eq_nil_iff, Option.toList_eq_nil_iff, Cut.complaintAt?_eq_none, ih,
      List.forall_mem_cons]

/-- Pieces are all quiet, or there is a first illegal one. -/
theorem all_quiet_or_first (ks : List Cut) :
    (∀ k ∈ ks, k.Quiet) ∨ ∃ front k back c, ks = front ++ k :: back ∧ (∀ l ∈ front, l.Quiet) ∧
      k.piece = .illegal c := by
  induction ks with
  | nil => exact .inl (by simp)
  | cons k ks ih =>
    obtain hquiet | ⟨c, hc⟩ := k.quiet_or_illegal
    · obtain hall | ⟨front, l, back, c, rfl, hfront, hc⟩ := ih
      · exact .inl (List.forall_mem_cons.mpr ⟨hquiet, hall⟩)
      · exact .inr ⟨k :: front, l, back, c, rfl, List.forall_mem_cons.mpr ⟨hquiet, hfront⟩, hc⟩
    · exact .inr ⟨[], k, ks, c, rfl, by simp, hc⟩

/-- A scanner behind pieces. -/
def behind (s : Scanner) (ks : List Cut) (rest : List Char) : Scanner :=
  ⟨rest, s.position.after (ks.flatMap Cut.lexeme),
    (s.tokens.toList ++ gather Cut.tokenAt? s.position ks).toArray,
    (s.diagnostics.toList ++ gather Cut.complaintAt? s.position ks).toArray, s.strict⟩

private theorem behind_cons (s : Scanner) (k : Cut) (ks : List Cut) (rest : List Char) :
    (s.behind [k] k.rest).behind ks rest = s.behind (k :: ks) rest := by
  simp [behind, gather, Position.after_append]

/-- A sound piece is passed, unless a strict scanner complains about it. -/
theorem note_of_sound {s : Scanner} {k : Cut} (hsound : k.Sound)
    (hquiet : s.strict = true → k.Quiet) : note k s = .ok () (s.behind [k] k.rest) := by
  have hpush {α : Type} (as : Array α) (a : α) : as.push a = (as.toList ++ [a]).toArray := by
    rw [← Array.toList_push]
  obtain ⟨piece, lexeme, rest⟩ := k
  cases piece with
  | gap => simp [note, behind, pass, gather, Cut.tokenAt?, Cut.complaintAt?]
  | token kind =>
    simp [note, behind, pass, gather, Cut.tokenAt?, Cut.complaintAt?, placeOf, Cut.placeAt, hpush]
  | illegal c =>
    have hlenient : s.strict = false := Bool.eq_false_iff.mpr fun hstrict => hquiet hstrict c rfl
    simp [note, hlenient, behind, pass, gather, Cut.tokenAt?, Cut.complaintAt?, placeOf,
      Cut.placeAt, hpush]
  | fault f => exact absurd rfl (hsound f)

theorem note_of_fault (s : Scanner) {k : Cut} {f : GrammarFault} (h : k.piece = .fault f) :
    note k s = .error (.grammar (k.placeAt s.position) f) (s.pass k) := by
  rw [note, h]
  rfl

private theorem note_of_illegal {s : Scanner} (hstrict : s.strict = true) {k : Cut} {c : Char}
    (h : k.piece = .illegal c) :
    note k s = .error (.illegal (k.placeAt s.position) c) (s.pass k) := by
  rw [note, h]
  exact if_pos hstrict

/-- A row of sound pieces is passed, unless a strict scanner complains about one of them. -/
theorem Passes.passPieces {cs rest : List Char} {ks : List Cut} (h : Passes cs ks rest)
    {s : Scanner} (hs : s.rest = cs) (hquiet : s.strict = true → ∀ k ∈ ks, k.Quiet) (n : Nat) :
    passPieces (ks.length + n) s = passPieces n (s.behind ks rest) := by
  induction h generalizing s with
  | nil cs =>
    have hself : s.behind [] cs = s := by
      rw [← hs]
      simp [behind, gather, Position.after]
    rw [hself, List.length_nil, Nat.zero_add]
  | @cons c cs rest k ks first sound more ih =>
    subst first
    have hnote := note_of_sound sound fun hstrict => hquiet hstrict _ (List.mem_cons_self ..)
    have hmore := ih (s := s.behind [cut c cs] (cut c cs).rest) rfl fun hstrict l hl =>
      hquiet hstrict l (List.mem_cons_of_mem _ hl)
    have hlength : (cut c cs :: ks).length + n = (ks.length + n) + 1 := by
      rw [List.length_cons]
      omega
    rw [hlength, passPieces_of_note hs hnote, hmore, behind_cons]

/-! ## Scans of whole texts -/

/-- What a scan of a whole source text gives. -/
def scanned (source : String) (strict : Bool) : Except Error (List Token) :=
  match scan (.ofSource source strict) with
  | .ok tokens _ => .ok tokens
  | .error e _ => .error e

/-- The complaints that a scan of a whole source text leaves, also where it fails. -/
def complaints (source : String) (strict : Bool) : List Error :=
  match scan (.ofSource source strict) with
  | .ok _ s => s.diagnostics.toList
  | .error _ s => s.diagnostics.toList

theorem passPieces_of_error {s t : Scanner} {c : Char} {cs : List Char} {e : Error}
    (hs : s.rest = c :: cs) (hnote : note (cut c cs) s = .error e t) (n : Nat) :
    passPieces (n + 1) s = .error e t := by
  obtain ⟨rest, position, tokens, diagnostics, strict⟩ := s
  obtain rfl : rest = c :: cs := hs
  have hstop := EStateM.bind_of_error (f := fun _ => passPieces n) hnote
  exact hstop

section

variable {source : String} {strict : Bool} {ks : List Cut}

/-- A text of sound pieces gives the tokens among them. -/
theorem scan_of_passes (h : Passes source.toList ks [])
    (hquiet : strict = true → ∀ k ∈ ks, k.Quiet) :
    scanned source strict = .ok (gather Cut.tokenAt? .start ks ++
        [⟨.endOfFile, "", Position.start.after (ks.flatMap Cut.lexeme)⟩]) ∧
      complaints source strict = gather Cut.complaintAt? .start ks := by
  obtain ⟨n, hn⟩ := Nat.exists_eq_add_of_le (Nat.le_of_add_right_le h.length_le)
  have hpass : Scanner.passPieces source.toList.length (ofSource source strict) =
      .ok () ((ofSource source strict).behind ks []) := by
    rw [hn, h.passPieces rfl hquiet, passPieces_of_nil rfl]
  have hscan : scan (ofSource source strict) = _ :=
    EStateM.bind_eq_ok.mpr ⟨_, _, rfl, EStateM.bind_eq_ok.mpr ⟨(), _, hpass, rfl⟩⟩
  rw [scanned, complaints, hscan]
  exact ⟨by simp [behind, ofSource], by simp [behind, ofSource]⟩

/-- A piece that stops a scan behind sound pieces decides its outcome. -/
theorem scan_of_error {c : Char} {cs : List Char} {e : Error} {t : Scanner}
    (h : Passes source.toList ks (c :: cs)) (hquiet : strict = true → ∀ k ∈ ks, k.Quiet)
    (hnote : note (cut c cs) ((ofSource source strict).behind ks (c :: cs)) = .error e t) :
    scanned source strict = .error e ∧ complaints source strict = t.diagnostics.toList := by
  obtain ⟨n, hn⟩ : ∃ n, source.toList.length = ks.length + (n + 1) := by
    have hle := h.length_le
    rw [List.length_cons] at hle
    exact ⟨source.toList.length - ks.length - 1, by omega⟩
  have hpass : Scanner.passPieces source.toList.length (ofSource source strict) = .error e t := by
    rw [hn, h.passPieces rfl hquiet]
    exact passPieces_of_error rfl hnote n
  have hscan : scan (ofSource source strict) = .error e t :=
    EStateM.bind_eq_error.mpr (.inr ⟨_, _, rfl, EStateM.bind_eq_error.mpr (.inl hpass)⟩)
  rw [scanned, complaints, hscan]
  exact ⟨rfl, rfl⟩

/-- A fault behind sound pieces is reported at its place. -/
theorem scan_of_fault {c : Char} {cs : List Char} {f : GrammarFault}
    (h : Passes source.toList ks (c :: cs)) (hf : (cut c cs).piece = .fault f)
    (hquiet : strict = true → ∀ k ∈ ks, k.Quiet) :
    scanned source strict =
        .error (.grammar ((cut c cs).placeAt (Position.start.after (ks.flatMap Cut.lexeme))) f) ∧
      complaints source strict = gather Cut.complaintAt? .start ks := by
  obtain ⟨hscanned, hcomplaints⟩ := scan_of_error h hquiet (note_of_fault _ hf)
  exact ⟨hscanned, by simp [hcomplaints, pass, behind, ofSource]⟩

/-- The first illegal piece stops a strict scan. -/
theorem scan_of_illegal {c d : Char} {cs : List Char} (h : Passes source.toList ks (c :: cs))
    (hd : (cut c cs).piece = .illegal d) (hquiet : ∀ k ∈ ks, k.Quiet) :
    scanned source true =
      .error (.illegal ((cut c cs).placeAt (Position.start.after (ks.flatMap Cut.lexeme))) d) := by
  exact (scan_of_error h (fun _ => hquiet) (note_of_illegal rfl hd)).1

/-- A strict scan complains about the first piece that is not quiet, if there is one. -/
theorem strict_of_passes {rest : List Char} (h : Passes source.toList ks rest) :
    (∀ k ∈ ks, k.Quiet) ∨ ∃ p c es, gather Cut.complaintAt? .start ks = .illegal p c :: es ∧
      scanned source true = .error (.illegal p c) := by
  obtain hquiet | ⟨front, k, back, c, rfl, hfront, hc⟩ := all_quiet_or_first ks
  · exact .inl hquiet
  · obtain ⟨d, ds, hpasses, rfl⟩ := h.split
    have hfirst (p : Position) : (cut d ds).complaintAt? p =
        some (.illegal ((cut d ds).placeAt p) c) := by
      rw [Cut.complaintAt?, hc]
    have hcomplaints := gather_append Cut.complaintAt? .start front (cut d ds :: back)
    rw [gather_complaints_eq_nil.mpr hfront, List.nil_append, gather, hfirst] at hcomplaints
    exact .inr ⟨_, _, _, hcomplaints, scan_of_illegal hpasses hc hfront⟩

/-- A lenient scan that succeeds has passed the whole text. -/
theorem exists_passes_of_scanned {tokens : List Token} (h : scanned source false = .ok tokens) :
    ∃ ks, Passes source.toList ks [] := by
  obtain ⟨ks, rest, hpasses, rfl | ⟨c, cs, f, rfl, hf⟩⟩ := exists_passes source.toList
  · exact ⟨ks, hpasses⟩
  · rw [(scan_of_fault hpasses hf (by simp)).1] at h
    cases h

/-- A scan that reports a fault has come to it over sound pieces. -/
theorem exists_fault_of_scanned {p : Position} {f : GrammarFault}
    (h : scanned source strict = .error (.grammar p f)) :
    ∃ ks c cs, Passes source.toList ks (c :: cs) ∧ (cut c cs).piece = .fault f := by
  obtain ⟨ks, rest, hpasses, hhalts⟩ := exists_passes source.toList
  by_cases hquiet : strict = true → ∀ k ∈ ks, k.Quiet
  · obtain rfl | ⟨c, cs, g, rfl, hg⟩ := hhalts
    · rw [(scan_of_passes hpasses hquiet).1] at h
      cases h
    · rw [(scan_of_fault hpasses hg hquiet).1] at h
      cases h
      exact ⟨ks, c, cs, hpasses, hg⟩
  · obtain ⟨rfl, hloud⟩ := Classical.not_imp.mp hquiet
    obtain hall | ⟨q, c, es, -, hillegal⟩ := strict_of_passes hpasses
    · exact absurd hall hloud
    · rw [hillegal] at h
      cases h

end

end Scanner

end Quadlet
