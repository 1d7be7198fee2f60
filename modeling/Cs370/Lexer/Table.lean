import Cs370.Lexer.Render

/-!
# The documented tokens

The section TOKENS of `parse.h`, and where the lexer keeps to it. The table has the registers
`R1` to `R8` where `is_register` has `R0` to `R7`, and an instruction `not` that is no reserved
word and has no token type; on every other lexeme the two agree (`followsTable_iff`).
-/

namespace Cs370.Lexer

/-! ## The table -/

/-- `R[1-8]` -/
def tableRegisters : List (List UInt8) := (bytes "12345678").map fun d => ['R'.toUInt8, d]

def tableInstructions : List (List UInt8) :=
  [bytes "nop", bytes "halt", bytes "clr", bytes "inc", bytes "dec", bytes "frm", bytes "dis",
   bytes "alm", bytes "add", bytes "sub", bytes "mul", bytes "div", bytes "mov", bytes "and",
   bytes "or", bytes "not", bytes "xor", bytes "cmp", bytes "jeq", bytes "jgt", bytes "jlt",
   bytes "jle", bytes "jge"]

def tablePunctuation : List (UInt8 × TokType) :=
  [('('.toUInt8, .lparen), (')'.toUInt8, .rparen), ('+'.toUInt8, .plus), (','.toUInt8, .comma)]

/-- The instruction a token type is named after. -/
def TokType.instruction : TokType → Option (List UInt8)
  | .nop => some (bytes "nop")
  | .halt => some (bytes "halt")
  | .frm => some (bytes "frm")
  | .dis => some (bytes "dis")
  | .clr => some (bytes "clr")
  | .inc => some (bytes "inc")
  | .dec => some (bytes "dec")
  | .alm => some (bytes "alm")
  | .add => some (bytes "add")
  | .sub => some (bytes "sub")
  | .mul => some (bytes "mul")
  | .div => some (bytes "div")
  | .mov => some (bytes "mov")
  | .and => some (bytes "and")
  | .or => some (bytes "or")
  | .xor => some (bytes "xor")
  | .cmp => some (bytes "cmp")
  | .jeq => some (bytes "jeq")
  | .jgt => some (bytes "jgt")
  | .jlt => some (bytes "jlt")
  | .jle => some (bytes "jle")
  | .jge => some (bytes "jge")
  | _ => none

/-- The type of an identifier-like lexeme is the one of the table. -/
structure TableType (type : TokType) (v : List UInt8) : Prop where
  register : type = .register ↔ v ∈ tableRegisters
  instruction : ∀ w, type.instruction = some w ↔ w ∈ tableInstructions ∧ v = w
  ident : type = .ident ↔ v ∉ tableRegisters ∧ v ∉ tableInstructions

/-- The token `t` is what the table says of the text `s` it was taken off. -/
structure FollowsTable (s : List UInt8) (t : Tok) : Prop where
  identLike : s.head?.any isIdentStart = true →
    t.value = s.takeWhile isIdentChar ∧ TableType t.type t.value
  hexi : t.type = .hexi → s.head? = some '#'.toUInt8 ∧ t.value = (s.drop 1).take 4 ∧
    t.value.length = 4 ∧ ∀ c ∈ t.value, isHexChar c = true
  deci : t.type = .deci → s.head? = some '$'.toUInt8 ∧ t.value = (s.drop 1).take 5 ∧
    t.value.length = 5 ∧ (∀ c ∈ t.value, isdigit c = true) ∧ atoi t.value ≤ 65535
  punct : ∀ p ∈ tablePunctuation, t.type = p.2 ↔ s.head? = some p.1

/-- The lexemes on which the table and the lexer differ. -/
def tableGaps : List (List UInt8) := [bytes "R0", bytes "R8", bytes "not"]

theorem not_gap {s : List UInt8} (h : s.head?.any isIdentStart = false) :
    s.takeWhile isIdentChar ∉ tableGaps := by
  have hstart : ∀ v ∈ tableGaps, v.head?.any isIdentStart = true := by decide
  intro hgap
  have hv := hstart _ hgap
  cases s with
  | nil => cases hv
  | cons c s =>
    rw [List.takeWhile_cons] at hv
    split at hv
    · cases hv.symm.trans h
    · cases hv

theorem isIdentStart_isIdentChar : ∀ c, isIdentStart c = true → isIdentChar c = true := by
  decide +kernel

theorem isHexiDigit_isHexChar : ∀ c, isHexiDigit c = true → isHexChar c = true := by
  decide +kernel

theorem punctType_only : ∀ c, punctType c ≠ none → ¬ isIdentStart c = true ∧
    punctType c ≠ some .hexi ∧ punctType c ≠ some .deci := by decide +kernel

theorem punctType_iff : ∀ c, ∀ p ∈ tablePunctuation, punctType c = some p.2 ↔ c = p.1 := by
  decide +kernel

theorem tablePunctuation_ne : ∀ p ∈ tablePunctuation, .hexi ≠ p.2 ∧ .deci ≠ p.2 ∧
    some '#'.toUInt8 ≠ some p.1 ∧ some '$'.toUInt8 ≠ some p.1 := by decide

theorem tablePunctuation_not_start : ∀ p ∈ tablePunctuation, ¬ isIdentStart p.1 = true := by
  decide

/-! ## Identifier-like lexemes -/

theorem no_instruction_iff {type : TokType} {v : List UInt8} (htype : type.instruction = none)
    (hv : v ∉ tableInstructions) (w : List UInt8) :
    type.instruction = some w ↔ w ∈ tableInstructions ∧ v = w := by
  rw [htype]
  apply iff_of_false
  · exact nofun
  · rintro ⟨hw, rfl⟩
    exact hv hw

section
variable {get : List UInt8 → Option TokType}
  (hget : ∀ v, get v = reservedType (reservedWords.zip reservedTypes) v)
include hget

theorem identType_cases (v : List UInt8) :
    (v ∈ registers ∧ identType get v = .register) ∨
      (∃ type, (v, type) ∈ reservedWords.zip reservedTypes ∧ identType get v = type) ∨
      (v ∉ registers ∧ v ∉ reservedWords ∧ identType get v = .ident) := by
  by_cases hregs : v ∈ registers
  · exact .inl ⟨hregs, identType_register get hregs⟩
  by_cases hwords : v ∈ reservedWords
  · obtain ⟨p, hp, rfl⟩ := List.mem_map.mp
      (show v ∈ (reservedWords.zip reservedTypes).map Prod.fst from hwords)
    exact .inr (.inl ⟨p.2, hp, identType_reserved hget hp⟩)
  · exact .inr (.inr ⟨hregs, hwords, identType_ident hget hwords hregs⟩)

theorem tableType_iff (v : List UInt8) :
    TableType (identType get v) v ↔ v ∉ tableGaps := by
  rcases identType_cases hget v with ⟨hv, htype⟩ | ⟨type, hv, htype⟩ | ⟨hregs, hwords, htype⟩
  · have hlists : ∀ v ∈ registers, (v ∈ tableRegisters ↔ v ∉ tableGaps) ∧
        v ∉ tableInstructions := by decide +kernel
    obtain ⟨hregs, hinstr⟩ := hlists v hv
    rw [htype, ← hregs]
    constructor
    · exact fun h => h.register.mp rfl
    · intro h
      exact ⟨iff_of_true rfl h, no_instruction_iff rfl hinstr,
        iff_of_false nofun fun h' => h'.1 h⟩
  · have hlists : ∀ p ∈ reservedWords.zip reservedTypes, p.2 ≠ .register ∧ p.2 ≠ .ident ∧
        p.2.instruction = some p.1 ∧ p.1 ∈ tableInstructions ∧ p.1 ∉ tableRegisters ∧
        p.1 ∉ tableGaps := by decide +kernel
    obtain ⟨hregister, hident, hname, hinstr, hregs, hgaps⟩ := hlists _ hv
    rw [htype]
    refine iff_of_true ⟨iff_of_false hregister hregs, fun w => ?_,
      iff_of_false hident fun h => h.2 hinstr⟩ hgaps
    rw [hname, Option.some.injEq]
    constructor
    · rintro rfl
      exact ⟨hinstr, rfl⟩
    · exact fun h => h.2
  · have hlists : (∀ v ∈ tableRegisters, v ∈ registers ∨ v ∈ tableGaps) ∧
        (∀ v ∈ tableInstructions, v ∈ reservedWords ∨ v ∈ tableGaps) ∧
        ∀ v ∈ tableGaps, v ∈ registers ∨ v ∈ tableRegisters ∨ v ∈ tableInstructions := by
      decide +kernel
    obtain ⟨hr, hi, hg⟩ := hlists
    rw [htype]
    constructor
    · intro h hgap
      obtain ⟨hnr, hni⟩ := h.ident.mp rfl
      rcases hg v hgap with h' | h' | h'
      · exact hregs h'
      · exact hnr h'
      · exact hni h'
    · intro hgap
      have hnr : v ∉ tableRegisters := fun h => (hr v h).elim hregs hgap
      have hni : v ∉ tableInstructions := fun h => (hi v h).elim hwords hgap
      exact ⟨iff_of_false nofun hnr, no_instruction_iff rfl hni, iff_of_true rfl ⟨hnr, hni⟩⟩

theorem identType_ne (v : List UInt8) :
    identType get v ≠ .hexi ∧ identType get v ≠ .deci ∧
      ∀ p ∈ tablePunctuation, identType get v ≠ p.2 := by
  rcases identType_cases hget v with ⟨_, htype⟩ | ⟨type, hv, htype⟩ | ⟨_, _, htype⟩
  · rw [htype]
    decide
  · have hlists : ∀ p ∈ reservedWords.zip reservedTypes, p.2 ≠ .hexi ∧ p.2 ≠ .deci ∧
        ∀ q ∈ tablePunctuation, p.2 ≠ q.2 := by decide +kernel
    rw [htype]
    exact hlists _ hv
  · rw [htype]
    decide

/-! ## All lexemes -/

/-- A word: the table is about its type only. -/
theorem followsTable_word {c : UInt8} {v x : List UInt8} (hc : isIdentStart c = true)
    (hv : ∀ d ∈ v, isIdentChar d = true) (hx : ∀ d ∈ x.head?, isIdentChar d = false) :
    FollowsTable (c :: v ++ x) ⟨identType get (c :: v), c :: v⟩ ↔
      (c :: v ++ x).takeWhile isIdentChar ∉ tableGaps := by
  have hchar : ∀ d ∈ c :: v, isIdentChar d = true :=
    List.forall_mem_cons.mpr ⟨isIdentStart_isIdentChar c hc, hv⟩
  have hword : (c :: v ++ x).takeWhile isIdentChar = c :: v := takeWhile_append_stop hchar hx
  rw [hword, ← tableType_iff hget]
  constructor
  · exact fun h => (h.identLike hc).2
  · intro h
    obtain ⟨hhexi, hdeci, hpunct⟩ := identType_ne hget (c :: v)
    refine ⟨fun _ => ⟨hword.symm, h⟩, fun ht => absurd ht hhexi,
      fun ht => absurd ht hdeci, fun p hp => iff_of_false (hpunct p hp) ?_⟩
    rintro ⟨⟩
    exact tablePunctuation_not_start p hp hc

omit hget in
theorem followsTable_punct {c : UInt8} {type : TokType} (hc : punctType c = some type)
    (x : List UInt8) : FollowsTable (c :: x) ⟨type, [c]⟩ := by
  obtain ⟨hstart, hhexi, hdeci⟩ := punctType_only c (by rw [hc]; simp)
  rw [hc] at hhexi hdeci
  refine ⟨fun h => absurd h hstart, fun h => absurd (congrArg some h) hhexi,
    fun h => absurd (congrArg some h) hdeci, fun p hp => ?_⟩
  show type = p.2 ↔ some c = some p.1
  rw [Option.some.injEq, ← punctType_iff c p hp, hc, Option.some.injEq]

omit hget in
theorem followsTable_hexi {ds : List UInt8} (hlen : ds.length = 4)
    (hds : ∀ c ∈ ds, isHexiDigit c = true) (x : List UInt8) :
    FollowsTable ('#'.toUInt8 :: ds ++ x) ⟨.hexi, ds⟩ := by
  refine ⟨nofun, fun _ => ⟨rfl, ?_, hlen, fun c hc => isHexiDigit_isHexChar c (hds c hc)⟩, nofun,
    fun p hp => ?_⟩
  · rw [List.cons_append, List.drop_succ_cons, List.drop_zero, List.take_left' hlen]
  · exact iff_of_false (tablePunctuation_ne p hp).1 (tablePunctuation_ne p hp).2.2.1

omit hget in
theorem followsTable_deci {ds : List UInt8} (hlen : ds.length = 5)
    (hds : ∀ c ∈ ds, isdigit c = true) (hlt : atoi ds < 1 <<< 16) (x : List UInt8) :
    FollowsTable ('$'.toUInt8 :: ds ++ x) ⟨.deci, ds⟩ := by
  refine ⟨nofun, nofun, fun _ => ⟨rfl, ?_, hlen, hds, Nat.le_of_lt_succ hlt⟩, fun p hp => ?_⟩
  · rw [List.cons_append, List.drop_succ_cons, List.drop_zero, List.take_left' hlen]
  · exact iff_of_false (tablePunctuation_ne p hp).2.1 (tablePunctuation_ne p hp).2.2.2

/-- One case for each form of a lexeme; only a word can differ from the table. -/
theorem Lexeme.follows_iff {t : Tok} {u x : List UInt8} (h : Lexeme get t u x) :
    FollowsTable (u ++ x) t ↔ (u ++ x).takeWhile isIdentChar ∉ tableGaps := by
  cases h with
  | @punct c _ _ hc =>
    exact iff_of_true (followsTable_punct hc x)
      (not_gap (by simpa using (punctType_only c (by rw [hc]; simp)).1))
  | hexi hlen hds _ => exact iff_of_true (followsTable_hexi hlen hds x) (not_gap rfl)
  | deci hlen hds hlt _ => exact iff_of_true (followsTable_deci hlen hds hlt x) (not_gap rfl)
  | ident hc hv hsep => exact followsTable_word hget hc hv hsep.not_identChar
  | identLost hc hv hsep =>
    rw [List.append_assoc]
    exact followsTable_word hget hc hv (by rintro d ⟨⟩; decide)

end

/-- **The tokens of the lexer against the table**: a token that is returned is the one of the
table exactly when the word at the start of the text, if there is one, is none of the three. -/
theorem followsTable_iff {μ : Type} {R : Resmap μ} (hR : R.Lawful) {lexAlloc strAlloc : Bool}
    {m : μ} (hm : lexInitialize R lexAlloc strAlloc = some m) {a : Bool} {s r : List UInt8}
    {t : Tok} (h : (lexGetNextToken (R.get m) a s).Returns (.ok (t, r))) :
    FollowsTable s t ↔ s.takeWhile isIdentChar ∉ tableGaps := by
  obtain ⟨-, u, rfl, htoken⟩ := call_returns_ok_iff.mp h
  cases htoken with
  | endOfFile => exact iff_of_true ⟨nofun, nofun, nofun, by decide⟩ (not_gap rfl)
  | @eofByte r =>
    have hpunct : ∀ p ∈ tablePunctuation, TokType.tokEof = p.2 ↔ some eof = some p.1 := by decide
    exact iff_of_true ⟨nofun, nofun, nofun, hpunct⟩ (not_gap rfl)
  | newline _ =>
    have hpunct : ∀ p ∈ tablePunctuation, TokType.newline = p.2 ↔ some newline = some p.1 := by
      decide
    exact iff_of_true ⟨nofun, nofun, nofun, hpunct⟩ (not_gap rfl)
  | lexeme hu _ =>
    rw [List.append_assoc]
    exact hu.follows_iff (lexInitialize_get hR hm)

theorem followsTable_jgt :
    FollowsTable (bytes "jgt loop") ⟨.jgt, bytes "jgt"⟩ := by
  have hjgt : Token (reservedType (reservedWords.zip reservedTypes)) ⟨.jgt, bytes "jgt"⟩
      (bytes "jgt" ++ bytes " ") (bytes "loop") :=
    .lexeme (.ident (c := 'j'.toUInt8) (v := bytes "gt") (by decide) (by decide +kernel)
      ⟨' '.toUInt8, rfl, by decide⟩)
      (.stop (by unfold Blanks; decide +kernel) (by rintro c ⟨⟩; decide))
  exact (followsTable_iff listResmap_lawful (m := reservedWords.zip reservedTypes)
    (show lexInitialize listResmap true true = some _ from rfl)
    (call_returns_ok_iff.mpr ⟨rfl, _, rfl, hjgt⟩)).mpr (by decide +kernel)

/-- `R0` is taken for a register, and `R8` and `not` for identifiers. -/
theorem lexGetNextToken_off_table :
    (∃ t r, (lexGetNextToken (reservedType (reservedWords.zip reservedTypes)) true
        (bytes "R0,R1")).Returns (.ok (t, r)) ∧ ¬ FollowsTable (bytes "R0,R1") t) ∧
    (∃ t r, (lexGetNextToken (reservedType (reservedWords.zip reservedTypes)) true
        (bytes "R8,R1")).Returns (.ok (t, r)) ∧ ¬ FollowsTable (bytes "R8,R1") t) ∧
    ∃ t r, (lexGetNextToken (reservedType (reservedWords.zip reservedTypes)) true
        (bytes "not,R1")).Returns (.ok (t, r)) ∧ ¬ FollowsTable (bytes "not,R1") t := by
  have hword {c : UInt8} {v : List UInt8} (hc : isIdentStart c = true)
      (hv : ∀ d ∈ v, isIdentChar d = true) (hgap : c :: v ∈ tableGaps) :
      ∃ t r, (lexGetNextToken (reservedType (reservedWords.zip reservedTypes)) true
        (c :: v ++ bytes ",R1")).Returns (.ok (t, r)) ∧
        ¬ FollowsTable (c :: v ++ bytes ",R1") t := by
    have hsep : Separated (bytes ",R1") := ⟨','.toUInt8, rfl, by decide⟩
    refine ⟨_, bytes ",R1", call_returns_ok_iff.mpr ⟨rfl, c :: v ++ [], by simp,
      .lexeme (.ident hc hv hsep) (.stop (by simp [Blanks]) (by rintro c ⟨⟩; decide))⟩, ?_⟩
    have hchar : ∀ d ∈ c :: v, isIdentChar d = true :=
      List.forall_mem_cons.mpr ⟨isIdentStart_isIdentChar c hc, hv⟩
    rw [followsTable_word (fun _ => rfl) hc hv hsep.not_identChar, not_not,
      takeWhile_append_stop hchar hsep.not_identChar]
    exact hgap
  exact ⟨hword (c := 'R'.toUInt8) (v := bytes "0") (by decide) (by decide +kernel) (by decide),
    hword (c := 'R'.toUInt8) (v := bytes "8") (by decide) (by decide +kernel) (by decide),
    hword (c := 'n'.toUInt8) (v := bytes "ot") (by decide) (by decide +kernel) (by decide)⟩

end Cs370.Lexer
