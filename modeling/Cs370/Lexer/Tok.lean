import Mathlib.Data.List.Basic

/-!
# Tokens of the assembler

`tok.h`, `status.h`, the reserved words of `lex.c` and the parts of the C library the lexer uses.
A `char` is kept as its bit pattern; it is signed, so `(char) EOF` is the byte 255. The program
sets no locale, and in the C locale no negative character belongs to a class of `ctype.h`.

`Resmap` is the map of the reserved words: its operations come from a library, and `Lawful` is
what the lexer relies on.
-/

namespace Cs370.Lexer

/-- The bytes of an ASCII text. -/
def bytes (s : String) : List UInt8 := s.toList.map Char.toUInt8

def newline : UInt8 := '\n'.toUInt8

def semicolon : UInt8 := ';'.toUInt8

/-- `EOF` as a `char`. -/
def eof : UInt8 := 255

def isspace (c : UInt8) : Bool := c == ' '.toUInt8 || (decide (9 ≤ c) && decide (c ≤ 13))

def isdigit (c : UInt8) : Bool := decide ('0'.toUInt8 ≤ c) && decide (c ≤ '9'.toUInt8)

def isalpha (c : UInt8) : Bool :=
  (decide ('A'.toUInt8 ≤ c) && decide (c ≤ 'Z'.toUInt8)) ||
    (decide ('a'.toUInt8 ≤ c) && decide (c ≤ 'z'.toUInt8))

def isalnum (c : UInt8) : Bool := isalpha c || isdigit c

/-- `atoi` of a string of digits. -/
def atoi (value : List UInt8) : Nat :=
  value.foldl (fun d c => 10 * d + (c.toNat - '0'.toNat)) 0

inductive TokType where
  | tokEof | newline | lparen | rparen | colon | comma | plus
  | hexi | deci
  | ident
  | register
  | nop | halt | frm | dis | clr | inc | dec | alm | add | sub | mul | div | mov | and | or | xor
  | cmp | jeq | jgt | jlt | jle | jge
  deriving DecidableEq, Repr

structure Tok where
  type : TokType
  value : List UInt8
  deriving DecidableEq, Repr

inductive Status where
  | success | outOfMem | unexpectedChar | cmdArgs | fileOpenError
  deriving DecidableEq, Repr

/-- Why `lex_get_next_token` fails, with the character in `lex->next`. -/
inductive LexError where
  | outOfMem
  | hexi (next : UInt8)
  | deci (next : UInt8)
  | identLike (next : UInt8)
  | other (next : UInt8)
  deriving DecidableEq, Repr

def LexError.status : LexError → Status
  | .outOfMem => .outOfMem
  | _ => .unexpectedChar

/-- What is printed to `stderr`. -/
def LexError.message : LexError → List UInt8
  | .outOfMem => []
  | .hexi next =>
    bytes "Unexpected character in HEXI: " ++ [next] ++ bytes ". Must have form #WXYZ\n"
  | .deci next =>
    bytes "Unexpected character in DECI: " ++ [next] ++ bytes ". Must have form $VWXYZ\n"
  | .identLike next =>
    bytes "Unexpected character in identifier-like token: " ++ [next] ++ bytes "\n"
  | .other next => bytes "Unexpected character: " ++ [next] ++ bytes "\n"

/-! ## Reserved words -/

def reservedWords : List (List UInt8) :=
  [bytes "nop", bytes "halt", bytes "clr", bytes "inc", bytes "dec", bytes "frm", bytes "dis",
   bytes "alm", bytes "add", bytes "sub", bytes "mul", bytes "div", bytes "mov", bytes "and",
   bytes "or", bytes "xor", bytes "cmp", bytes "jeq", bytes "jgt", bytes "jlt", bytes "jge",
   bytes "jle"]

def reservedTypes : List TokType :=
  [.nop, .halt, .clr, .inc, .dec, .frm, .dis, .alm, .add, .sub, .mul, .div, .mov, .and, .or, .xor,
   .cmp, .jeq, .jgt, .jlt, .jge, .jle]

/-- `resmap_initialize`, `resmap_put` and `resmap_get`; `none` is a failure, or a key that is not
in the map. -/
structure Resmap (μ : Type) where
  init : Option μ
  put : μ → List UInt8 → TokType → Option μ
  get : μ → List UInt8 → Option TokType

/-- The map has exactly what was put into it. -/
structure Resmap.Lawful {μ : Type} (R : Resmap μ) : Prop where
  get_init : ∀ {m : μ}, R.init = some m → ∀ k, R.get m k = none
  get_put : ∀ {m m' : μ} {k : List UInt8} {t : TokType}, R.put m k t = some m' →
    ∀ k', R.get m' k' = if k' = k then some t else R.get m k'

/-- `lex_initialize`: the map it builds, if the allocations of the lexer and of the string
succeed. -/
def lexInitialize {μ : Type} (R : Resmap μ) (lexAlloc strAlloc : Bool) : Option μ :=
  if lexAlloc then
    match R.init with
    | none => none
    | some m =>
      if strAlloc then
        (reservedWords.zip reservedTypes).foldlM (fun m p => R.put m p.1 p.2) m
      else none
  else none

/-- What the map answers for the pairs put into it, the last one first. -/
def reservedType (ps : List (List UInt8 × TokType)) (k : List UInt8) : Option TokType :=
  (ps.reverse.find? fun p => p.1 == k).map (·.2)

theorem reservedType_snoc (ps : List (List UInt8 × TokType)) (p : List UInt8 × TokType)
    (k : List UInt8) :
    reservedType (ps ++ [p]) k = if k = p.1 then some p.2 else reservedType ps k := by
  unfold reservedType
  rw [List.reverse_append, List.reverse_singleton, List.singleton_append, List.find?_cons]
  by_cases h : k = p.1
  · simp [h]
  · have hne : (p.1 == k) = false := by simpa using fun he => h he.symm
    rw [hne, if_neg h]

theorem Resmap.Lawful.get_foldlM {μ : Type} {R : Resmap μ} (hR : R.Lawful)
    (qs : List (List UInt8 × TokType)) {ps : List (List UInt8 × TokType)} {m m' : μ}
    (hm : ∀ k, R.get m k = reservedType qs k)
    (h : ps.foldlM (fun m p => R.put m p.1 p.2) m = some m') (k : List UInt8) :
    R.get m' k = reservedType (qs ++ ps) k := by
  induction ps generalizing m qs with
  | nil =>
    obtain rfl : m = m' := Option.some.inj h
    rw [List.append_nil]
    exact hm k
  | cons p ps ih =>
    rw [List.foldlM_cons] at h
    obtain ⟨m₁, h₁, h₂⟩ := Option.bind_eq_some_iff.mp h
    rw [show qs ++ p :: ps = (qs ++ [p]) ++ ps by simp]
    refine ih (qs ++ [p]) (fun k' => ?_) h₂
    rw [hR.get_put h₁, hm, reservedType_snoc]

/-- **The map of the lexer** answers as the two arrays say. -/
theorem lexInitialize_get {μ : Type} {R : Resmap μ} (hR : R.Lawful) {lexAlloc strAlloc : Bool}
    {m : μ} (h : lexInitialize R lexAlloc strAlloc = some m) (k : List UInt8) :
    R.get m k = reservedType (reservedWords.zip reservedTypes) k := by
  unfold lexInitialize at h
  split at h
  · split at h
    · cases h
    · rename_i m₀ h₀
      split at h
      · exact hR.get_foldlM [] (fun k' => hR.get_init h₀ k') h k
      · cases h
  · cases h

/-- A map kept as the list of what was put into it. -/
def listResmap : Resmap (List (List UInt8 × TokType)) where
  init := some []
  put m k t := some (m ++ [(k, t)])
  get := reservedType

theorem listResmap_lawful : listResmap.Lawful where
  get_init h k := by
    cases h
    rfl
  get_put {m m' k t} h k' := by
    obtain rfl : m ++ [(k, t)] = m' := Option.some.inj h
    exact reservedType_snoc m (k, t) k'

end Cs370.Lexer
