import Cs370.Lib.Comp
import Cs370.Lexer.Tok

/-!
# The lexer

`lex.c`, and the loop of `main.c` that drives it. A stream is the bytes it still holds; `getc` at
its end gives `EOF` any number of times. `ungetc` puts back the character that was read last,
and does nothing for `EOF`, which the byte 255 is taken for.

`lex->next` is set at the start of every call, so it is passed on and not kept; `get` is
`resmap_get` on `lex->reserved`.
-/

namespace Cs370.Lexer

open Loop

def getc : List UInt8 → UInt8 × List UInt8
  | [] => (eof, [])
  | c :: s => (c, s)

def ungetc (c : UInt8) (s : List UInt8) : List UInt8 := if c = eof then s else c :: s

/-- The comparisons are between `char`s, which are signed. -/
def inRange (c lo hi : UInt8) : Bool :=
  decide (lo.toInt8 ≤ c.toInt8) && decide (c.toInt8 ≤ hi.toInt8)

def isHexiDigit (c : UInt8) : Bool := isdigit c || inRange c 'A'.toUInt8 'F'.toUInt8

def isRegister (s : List UInt8) : Bool :=
  s.length == 2 && s.getD 0 0 == 'R'.toUInt8 && inRange (s.getD 1 0) '0'.toUInt8 '7'.toUInt8

def isSeparator (next : UInt8) : Bool :=
  isspace next || next == semicolon || next == ':'.toUInt8 || next == ','.toUInt8 ||
    next == ')'.toUInt8 || next == '+'.toUInt8

def lexIsNextSeparator (s : List UInt8) : Bool × List UInt8 :=
  let (next, s) := getc s
  (isSeparator next, ungetc next s)

/-- `while (p(next)) next = getc(stream);` -/
def getcWhile (p : UInt8 → Bool) (next : UInt8) (s : List UInt8) : Comp (UInt8 × List UInt8) :=
  Comp.loop (fun st : UInt8 × List UInt8 => pure (if p st.1 then .next (getc st.2) else .stop st))
    (next, s)

/-- `do next = getc(stream); while (next != '\n');` -/
def getcComment (s : List UInt8) : Comp (UInt8 × List UInt8) :=
  Comp.loop (fun s : List UInt8 =>
      pure (if (getc s).1 ≠ newline then .next (getc s).2 else .stop (getc s))) s

def isBlank (next : UInt8) : Bool := isspace next && next != newline

def lexSkipInsignificant (s : List UInt8) : Comp (List UInt8) := do
  let (next, s) := getc s
  let (next, s) ← getcWhile isBlank next s
  if next = semicolon then
    let (next, s) ← getcComment s
    return ungetc next s
  else return ungetc next s

/-- The body of the outer loop of `lex_get_newline`; it stops when `more_after_comment` is 0. -/
def newlineStep (st : UInt8 × List UInt8) :
    Comp (Move (UInt8 × List UInt8) (UInt8 × List UInt8)) := do
  let (next, s) ← getcWhile isspace st.1 st.2
  if next = semicolon then
    let (next, s) ← getcComment s
    return .next (next, s)
  else return .stop (next, s)

def lexGetCharacterTok (next : UInt8) (type : TokType) : Tok := ⟨type, [next]⟩

def lexGetNewline (next : UInt8) (s : List UInt8) : Comp (Tok × List UInt8) := do
  let tok := lexGetCharacterTok next .newline
  let (next, s) ← Comp.loop newlineStep (getc s)
  return (tok, ungetc next s)

/-- `lex_get_lparen`, `lex_get_rparen`, `lex_get_colon`, `lex_get_comma` and `lex_get_plus`. -/
def lexGetPunct (type : TokType) (next : UInt8) (s : List UInt8) : Comp (Tok × List UInt8) := do
  let s ← lexSkipInsignificant s
  return (lexGetCharacterTok next type, s)

def lexGetLparen := lexGetPunct .lparen
def lexGetRparen := lexGetPunct .rparen
def lexGetColon := lexGetPunct .colon
def lexGetComma := lexGetPunct .comma
def lexGetPlus := lexGetPunct .plus

/-- The loops of `lex_get_hexi` and `lex_get_deci`: `k` more digits; the last character read
comes with the result and with the error. -/
def getDigits (p : UInt8 → Bool) : Nat → UInt8 → List UInt8 → List UInt8 →
    Except UInt8 (UInt8 × List UInt8 × List UInt8)
  | 0, next, value, s => .ok (next, value, s)
  | k + 1, _, value, s =>
    let (next, s) := getc s
    if p next then getDigits p k next (value ++ [next]) s else .error next

/-- The end of `lex_get_hexi` and of `lex_get_deci`: a separator has to follow. -/
def lexGetNumber (type : TokType) (next : UInt8) (value s : List UInt8) :
    Comp (Except UInt8 (Tok × List UInt8)) := do
  let (sep, s) := lexIsNextSeparator s
  if sep then
    let s ← lexSkipInsignificant s
    return .ok (⟨type, value⟩, s)
  else return .error next

def lexGetHexi (next : UInt8) (s : List UInt8) : Comp (Except UInt8 (Tok × List UInt8)) :=
  match getDigits isHexiDigit 4 next [] s with
  | .error next => pure (.error next)
  | .ok (next, value, s) => lexGetNumber .hexi next value s

def lexGetDeci (next : UInt8) (s : List UInt8) : Comp (Except UInt8 (Tok × List UInt8)) :=
  match getDigits isdigit 5 next [] s with
  | .error next => pure (.error next)
  | .ok (next, value, s) =>
    if atoi value ≥ 1 <<< 16 then pure (.error next) else lexGetNumber .deci next value s

def isIdentChar (next : UInt8) : Bool := isalnum next || next == '_'.toUInt8

/-- The loop of `lex_get_ident_like`; the value grows by each character that is passed. -/
def getIdent (value : List UInt8) (next : UInt8) (s : List UInt8) :
    Comp (List UInt8 × UInt8 × List UInt8) :=
  Comp.loop (fun st : List UInt8 × UInt8 × List UInt8 =>
      pure (if isIdentChar st.2.1 then .next (st.1 ++ [st.2.1], getc st.2.2) else .stop st))
    (value, next, s)

section
variable (get : List UInt8 → Option TokType)

def identType (value : List UInt8) : TokType :=
  if isRegister value then .register
  else
    match get value with
    | some type => type
    | none => .ident

def lexGetIdentLike (next : UInt8) (s : List UInt8) :
    Comp (Except UInt8 (Tok × List UInt8)) := do
  let (next', s) := getc s
  let (value, next, s) ← getIdent [next] next' s
  let s := ungetc next s
  let (sep, s) := lexIsNextSeparator s
  if sep then
    let s ← lexSkipInsignificant s
    return .ok (⟨identType get value, value⟩, s)
  else return .error next

def isIdentStart (next : UInt8) : Bool := isalpha next || next == '_'.toUInt8

/-- `lex_get_next_token`: the token and the rest of the stream, or why there is no token.
`alloc` is whether `tok_initialize` succeeds. -/
def lexGetNextToken (alloc : Bool) (s : List UInt8) :
    Comp (Except LexError (Tok × List UInt8)) := do
  if alloc then
    let (next, s) := getc s
    if next = eof then return .ok (lexGetCharacterTok next .tokEof, s)
    else if next = newline then return .ok (← lexGetNewline next s)
    else if next = '('.toUInt8 then return .ok (← lexGetLparen next s)
    else if next = ')'.toUInt8 then return .ok (← lexGetRparen next s)
    else if next = ':'.toUInt8 then return .ok (← lexGetColon next s)
    else if next = ','.toUInt8 then return .ok (← lexGetComma next s)
    else if next = '+'.toUInt8 then return .ok (← lexGetPlus next s)
    else if next = '#'.toUInt8 then return (← lexGetHexi next s).mapError .hexi
    else if next = '$'.toUInt8 then return (← lexGetDeci next s).mapError .deci
    else if isIdentStart next then return (← lexGetIdentLike get next s).mapError .identLike
    else return .error (.other next)
  else return .error .outOfMem

/-- One iteration of the loop of `main`: the tokens so far and the stream. -/
def mainStep (alloc : Nat → Bool) (st : List Tok × List UInt8) :
    Comp (Move (List Tok × List UInt8) (List Tok × Option LexError)) := do
  match ← lexGetNextToken get (alloc st.1.length) st.2 with
  | .error e => return .stop (st.1, some e)
  | .ok (tok, s) =>
    if tok.type = .tokEof then return .stop (st.1 ++ [tok], none)
    else return .next (st.1 ++ [tok], s)

/-- The tokens `main` gets from a stream, and the error it ends with. `alloc k` is whether the
allocation of token `k` succeeds. -/
def lexMain (alloc : Nat → Bool) (s : List UInt8) : Comp (List Tok × Option LexError) :=
  Comp.loop (mainStep get alloc) ([], s)

end

end Cs370.Lexer
