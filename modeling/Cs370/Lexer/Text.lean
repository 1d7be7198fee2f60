import Cs370.Lexer.Lex

/-!
# What the lexer does to a text

The loops of the lexer in closed form: `afterGap` is the text after `lex_skip_insignificant`,
`afterLayout` the text after the loops of `lex_get_newline`, and `tokenAt` the result of
`lex_get_next_token`, `none` where the call does not return. `lexGetNextToken_denotes` connects
them to the model; nothing after it looks at a loop.
-/

namespace Cs370.Lexer

open Loop

/-! ## Characters -/

instance decidableForallByte {p : UInt8 → Prop} [DecidablePred p] : Decidable (∀ c, p c) :=
  decidable_of_iff (∀ i : Fin 256, p (UInt8.ofFin i)) ⟨fun h c => h c.toFin, fun h _ => h _⟩

theorem isSeparator_ne_eof : ∀ c, isSeparator c = true → c ≠ eof := by decide +kernel

theorem isSeparator_not_identChar : ∀ c, isSeparator c = true → isIdentChar c = false := by
  decide +kernel

theorem eof_ne_newline : eof ≠ newline := by decide

/-! ## The closed forms -/

/-- Reading a character and putting it back loses the byte 255. -/
def unread (s : List UInt8) : List UInt8 := ungetc (getc s).1 (getc s).2

/-- The text after the newline that ends a comment. -/
def afterComment : List UInt8 → Option (List UInt8)
  | [] => none
  | c :: s => if c = newline then some s else afterComment s

def afterGap (s : List UInt8) : Option (List UInt8) :=
  let s := s.dropWhile isBlank
  if (getc s).1 = semicolon then (afterComment (getc s).2).map (newline :: ·) else some (unread s)

/-- The text from the first character that is neither blank, newline nor part of a comment; the
flag says that a comment is open. -/
def layoutEnd : Bool → List UInt8 → Option (List UInt8)
  | false, [] => some []
  | true, [] => none
  | false, c :: s =>
    if isspace c then layoutEnd false s
    else if c = semicolon then layoutEnd true s
    else some (c :: s)
  | true, c :: s => if c = newline then layoutEnd false s else layoutEnd true s

def afterLayout (s : List UInt8) : Option (List UInt8) := (layoutEnd false s).map unread

def numberAt (type : TokType) (next : UInt8) (value s : List UInt8) :
    Option (Except UInt8 (Tok × List UInt8)) :=
  if isSeparator (getc s).1 then (afterGap s).map fun r => .ok (⟨type, value⟩, r)
  else some (.error next)

def hexiAt (next : UInt8) (s : List UInt8) : Option (Except UInt8 (Tok × List UInt8)) :=
  match getDigits isHexiDigit 4 next [] s with
  | .error next => some (.error next)
  | .ok (next, value, s) => numberAt .hexi next value s

def deciAt (next : UInt8) (s : List UInt8) : Option (Except UInt8 (Tok × List UInt8)) :=
  match getDigits isdigit 5 next [] s with
  | .error next => some (.error next)
  | .ok (next, value, s) =>
    if atoi value ≥ 1 <<< 16 then some (.error next) else numberAt .deci next value s

section
variable (get : List UInt8 → Option TokType)

def identAt (next : UInt8) (s : List UInt8) : Option (Except UInt8 (Tok × List UInt8)) :=
  let value := next :: s.takeWhile isIdentChar
  let next := (getc (s.dropWhile isIdentChar)).1
  let s := unread (s.dropWhile isIdentChar)
  if isSeparator (getc s).1 then (afterGap s).map fun r => .ok (⟨identType get value, value⟩, r)
  else some (.error next)

/-- The type of a token of one character. -/
def punctType (c : UInt8) : Option TokType :=
  if c = '('.toUInt8 then some .lparen
  else if c = ')'.toUInt8 then some .rparen
  else if c = ':'.toUInt8 then some .colon
  else if c = ','.toUInt8 then some .comma
  else if c = '+'.toUInt8 then some .plus
  else none

def tokenAt (s : List UInt8) : Option (Except LexError (Tok × List UInt8)) :=
  let c := (getc s).1
  let s := (getc s).2
  if c = eof then some (.ok (⟨.tokEof, [c]⟩, s))
  else if c = newline then (afterLayout s).map fun r => .ok (⟨.newline, [c]⟩, r)
  else
    match punctType c with
    | some type => (afterGap s).map fun r => .ok (⟨type, [c]⟩, r)
    | none =>
      if c = '#'.toUInt8 then (hexiAt c s).map (Except.mapError .hexi)
      else if c = '$'.toUInt8 then (deciAt c s).map (Except.mapError .deci)
      else if isIdentStart c then (identAt get c s).map (Except.mapError .identLike)
      else some (.error (.other c))

end

/-! ## Loops -/

theorem getc_measure {p : UInt8 → Bool} (hp : p eof = false) {c : UInt8} (hc : p c = true)
    (s : List UInt8) :
    2 * (getc s).2.length + (p (getc s).1).toNat < 2 * s.length + (p c).toNat := by
  cases s with
  | nil => simp [hc, getc, hp]
  | cons d s =>
    have := Bool.toNat_lt (p d)
    simp only [getc, List.length_cons, hc, Bool.toNat_true]
    omega

/-- A class of characters that `EOF` is not in: the loop ends at the end of the stream. -/
theorem getcWhile_denotes {p : UInt8 → Bool} (hp : p eof = false) (next : UInt8)
    (s : List UInt8) : (getcWhile p next s).Denotes (some (getc ((next :: s).dropWhile p))) := by
  refine Comp.loop_denotes (f := fun st => some (getc ((st.1 :: st.2).dropWhile p)))
    (fun st => 2 * st.2.length + (p st.1).toNat) (fun ⟨c, s⟩ => ?_) (next, s)
  cases hc : p c with
  | false => exact .stop (c, s) (by simp) (by simp [hc, getc])
  | true =>
    refine .next (getc s) (by simp) ?_ (getc_measure hp hc s)
    cases s with
    | nil => simp [hc, getc, hp]
    | cons d s => simp [hc, getc]

theorem getc_dropWhile {p : UInt8 → Bool} (hp : p eof = false) (s : List UInt8) :
    getc (((getc s).1 :: (getc s).2).dropWhile p) = getc (s.dropWhile p) := by
  cases s with
  | nil => simp [getc, hp]
  | cons c s => rfl

theorem getcComment_denotes (s : List UInt8) :
    (getcComment s).Denotes ((afterComment s).map (newline, ·)) := by
  refine Comp.loop_denotes (f := fun s => (afterComment s).map (newline, ·)) List.length
    (fun s => ?_) s
  cases s with
  | nil => exact .stay (by simp [getc, eof_ne_newline]) rfl
  | cons c s =>
    by_cases hc : c = newline
    · exact .stop (c, s) (by simp [getc, hc]) (by simp [afterComment, hc])
    · exact .next s (by simp [getc, hc]) (by simp [afterComment, hc])
        (by simp)

theorem getIdent_denotes (value : List UInt8) (next : UInt8) (s : List UInt8) :
    (getIdent value next s).Denotes (some (if isIdentChar next then
      (value ++ next :: s.takeWhile isIdentChar, getc (s.dropWhile isIdentChar))
      else (value, next, s))) := by
  have heof : isIdentChar eof = false := by decide
  refine Comp.loop_denotes (f := fun st => some (if isIdentChar st.2.1 then
      (st.1 ++ st.2.1 :: st.2.2.takeWhile isIdentChar, getc (st.2.2.dropWhile isIdentChar))
      else st))
    (fun st => 2 * st.2.2.length + (isIdentChar st.2.1).toNat) (fun ⟨v, c, s⟩ => ?_)
    (value, next, s)
  cases hc : isIdentChar c with
  | false => exact .stop (v, c, s) (by simp) (by simp [hc])
  | true =>
    refine .next (v ++ [c], getc s) (by simp) ?_ (getc_measure heof hc s)
    cases s with
    | nil => simp [hc, getc, heof]
    | cons d s => cases hd : isIdentChar d <;> simp [hc, getc, hd]

/-! ## Functions -/

theorem unread_of_ne {s : List UInt8} (h : (getc s).1 ≠ eof) : unread s = s := by
  cases s with
  | nil => rfl
  | cons c s => exact if_neg h

theorem lexSkipInsignificant_denotes (s : List UInt8) :
    (lexSkipInsignificant s).Denotes (afterGap s) := by
  have hskip := getcWhile_denotes (p := isBlank) (by decide) (getc s).1 (getc s).2
  rw [getc_dropWhile (by decide)] at hskip
  refine Comp.bind_denotes (g := fun x => if x.1 = semicolon then
      (afterComment x.2).map (newline :: ·) else some (ungetc x.1 x.2)) hskip fun ⟨c, r⟩ => ?_
  refine Comp.ite_denotes (fun _ => ?_) fun _ => Comp.pure_denotes _
  have h := Comp.map_denotes (getcComment_denotes r) fun x => ungetc x.1 x.2
  rwa [Option.map_map] at h

theorem layoutEnd_dropWhile (s : List UInt8) :
    layoutEnd false (s.dropWhile isspace) = layoutEnd false s := by
  induction s with
  | nil => rfl
  | cons c s ih =>
    cases hc : isspace c with
    | false => rw [List.dropWhile_cons_of_neg (by simp [hc])]
    | true => rw [List.dropWhile_cons_of_pos hc, ih, layoutEnd, if_pos hc]

theorem layoutEnd_comment (s : List UInt8) :
    layoutEnd true s = (afterComment s).bind (layoutEnd false) := by
  induction s with
  | nil => rfl
  | cons c s ih =>
    by_cases hc : c = newline
    · simp [layoutEnd, afterComment, hc]
    · simp [layoutEnd, afterComment, hc, ih]

theorem afterComment_length {s r : List UInt8} (h : afterComment s = some r) :
    r.length < s.length := by
  induction s with
  | nil => cases h
  | cons c s ih =>
    unfold afterComment at h
    split at h
    · obtain rfl := Option.some.inj h
      exact Nat.lt_succ_self _
    · exact (ih h).trans (Nat.lt_succ_self _)

theorem length_dropWhile_le (p : UInt8 → Bool) (s : List UInt8) :
    (s.dropWhile p).length ≤ s.length := (List.dropWhile_sublist p).length_le

/-- Where an iteration of the loop of `lex_get_newline` goes from its first character that is
not blank. -/
def newlineMove (x : UInt8 × List UInt8) :
    Option (Move (UInt8 × List UInt8) (UInt8 × List UInt8)) :=
  if x.1 = semicolon then (afterComment x.2).map fun r => .next (newline, r) else some (.stop x)

theorem newlineStep_denotes (c : UInt8) (s : List UInt8) :
    (newlineStep (c, s)).Denotes (newlineMove (getc ((c :: s).dropWhile isspace))) := by
  refine Comp.bind_denotes (g := newlineMove)
    (getcWhile_denotes (p := isspace) (by decide) c s) fun ⟨d, r⟩ => ?_
  refine Comp.ite_denotes (fun _ => ?_) fun _ => Comp.pure_denotes _
  have h := Comp.map_denotes (getcComment_denotes r) fun x =>
    (Move.next (x.1, x.2) : Move (UInt8 × List UInt8) (UInt8 × List UInt8))
  rwa [Option.map_map] at h

theorem newlineLoop_denotes (c : UInt8) (s : List UInt8) :
    (Comp.loop newlineStep (c, s)).Denotes ((layoutEnd false (c :: s)).map getc) := by
  refine Comp.loop_denotes (f := fun st => (layoutEnd false (st.1 :: st.2)).map getc)
    (fun st => st.2.length) (fun ⟨c, s⟩ => ?_) (c, s)
  have hstep := newlineStep_denotes c s
  have hlen := length_dropWhile_le isspace (c :: s)
  have hend := layoutEnd_dropWhile (c :: s)
  have hhead : ∀ d r, (c :: s).dropWhile isspace = d :: r → isspace d = false := by
    intro d r h
    have := List.head_dropWhile_not isspace (l := c :: s) (by rw [h]; simp)
    simpa [h] using this
  cases hs : (c :: s).dropWhile isspace with
  | nil =>
    rw [hs] at hstep hend
    refine .stop (eof, []) hstep ?_
    rw [← hend]
    rfl
  | cons d r =>
    rw [hs] at hstep hend hlen
    have hd := hhead d r hs
    rw [layoutEnd, hd, if_neg (by simp)] at hend
    by_cases hsemi : d = semicolon
    · rw [newlineMove, if_pos (show (getc (d :: r)).1 = semicolon from hsemi)] at hstep
      rw [if_pos hsemi, layoutEnd_comment] at hend
      cases hr : afterComment r with
      | none =>
        rw [show (getc (d :: r)).2 = r from rfl, hr] at hstep
        rw [hr] at hend
        exact .hang hstep (by rw [← hend]; rfl)
      | some r' =>
        rw [show (getc (d :: r)).2 = r from rfl, hr] at hstep
        rw [hr] at hend
        refine .next (newline, r') hstep ?_ ?_
        · rw [← hend, layoutEnd, if_pos (show isspace newline = true by decide)]
          rfl
        · have := afterComment_length hr
          simp only [List.length_cons] at hlen
          show r'.length < s.length
          omega
    · rw [newlineMove, if_neg (show (getc (d :: r)).1 ≠ semicolon from hsemi)] at hstep
      rw [if_neg hsemi] at hend
      refine .stop (d, r) hstep ?_
      rw [← hend]
      rfl

theorem lexGetNewline_denotes (next : UInt8) (s : List UInt8) :
    (lexGetNewline next s).Denotes ((afterLayout s).map fun r => (⟨.newline, [next]⟩, r)) := by
  have hloop := newlineLoop_denotes (getc s).1 (getc s).2
  have hend : (layoutEnd false ((getc s).1 :: (getc s).2)).map getc =
      (layoutEnd false s).map getc := by
    cases s with
    | nil => rfl
    | cons c s => rfl
  rw [hend] at hloop
  have h := Comp.map_denotes hloop fun x => (lexGetCharacterTok next .newline, ungetc x.1 x.2)
  rw [Option.map_map] at h
  rw [afterLayout, Option.map_map]
  exact h

theorem lexGetPunct_denotes (type : TokType) (next : UInt8) (s : List UInt8) :
    (lexGetPunct type next s).Denotes ((afterGap s).map fun r => (⟨type, [next]⟩, r)) :=
  Comp.map_denotes (lexSkipInsignificant_denotes s) _

/-- What follows a separator test: a separator is put back. -/
theorem separated_denotes (tok : Tok) (next : UInt8) (s : List UInt8) :
    (if (lexIsNextSeparator s).1 then do
        let s ← lexSkipInsignificant (lexIsNextSeparator s).2
        return .ok (tok, s)
      else return .error next : Comp (Except UInt8 (Tok × List UInt8))).Denotes
    (if isSeparator (getc s).1 then (afterGap s).map fun r => .ok (tok, r)
      else some (.error next)) := by
  refine Comp.ite_denotes (fun hsep => ?_) fun _ => Comp.pure_denotes _
  rw [show (lexIsNextSeparator s).2 = s from unread_of_ne (isSeparator_ne_eof _ hsep)]
  exact Comp.map_denotes (lexSkipInsignificant_denotes s) _

theorem lexGetNumber_denotes (type : TokType) (next : UInt8) (value s : List UInt8) :
    (lexGetNumber type next value s).Denotes (numberAt type next value s) :=
  separated_denotes ..

theorem lexGetHexi_denotes (next : UInt8) (s : List UInt8) :
    (lexGetHexi next s).Denotes (hexiAt next s) := by
  unfold lexGetHexi hexiAt
  cases getDigits isHexiDigit 4 next [] s with
  | error next => exact Comp.pure_denotes _
  | ok x => exact lexGetNumber_denotes ..

theorem lexGetDeci_denotes (next : UInt8) (s : List UInt8) :
    (lexGetDeci next s).Denotes (deciAt next s) := by
  unfold lexGetDeci deciAt
  cases getDigits isdigit 5 next [] s with
  | error next => exact Comp.pure_denotes _
  | ok x =>
    exact Comp.ite_denotes (fun _ => Comp.pure_denotes _) fun _ => lexGetNumber_denotes ..

section
variable (get : List UInt8 → Option TokType)

theorem lexGetIdentLike_denotes (next : UInt8) (s : List UInt8) :
    (lexGetIdentLike get next s).Denotes (identAt get next s) := by
  have hloop := getIdent_denotes [next] (getc s).1 (getc s).2
  have hend : (if isIdentChar (getc s).1 then
      ([next] ++ (getc s).1 :: (getc s).2.takeWhile isIdentChar,
        getc ((getc s).2.dropWhile isIdentChar))
      else ([next], (getc s).1, (getc s).2)) =
      (next :: s.takeWhile isIdentChar, getc (s.dropWhile isIdentChar)) := by
    cases s with
    | nil => rfl
    | cons c s => cases hc : isIdentChar c <;> simp [getc, hc]
  rw [hend] at hloop
  have h := Comp.bind_denotes hloop fun x : List UInt8 × UInt8 × List UInt8 =>
    separated_denotes ⟨identType get x.1, x.1⟩ x.2.1 (ungetc x.2.1 x.2.2)
  rw [Option.bind_some] at h
  exact h

/-- **A call of `lex_get_next_token`** returns what `tokenAt` says, and hangs where it says
nothing. -/
theorem lexGetNextToken_denotes (s : List UInt8) :
    (lexGetNextToken get true s).Denotes (tokenAt get s) := by
  unfold lexGetNextToken tokenAt
  rw [if_pos rfl]
  dsimp only
  generalize (getc s).1 = c
  generalize (getc s).2 = r
  have hnewline := Comp.map_denotes (lexGetNewline_denotes c r)
    (Except.ok : _ → Except LexError (Tok × List UInt8))
  rw [Option.map_map] at hnewline
  -- one character of `punctType`
  have hpunct {d : UInt8} {type : TokType} {x : Comp (Except LexError (Tok × List UInt8))}
      {t : Option TokType} {o : Option (Except LexError (Tok × List UInt8))}
      (hx : x.Denotes (match t with
        | some type => (afterGap r).map fun r => .ok (⟨type, [c]⟩, r)
        | none => o)) :
      (if c = d then do return .ok (← lexGetPunct type c r) else x).Denotes
        (match if c = d then some type else t with
        | some type => (afterGap r).map fun r => .ok (⟨type, [c]⟩, r)
        | none => o) := by
    split
    · have h := Comp.map_denotes (lexGetPunct_denotes type c r)
        (Except.ok : _ → Except LexError (Tok × List UInt8))
      rwa [Option.map_map] at h
    · exact hx
  refine Comp.ite_denotes (fun _ => Comp.pure_denotes _) fun _ => ?_
  refine Comp.ite_denotes (fun _ => hnewline) fun _ => ?_
  unfold punctType
  refine hpunct (hpunct (hpunct (hpunct (hpunct ?_))))
  refine Comp.ite_denotes (fun _ => Comp.map_denotes (lexGetHexi_denotes ..) _) fun _ => ?_
  refine Comp.ite_denotes (fun _ => Comp.map_denotes (lexGetDeci_denotes ..) _) fun _ => ?_
  exact Comp.ite_denotes (fun _ => Comp.map_denotes (lexGetIdentLike_denotes ..) _)
    fun _ => Comp.pure_denotes _

theorem lexGetNextToken_noMem (s : List UInt8) :
    (lexGetNextToken get false s).Denotes (some (.error .outOfMem)) :=
  Comp.pure_denotes _

end

end Cs370.Lexer
