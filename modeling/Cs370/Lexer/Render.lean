import Cs370.Lexer.Outcome

/-!
# Lexing undoes rendering

`Spelled t u`: `u` is the text of the token `t`. `Renders ts s`: `s` is one of the texts of the
tokens `ts`, with blanks after tokens, a comment before a newline and layout after it.
`lexMain_renders`: from every such text the lexer gets the tokens `ts` back.
-/

namespace Cs370.Lexer

/-- `[0-9A-F]` -/
def isHexChar (c : UInt8) : Bool :=
  isdigit c || (decide ('A'.toUInt8 ≤ c) && decide (c ≤ 'F'.toUInt8))

def registers : List (List UInt8) :=
  (bytes "01234567").map fun d => ['R'.toUInt8, d]

def punctuation : List (UInt8 × TokType) :=
  [('('.toUInt8, .lparen), (')'.toUInt8, .rparen), (':'.toUInt8, .colon), (','.toUInt8, .comma),
   ('+'.toUInt8, .plus)]

/-- The text of a token other than a newline. -/
inductive Spelled : Tok → List UInt8 → Prop where
  | punct {c : UInt8} {type : TokType} : (c, type) ∈ punctuation → Spelled ⟨type, [c]⟩ [c]
  | hexi {ds : List UInt8} : ds.length = 4 → (∀ c ∈ ds, isHexChar c = true) →
      Spelled ⟨.hexi, ds⟩ ('#'.toUInt8 :: ds)
  | deci {ds : List UInt8} : ds.length = 5 → (∀ c ∈ ds, isdigit c = true) → atoi ds ≤ 65535 →
      Spelled ⟨.deci, ds⟩ ('$'.toUInt8 :: ds)
  | register {v : List UInt8} : v ∈ registers → Spelled ⟨.register, v⟩ v
  | reserved {v : List UInt8} {type : TokType} : (v, type) ∈ reservedWords.zip reservedTypes →
      Spelled ⟨type, v⟩ v
  | ident {c : UInt8} {v : List UInt8} : isIdentStart c = true → (∀ d ∈ v, isIdentChar d = true) →
      c :: v ∉ reservedWords → c :: v ∉ registers → Spelled ⟨.ident, c :: v⟩ (c :: v)

/-- Nothing has to stand between a punctuation mark and the next token. -/
def TokType.isPunct (type : TokType) : Bool := punctuation.any (·.2 == type)

/-- The renderings of tokens with no two newlines in a row. -/
inductive Renders : List Tok → List UInt8 → Prop where
  | nil : Renders [] []
  | newline {ts : List Tok} {w s : List UInt8} : Layout w → (∀ t ∈ ts.head?, t.type ≠ .newline) →
      Renders ts s → Renders (⟨.newline, [newline]⟩ :: ts) (newline :: w ++ s)
  | token {t : Tok} {ts : List Tok} {u w s : List UInt8} : Spelled t u → Blanks w →
      t.type.isPunct = true ∨ Separated (w ++ s) → Renders ts s → Renders (t :: ts) (u ++ w ++ s)
  | comment {t : Tok} {ts : List Tok} {u w v s : List UInt8} : Spelled t u → Blanks w →
      newline ∉ v → Renders (⟨.newline, [newline]⟩ :: ts) s →
      Renders (t :: ⟨.newline, [newline]⟩ :: ts) (u ++ (w ++ semicolon :: v) ++ s)

/-! ## Spellings -/

theorem isHexChar_isHexiDigit : ∀ c, isHexChar c = true → isHexiDigit c = true := by
  decide +kernel

theorem isBlank_isSeparator : ∀ c, isBlank c = true → isSeparator c = true := by decide +kernel

theorem punctuation_punctType : ∀ p ∈ punctuation, punctType p.1 = some p.2 := by decide +kernel

theorem isRegister_iff (v : List UInt8) : isRegister v = true ↔ v ∈ registers := by
  have hdigit : ∀ d : UInt8, inRange d '0'.toUInt8 '7'.toUInt8 = true ↔ d ∈ bytes "01234567" := by
    decide +kernel
  unfold registers
  rw [List.mem_map]
  match v with
  | [] => simp [isRegister]
  | [c] => simp [isRegister]
  | [c, d] =>
    rw [isRegister, Bool.and_eq_true, Bool.and_eq_true, beq_iff_eq, beq_iff_eq]
    constructor
    · rintro ⟨⟨-, rfl⟩, hd⟩
      exact ⟨d, (hdigit d).mp hd, rfl⟩
    · rintro ⟨e, he, ⟨⟩⟩
      exact ⟨⟨rfl, rfl⟩, (hdigit d).mpr he⟩
  | c :: d :: e :: v => simp [isRegister]

theorem reservedType_eq_none {ps : List (List UInt8 × TokType)} {v : List UInt8}
    (hv : v ∉ ps.map (·.1)) : reservedType ps v = none := by
  unfold reservedType
  rw [Option.map_eq_none_iff, List.find?_eq_none]
  intro p hp
  rw [beq_iff_eq]
  rintro rfl
  exact hv (List.mem_map_of_mem (List.mem_reverse.mp hp))

section
variable {get : List UInt8 → Option TokType}
  (hget : ∀ v, get v = reservedType (reservedWords.zip reservedTypes) v)
include hget

theorem identType_reserved {v : List UInt8} {type : TokType}
    (h : (v, type) ∈ reservedWords.zip reservedTypes) : identType get v = type := by
  have hwords : ∀ p ∈ reservedWords.zip reservedTypes, isRegister p.1 = false ∧
      reservedType (reservedWords.zip reservedTypes) p.1 = some p.2 := by decide +kernel
  obtain ⟨hregister, htype⟩ := hwords _ h
  unfold identType
  rw [hregister, if_neg Bool.false_ne_true, hget, htype]

theorem identType_ident {v : List UInt8} (hwords : v ∉ reservedWords) (hregs : v ∉ registers) :
    identType get v = .ident := by
  unfold identType
  rw [if_neg fun h => hregs ((isRegister_iff v).mp h), hget, reservedType_eq_none hwords]

omit hget in
theorem identType_register (get : List UInt8 → Option TokType) {v : List UInt8}
    (h : v ∈ registers) : identType get v = .register := if_pos ((isRegister_iff v).mpr h)

theorem Spelled.lexeme {t : Tok} {u x : List UInt8} (h : Spelled t u)
    (hx : t.type.isPunct = true ∨ Separated x) : Lexeme get t u x := by
  -- everything but punctuation is followed by a separator
  have hsep (ht : t.type.isPunct = false) : Separated x := by
    rcases hx with hx | hx
    · rw [ht] at hx
      cases hx
    · exact hx
  have hword {v : List UInt8} (hv : v ≠ []) (hhead : v.head?.all isIdentStart = true)
      (hall : v.all isIdentChar = true) (hsep : Separated x) :
      Lexeme get ⟨identType get v, v⟩ v x := by
    cases v with
    | nil => exact absurd rfl hv
    | cons c v =>
      rw [List.all_cons, Bool.and_eq_true] at hall
      exact .ident hhead (List.all_eq_true.mp hall.2) hsep
  cases h with
  | punct hc => exact .punct (punctuation_punctType _ hc)
  | hexi hlen hds =>
    exact .hexi hlen (fun c hc => isHexChar_isHexiDigit c (hds c hc)) (hsep rfl)
  | deci hlen hds hle => exact .deci hlen hds (Nat.lt_succ_of_le hle) (hsep rfl)
  | register hv =>
    have hregs : ∀ v ∈ registers, v ≠ [] ∧ v.head?.all isIdentStart = true ∧
        v.all isIdentChar = true := by decide +kernel
    obtain ⟨hne, hhead, hall⟩ := hregs _ hv
    rw [← identType_register get hv]
    exact hword hne hhead hall (hsep rfl)
  | @reserved v type hv =>
    have hwords : ∀ p ∈ reservedWords.zip reservedTypes, p.1 ≠ [] ∧
        p.1.head?.all isIdentStart = true ∧ p.1.all isIdentChar = true ∧
        p.2.isPunct = false := by decide +kernel
    obtain ⟨hne, hhead, hall, hpunct⟩ := hwords _ hv
    have hlex := hword hne hhead hall (hsep hpunct)
    rwa [identType_reserved hget hv] at hlex
  | @ident c v hc hv hwords hregs =>
    have hlex : Lexeme get _ (c :: v) x := .ident hc hv (hsep rfl)
    rwa [identType_ident hget hwords hregs] at hlex

end

theorem Spelled.type_ne {t : Tok} {u : List UInt8} (h : Spelled t u) :
    t.type ≠ .tokEof ∧ t.type ≠ .newline := by
  cases h with
  | punct hc =>
    have hpunct : ∀ p ∈ punctuation, p.2 ≠ .tokEof ∧ p.2 ≠ .newline := by decide
    exact hpunct _ hc
  | reserved hv =>
    have hwords : ∀ p ∈ reservedWords.zip reservedTypes, p.2 ≠ .tokEof ∧ p.2 ≠ .newline := by
      decide +kernel
    exact hwords _ hv
  | hexi => simp
  | deci => simp
  | register => simp
  | ident => simp

theorem Spelled.head {t : Tok} {u : List UInt8} (h : Spelled t u) :
    ∃ c v, u = c :: v ∧ isspace c = false ∧ c ≠ semicolon ∧ c ≠ eof := by
  have hstart : ∀ c, isIdentStart c = true → isspace c = false ∧ c ≠ semicolon ∧ c ≠ eof := by
    decide +kernel
  cases h with
  | @punct c _ hc =>
    have hpunct : ∀ p ∈ punctuation, isspace p.1 = false ∧ p.1 ≠ semicolon ∧ p.1 ≠ eof := by
      decide
    exact ⟨c, [], rfl, hpunct _ hc⟩
  | hexi => exact ⟨_, _, rfl, by decide⟩
  | deci => exact ⟨_, _, rfl, by decide⟩
  | register hv =>
    obtain ⟨d, -, rfl⟩ := List.mem_map.mp hv
    exact ⟨_, _, rfl, by decide⟩
  | reserved hv =>
    have hwords : ∀ p ∈ reservedWords.zip reservedTypes, p.1 ≠ [] ∧
        p.1.head?.all isIdentStart = true := by decide +kernel
    obtain ⟨hne, hhead⟩ := hwords _ hv
    cases u with
    | nil => exact absurd rfl hne
    | cons c v => exact ⟨c, v, rfl, hstart c hhead⟩
  | ident hc => exact ⟨_, _, rfl, hstart _ hc⟩

/-! ## Renderings -/

/-- A rendering starts with a character that ends the gap before it, and the layout before it
unless it starts with a newline. -/
theorem renders_head {ts : List Tok} {s : List UInt8} (h : Renders ts s) :
    ∀ c ∈ s.head?, (c = newline ∧ ts.head? = some ⟨.newline, [newline]⟩) ∨
      (isspace c = false ∧ c ≠ semicolon ∧ c ≠ eof) := by
  intro c hc
  cases h with
  | nil => cases hc
  | newline =>
    cases hc
    exact .inl ⟨rfl, rfl⟩
  | token hu =>
    obtain ⟨d, v, rfl, hd⟩ := hu.head
    cases hc
    exact .inr hd
  | comment hu =>
    obtain ⟨d, v, rfl, hd⟩ := hu.head
    cases hc
    exact .inr hd

theorem renders_newline {ts : List Tok} {s : List UInt8}
    (h : Renders (⟨.newline, [newline]⟩ :: ts) s) : s.head? = some newline := by
  cases h with
  | newline => rfl
  | token hu => exact absurd rfl hu.type_ne.2
  | comment hu => exact absurd rfl hu.type_ne.2

theorem Renders.gap {ts : List Tok} {s w : List UInt8} (h : Renders ts s) (hw : Blanks w) :
    Gap w s := by
  refine .stop hw fun c hc => ?_
  rcases renders_head h c hc with ⟨rfl, -⟩ | ⟨hspace, hsemi, heof⟩
  · decide
  · exact ⟨by rw [isBlank, hspace, Bool.false_and], hsemi, heof⟩

section
variable {get : List UInt8 → Option TokType}
  (hget : ∀ v, get v = reservedType (reservedWords.zip reservedTypes) v)
include hget

/-- By induction over the rendering, one token after the other. -/
theorem Renders.lexes {ts : List Tok} {s : List UInt8} (h : Renders ts s) (k : Nat) :
    Lexes get (fun _ => true) k s (.done (ts ++ [⟨.tokEof, [eof]⟩])) := by
  have hcall {k : Nat} {t : Tok} {ts : List Tok} {u r : List UInt8} (htoken : Token get t u r)
      (ht : t.type ≠ .tokEof) (hrest : Lexes get (fun _ => true) (k + 1) r (.done ts)) :
      Lexes get (fun _ => true) k (u ++ r) (.done (t :: ts)) :=
    .token (call_returns_ok_iff.mpr ⟨rfl, u, rfl, htoken⟩) ht hrest
  induction h generalizing k with
  | nil =>
    have heof : (lexGetNextToken get true []).Returns (.ok (⟨.tokEof, [eof]⟩, [])) :=
      (lexGetNextToken_denotes get []).returns_iff.mpr rfl
    exact .eof heof rfl
  | @newline ts w s hw hts hs ih =>
    refine hcall (.newline (.stop hw fun c hc => ?_)) (by simp) (ih (k + 1))
    rcases renders_head hs c hc with ⟨-, hhead⟩ | hstop
    · exact absurd rfl (hts _ hhead)
    · exact hstop
  | token hu hw hsep hs ih =>
    exact hcall (.lexeme (hu.lexeme hget hsep) (hs.gap hw)) hu.type_ne.1 (ih (k + 1))
  | @comment t ts u w v s hu hw hv hs ih =>
    have hsep : Separated (w ++ semicolon :: v ++ s) := by
      cases w with
      | nil => exact ⟨semicolon, rfl, by decide⟩
      | cons c w => exact ⟨c, rfl, isBlank_isSeparator c (hw c List.mem_cons_self)⟩
    exact hcall (.lexeme (hu.lexeme hget (.inr hsep)) (.comment hw hv (renders_newline hs)))
      hu.type_ne.1 (ih (k + 1))

end

/-- **Lexing undoes rendering**: from a rendering of `ts` the lexer returns `ts` and then
`TOK_EOF`. -/
theorem lexMain_renders {μ : Type} {R : Resmap μ} (hR : R.Lawful) {lexAlloc strAlloc : Bool}
    {m : μ} (hm : lexInitialize R lexAlloc strAlloc = some m) {ts : List Tok} {s : List UInt8}
    (h : Renders ts s) :
    (lexMain (R.get m) (fun _ => true) s).Returns (ts ++ [⟨.tokEof, [eof]⟩], none) :=
  (h.lexes (lexInitialize_get hR hm) 0).lexMain_denotes

theorem lexMain_renders_inc :
    (lexMain (listResmap.get (reservedWords.zip reservedTypes)) (fun _ => true)
      (bytes "inc R1 ;up\n")).Returns ([⟨.inc, bytes "inc"⟩, ⟨.register, bytes "R1"⟩,
        ⟨.newline, [newline]⟩, ⟨.tokEof, [eof]⟩], none) := by
  have hblank : Blanks (bytes " ") := by
    unfold Blanks
    decide +kernel
  have hline : Renders [⟨.newline, [newline]⟩] (bytes "\n") := .newline .nil (by simp) .nil
  have hreg : Renders [⟨.register, bytes "R1"⟩, ⟨.newline, [newline]⟩] (bytes "R1 ;up\n") :=
    .comment (u := bytes "R1") (v := bytes "up") (.register (by decide)) hblank (by decide) hline
  have hinc : Renders [⟨.inc, bytes "inc"⟩, ⟨.register, bytes "R1"⟩, ⟨.newline, [newline]⟩]
      (bytes "inc R1 ;up\n") :=
    .token (u := bytes "inc") (.reserved (by decide)) hblank
      (.inr ⟨' '.toUInt8, rfl, by decide⟩) hreg
  exact lexMain_renders listResmap_lawful
    (show lexInitialize listResmap true true = some _ from rfl) hinc

end Cs370.Lexer
