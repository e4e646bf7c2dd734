import Mathlib.Tactic.SplitIfs
import Valgen.Json.Printer
import Valgen.Text.Lines
/-!
# Proofs.Text.Lexer — texts whose literals, comments and brackets end

A lexer that knows string literals in double quotes with backslash escapes, block comments and the three kinds of
brackets (`Lexer.step`); if it is strict, a literal must end on its line.  A text is well formed if the lexer ends
outside of literals and comments with every bracket closed (`Lexer.wellFormed`).

What a text does to the lexer is said by the modes it takes to modes, with the open brackets kept (`Takes`), so that
texts are put together as their readings are (`Takes.append`).  A well-formed text may end in a slash, which together
with a star behind it would open a comment; a text that is `Closed` may stand behind such a one and leaves none.
Literals, bracketed texts and comments are closed whatever they hold, and a block of text that is moved to the right
stays well formed (`Balanced.reindent`).
-/
namespace Valgen

/-! ## Readers -/

namespace Text

variable {σ : Type} {step : σ → Char → Option σ} {s t : σ}

/-- **A text is read by a step for each character**, if none is refused. -/
def readBy (step : σ → Char → Option σ) (s : σ) (cs : List Char) : Option σ := cs.foldlM step s

theorem readBy_cons {c : Char} (h : step s c = some t) (cs : List Char) :
    readBy step s (c :: cs) = readBy step t cs := by
  rw [readBy, List.foldlM_cons, h]
  rfl

theorem readBy_append {a : List Char} (h : readBy step s a = some t) (b : List Char) :
    readBy step s (a ++ b) = readBy step t b := by
  unfold readBy at *
  rw [List.foldlM_append, h]
  rfl

/-- **A reader that follows another step by step follows it along a text.** -/
theorem readBy_of_step {τ : Type} {step' : τ → Char → Option τ} (f : σ → τ)
    (hstep : ∀ {s t c}, step s c = some t → step' (f s) c = some (f t)) :
    ∀ {cs : List Char} {s t : σ}, readBy step s cs = some t → readBy step' (f s) cs = some (f t)
  | [], _, _, h => by
    cases h
    rfl
  | c :: cs, s, t, h => by
    obtain ⟨u, hu, hrest⟩ := Option.bind_eq_some_iff.1 h
    rw [readBy_cons (hstep hu)]
    exact readBy_of_step f hstep hrest

end Text

namespace Lexer

open Text (readBy readBy_cons readBy_append readBy_of_step)

/-- **What the lexer is in.** -/
inductive Mode where
  | code
  /-- Behind a slash, which may open a comment. -/
  | slash
  | string
  /-- Behind a backslash in a literal. -/
  | escape
  | comment
  /-- Behind a star in a comment. -/
  | star
deriving DecidableEq, Repr

/-- **The mode, and the brackets that are to close the open ones**, the innermost first. -/
structure State where
  mode : Mode := .code
  awaited : List Char := []
deriving DecidableEq, Repr

/-- **The bracket that closes an opening one.** -/
def closer? (c : Char) : Option Char :=
  if c = '(' then some ')' else if c = '[' then some ']' else if c = '\x7b' then some '\x7d' else none

def isCloser (c : Char) : Bool := c == ')' || c == ']' || c == '\x7d'

def isBreak (c : Char) : Bool := c == '\n' || c == '\r'

/-- **A character outside of literals and comments.** -/
def codeStep (awaited : List Char) (c : Char) : Option State :=
  if c = '"' then some ⟨.string, awaited⟩
  else if c = '/' then some ⟨.slash, awaited⟩
  else
    match closer? c with
    | some close => some ⟨.code, close :: awaited⟩
    | none =>
      if isCloser c then
        match awaited with
        | [] => none
        | close :: rest => if close = c then some ⟨.code, rest⟩ else none
      else some ⟨.code, awaited⟩

/-- **One character.**  A closing bracket must close the innermost open one; if the lexer is strict, a literal must not
hold a line break but behind a backslash. -/
def step (strict : Bool) (s : State) (c : Char) : Option State :=
  match s.mode with
  | .code => codeStep s.awaited c
  | .slash => if c = '*' then some ⟨.comment, s.awaited⟩ else codeStep s.awaited c
  | .string =>
    if c = '"' then some ⟨.code, s.awaited⟩
    else if c = '\\' then some ⟨.escape, s.awaited⟩
    else if isBreak c && strict then none
    else some ⟨.string, s.awaited⟩
  | .escape => some ⟨.string, s.awaited⟩
  | .comment => some ⟨if c = '*' then .star else .comment, s.awaited⟩
  | .star => some ⟨if c = '/' then .code else if c = '*' then .star else .comment, s.awaited⟩

/-- **Outside of literals and comments.** -/
def Outside (mode : Mode) : Prop := mode = .code ∨ mode = .slash

instance (mode : Mode) : Decidable (Outside mode) := inferInstanceAs (Decidable (_ ∨ _))

/-- **A text is well formed** if the lexer ends outside of literals and comments with every bracket closed. -/
def wellFormed (strict : Bool) (text : String) : Bool :=
  match readBy (step strict) {} text.toList with
  | some ⟨mode, []⟩ => decide (Outside mode)
  | _ => false

example : wellFormed false "f(\"a)\\\"\", [1 /* ] */ ]) /" = true := by decide
example : wellFormed false "f(\"a)" = false ∧ wellFormed false "(]" = false := by decide
example : wellFormed false "\"\n\"" = true ∧ wellFormed true "\"\n\"" = false := by decide

variable {strict : Bool}

/-! ## What texts do to the lexer -/

/-- **A text takes every mode of one kind to one of another kind**, and keeps the open brackets. -/
def Takes (strict : Bool) (before after : Mode → Prop) (cs : List Char) : Prop :=
  ∀ mode awaited, before mode → ∃ mode', after mode' ∧ readBy (step strict) ⟨mode, awaited⟩ cs = some ⟨mode', awaited⟩

namespace Takes

variable {before after between : Mode → Prop} {a b : List Char}

theorem append (ha : Takes strict before between a) (hb : Takes strict between after b) :
    Takes strict before after (a ++ b) := by
  intro mode awaited hmode
  obtain ⟨middle, hmiddle, hreada⟩ := ha mode awaited hmode
  obtain ⟨last, hlast, hreadb⟩ := hb middle awaited hmiddle
  exact ⟨last, hlast, (readBy_append hreada b).trans hreadb⟩

theorem mono {before' after' : Mode → Prop} (h : Takes strict before after a) (hbefore : ∀ m, before' m → before m)
    (hafter : ∀ m, after m → after' m) : Takes strict before' after' a := by
  intro mode awaited hmode
  obtain ⟨last, hlast, hread⟩ := h mode awaited (hbefore mode hmode)
  exact ⟨last, hafter last hlast, hread⟩

theorem nil : Takes strict before before [] := fun mode _ hmode => ⟨mode, hmode, rfl⟩

theorem flatMap {α : Type} {f : α → List Char} : ∀ {xs : List α}, (∀ x ∈ xs, Takes strict before before (f x)) →
    Takes strict before before (xs.flatMap f)
  | [], _ => nil
  | x :: xs, h => by
    rw [List.flatMap_cons]
    exact (h x List.mem_cons_self).append (flatMap (fun y hy => h y (List.mem_cons_of_mem _ hy)))

/-- **A text of characters that each keep the kind of mode keeps it.** -/
theorem ofChars {cs : List Char} (h : ∀ c ∈ cs, Takes strict before before [c]) : Takes strict before before cs := by
  have hflat := flatMap (f := fun c => [c]) h
  rwa [List.flatMap_singleton'] at hflat

end Takes

/-- **Outside of literals and comments, and not behind a slash.** -/
def Fresh (mode : Mode) : Prop := mode = .code

def InString (mode : Mode) : Prop := mode = .string

theorem Fresh.outside {mode : Mode} (h : Fresh mode) : Outside mode := .inl h

/-- **A text that may stand behind a text that is fresh at its end.** -/
def Balanced (strict : Bool) (text : String) : Prop := Takes strict Fresh Outside text.toList

/-- **A text that may stand behind every well-formed text**, and leaves no slash at its end. -/
def Closed (strict : Bool) (text : String) : Prop := Takes strict Outside Fresh text.toList

theorem Closed.balanced {text : String} (h : Closed strict text) : Balanced strict text :=
  h.mono (fun _ => Fresh.outside) (fun _ => Fresh.outside)

theorem Closed.append {a b : String} (ha : Closed strict a) (hb : Closed strict b) : Closed strict (a ++ b) := by
  unfold Closed
  rw [String.toList_append]
  exact Takes.append ha (Takes.mono hb (fun _ => Fresh.outside) (fun _ h => h))

/-- **Well-formed texts with a closed one between them.** -/
theorem Balanced.separated {a between b : String} (ha : Balanced strict a) (hbetween : Closed strict between)
    (hb : Balanced strict b) : Balanced strict (a ++ between ++ b) := by
  unfold Balanced
  rw [String.toList_append, String.toList_append]
  exact (Takes.append ha hbetween).append hb

/-! ## Brackets that were open before -/

theorem step_frame {mode mode' : Mode} {awaited awaited' : List Char} {c : Char} (below : List Char)
    (h : step strict ⟨mode, awaited⟩ c = some ⟨mode', awaited'⟩) :
    step strict ⟨mode, awaited ++ below⟩ c = some ⟨mode', awaited' ++ below⟩ := by
  have hcode : codeStep awaited c = some ⟨mode', awaited'⟩ →
      codeStep (awaited ++ below) c = some ⟨mode', awaited' ++ below⟩ := by
    intro h
    unfold codeStep at h ⊢
    cases hcloser : closer? c <;> cases awaited <;>
      simp only [hcloser, List.nil_append, List.cons_append] at h ⊢ <;> grind
  cases mode <;> simp only [step] at h ⊢ <;> grind

/-- **What a text does does not depend on brackets that were open before it.** -/
theorem read_frame (below : List Char) {cs : List Char} {s t : State} (h : readBy (step strict) s cs = some t) :
    readBy (step strict) ⟨s.mode, s.awaited ++ below⟩ cs = some ⟨t.mode, t.awaited ++ below⟩ :=
  readBy_of_step (fun s => State.mk s.mode (s.awaited ++ below)) (step_frame below) h

theorem wellFormed_iff {text : String} :
    wellFormed strict text = true ↔ ∃ mode, Outside mode ∧ readBy (step strict) {} text.toList = some ⟨mode, []⟩ := by
  unfold wellFormed
  constructor
  · intro h
    split at h
    · rename_i mode hread
      exact ⟨mode, of_decide_eq_true h, hread⟩
    · cases h
  · rintro ⟨mode, hmode, hread⟩
    rw [hread]
    exact decide_eq_true hmode

theorem balanced_iff_wellFormed {text : String} : Balanced strict text ↔ wellFormed strict text = true := by
  rw [wellFormed_iff]
  constructor
  · intro h
    exact h .code [] rfl
  · rintro ⟨mode, hmode, hread⟩ _ awaited rfl
    exact ⟨mode, hmode, read_frame awaited hread⟩

/-! ## Plain text -/

/-- **The characters that are not plain**: those that open or close something, here or in a text that this lexer does
not know, and the carriage return, which may belong to the end of a line. -/
def marks : List Char := ['"', '/', '*', '(', ')', '[', ']', '\x7b', '\x7d', '\r', '\x27', '\x60']

def isPlain (c : Char) : Bool := !marks.contains c

theorem isPlain_of_all {p : Char → Bool} (h : marks.all (fun c => !p c) = true) {c : Char} (hc : p c = true) :
    isPlain c = true := by
  cases hplain : isPlain c with
  | true => rfl
  | false =>
    have hmark : c ∈ marks := by simpa [isPlain] using hplain
    have hnot := List.all_eq_true.1 h c hmark
    rw [hc] at hnot
    cases hnot

theorem takes_of_isPlain {c : Char} (h : isPlain c = true) : Takes strict Outside Fresh [c] := by
  have hcode : ∀ awaited, codeStep awaited c = some ⟨.code, awaited⟩ := by
    intro awaited
    simp only [isPlain, marks, List.contains_cons, List.contains_nil, Bool.or_false, Bool.not_or, Bool.and_eq_true,
      Bool.not_eq_true', beq_eq_false_iff_ne] at h
    simp [codeStep, closer?, isCloser, h]
  have hstar : c ≠ '*' := by
    rintro rfl
    cases h
  rintro mode awaited (rfl | rfl)
  · exact ⟨.code, rfl, readBy_cons (hcode awaited) []⟩
  · exact ⟨.code, rfl, readBy_cons ((if_neg hstar).trans (hcode awaited)) []⟩

theorem closed_of_isPlain {text : String} (hne : text.toList ≠ []) (h : text.toList.all isPlain = true) :
    Closed strict text := by
  unfold Closed
  rw [List.all_eq_true] at h
  cases hcs : text.toList with
  | nil => exact absurd hcs hne
  | cons c cs =>
    rw [hcs] at h
    have htail : ∀ d ∈ cs, Takes strict Fresh Fresh [d] := fun d hd =>
      (takes_of_isPlain (h d (List.mem_cons_of_mem _ hd))).mono (fun _ => Fresh.outside) (fun _ hm => hm)
    exact (takes_of_isPlain (h c List.mem_cons_self)).append (Takes.ofChars htail)

/-! ## Brackets -/

theorem eq_of_closer? {opening close : Char} (h : closer? opening = some close) :
    (opening = '(' ∧ close = ')') ∨ (opening = '[' ∧ close = ']') ∨ (opening = '\x7b' ∧ close = '\x7d') := by
  unfold closer? at h
  grind

theorem takes_bracket {opening close : Char} (h : closer? opening = some close) {cs : List Char}
    (hcs : Takes strict Fresh Outside cs) : Takes strict Outside Fresh (opening :: (cs ++ [close])) := by
  have hopens : ∀ mode stack, Outside mode → step strict ⟨mode, stack⟩ opening = some ⟨.code, close :: stack⟩ := by
    rintro mode stack (rfl | rfl) <;> rcases eq_of_closer? h with ⟨rfl, rfl⟩ | ⟨rfl, rfl⟩ | ⟨rfl, rfl⟩ <;> rfl
  have hcloses : ∀ mode stack, Outside mode → step strict ⟨mode, close :: stack⟩ close = some ⟨.code, stack⟩ := by
    rintro mode stack (rfl | rfl) <;> rcases eq_of_closer? h with ⟨rfl, rfl⟩ | ⟨rfl, rfl⟩ | ⟨rfl, rfl⟩ <;> rfl
  intro mode stack hmode
  obtain ⟨last, hlast, hread⟩ := hcs .code (close :: stack) rfl
  refine ⟨.code, rfl, ?_⟩
  rw [readBy_cons (hopens mode stack hmode), readBy_append hread]
  exact readBy_cons (hcloses last stack hlast) []

/-- **A well-formed text in brackets is closed.** -/
theorem Balanced.bracketed {inner text : String} (h : Balanced strict inner) {opening close : Char}
    (htext : text.toList = opening :: (inner.toList ++ [close])) (hpair : closer? opening = some close) :
    Closed strict text := by
  unfold Closed
  rw [htext]
  exact takes_bracket hpair h

/-- **A text that opens brackets, a well-formed text, and a text that closes them.** -/
theorem takes_around {before cs after : List Char} {awaited : List Char}
    (hbefore : readBy (step strict) {} before = some ⟨.code, awaited⟩)
    (hafter : ∀ mode, Outside mode → readBy (step strict) ⟨mode, awaited⟩ after = some ⟨.code, []⟩)
    (h : Takes strict Fresh Outside cs) : Takes strict Fresh Fresh (before ++ (cs ++ after)) := by
  rintro _ below rfl
  obtain ⟨last, hlast, hread⟩ := h .code (awaited ++ below) rfl
  have hopened : readBy (step strict) ⟨.code, below⟩ before = some ⟨.code, awaited ++ below⟩ := read_frame below hbefore
  refine ⟨.code, rfl, ?_⟩
  rw [readBy_append hopened, readBy_append hread]
  exact read_frame below (hafter last hlast)

/-! ## Literals -/

/-- **A character that stands for itself in a literal.** -/
def isLiteral (c : Char) : Bool := c != '"' && c != '\\' && !isBreak c

/-- **The body of a literal**: characters that stand for themselves, and others behind a backslash. -/
inductive LiteralBody : List Char → Prop
  | nil : LiteralBody []
  | literal {c : Char} {rest : List Char} : isLiteral c = true → LiteralBody rest → LiteralBody (c :: rest)
  | escape {c : Char} {rest : List Char} : isBreak c = false → LiteralBody rest → LiteralBody ('\\' :: c :: rest)

theorem isBreak_of_isLiteral {c : Char} (h : isLiteral c = true) : isBreak c = false := by
  simp only [isLiteral, Bool.and_eq_true, Bool.not_eq_true'] at h
  exact h.2

namespace LiteralBody

variable {a b body : List Char}

theorem append (ha : LiteralBody a) (hb : LiteralBody b) : LiteralBody (a ++ b) := by
  induction ha with
  | nil => exact hb
  | literal hc _ ih => exact .literal hc ih
  | escape hc _ ih => exact .escape hc ih

theorem flatMap {f : Char → List Char} (h : ∀ c, LiteralBody (f c)) : ∀ cs : List Char, LiteralBody (cs.flatMap f)
  | [] => .nil
  | c :: rest => (h c).append (flatMap h rest)

theorem ofLiterals : ∀ {cs : List Char}, (∀ c ∈ cs, isLiteral c = true) → LiteralBody cs
  | [], _ => .nil
  | c :: _, h => .literal (h c List.mem_cons_self) (ofLiterals (fun d hd => h d (List.mem_cons_of_mem _ hd)))

/-- **A reader that knows characters and escapes passes over the body.** -/
theorem foldlM {S : Type} {σ : S → Char → Option S} {inside behind : S}
    (hliteral : ∀ {c}, isLiteral c = true → σ inside c = some inside) (hslash : σ inside '\\' = some behind)
    (hescaped : ∀ c, σ behind c = some inside) (h : LiteralBody body) : body.foldlM σ inside = some inside := by
  induction h with
  | nil => rfl
  | literal hc _ ih =>
    rw [List.foldlM_cons, hliteral hc]
    exact ih
  | @escape c _ _ _ ih =>
    rw [List.foldlM_cons, hslash, Option.bind_eq_bind, Option.bind_some, List.foldlM_cons, hescaped c]
    exact ih

theorem any_isBreak (h : LiteralBody body) : body.any isBreak = false := by
  induction h with
  | nil => rfl
  | literal hc _ ih => rw [List.any_cons, isBreak_of_isLiteral hc, ih, Bool.or_false]
  | escape hc _ ih =>
    rw [List.any_cons, List.any_cons, hc, ih]
    rfl

end LiteralBody

theorem literalBody_hex4 {n : Nat} (h : n < 0x20 ∨ n = 0x2028 ∨ n = 0x2029) :
    LiteralBody ('\\' :: 'u' :: Text.hex4 n) := by
  have hsmall : ∀ m < 0x20, (Text.hex4 m).all isLiteral = true := by decide
  have hdigits : (Text.hex4 n).all isLiteral = true := by
    rcases h with h | rfl | rfl
    · exact hsmall n h
    · decide
    · decide
  exact .escape rfl (.ofLiterals (List.all_eq_true.1 hdigits))

theorem literalBody_escapeChar (c : Char) : LiteralBody (Text.escapeChar c) := by
  unfold Text.escapeChar
  split_ifs with hquote hslash hfeed hreturn htab hother
  · exact .escape rfl .nil
  · exact .escape rfl .nil
  · exact .escape rfl .nil
  · exact .escape rfl .nil
  · exact .escape rfl .nil
  · exact literalBody_hex4 hother
  · exact .literal (by simp [isLiteral, isBreak, hquote, hslash, hfeed, hreturn]) .nil

theorem literalBody_jsonEscapeChar (c : Char) : LiteralBody (Json.escapeChar c) := by
  unfold Json.escapeChar
  split_ifs with hquote hslash _ _ hfeed hreturn _ hother
  · exact .escape rfl .nil
  · exact .escape rfl .nil
  · exact .escape rfl .nil
  · exact .escape rfl .nil
  · exact .escape rfl .nil
  · exact .escape rfl .nil
  · exact .escape rfl .nil
  · exact literalBody_hex4 (.inl hother)
  · exact .literal (by simp [isLiteral, isBreak, hquote, hslash, hfeed, hreturn]) .nil

theorem toList_quote (s : String) : (Text.quote s).toList = '"' :: (Text.escape s.toList ++ ['"']) :=
  String.toList_ofList

theorem toList_jsonQuote (s : String) :
    (Json.quote s).toList = '"' :: (s.toList.flatMap Json.escapeChar ++ ['"']) := String.toList_ofList

theorem step_of_isLiteral {c : Char} (h : isLiteral c = true) (awaited : List Char) :
    step strict ⟨.string, awaited⟩ c = some ⟨.string, awaited⟩ := by
  simp only [isLiteral, Bool.and_eq_true, bne_iff_ne, Bool.not_eq_true'] at h
  obtain ⟨⟨hquote, hslash⟩, hbreak⟩ := h
  simp [step, hquote, hslash, hbreak]

theorem takes_quoted {body : List Char} (h : LiteralBody body) :
    Takes strict Outside Fresh ('"' :: (body ++ ['"'])) := by
  have hopens : Takes strict Outside InString ['"'] := by
    rintro mode awaited (rfl | rfl) <;> exact ⟨.string, rfl, rfl⟩
  have hbody : Takes strict InString InString body := by
    rintro _ awaited rfl
    exact ⟨.string, rfl, h.foldlM (fun hc => step_of_isLiteral hc awaited) rfl (fun _ => rfl)⟩
  have hcloses : Takes strict InString Fresh ['"'] := by
    rintro _ awaited rfl
    exact ⟨.code, rfl, rfl⟩
  exact hopens.append (hbody.append hcloses)

/-- **A literal is closed, whatever it holds.** -/
theorem closed_quote (s : String) : Closed strict (Text.quote s) := by
  unfold Closed
  rw [toList_quote]
  exact takes_quoted (.flatMap literalBody_escapeChar s.toList)

theorem closed_jsonQuote (s : String) : Closed strict (Json.quote s) := by
  unfold Closed
  rw [toList_jsonQuote]
  exact takes_quoted (.flatMap literalBody_jsonEscapeChar s.toList)

theorem not_mem_of_any_isBreak {b : Char} {cs : List Char} (h : cs.any isBreak = false) (hb : isBreak b = true) :
    b ∉ cs := fun hmem => List.any_eq_false.1 h b hmem hb

theorem any_isBreak_quoted {body : List Char} (h : LiteralBody body) :
    ('"' :: (body ++ ['"'])).any isBreak = false := by
  rw [List.any_cons, List.any_append, h.any_isBreak]
  rfl

/-- **A literal holds no line break**, whatever it stands for. -/
theorem any_isBreak_quote (s : String) : (Text.quote s).toList.any isBreak = false := by
  rw [toList_quote]
  exact any_isBreak_quoted (.flatMap literalBody_escapeChar s.toList)

theorem any_isBreak_jsonQuote (s : String) : (Json.quote s).toList.any isBreak = false := by
  rw [toList_jsonQuote]
  exact any_isBreak_quoted (.flatMap literalBody_jsonEscapeChar s.toList)

/-! ## Lines -/

theorem step_return (s : State) : step strict s '\r' = step strict s '\n' := by
  obtain ⟨mode, awaited⟩ := s
  cases mode <;> rfl

/-- **A reader to which margins do not matter**: a carriage return before a line feed can be left out, and behind a line
feed a space can be put. -/
structure IgnoresMargins {S : Type} (σ : S → Char → Option S) : Prop where
  feed_of_return : ∀ {s t u}, σ s '\r' = some t → σ t '\n' = some u → σ s '\n' = some u
  space_of_feed : ∀ {s t}, σ s '\n' = some t → σ t ' ' = some t

theorem ignoresMargins_step : IgnoresMargins (step strict) where
  feed_of_return := by
    intro s t u hreturn hfeed
    rw [step_return] at hreturn
    obtain ⟨mode, awaited⟩ := s
    cases mode <;> cases strict <;> cases hreturn <;> cases hfeed <;> rfl
  space_of_feed := by
    intro s t hfeed
    obtain ⟨mode, awaited⟩ := s
    cases mode <;> cases strict <;> cases hfeed <;> rfl

/-- **A line feed does not lead out of a literal or a comment.** -/
theorem outside_of_step_feed {s t : State} (h : step strict s '\n' = some t) (ht : Outside t.mode) :
    Outside s.mode ∧ s.awaited = t.awaited := by
  obtain ⟨mode, awaited⟩ := s
  cases mode <;> cases strict <;> cases h <;>
    first | exact ⟨.inl rfl, rfl⟩ | exact ⟨.inr rfl, rfl⟩ | cases ht <;> contradiction

/-- **Lines put together**, all but the first behind a margin, unless they are empty. -/
def joined (width : Nat) : List (List Char) → List Char
  | [] => []
  | first :: rest =>
    first ++ rest.flatMap (fun line => '\n' :: (if line = [] then [] else List.replicate width ' ' ++ line))

theorem joined_cons_cons (width : Nat) (c : Char) (line : List Char) (more : List (List Char)) :
    joined width ((c :: line) :: more) = c :: joined width (line :: more) := rfl

theorem lines_eq_nil_iff {cs : List Char} : Text.lines cs = [] ↔ cs = [] := by
  constructor
  · intro h
    unfold Text.lines at h
    split at h
    · rfl
    · cases h
    · cases h
    · split at h <;> cases h
  · rintro rfl
    rfl

namespace IgnoresMargins

variable {S : Type} {σ : S → Char → Option S}

theorem foldlM_margin (hσ : IgnoresMargins σ) {s t : S} (h : σ s '\n' = some t) (width : Nat) (cs : List Char) :
    (List.replicate width ' ' ++ cs).foldlM σ t = cs.foldlM σ t := by
  induction width with
  | zero => rfl
  | succ width ih =>
    rw [List.replicate_succ, List.cons_append, List.foldlM_cons, hσ.space_of_feed h]
    exact ih

theorem foldlM_joined_nil_cons (hσ : IgnoresMargins σ) {s t : S} (h : σ s '\n' = some t) (width : Nat)
    {first : List Char} {more : List (List Char)} :
    (joined width ([] :: first :: more)).foldlM σ s = (joined width (first :: more)).foldlM σ t := by
  have hfirst : ∀ cs, ((if first = [] then [] else List.replicate width ' ' ++ first) ++ cs).foldlM σ t =
      (first ++ cs).foldlM σ t := by
    intro cs
    split_ifs with hempty
    · rw [hempty]
    · rw [List.append_assoc, hσ.foldlM_margin h]
  rw [joined, joined, List.nil_append, List.flatMap_cons, List.cons_append, List.foldlM_cons, h]
  exact hfirst _

/-- **The lines of a text, put together behind a margin, are read as the text**, but for a line feed at its end. -/
theorem foldlM_joined_lines (hσ : IgnoresMargins σ) (width : Nat) (cs : List Char) :
    ∀ {s t : S}, cs.foldlM σ s = some t →
      ∃ u, (joined width (Text.lines cs)).foldlM σ s = some u ∧ (u = t ∨ σ u '\n' = some t) := by
  -- A line that ends: either the text ends with it, or what follows is read from behind the line feed.
  have hends : ∀ {rest : List Char} {s v t : S}, σ s '\n' = some v → rest.foldlM σ v = some t →
      (∃ u, (joined width (Text.lines rest)).foldlM σ v = some u ∧ (u = t ∨ σ u '\n' = some t)) →
      ∃ u, (joined width ([] :: Text.lines rest)).foldlM σ s = some u ∧ (u = t ∨ σ u '\n' = some t) := by
    intro rest s v t hfeed hrest hjoined
    cases hlines : Text.lines rest with
    | nil =>
      rw [lines_eq_nil_iff] at hlines
      rw [hlines] at hrest
      exact ⟨s, rfl, .inr (hfeed.trans hrest)⟩
    | cons first more =>
      rw [hσ.foldlM_joined_nil_cons hfeed, ← hlines]
      exact hjoined
  fun_induction Text.lines cs with
  | case1 =>
    intro s t h
    exact ⟨t, h, .inl rfl⟩
  | case2 rest ih =>
    intro s t h
    rw [List.foldlM_cons] at h
    obtain ⟨middle, hreturn, h⟩ := Option.bind_eq_some_iff.1 h
    rw [List.foldlM_cons] at h
    obtain ⟨v, hfeed, hrest⟩ := Option.bind_eq_some_iff.1 h
    exact hends (hσ.feed_of_return hreturn hfeed) hrest (ih hrest)
  | case3 rest ih =>
    intro s t h
    rw [List.foldlM_cons] at h
    obtain ⟨v, hfeed, hrest⟩ := Option.bind_eq_some_iff.1 h
    exact hends hfeed hrest (ih hrest)
  | case4 c rest _ _ hlines ih =>
    intro s t h
    rw [lines_eq_nil_iff] at hlines
    rw [hlines] at h
    exact ⟨t, h, .inl rfl⟩
  | case5 c rest _ _ line more hlines ih =>
    intro s t h
    rw [List.foldlM_cons] at h
    obtain ⟨v, hstep, hrest⟩ := Option.bind_eq_some_iff.1 h
    rw [joined_cons_cons, List.foldlM_cons, hstep, ← hlines]
    exact ih hrest

end IgnoresMargins

theorem takes_joined_lines (width : Nat) {cs : List Char} (h : Takes strict Fresh Outside cs) :
    Takes strict Fresh Outside (joined width (Text.lines cs)) := by
  intro mode awaited hmode
  obtain ⟨last, hlast, hread⟩ := h mode awaited hmode
  obtain ⟨⟨mode', awaited'⟩, hjoined, hends⟩ := ignoresMargins_step.foldlM_joined_lines width cs hread
  rcases hends with heq | hfeed
  · cases heq
    exact ⟨last, hlast, hjoined⟩
  · obtain ⟨hmode', rfl⟩ := outside_of_step_feed hfeed hlast
    exact ⟨mode', hmode', hjoined⟩

theorem intercalate_feed_cons : ∀ (first : List Char) (rest : List (List Char)),
    ['\n'].intercalate (first :: rest) = first ++ rest.flatMap (fun line => '\n' :: line)
  | first, [] => by rw [List.intercalate_singleton, List.flatMap_nil, List.append_nil]
  | first, next :: rest => by
    rw [List.intercalate_cons_cons, intercalate_feed_cons next rest, List.flatMap_cons, List.append_assoc]
    rfl

/-- **A moved block is its lines put together.** -/
theorem toList_moved (depth : Nat) (first : List Char) (rest : List (List Char)) :
    ("\n".intercalate (String.ofList first ::
      (rest.map String.ofList).map (Text.marginLine (Text.indent depth)))).toList =
        joined (2 * depth) (first :: rest) := by
  have hline : ∀ line : List Char, (Text.marginLine (Text.indent depth) (String.ofList line)).toList =
      if line = [] then [] else List.replicate (2 * depth) ' ' ++ line := by
    intro line
    unfold Text.marginLine Text.indent
    split_ifs with hempty hnil hnil <;> simp_all
  rw [String.toList_intercalate, show "\n".toList = ['\n'] from rfl, List.map_cons, intercalate_feed_cons, List.map_map,
    List.map_map, List.flatMap_map, String.toList_ofList, joined]
  simp only [Function.comp_apply, hline]

/-- **A text that is moved to the right stays as it is, or becomes its lines put together.** -/
theorem reindent_eq_or_joined (text : String) (depth : Nat) : Text.reindent text depth = text ∨
    (Text.reindent text depth).toList = joined (2 * depth) (Text.lines text.toList) := by
  unfold Text.reindent
  split
  · exact .inl rfl
  · refine .inr ?_
    unfold Text.linesOf
    cases hlines : Text.lines text.toList with
    | nil => rfl
    | cons first rest =>
      simp only [List.map_cons]
      exact toList_moved depth first rest

/-- **A well-formed text stays well formed when it is moved to the right.** -/
theorem Balanced.reindent {text : String} (h : Balanced strict text) (depth : Nat) :
    Balanced strict (Text.reindent text depth) := by
  rcases reindent_eq_or_joined text depth with hsame | hjoined
  · rwa [hsame]
  · unfold Balanced
    rw [hjoined]
    exact takes_joined_lines (2 * depth) h

end Lexer
end Valgen
