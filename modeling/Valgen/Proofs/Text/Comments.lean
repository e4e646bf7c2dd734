import Valgen.Proofs.Text.Lexer
/-!
# Proofs.Text.Comments — a text without its comments

A reader copies a text and leaves out its block comments, each with the spaces before it on its line and the line feed
behind it (`Comments.step`, `Comments.erase?`).  What looks like a comment in a literal stays.  The reader holds
spaces back until it sees what follows them, so that a text counts as copied if it stands behind what was copied
before together with the spaces that are still held back (`Erases`); texts are then put together as their copies are
(`Erases.append`).
-/
namespace Valgen
namespace Comments

open Lexer (isBreak isLiteral LiteralBody)
open Text (readBy readBy_cons readBy_append)

/-- **What the reader is in.** -/
inductive Stage where
  /-- Outside of literals and comments, behind spaces that may stand before a comment. -/
  | code (spaces : Nat)
  /-- Behind a slash, which may open a comment. -/
  | slash (spaces : Nat)
  | string
  /-- Behind a backslash in a literal. -/
  | escape
  | comment
  /-- Behind a star in a comment. -/
  | star
  /-- Right behind a comment. -/
  | ended
deriving DecidableEq, Repr

/-- **The stage, and what is copied so far.** -/
structure State where
  stage : Stage := .code 0
  copied : List Char := []
deriving DecidableEq, Repr

/-- **A character outside of literals and comments.** -/
def codeStep (copied : List Char) (spaces : Nat) (c : Char) : State :=
  if c = ' ' then ⟨.code (spaces + 1), copied⟩
  else if c = '/' then ⟨.slash spaces, copied⟩
  else ⟨if c = '"' then .string else .code 0, copied ++ List.replicate spaces ' ' ++ [c]⟩

/-- **One character.**  A literal must end on its line. -/
def step (s : State) (c : Char) : Option State :=
  match s.stage with
  | .code spaces => some (codeStep s.copied spaces c)
  | .slash spaces =>
    if c = '*' then some ⟨.comment, s.copied⟩
    else some (codeStep (s.copied ++ List.replicate spaces ' ' ++ ['/']) 0 c)
  | .string =>
    if isBreak c then none
    else some ⟨if c = '"' then .code 0 else if c = '\\' then .escape else .string, s.copied ++ [c]⟩
  | .escape => some ⟨.string, s.copied ++ [c]⟩
  | .comment => some ⟨if c = '*' then .star else .comment, s.copied⟩
  | .star => some ⟨if c = '/' then .ended else if c = '*' then .star else .comment, s.copied⟩
  | .ended => if c = '\n' then some ⟨.code 0, s.copied⟩ else some (codeStep s.copied 0 c)

/-- **What is copied of a text when it ends**, unless it ends in a literal or in a comment. -/
def State.copy? (s : State) : Option (List Char) :=
  match s.stage with
  | .code spaces => some (s.copied ++ List.replicate spaces ' ')
  | .slash spaces => some (s.copied ++ List.replicate spaces ' ' ++ ['/'])
  | .ended => some s.copied
  | .string | .escape | .comment | .star => none

/-- **A text without its block comments**, the spaces before them and the line feeds behind them. -/
def erase? (text : String) : Option String := ((readBy step {} text.toList).bind State.copy?).map String.ofList

example : erase? "f( /* \" **/\n  /*/ */\n  a / \"/* \\\" */\" )" = some "f(  a / \"/* \\\" */\" )" := by decide
example : erase? "\"a" = none ∧ erase? "a /* b" = none := by decide

/-! ## Texts and their copies -/

/-- **A text is copied as another one**, behind whatever was copied before it. -/
def Erases (text copy : List Char) : Prop :=
  ∀ copied spaces, ∃ copied' spaces', readBy step ⟨.code spaces, copied⟩ text = some ⟨.code spaces', copied'⟩ ∧
    copied' ++ List.replicate spaces' ' ' = copied ++ List.replicate spaces ' ' ++ copy

namespace Erases

variable {a a' b b' cs : List Char}

theorem nil : Erases [] [] := fun copied spaces => ⟨copied, spaces, rfl, by rw [List.append_nil]⟩

theorem append (ha : Erases a a') (hb : Erases b b') : Erases (a ++ b) (a' ++ b') := by
  intro copied spaces
  obtain ⟨copied₁, spaces₁, hread₁, hcopy₁⟩ := ha copied spaces
  obtain ⟨copied₂, spaces₂, hread₂, hcopy₂⟩ := hb copied₁ spaces₁
  refine ⟨copied₂, spaces₂, (readBy_append hread₁ b).trans hread₂, ?_⟩
  rw [hcopy₂, hcopy₁, List.append_assoc _ a' b']

theorem singleton {c : Char} (hquote : c ≠ '"') (hslash : c ≠ '/') : Erases [c] [c] := by
  intro copied spaces
  by_cases hspace : c = ' '
  · refine ⟨copied, spaces + 1, by simp [readBy, step, codeStep, hspace], ?_⟩
    rw [List.replicate_succ', hspace, List.append_assoc]
  · refine ⟨copied ++ List.replicate spaces ' ' ++ [c], 0, ?_, by simp⟩
    simp [readBy, step, codeStep, hspace, hslash, hquote]

/-- **A text without quotes and slashes** is copied as it stands. -/
theorem of_not_mem (hquote : '"' ∉ cs) (hslash : '/' ∉ cs) : Erases cs cs := by
  induction cs with
  | nil => exact nil
  | cons c rest ih =>
    rw [List.mem_cons, not_or] at hquote hslash
    exact (singleton (Ne.symm hquote.1) (Ne.symm hslash.1)).append (ih hquote.2 hslash.2)

end Erases

/-! ## Literals -/

theorem read_literalBody {copied cs : List Char} (h : LiteralBody cs) :
    readBy step ⟨.string, copied⟩ cs = some ⟨.string, copied ++ cs⟩ := by
  induction h generalizing copied with
  | nil => rw [List.append_nil]; rfl
  | @literal c rest hc _ ih =>
    simp only [isLiteral, Bool.and_eq_true, bne_iff_ne, Bool.not_eq_true'] at hc
    have hstep : step ⟨.string, copied⟩ c = some ⟨.string, copied ++ [c]⟩ := by
      simp [step, hc.1.1, hc.1.2, hc.2]
    rw [readBy_cons hstep, List.append_cons copied c rest]
    exact ih
  | @escape c rest _ _ ih =>
    have hslash : step ⟨.string, copied⟩ '\\' = some ⟨.escape, copied ++ ['\\']⟩ := rfl
    have hescaped : step ⟨.escape, copied ++ ['\\']⟩ c = some ⟨.string, copied ++ ['\\'] ++ [c]⟩ := rfl
    rw [readBy_cons hslash, readBy_cons hescaped, ih, List.append_cons copied '\\' (c :: rest),
      List.append_cons _ c rest]

/-- **A literal is copied as it stands**, whatever it holds. -/
theorem erases_quoted {body : List Char} (h : LiteralBody body) :
    Erases ('"' :: (body ++ ['"'])) ('"' :: (body ++ ['"'])) := by
  intro copied spaces
  have hopens : step ⟨.code spaces, copied⟩ '"' = some ⟨.string, copied ++ List.replicate spaces ' ' ++ ['"']⟩ := rfl
  refine ⟨copied ++ List.replicate spaces ' ' ++ ['"'] ++ body ++ ['"'], 0, ?_, by simp⟩
  rw [readBy_cons hopens, readBy_append (read_literalBody h)]
  rfl

theorem erases_quote (s : String) : Erases (Text.quote s).toList (Text.quote s).toList := by
  rw [Lexer.toList_quote]
  exact erases_quoted (.flatMap Lexer.literalBody_escapeChar s.toList)

theorem erases_jsonQuote (s : String) : Erases (Json.quote s).toList (Json.quote s).toList := by
  rw [Lexer.toList_jsonQuote]
  exact erases_quoted (.flatMap Lexer.literalBody_jsonEscapeChar s.toList)

/-! ## Margins -/

theorem read_spaces (copied : List Char) (spaces width : Nat) :
    readBy step ⟨.code spaces, copied⟩ (List.replicate width ' ') = some ⟨.code (spaces + width), copied⟩ := by
  induction width generalizing spaces with
  | zero => rfl
  | succ width ih =>
    have hspace : step ⟨.code spaces, copied⟩ ' ' = some ⟨.code (spaces + 1), copied⟩ := rfl
    rw [List.replicate_succ, readBy_cons hspace, ih, Nat.add_right_comm, Nat.add_assoc]

/-- **A line of its own that is nothing but a comment is left out.** -/
theorem erases_commentLine {width : Nat} {comment : List Char}
    (h : ∀ copied, readBy step ⟨.comment, copied⟩ comment = some ⟨.ended, copied⟩) :
    Erases ('\n' :: (List.replicate width ' ' ++ '/' :: '*' :: (comment ++ ['\n']))) ['\n'] := by
  intro copied spaces
  let before := copied ++ List.replicate spaces ' ' ++ ['\n']
  have hfeed : step ⟨.code spaces, copied⟩ '\n' = some ⟨.code 0, before⟩ := rfl
  have hslash : step ⟨.code (0 + width), before⟩ '/' = some ⟨.slash (0 + width), before⟩ := rfl
  have hstar : step ⟨.slash (0 + width), before⟩ '*' = some ⟨.comment, before⟩ := rfl
  refine ⟨before, 0, ?_, List.append_nil _⟩
  rw [readBy_cons hfeed, readBy_append (read_spaces before 0 width), readBy_cons hslash, readBy_cons hstar,
    readBy_append (h before)]
  rfl

theorem Erases.erase?_eq {text copy : String} (h : Erases text.toList copy.toList) : erase? text = some copy := by
  obtain ⟨copied, spaces, hread, hcopy⟩ := h [] 0
  have hend : State.copy? ⟨.code spaces, copied⟩ = some copy.toList := congrArg some hcopy
  rw [erase?, hread, Option.bind_some, hend, Option.map_some, String.ofList_toList]

end Comments
end Valgen
