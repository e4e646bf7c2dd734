import Valgen.Proofs.Validator.Texts
/-!
# Proofs.Validator.WellFormed — the text of a validator is well formed

The text of a validator holds the texts that its user wrote in three ways: as literals, as JSON and in comments.  Each
of them ends where it should, whatever it holds (`Lexer.closed_quote`, `Lexer.closed_jsonQuote`, `closed_comment`), so
that the well-formed texts are a kind that the text of a validator is put together in (`lexical`).  If each text that is
taken over is well formed, then so is the text of the validator, in both dialects, with or without comments and at every
depth (`validator_wellFormed`).
-/
namespace Valgen
namespace Render

open Lexer

variable {strict : Bool}

/-! ## Comments -/

/-- **A reader that knows comments**: inside of one, behind a star in it, and behind its end. -/
structure ReadsComments {S : Type} (σ : S → Char → Option S) (inside star out : S) : Prop where
  star_of_inside : σ inside '*' = some star
  inside_of_inside : ∀ {c}, c ≠ '*' → σ inside c = some inside
  star_of_star : σ star '*' = some star
  inside_of_star : ∀ {c}, c ≠ '*' → c ≠ '/' → σ star c = some inside
  ends : σ star '/' = some out

namespace ReadsComments

variable {S : Type} {σ : S → Char → Option S} {inside star out : S}

/-- **A text without the end of a comment stays in the comment**, unless its first slash stands behind a star. -/
theorem foldlM_uncommented (hσ : ReadsComments σ inside star out) (cs : List Char) : ∀ {s : S},
    s = inside ∨ (s = star ∧ cs.head? ≠ some '/') →
      ∃ t, (t = inside ∨ t = star) ∧ (uncommented cs).foldlM σ s = some t := by
  fun_induction uncommented cs with
  | case1 =>
    rintro s (rfl | ⟨rfl, _⟩)
    · exact ⟨s, .inl rfl, rfl⟩
    · exact ⟨s, .inr rfl, rfl⟩
  | case2 rest ih =>
    intro s hs
    have hstar : σ s '*' = some star := by
      rcases hs with rfl | ⟨rfl, _⟩
      · exact hσ.star_of_inside
      · exact hσ.star_of_star
    obtain ⟨t, ht, hread⟩ := ih (.inl rfl)
    refine ⟨t, ht, ?_⟩
    rw [List.foldlM_cons, hstar, Option.bind_eq_bind, Option.bind_some, List.foldlM_cons,
      hσ.inside_of_star (by decide) (by decide), Option.bind_eq_bind, Option.bind_some, List.foldlM_cons,
      hσ.inside_of_inside (by decide)]
    exact hread
  | case3 c rest hend ih =>
    intro s hs
    have hnext : ∃ next, σ s c = some next ∧ (next = inside ∨ (next = star ∧ rest.head? ≠ some '/')) := by
      by_cases hstar : c = '*'
      · have hslash : rest.head? ≠ some '/' := by
          intro hhead
          obtain ⟨d, more, rfl, rfl⟩ : ∃ d more, rest = d :: more ∧ d = '/' := by
            cases rest with
            | nil => cases hhead
            | cons d more => exact ⟨d, more, rfl, Option.some.inj hhead⟩
          exact hend more hstar rfl
        subst hstar
        rcases hs with rfl | ⟨rfl, _⟩
        · exact ⟨star, hσ.star_of_inside, .inr ⟨rfl, hslash⟩⟩
        · exact ⟨s, hσ.star_of_star, .inr ⟨rfl, hslash⟩⟩
      · rcases hs with rfl | ⟨rfl, hhead⟩
        · exact ⟨s, hσ.inside_of_inside hstar, .inl rfl⟩
        · exact ⟨inside, hσ.inside_of_star hstar (fun h => hhead (congrArg some h)), .inl rfl⟩
    obtain ⟨next, hstep, hnext⟩ := hnext
    rw [List.foldlM_cons, hstep]
    exact ih hnext

/-- **A comment ends where it should, whatever it holds.** -/
theorem foldlM_comment (hσ : ReadsComments σ inside star out) (cs : List Char) :
    ('*' :: ' ' :: (uncommented cs ++ [' ', '*', '/'])).foldlM σ inside = some out := by
  obtain ⟨t, ht, hread⟩ := hσ.foldlM_uncommented cs (.inl rfl)
  have hspace : σ t ' ' = some inside := by
    rcases ht with rfl | rfl
    · exact hσ.inside_of_inside (by decide)
    · exact hσ.inside_of_star (by decide) (by decide)
  have hends : [' ', '*', '/'].foldlM σ t = some out := by
    rw [List.foldlM_cons, hspace, Option.bind_eq_bind, Option.bind_some, List.foldlM_cons, hσ.star_of_inside,
      Option.bind_eq_bind, Option.bind_some, List.foldlM_cons, hσ.ends]
    rfl
  rw [List.foldlM_cons, hσ.star_of_inside, Option.bind_eq_bind, Option.bind_some, List.foldlM_cons,
    hσ.inside_of_star (by decide) (by decide), Option.bind_eq_bind, Option.bind_some, List.foldlM_append, hread]
  exact hends

end ReadsComments

theorem toList_comment (text : String) : ("/** " ++ (String.ofList (uncommented text.toList) ++ " */")).toList =
    '/' :: '*' :: '*' :: ' ' :: (uncommented text.toList ++ [' ', '*', '/']) := by simp

theorem readsComments_step (awaited : List Char) :
    ReadsComments (step strict) ⟨.comment, awaited⟩ ⟨.star, awaited⟩ ⟨.code, awaited⟩ where
  star_of_inside := rfl
  inside_of_inside hc := by simp [step, hc]
  star_of_star := rfl
  inside_of_star hstar hslash := by simp [step, hstar, hslash]
  ends := rfl

/-- **A comment is closed, whatever it holds.** -/
theorem closed_comment (text : String) :
    Closed strict ("/** " ++ (String.ofList (uncommented text.toList) ++ " */")) := by
  unfold Closed
  rw [toList_comment]
  rintro mode awaited (rfl | rfl) <;>
    exact ⟨.code, rfl, (readsComments_step awaited).foldlM_comment text.toList⟩

/-! ## Unions of which exactly one member accepts -/

theorem balanced_exactlyOne {members : String} (h : Balanced strict members) :
    Balanced strict (exactlyOne members) := by
  unfold exactlyOne Lexer.Balanced
  simp only [String.append_assoc]
  rw [String.toList_append, String.toList_append]
  refine (takes_around (?_ : Text.readBy (step strict) {} _ = some ⟨.code, ['\x7d']⟩) ?_ h).mono (fun _ hm => hm)
    (fun _ => Fresh.outside)
  · simp only [String.reduceToList]
    cases strict <;> decide +kernel
  · simp only [String.toList_append, String.reduceToList, Text.quote, String.toList_ofList]
    rintro mode (rfl | rfl) <;> cases strict <;> decide +kernel

/-! ## Validators -/

/-- **The well-formed texts**, of which the closed ones are the parts. -/
def lexical (strict jsdocs : Bool) : TextKind jsdocs where
  Whole := Balanced strict
  Part := Closed strict
  empty := balanced_iff_wellFormed.2 rfl
  whole_of_part := Closed.balanced
  part_append := Closed.append
  separated := Balanced.separated
  plain := closed_of_isPlain
  bracketed h hpair htext := h.bracketed htext hpair
  quote := closed_quote
  jsonQuote := closed_jsonQuote
  comment text _ := closed_comment text
  reindent depth h := h.reindent depth
  exactlyOne := balanced_exactlyOne

/-- **The text of a validator is well formed** if each text that it takes over is, in every style and at every depth,
whatever its keys, messages, literals, defaults, patterns, brands and descriptions hold. -/
theorem validator_wellFormed (strict : Bool) (style : Style) (depth : Nat) (v : Validator)
    (h : ∀ text ∈ v.fragments, wellFormed strict text = true) :
    wellFormed strict (validator style depth v) = true :=
  balanced_iff_wellFormed.1 (whole_validator style (K := lexical strict style.jsdocs) depth v
    (fun text ht => balanced_iff_wellFormed.2 (h text ht)))

/-- **A string with a pattern, messages and a default of quotes and brackets.** -/
def hostileAddress : Validator :=
  let checks : List Constraint := [⟨.regex "[\"(/*", some "\n\x7d"⟩]
  (Validator.ofBase (.string (some .ipv4) (some "\\") checks)).withDefault
    (.object [("\"", .array [.string "\x7b\u2028"])])

/-- **An expression with a brand, a predicate of several lines and a reference.** -/
def hostileExpression : Validator :=
  let predicate := "(v) => \x7b\r\n  return v !== \")\";\n\x7d\n"
  (((Validator.custom "f(\"(\", [1 /* ] */])").brand "\">").refine predicate (some "\"")).pipe (Validator.lazy "c")

/-- **An object of both**, with the end of a comment in a description. -/
def hostile : Validator :=
  .ofBase (.object [⟨"a\"]", hostileAddress, some "*/ (\" **/"⟩, ⟨"b", hostileExpression, none⟩] .strict)

theorem validator_wellFormed_hostile : (∀ text ∈ hostile.fragments, wellFormed true text = true) ∧
    wellFormed true (validator ⟨.v3, true⟩ 2 hostile) = true := by
  have hfragments : ∀ text ∈ hostile.fragments, wellFormed true text = true := by decide +kernel
  exact ⟨hfragments, validator_wellFormed true ⟨.v3, true⟩ 2 hostile hfragments⟩

end Render
end Valgen
