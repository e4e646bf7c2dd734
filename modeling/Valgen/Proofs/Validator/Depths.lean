import Valgen.Proofs.Text.Margins
import Valgen.Proofs.Validator.Pairs
/-!
# Proofs.Validator.Depths — a validator that is written elsewhere and moved

The text of a validator can be written at some depth and moved to a deeper one as a block.  It then reads as if it had
been written there (`reindent_validator`), provided that the texts it takes over can be moved: those of several lines
must have no carriage returns and must not end in a line feed, those of one line must have one line.  Being moved is a
relation of texts that is kept where texts are put together (`moved`), since the lines of a shape stand behind the
margin that moving them makes deeper (`Moved.line`).

An expression that ends in a carriage return cannot stand at the end of a line: moving the text takes it for a part of
the line's end (`not_reindent_returning`).
-/
namespace Valgen

/-! ## Texts that are taken over -/

def Base.expression? : Base → Option String
  | .reference expression _ => some expression
  | _ => none

/-- **The expression that a base consists of**, so that it may end a line. -/
def Base.directExpression? : Base → Option String
  | .reference expression false => some expression
  | _ => none

def Base.block? : Base → Option String
  | .custom text => some text
  | _ => none

def Modifier.block? : Modifier → Option String
  | .refine predicate _ => some predicate
  | .superRefine body => some body
  | _ => none

def Base.descriptions : Base → List String
  | .object properties _ => properties.filterMap Property.description
  | _ => []

namespace Validator

/-- **The texts of several lines that a validator takes over itself.** -/
def blocks (v : Validator) : List String := v.base.block?.toList ++ v.modifiers.filterMap Modifier.block?

/-- **The texts that a validator takes over itself keep to their lines**: those of several lines hold no carriage return
and do not end in a line feed, and expressions, and descriptions if they are written, have one line. -/
structure KeepsLines (jsdocs : Bool) (v : Validator) : Prop where
  blocks : ∀ text ∈ v.blocks, '\r' ∉ text.toList ∧ text.toList.getLast? ≠ some '\n'
  expression : ∀ text ∈ v.base.expression?, '\n' ∉ text.toList
  descriptions : jsdocs = false ∨ ∀ text ∈ v.base.descriptions, '\n' ∉ text.toList

instance (jsdocs : Bool) (v : Validator) : Decidable (v.KeepsLines jsdocs) :=
  decidable_of_iff (_ ∧ _ ∧ _) ⟨fun h => ⟨h.1, h.2.1, h.2.2⟩, fun h => ⟨h.blocks, h.expression, h.descriptions⟩⟩

end Validator

namespace Render

open Lexer Text

/-! ## Texts that are moved -/

/-- **A tidy text, and the text that it is when it is moved.** -/
structure Moved (lag : Nat) (text moved : String) : Prop where
  tidy : Tidy text.toList
  eq : moved.toList = shifted (2 * lag) text.toList

variable {lag : Nat}

namespace Moved

variable {a a' b b' text : String}

theorem append (ha : Moved lag a a') (hb : Moved lag b b') : Moved lag (a ++ b) (a' ++ b') := by
  refine ⟨?_, ?_⟩
  · rw [String.toList_append]
    exact ha.tidy.append hb.tidy
  · rw [String.toList_append, String.toList_append, shifted_append ha.tidy.getLast?_ne, ha.eq, hb.eq]

/-- **A text of one line stays as it is.** -/
theorem of_not_mem (hfeed : '\n' ∉ text.toList) (hlast : text.toList.getLast? ≠ some '\r') : Moved lag text text :=
  ⟨.of_not_mem_feed hfeed hlast, (shifted_of_not_mem hfeed).symm⟩

theorem of_isBreak (h : text.toList.any isBreak = false) : Moved lag text text :=
  of_not_mem (not_mem_of_any_isBreak h rfl)
    (fun hlast => not_mem_of_any_isBreak h rfl (List.mem_of_mem_getLast? hlast))

/-- **A line of its own, at the two depths**, unless it is empty. -/
theorem line (ha : Moved lag a a') (hb : Moved lag b b') (hfirst : b.toList.head?.getD '\n' ≠ '\n') (depth : Nat) :
    Moved lag (a ++ ("\n" ++ indent depth ++ b)) (a' ++ ("\n" ++ indent (depth + lag) ++ b')) := by
  have hline : ∀ (depth : Nat) (b : String),
      ("\n" ++ indent depth ++ b).toList = '\n' :: (List.replicate (2 * depth) ' ' ++ b.toList) := by
    intro depth b
    simp [indent]
  have hspaces : Tidy (List.replicate (2 * depth) ' ') :=
    .of_not_mem_feed (fun h => by cases List.eq_of_mem_replicate h)
      (fun h => by cases List.eq_of_mem_replicate (List.mem_of_mem_getLast? h))
  refine ⟨?_, ?_⟩
  · rw [String.toList_append, hline]
    refine ha.tidy.append ((hspaces.append hb.tidy).feed_cons (fun hnil => hfirst ?_))
    rw [(List.append_eq_nil_iff.1 hnil).2]
    rfl
  · have hdeeper := hline (depth + lag) b'
    rw [String.toList_append, hdeeper, String.toList_append, hline, shifted_append ha.tidy.getLast?_ne,
      shifted_line (2 * depth) hfirst, ha.eq, hb.eq, Nat.mul_add]

/-- **A block of text at the two depths.** -/
theorem reindent (hreturn : '\r' ∉ text.toList) (hlast : text.toList.getLast? ≠ some '\n') (depth : Nat) :
    Moved lag (Text.reindent text depth) (Text.reindent text (depth + lag)) := by
  have htidy : Tidy text.toList := .of_not_mem_return hreturn hlast
  refine ⟨?_, ?_⟩
  · rw [toList_reindent htidy]
    refine .of_not_mem_return (fun hmem => ?_) (by rwa [getLast?_shifted])
    rcases mem_shifted hmem with hspace | hmem
    · cases hspace
    · exact hreturn hmem
  · rw [toList_reindent htidy, toList_reindent htidy, shifted_shifted, Nat.mul_add]

end Moved

theorem moved_comment {text : String} (h : '\n' ∉ text.toList) : Moved lag
    ("/** " ++ (String.ofList (uncommented text.toList) ++ " */"))
    ("/** " ++ (String.ofList (uncommented text.toList) ++ " */")) := by
  refine .of_not_mem (fun hmem => ?_) ?_
  · simp only [String.toList_append, String.toList_ofList, List.mem_append] at hmem
    rcases hmem with hmem | hmem | hmem
    · exact absurd hmem (by decide)
    · rcases mem_uncommented hmem with hescape | hmem
      · cases hescape
      · exact h hmem
    · exact absurd hmem (by decide)
  · rw [← String.append_assoc, String.toList_append, List.getLast?_append_of_ne_nil _ (by decide)]
    decide

theorem moved_exactlyOne {members members' : String} (h : Moved lag members members') :
    Moved lag (exactlyOne members) (exactlyOne members') := by
  have hfixed : ∀ text : String, text.toList.any isBreak = false → Moved lag text text := fun _ => .of_isBreak
  unfold exactlyOne
  refine Moved.append (.append (.append (.append (.append (hfixed _ ?_) h) (hfixed _ ?_)) (hfixed _ ?_))
    (hfixed _ (any_isBreak_quote _))) (hfixed _ ?_)
  all_goals decide

theorem isBreak_of_isInline {c : Char} (h : isInline c = true) : isBreak c = false := by
  have hfeed : c ≠ '\n' := by
    rintro rfl
    cases h
  have hreturn : c ≠ '\r' := by
    rintro rfl
    cases h
  simp [isBreak, hfeed, hreturn]

theorem moved_bracketed {inner inner' text text' : String} {opening close : Char} (h : Moved lag inner inner')
    (hpair : closer? opening = some close) (htext : text.toList = opening :: (inner.toList ++ [close]))
    (htext' : text'.toList = opening :: (inner'.toList ++ [close])) : Moved lag text text' := by
  have hone : ∀ c, isBreak c = false → Moved lag (String.singleton c) (String.singleton c) := fun c hc =>
    .of_isBreak (by simpa using hc)
  have hbreak : isBreak opening = false ∧ isBreak close = false := by
    rcases eq_of_closer? hpair with ⟨rfl, rfl⟩ | ⟨rfl, rfl⟩ | ⟨rfl, rfl⟩ <;> exact ⟨rfl, rfl⟩
  have hwhole := ((hone opening hbreak.1).append h).append (hone close hbreak.2)
  have heq : text = String.singleton opening ++ inner ++ String.singleton close := String.toList_inj.1 (by simp [htext])
  have heq' : text' = String.singleton opening ++ inner' ++ String.singleton close :=
    String.toList_inj.1 (by simp [htext'])
  rw [heq, heq']
  exact hwhole

/-- **Texts at two depths**, of which the deeper one is the other one moved. -/
def moved (jsdocs : Bool) (lag : Nat) : TextPair jsdocs jsdocs lag where
  Whole := Moved lag
  -- A line gets a margin only if it is not empty, which is why a part must not begin with a line feed.
  Part a a' := Moved lag a a' ∧ a.toList.head?.getD '\n' ≠ '\n'
  Describes text := jsdocs = false ∨ '\n' ∉ text.toList
  empty := .of_isBreak rfl
  whole_of_part h := h.1
  part_append := by
    rintro a a' b b' ⟨ha, hfirst⟩ ⟨hb, _⟩
    refine ⟨ha.append hb, ?_⟩
    rw [String.toList_append]
    cases hcs : a.toList with
    | nil => exact absurd (by rw [hcs]; rfl) hfirst
    | cons c cs =>
      rw [hcs] at hfirst
      exact hfirst
  separated ha hbetween hb := (ha.append hbetween.1).append hb
  plain := by
    intro text hne hinline
    have hbreak : text.toList.any isBreak = false := List.any_eq_false.2 (fun c hc => by
      simp [isBreak_of_isInline (List.all_eq_true.1 hinline c hc)])
    refine ⟨.of_isBreak hbreak, ?_⟩
    cases hcs : text.toList with
    | nil => exact absurd hcs hne
    | cons c cs =>
      rintro rfl
      exact not_mem_of_any_isBreak hbreak rfl (by rw [hcs]; exact List.mem_cons_self)
  bracketed := by
    intro inner inner' text text' opening close h hpair htext htext'
    refine ⟨moved_bracketed h hpair htext htext', ?_⟩
    rw [htext]
    rcases eq_of_closer? hpair with ⟨rfl, rfl⟩ | ⟨rfl, rfl⟩ | ⟨rfl, rfl⟩ <;> simp
  quote s := ⟨.of_isBreak (any_isBreak_quote s), by simp [Text.quote]⟩
  jsonQuote s := ⟨.of_isBreak (any_isBreak_jsonQuote s), by simp [Json.quote]⟩
  entry := by
    rintro a a' line line' depth description hdescription ha ⟨hline, hfirst⟩
    cases jsdocs with
    | false =>
      rw [entry_of_comment_eq_nil rfl, entry_of_comment_eq_nil rfl]
      exact ha.line hline hfirst depth
    | true =>
      cases description with
      | none =>
        rw [entry_of_comment_eq_nil rfl, entry_of_comment_eq_nil rfl]
        exact ha.line hline hfirst depth
      | some text =>
        have htext : '\n' ∉ text.toList := (hdescription text rfl).resolve_left Bool.noConfusion
        have hcomment := ha.line (moved_comment htext) (by simp) depth
        rw [entry_described, entry_described]
        simpa only [String.append_assoc] using hcomment.line hline hfirst depth
  block := by
    intro body body' depth hbody
    have hopened : Moved lag ("\x7b" ++ body) ("\x7b" ++ body') := (Moved.of_isBreak (by decide)).append hbody
    exact ⟨hopened.line (.of_isBreak (by decide)) (by decide) depth, by simp⟩
  exactlyOne := moved_exactlyOne

/-- **The texts that a validator takes over itself are moved as they should**, if they keep to their lines. -/
theorem fits_moved {jsdocs : Bool} {v : Validator} (h : v.KeepsLines jsdocs)
    (hdirect : ∀ text ∈ v.base.directExpression?, text.toList.getLast? ≠ some '\r') : (moved jsdocs lag).Fits v := by
  obtain ⟨base, modifiers⟩ := v
  obtain ⟨hblocks, hexpression, hdescriptions⟩ := h
  have hblock : ∀ {text : String}, text ∈ Validator.blocks ⟨base, modifiers⟩ → (moved jsdocs lag).Block text :=
    fun hmem depth => .reindent (hblocks _ hmem).1 (hblocks _ hmem).2 depth
  refine ⟨?_, fun m hm => ?_⟩
  · cases base with
    | object properties rest =>
      exact fun p hp text htext => hdescriptions.imp_right (fun hall => hall text (List.mem_filterMap.2 ⟨p, hp, htext⟩))
    | reference expression deferred =>
      have hfeed := hexpression expression rfl
      cases deferred with
      | true =>
        -- The parenthesis behind the expression keeps a carriage return at its end from ending a line.
        have htext : (Call.argsText ["() => " ++ expression]).toList =
            "(() => ".toList ++ expression.toList ++ [')'] := by simp [Call.argsText]
        refine ⟨.of_not_mem ?_ ?_, ?_⟩
        · rw [htext]
          simp [hfeed]
        · rw [htext, List.getLast?_append_of_ne_nil _ (by decide)]
          decide
        · rw [htext]
          simp
      | false => exact .of_not_mem hfeed (hdirect expression rfl)
    | custom text => exact hblock (List.mem_append_left _ List.mem_cons_self)
    | _ => trivial
  · have hmodifier : ∀ {text : String}, m.block? = some text → text ∈ Validator.blocks ⟨base, modifiers⟩ := fun htext =>
      List.mem_append_right _ (List.mem_filterMap.2 ⟨m, hm, htext⟩)
    cases m with
    | refine predicate text => exact hblock (hmodifier rfl)
    | superRefine body => exact hblock (hmodifier rfl)
    | _ => trivial

/-- **A validator written at a depth and moved reads as if it had been written deeper**, in every style and at all
depths, if the texts that it takes over keep to their lines and the expressions that stand for themselves do not end
in a carriage return. -/
theorem reindent_validator (style : Style) (depth more : Nat) (v : Validator)
    (h : ∀ w, v.Inside w → w.KeepsLines style.jsdocs)
    (hdirect : ∀ w, v.Inside w → ∀ text ∈ w.base.directExpression?, text.toList.getLast? ≠ some '\r') :
    reindent (validator style depth v) more = validator style (depth + more) v := by
  have hmoved : Moved more (validator style depth v) (validator style (depth + more) v) :=
    (moved style.jsdocs more).whole_validator style.dialect depth (fun w hw => fits_moved (h w hw) (hdirect w hw))
  rw [← String.toList_inj, toList_reindent hmoved.tidy, hmoved.eq]

/-- **An expression and a predicate of several lines**, one of them empty. -/
def severalLines : Validator := (Validator.custom "f(\n  1\n)").refine "(v) => \x7b\n\n  return v;\n\x7d" (some "\n")

/-- **A shape with carriage returns** in a description and in an expression that is looked up later. -/
def innerLines : Validator :=
  .ofBase (.object [⟨"b", severalLines, none⟩, ⟨"c", Validator.lazy "d\r", some "e\r*/"⟩] .strict)

def nestedLines : Validator :=
  .ofBase (.object [⟨"a", innerLines, some "\"f\""⟩, ⟨"g", Validator.reference "h", none⟩] .strip)

theorem forall_inside_nestedLines {P : Validator → Prop}
    (h : ∀ w ∈ [nestedLines, innerLines, severalLines, .lazy "d\r", .reference "h"], P w) :
    ∀ w, nestedLines.Inside w → P w := by
  have hleaf : ∀ v ∈ [nestedLines, innerLines, severalLines, .lazy "d\r", .reference "h"], v.parts = [] →
      ∀ w, v.Inside w → P w := fun v hv hparts =>
    Validator.forall_inside_iff.2 ⟨h v hv, by rw [hparts]; exact fun _ hc => absurd hc List.not_mem_nil⟩
  have hinner : ∀ w, innerLines.Inside w → P w := by
    refine Validator.forall_inside_iff.2 ⟨h _ (by simp), ?_⟩
    show ∀ c ∈ [severalLines, .lazy "d\r"], _
    rw [List.forall_mem_cons, List.forall_mem_singleton]
    exact ⟨hleaf _ (by simp) rfl, hleaf _ (by simp) rfl⟩
  refine Validator.forall_inside_iff.2 ⟨h _ (by simp), ?_⟩
  show ∀ c ∈ [innerLines, .reference "h"], _
  rw [List.forall_mem_cons, List.forall_mem_singleton]
  exact ⟨hinner, hleaf _ (by simp) rfl⟩

theorem reindent_validator_nestedLines :
    (∀ w, nestedLines.Inside w → w.KeepsLines true) ∧
      (∀ w, nestedLines.Inside w → ∀ text ∈ w.base.directExpression?, text.toList.getLast? ≠ some '\r') ∧
      reindent (validator ⟨.v4, true⟩ 1 nestedLines) 2 = validator ⟨.v4, true⟩ 3 nestedLines := by
  have hlines : ∀ w, nestedLines.Inside w → w.KeepsLines true := forall_inside_nestedLines (by decide +kernel)
  have hdirect : ∀ w, nestedLines.Inside w →
      ∀ text ∈ w.base.directExpression?, text.toList.getLast? ≠ some '\r' :=
        forall_inside_nestedLines (by decide +kernel)
  exact ⟨hlines, hdirect, reindent_validator ⟨.v4, true⟩ 1 2 nestedLines hlines hdirect⟩

/-- **A shape whose last line ends in an expression with a carriage return at its end.** -/
def returning : Validator := .ofBase (.object [⟨"q", Validator.reference "a\r", none⟩] .strip)

theorem not_reindent_returning : (∀ w, returning.Inside w → w.KeepsLines false) ∧
    reindent (validator ⟨.v4, false⟩ 0 returning) 1 ≠ validator ⟨.v4, false⟩ 1 returning := by
  refine ⟨Validator.forall_inside_iff.2 ⟨by decide +kernel, ?_⟩, by decide +kernel⟩
  show ∀ c ∈ [Validator.reference "a\r"], _
  rw [List.forall_mem_singleton, Validator.forall_inside_iff]
  exact ⟨by decide +kernel, fun _ hc => absurd hc List.not_mem_nil⟩

end Render
end Valgen
