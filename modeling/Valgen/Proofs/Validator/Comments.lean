import Valgen.Proofs.Text.Comments
import Valgen.Proofs.Validator.Depths
import Valgen.Proofs.Validator.WellFormed
/-!
# Proofs.Validator.Comments — comments add nothing but themselves

A validator can be written with the descriptions of its properties as comments, or without them.  The latter text is
the former without its comments (`comments_erased`): each comment stands on lines of its own and ends where it should,
whatever the description holds (`ReadsComments.foldlM_comment`), and nothing else in the text can be taken for one,
since what else the user wrote stands in literals.  That a text is copied as another one is a relation that is kept
where texts are put together (`erasing`).
-/
namespace Valgen
namespace Render

open Comments (Erases)
open Lexer

/-! ## Texts and their copies -/

/-- **A text is copied as another one** by the reader that leaves out comments. -/
def Erased (text copy : String) : Prop := Erases text.toList copy.toList

namespace Erased

variable {a a' b b' text : String}

theorem append (ha : Erased a a') (hb : Erased b b') : Erased (a ++ b) (a' ++ b') := by
  unfold Erased
  rw [String.toList_append, String.toList_append]
  exact Erases.append ha hb

theorem of_not_mem (hquote : '"' ∉ text.toList) (hslash : '/' ∉ text.toList) : Erased text text :=
  Erases.of_not_mem hquote hslash

/-- **A text of characters that are neither quotes nor slashes** is copied as it stands. -/
theorem of_all {p : Char → Bool} (hp : (p '"' || p '/') = false) (h : text.toList.all p = true) : Erased text text := by
  rw [List.all_eq_true] at h
  rw [Bool.or_eq_false_iff] at hp
  refine of_not_mem (fun hmem => ?_) (fun hmem => ?_)
  · exact Bool.noConfusion (hp.1.symm.trans (h _ hmem))
  · exact Bool.noConfusion (hp.2.symm.trans (h _ hmem))

theorem quote (s : String) : Erased (Text.quote s) (Text.quote s) := Comments.erases_quote s

end Erased

theorem erased_indent (depth : Nat) : Erased (Text.indent depth) (Text.indent depth) := by
  refine .of_all (p := fun c => c == ' ') rfl ?_
  rw [Text.indent, String.toList_ofList, List.all_replicate]
  simp

theorem erased_bracketed {inner inner' text text' : String} {opening close : Char} (h : Erased inner inner')
    (hpair : closer? opening = some close) (htext : text.toList = opening :: (inner.toList ++ [close]))
    (htext' : text'.toList = opening :: (inner'.toList ++ [close])) : Erased text text' := by
  have hone : Erases [opening] [opening] ∧ Erases [close] [close] := by
    rcases eq_of_closer? hpair with ⟨rfl, rfl⟩ | ⟨rfl, rfl⟩ | ⟨rfl, rfl⟩ <;>
      exact ⟨.singleton (by decide) (by decide), .singleton (by decide) (by decide)⟩
  unfold Erased
  rw [htext, htext']
  exact hone.1.append (Erases.append h hone.2)

theorem erased_exactlyOne {members members' : String} (h : Erased members members') :
    Erased (exactlyOne members) (exactlyOne members') := by
  have hfixed : ∀ text : String, text.toList.all (fun c => c != '"' && c != '/') = true → Erased text text :=
    fun _ => .of_all rfl
  have hcode : Erased "code: \"custom\", message: " "code: \"custom\", message: " := by
    rw [show "code: \"custom\", message: " = "code: " ++ Text.quote "custom" ++ ", message: " by decide +kernel]
    exact ((hfixed "code: " (by decide)).append (.quote "custom")).append (hfixed ", message: " (by decide))
  unfold exactlyOne
  refine Erased.append (.append (.append (.append (.append (hfixed _ ?_) h) (hfixed _ ?_)) hcode) (.quote _))
    (hfixed _ ?_)
  all_goals decide

/-! ## Comments -/

theorem readsComments_erasing (copied : List Char) :
    ReadsComments Comments.step ⟨.comment, copied⟩ ⟨.star, copied⟩ ⟨.ended, copied⟩ where
  star_of_inside := rfl
  inside_of_inside hc := by simp [Comments.step, hc]
  star_of_star := rfl
  inside_of_star hstar hslash := by simp [Comments.step, hstar, hslash]
  ends := rfl

/-- **The comment of a description is left out**, and the line that it stands on. -/
theorem erased_comment (depth : Nat) (text : String) : Erased
    ("\n" ++ Text.indent depth ++ ("/** " ++ (String.ofList (uncommented text.toList) ++ " */")) ++ "\n") "\n" := by
  have htext : ("\n" ++ Text.indent depth ++ ("/** " ++ (String.ofList (uncommented text.toList) ++ " */")) ++
      "\n").toList = '\n' :: (List.replicate (2 * depth) ' ' ++ '/' :: '*' ::
        (('*' :: ' ' :: (uncommented text.toList ++ [' ', '*', '/'])) ++ ['\n'])) := by
    rw [String.toList_append, String.toList_append, toList_comment]
    simp [Text.indent]
  unfold Erased
  rw [htext]
  exact Comments.erases_commentLine (fun copied => (readsComments_erasing copied).foldlM_comment text.toList)

/-- **A line of a shape loses the comment above it.** -/
theorem erased_entry (depth : Nat) (description : Option String) {line line' : String} (h : Erased line line') :
    Erased (entry true depth description line) (entry false depth description line') := by
  have hfeed : Erased "\n" "\n" := .of_not_mem (by decide) (by decide)
  have hoff : entry false depth description line' = "\n" ++ Text.indent depth ++ line' :=
    entry_of_comment_eq_nil rfl line'
  rw [hoff]
  cases description with
  | none =>
    rw [entry_of_comment_eq_nil rfl]
    exact (hfeed.append (erased_indent depth)).append h
  | some text =>
    have hline := (erased_comment depth text).append ((erased_indent depth).append h)
    rw [entry_described]
    simpa only [String.append_assoc] using hline

/-! ## Validators -/

/-- **Texts with comments and without them.** -/
def erasing : TextPair true false 0 where
  Whole := Erased
  Part := Erased
  Describes _ := True
  empty := .of_not_mem List.not_mem_nil List.not_mem_nil
  whole_of_part h := h
  part_append := Erased.append
  separated ha hbetween hb := (ha.append hbetween).append hb
  plain _ h := .of_all rfl h
  bracketed := erased_bracketed
  quote := .quote
  jsonQuote := Comments.erases_jsonQuote
  entry depth description _ ha hline := ha.append (erased_entry depth description hline)
  block depth hbody := by
    have hbrace : ∀ text : String, text.toList.all (fun c => c != '"' && c != '/') = true → Erased text text :=
      fun _ => .of_all rfl
    exact ((hbrace _ (by decide)).append hbody).append
      (((hbrace _ (by decide)).append (erased_indent depth)).append (hbrace _ (by decide)))
  exactlyOne := erased_exactlyOne

/-- **A validator that takes over no text but expressions without quotes and slashes** is copied as it should. -/
theorem fits_erasing {v : Validator} (hblocks : v.blocks = [])
    (hexpression : ∀ text ∈ v.base.expression?, '"' ∉ text.toList ∧ '/' ∉ text.toList) : erasing.Fits v := by
  obtain ⟨base, modifiers⟩ := v
  obtain ⟨hbase, hmodifiers⟩ := List.append_eq_nil_iff.1 hblocks
  refine ⟨?_, fun m hm => ?_⟩
  · cases base with
    | object => exact fun _ _ _ _ => trivial
    | reference expression deferred =>
      obtain ⟨hquote, hslash⟩ := hexpression expression rfl
      cases deferred with
      | true =>
        have htext : (Call.argsText ["() => " ++ expression]).toList =
            "(() => ".toList ++ expression.toList ++ [')'] := by simp [Call.argsText]
        refine Erased.of_not_mem ?_ ?_
        · rw [htext]
          simp [hquote]
        · rw [htext]
          simp [hslash]
      | false => exact Erased.of_not_mem hquote hslash
    | custom text => cases hbase
    | _ => trivial
  · have hnone := List.filterMap_eq_nil_iff.1 hmodifiers m hm
    cases m with
    | refine | superRefine => cases hnone
    | _ => trivial

/-- **Comments add nothing but themselves**: the text of a validator with comments, less its block comments with the
spaces before and the line feed behind each, is its text without comments, in both dialects and at every depth, whatever
its descriptions hold, if it takes over no text but expressions without quotes and slashes. -/
theorem comments_erased (dialect : Dialect) (depth : Nat) (v : Validator) (hblocks : ∀ w, v.Inside w → w.blocks = [])
    (hexpressions : ∀ w, v.Inside w → ∀ text ∈ w.base.expression?, '"' ∉ text.toList ∧ '/' ∉ text.toList) :
    Comments.erase? (validator ⟨dialect, true⟩ depth v) = some (validator ⟨dialect, false⟩ depth v) := by
  have herased : Erased (validator ⟨dialect, true⟩ depth v) (validator ⟨dialect, false⟩ depth v) :=
    erasing.whole_validator dialect depth (fun w hw => fits_erasing (hblocks w hw) (hexpressions w hw))
  exact Erases.erase?_eq herased

/-- **A literal that reads like the end of a comment**, under a key that reads like a whole one. -/
def commentLike : Validator := .ofBase (.literal (.string "*/ \"/*"))

def commentedShape : Validator := .ofBase (.object [⟨"/* a */", commentLike, some "b */ \" /*\n**/\n"⟩] .strict)

/-- **A shape in a shape**, with the marks of comments and literals in all texts. -/
def commented : Validator :=
  (Validator.ofBase (.object
    [⟨"c", commentedShape, some "/"⟩, ⟨"d", Validator.lazy "e[\x27f\x27]", some "*"⟩] .strip)).describe
    "/** g */"

theorem forall_inside_commented {P : Validator → Prop}
    (h : ∀ w ∈ [commented, commentedShape, commentLike, .lazy "e[\x27f\x27]"], P w) :
    ∀ w, commented.Inside w → P w := by
  have hleaf : ∀ v ∈ [commented, commentedShape, commentLike, .lazy "e[\x27f\x27]"], v.parts = [] →
      ∀ w, v.Inside w → P w := fun v hv hparts =>
    Validator.forall_inside_iff.2 ⟨h v hv, by rw [hparts]; exact fun _ hc => absurd hc List.not_mem_nil⟩
  have hshape : ∀ w, commentedShape.Inside w → P w := by
    refine Validator.forall_inside_iff.2 ⟨h _ (by simp), ?_⟩
    show ∀ c ∈ [commentLike], _
    rw [List.forall_mem_singleton]
    exact hleaf _ (by simp) rfl
  refine Validator.forall_inside_iff.2 ⟨h _ (by simp), ?_⟩
  show ∀ c ∈ [commentedShape, .lazy "e[\x27f\x27]"], _
  rw [List.forall_mem_cons, List.forall_mem_singleton]
  exact ⟨hshape, hleaf _ (by simp) rfl⟩

theorem comments_erased_commented : (∀ w, commented.Inside w → w.blocks = []) ∧
    (∀ w, commented.Inside w → ∀ text ∈ w.base.expression?, '"' ∉ text.toList ∧ '/' ∉ text.toList) ∧
      validator ⟨.v4, true⟩ 1 commented ≠ validator ⟨.v4, false⟩ 1 commented ∧
      Comments.erase? (validator ⟨.v4, true⟩ 1 commented) = some (validator ⟨.v4, false⟩ 1 commented) := by
  have hblocks : ∀ w, commented.Inside w → w.blocks = [] := forall_inside_commented (by decide +kernel)
  have hexpressions : ∀ w, commented.Inside w → ∀ text ∈ w.base.expression?, '"' ∉ text.toList ∧ '/' ∉ text.toList :=
    forall_inside_commented (by decide +kernel)
  exact ⟨hblocks, hexpressions, by decide +kernel, comments_erased .v4 1 commented hblocks hexpressions⟩

end Render
end Valgen
