import Valgen.Path.Pattern
import Valgen.Proofs.Text.Split
/-!
# Proofs.Path.Spelling — patterns written as texts

In the text of a pattern every piece stands behind a point.  Before a literal or `*` the stars of `**` may be left out
with one of their points, wherever in the pattern that is (`Pattern.Spells`).  The parser writes all these shorthands
out before it looks for pieces (`Pattern.expandDots_of_spells`), and finds the pattern again whichever of them were used
(`Pattern.parse_spelled`).
-/
namespace Valgen

namespace Piece

def text : Piece → String
  | .literal text => text
  | .one => "*"
  | .many => "**"

/-- **A piece that can be told from its text**: a literal is not empty, has no point and is neither `*` nor `**`. -/
def Proper : Piece → Prop
  | .literal text => text ≠ "" ∧ '.' ∉ text.toList ∧ text ≠ "*" ∧ text ≠ "**"
  | .one => True
  | .many => True

instance : DecidablePred Proper
  | .literal _ => inferInstanceAs (Decidable (_ ∧ _))
  | .one => isTrue trivial
  | .many => isTrue trivial

namespace Proper

variable {piece : Piece}

theorem text_ne_nil (h : piece.Proper) : piece.text.toList ≠ [] := by
  cases piece with
  | literal text => exact fun hnil => h.1 (String.toList_eq_nil_iff.1 hnil)
  | one => decide
  | many => decide

theorem point_not_mem (h : piece.Proper) : '.' ∉ piece.text.toList := by
  cases piece with
  | literal text => exact h.2.1
  | one => decide
  | many => decide

theorem pieceOf_text (h : piece.Proper) : Pattern.pieceOf piece.text.toList = piece := by
  cases piece with
  | literal text =>
    have hone : text.toList ≠ ['*'] := fun heq => h.2.2.1 (String.toList_inj.1 heq)
    have hmany : text.toList ≠ ['*', '*'] := fun heq => h.2.2.2 (String.toList_inj.1 heq)
    show Pattern.pieceOf text.toList = .literal text
    rw [Pattern.pieceOf, if_neg hone, if_neg hmany, String.ofList_toList]
  | one => rfl
  | many => rfl

end Proper
end Piece

namespace Pattern

/-- **The text of a pattern**, without shorthands. -/
def spell (pattern : Pattern) : String := "$" ++ String.join (pattern.map (fun piece => "." ++ piece.text))

/-- **The texts that spell a pattern** behind its `$`: before any piece but another `**`, `.**.` may be written `..`. -/
inductive Spells : Pattern → String → Prop
  | nil : Spells [] ""
  | piece (piece : Piece) {rest : Pattern} {text : String} : Spells rest text →
    Spells (piece :: rest) ("." ++ piece.text ++ text)
  | shorthand (piece : Piece) {rest : Pattern} {text : String} : piece ≠ .many → Spells rest text →
    Spells (.many :: piece :: rest) (".." ++ piece.text ++ text)

/-! ## Shorthands written out -/

theorem expandDots_append {cs : List Char} (h : '.' ∉ cs) (rest : List Char) :
    expandDots (cs ++ rest) = cs ++ expandDots rest := by
  induction cs with
  | nil => rfl
  | cons c cs ih =>
    obtain ⟨hc, hcs⟩ := List.ne_and_not_mem_of_not_mem_cons h
    rw [List.cons_append, expandDots, ih hcs, List.cons_append]
    exact fun _ heq => absurd heq.symm hc

/-- **A single point stays**, before a piece that is not empty and has none. -/
theorem expandDots_point {cs : List Char} (hne : cs ≠ []) (h : '.' ∉ cs) (rest : List Char) :
    expandDots ('.' :: (cs ++ rest)) = '.' :: (cs ++ expandDots rest) := by
  cases cs with
  | nil => exact absurd rfl hne
  | cons c cs =>
    rw [← expandDots_append h rest, List.cons_append, expandDots]
    rintro _ _ heq
    exact absurd (List.cons.inj heq).1.symm (List.ne_and_not_mem_of_not_mem_cons h).1

/-- **Whatever shorthands a text uses, all of them are written out.** -/
theorem expandDots_of_spells {pattern : Pattern} {text : String} (h : Spells pattern text)
    (hproper : ∀ piece ∈ pattern, piece.Proper) :
    expandDots text.toList = pattern.flatMap (fun piece => '.' :: piece.text.toList) := by
  induction h with
  | nil => rfl
  | piece piece _ ih =>
    obtain ⟨hpiece, hrest⟩ := List.forall_mem_cons.1 hproper
    simp only [String.toList_append, List.append_assoc]
    show expandDots ('.' :: (piece.text.toList ++ _)) = _
    rw [expandDots_point hpiece.text_ne_nil hpiece.point_not_mem, ih hrest]
    rfl
  | shorthand piece _ _ ih =>
    obtain ⟨hpiece, hrest⟩ := List.forall_mem_cons.1 (List.forall_mem_cons.1 hproper).2
    simp only [String.toList_append, List.append_assoc]
    show expandDots ('.' :: '.' :: (piece.text.toList ++ _)) = _
    rw [expandDots, expandDots_append hpiece.point_not_mem, ih hrest]
    rfl

theorem splitAt_pieces {pattern : Pattern} (hproper : ∀ piece ∈ pattern, piece.Proper) :
    Text.splitAt '.' (pattern.flatMap (fun piece => '.' :: piece.text.toList)) =
      [] :: pattern.map (fun piece => piece.text.toList) := by
  have hpoint : ∀ cs ∈ pattern.map (fun piece => piece.text.toList), '.' ∉ cs := by
    intro cs hcs
    obtain ⟨piece, hpiece, rfl⟩ := List.mem_map.1 hcs
    exact (hproper piece hpiece).point_not_mem
  have hsplit := Text.splitAt_flatMap (List.not_mem_nil (a := '.')) hpoint
  rwa [List.nil_append, List.flatMap_map] at hsplit

/-- **A text that spells a pattern stands for it.** -/
theorem parse_of_spells {pattern : Pattern} {text : String} (h : Spells pattern text)
    (hproper : ∀ piece ∈ pattern, piece.Proper) : parse ("$" ++ text) = pattern := by
  have hroot : dropRoot ("$" ++ text).toList = text.toList := by
    rw [String.toList_append]
    rfl
  have hkept : (pattern.map (fun piece => piece.text.toList)).filter (fun cs => !cs.isEmpty) =
      pattern.map (fun piece => piece.text.toList) := by
    refine List.filter_eq_self.2 (fun cs hcs => ?_)
    obtain ⟨piece, hpiece, rfl⟩ := List.mem_map.1 hcs
    simpa using (hproper piece hpiece).text_ne_nil
  unfold parse
  rw [hroot, expandDots_of_spells h hproper, splitAt_pieces hproper, List.filter_cons_of_neg (by decide), hkept,
    List.map_map]
  calc pattern.map (pieceOf ∘ fun piece => piece.text.toList)
      = pattern.map id := List.map_congr_left (fun piece hpiece => (hproper piece hpiece).pieceOf_text)
    _ = pattern := List.map_id pattern

/-- **The text without shorthands is one that spells the pattern.** -/
theorem spells_join : ∀ pattern : Pattern,
    Spells pattern (String.join (pattern.map (fun piece => "." ++ piece.text)))
  | [] => .nil
  | piece :: rest => by
    rw [List.map_cons, String.join_cons]
    exact .piece piece (spells_join rest)

/-- **A pattern is found again in its text**, and in every other one that uses shorthands for some of its `**`. -/
theorem parse_spelled {pattern : Pattern} (hproper : ∀ piece ∈ pattern, piece.Proper) :
    parse pattern.spell = pattern ∧ ∀ text, Spells pattern text → parse ("$" ++ text) = pattern :=
  ⟨parse_of_spells (spells_join pattern) hproper, fun _ h => parse_of_spells h hproper⟩

/-- **Two `**` before a literal with a `$`, one before `*` and one at the end**: two of the four can be shortened. -/
theorem parse_spelled_stars :
    let pattern : Pattern := [.many, .many, .literal "$x", .many, .one, .many]
    (∀ piece ∈ pattern, piece.Proper) ∧ pattern.spell = "$.**.**.$x.**.*.**" ∧ Spells pattern ".**..$x..*.**" ∧
      parse "$.**.**.$x.**.*.**" = pattern ∧ parse "$.**..$x..*.**" = pattern := by
  intro pattern
  have hproper : ∀ piece ∈ pattern, piece.Proper := by decide
  have hspells : Spells pattern ".**..$x..*.**" :=
    .piece .many (.shorthand (.literal "$x") nofun (.shorthand .one nofun (.piece .many .nil)))
  obtain ⟨hspell, hshort⟩ := parse_spelled hproper
  exact ⟨hproper, by decide, hspells, hspell, hshort _ hspells⟩

end Pattern
end Valgen
