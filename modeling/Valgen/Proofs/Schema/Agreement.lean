import Valgen.Proofs.Json.Reading
import Valgen.Schema.Source
/-!
# Proofs.Schema.Agreement — schemas from texts and from values

A schema can be read from a text or from a value.  A value has every key of an object once, whereas a text may repeat
one, and only in a text can too much be nested.  Apart from that it does not matter which of the two is read: if a text
stands for a value, both are refused or both are the same schema (`Schema.text_and_value_agree`).
-/
namespace Valgen

namespace Schema

theorem parseWith_of_denotes {float : Json.Rounding} {text : String} {value : Json} (h : Json.Denotes float text value)
    (hnesting : value.nesting ≤ Json.nestingLimit) :
    Node.parseWith float text = (Node.ofJson? value).elim (.error (.malformed none)) .ok := by
  obtain ⟨c, hfirst, hend⟩ := Json.readFirst_of_denotes h hnesting
  unfold Node.parseWith
  rw [hfirst]
  cases hnode : Node.ofJson? value with
  | none => simp only [hnode, Option.elim_none]
  | some node => simp only [hnode, hend, Option.elim_some]

/-- **A text and the value it stands for are the same schema, or neither is one**, whichever way numbers are rounded.
The text may be any of the grammar, with as much nested in it as may be, and no object of it repeats a key. -/
theorem text_and_value_agree (float : Json.Rounding) {text : String} {value : Json}
    (htext : Json.Denotes float text value) (hnesting : value.nesting ≤ Json.nestingLimit)
    (honce : value.keysOnce = true) :
    (∃ node, Node.parseWith float text = .ok node ∧ Node.ofValue value = .ok node) ∨
      Node.parseWith float text = .error (.malformed none) ∧ Node.ofValue value = .error .wrongShape := by
  rw [parseWith_of_denotes htext hnesting, Node.ofValue, Json.mergeRepeats_of_keysOnce value honce]
  cases Node.ofJson? value with
  | none => exact .inr ⟨rfl, rfl⟩
  | some node => exact .inl ⟨node, rfl, rfl⟩

-- A keyword that is written twice is refused in a text, and merged in a value.
example : (Node.parse "\x7b\"type\":\"null\",\"type\":\"null\"\x7d").isOk = false ∧
    (Node.ofValue (.object [("type", .string "null"), ("type", .string "null")])).isOk = true := by decide +kernel

def minusFifteen : Json.Numeral where
  negative := true
  whole := ⟨['1'], by decide, by simp⟩
  leading := by decide
  fraction := some ⟨['5'], by decide, by simp⟩
  exponent := some ⟨'E', .inr rfl, ['+'], .inr (.inl rfl), ⟨['1'], by decide, by simp⟩⟩

/-- **A schema with a float and a list of schemas**, the second of which has a format with escapes, one of them a
surrogate pair; blanks stand before a colon and behind commas. -/
theorem text_and_value_agree_items :
    let text := "\x7b\"minimum\" :-1.5E+1,\n\"items\":[true, \x7b\"format\":\"\\u00e9\\ud83d\\ude00\"\x7d]\x7d"
    let value : Json := .object [("minimum", .number (.float ⟨true, 15 * Nat.pow 2 49, -49⟩)),
      ("items", .array [.bool true, .object [("format", .string "é😀")]])]
    Json.Denotes Json.round text value ∧ value.nesting ≤ Json.nestingLimit ∧ value.keysOnce = true ∧
      ∃ node, Node.parse text = .ok node ∧ Node.ofValue value = .ok node := by
  intro text value
  have hblank : Json.Blank [] := by decide
  have hspace : Json.Blank [' '] := by decide
  have hfeed : Json.Blank ['\n'] := by decide
  have hformat : Json.Written Json.round (.value (.string "é😀")) "\"\\u00e9\\ud83d\\ude00\"".toList :=
    .string (@Json.Body.code ['0', '0', 'e', '9'] _ _ 0xe9 (by decide) (by decide)
      (@Json.Body.pair ['d', '8', '3', 'd'] ['d', 'e', '0', '0'] _ _ 0xd83d 0xde00 (by decide) (by decide) (by decide)
        (by decide) .nil))
  have hminimum : Json.Written Json.round (.value (.number (.float ⟨true, 15 * Nat.pow 2 49, -49⟩))) "-1.5E+1".toList :=
    .number minusFifteen (by decide +kernel)
  have hitems := Json.Written.array (.item (.element hblank (.truth true) hblank)
    (.lastItem (.element hspace (.object (.lastMember (.self "format" (by decide) hblank hblank)
      (.element hblank hformat hblank))) hblank)))
  have hschema := Json.Written.object (.member (.self "minimum" (by decide) hblank hspace)
    (.element hblank hminimum hblank) (.lastMember (.self "items" (by decide) hfeed hblank)
      (.element hblank hitems hblank)))
  have htext : Json.Written Json.round (.element value) text.toList :=
    Eq.mp (congrArg (Json.Written Json.round (.element value)) (by decide)) (Json.Written.element hblank hschema hblank)
  refine ⟨htext, by decide, by decide, ?_⟩
  rcases text_and_value_agree Json.round htext (by decide) (by decide) with hnode | ⟨_, herror⟩
  · exact hnode
  · have hok : (Node.ofValue value).isOk = true := by decide +kernel
    rw [herror] at hok
    cases hok

end Schema
end Valgen
