import Valgen.Path
import Valgen.Proofs.Schema.Pointers
/-!
# Proofs.Schema.Places — paths that lead back to schemas

A step to a subschema adds a keyword to the path, and a key or an index where the keyword holds several subschemas
(`Step.segments`).  The path of steps, written as a pointer, finds what the steps lead to (`Node.pointer?_place`).
-/
namespace Valgen
namespace Schema

namespace Step

def segment? : Step → Option Segment
  | .property key | .defs key | .definition key => some (.key key)
  | .item index | .prefixItem index | .allOf index | .anyOf index | .oneOf index => some (.index index)
  | _ => none

/-- **What a step adds to a path.** -/
def segments (step : Step) : Path := .key step.keyword :: step.segment?.toList

theorem map_text_segments (step : Step) : step.segments.map Segment.text = step.tokens := by
  cases step <;> rfl

end Step

/-- **The path as a pointer**: its segments behind slashes, with `~` and `/` in them escaped. -/
def Pointer.ofPath (path : Path) : String := ofTokens (path.map Segment.text)

theorem Pointer.ofPath_segments (steps : List Step) : ofPath (steps.flatMap Step.segments) = ofSteps steps := by
  unfold ofPath ofSteps
  rw [List.map_flatMap]
  simp only [Step.map_text_segments]

namespace Node

theorem walk?_append (steps more : List Step) (node : Node) :
    node.walk? (steps ++ more) = (node.walk? steps).bind (fun inner => inner.walk? more) := by
  induction steps generalizing node with
  | nil => rfl
  | cons step rest ih =>
    rw [List.cons_append, walk?, walk?, Option.bind_assoc]
    simp only [ih]

theorem walk?_snoc {root : Node} {steps : List Step} {k : Keywords Node} {step : Step} {c : Node}
    (h : root.walk? steps = some (.object k)) (hc : k.child? step = some c) :
    root.walk? (steps ++ [step]) = some c := by
  rw [walk?_append, h, Option.bind_some, walk?, child?, keywords?, Option.bind_some, hc]
  rfl

theorem pointer?_place (root : Node) (steps : List Step) :
    root.pointer? (Pointer.ofPath (steps.flatMap Step.segments)) = root.walk? steps := by
  rw [Pointer.ofPath_segments, pointer?, Pointer.tokens?_ofSteps, Option.bind_some, follow_steps]

end Node
end Schema
end Valgen
