import Valgen.Proofs.Project.Consistency
/-!
# Proofs.Project.Records — what a compilation records of one document

The record of a document is its output and the edges that leave it.  Two works have the same record of a document
(`SameRecord`) if the output has the same imports and the same exports in the same order, and the same edges leave the
document, deferred or not; the texts of the exports are the same where that is asked for.  Each move of the document on
both sides keeps this, and a move of another document on one side does not touch it.
-/
namespace Valgen
namespace Project

open Compile (Setup)

/-- **The output without the texts of its exports.** -/
def DocumentOutput.withoutTexts (o : DocumentOutput) : DocumentOutput :=
  { o with exports := o.exports.map (fun e => { e with expression := "" }) }

/-- **A document refers to an export of another**, deferred or not. -/
def Work.RefersTo (w : Work) (source target : String) (export? : Option String) : Prop :=
  ∃ deferred, (⟨source, target, export?, deferred⟩ : Edge) ∈ w.graph.edges

/-- **The same record of a document**, with the same texts where that is asked for. -/
structure SameRecord (exact : Prop) (id : String) (w w' : Work) : Prop where
  outline : (w'.output? id).map DocumentOutput.withoutTexts = (w.output? id).map DocumentOutput.withoutTexts
  output : exact → w'.output? id = w.output? id
  refersTo : ∀ target export?, w'.RefersTo id target export? ↔ w.RefersTo id target export?

theorem Work.refersTo_addEdge {w : Work} {edge : Edge} {source target : String} {export? : Option String} :
    (w.addEdge edge).RefersTo source target export? ↔
      w.RefersTo source target export? ∨ (edge.source = source ∧ edge.target = target ∧ edge.export? = export?) := by
  unfold RefersTo
  simp only [Work.graph_addEdge, Graph.mem_edges_addEdge, exists_or]
  refine or_congr_right ⟨?_, ?_⟩
  · rintro ⟨_, rfl⟩
    exact ⟨rfl, rfl, rfl⟩
  · rintro ⟨rfl, rfl, rfl⟩
    exact ⟨edge.deferred, rfl⟩

namespace SameRecord

variable {exact : Prop} {id : String} {w w' : Work} {d : Document}

theorem symm (h : SameRecord exact id w w') : SameRecord exact id w' w :=
  ⟨h.outline.symm, fun hexact => (h.output hexact).symm, fun target export? => (h.refersTo target export?).symm⟩

theorem trans {w'' : Work} (h : SameRecord exact id w w') (h' : SameRecord exact id w' w'') :
    SameRecord exact id w w'' :=
  ⟨h'.outline.trans h.outline, fun hexact => (h'.output hexact).trans (h.output hexact),
    fun target export? => (h'.refersTo target export?).trans (h.refersTo target export?)⟩

theorem of_eq (houtput : w'.output? id = w.output? id)
    (hedges : ∀ target export?, w'.RefersTo id target export? ↔ w.RefersTo id target export?) :
    SameRecord exact id w w' := ⟨by rw [houtput], fun _ => houtput, hedges⟩

/-- **Only the output of a document and its edges count.** -/
theorem congr_left {v : Work} (h : SameRecord exact id w w') (houtput : v.output? id = w.output? id)
    (hedges : ∀ target export?, v.RefersTo id target export? ↔ w.RefersTo id target export?) :
    SameRecord exact id v w' := (of_eq houtput hedges).symm.trans h

theorem addImport (h : SameRecord exact id w w') (d : Document) :
    SameRecord exact id (w.addImport id d) (w'.addImport id d) := by
  refine ⟨?_, fun hexact => ?_, h.refersTo⟩
  · rw [Work.output?_addImport, Work.output?_addImport, if_pos rfl, if_pos rfl]
    have hmap := congrArg (Option.map (fun o : DocumentOutput => { o with
      imports := Project.addImport { id := d.id, importName := d.importName, module := d.module } o.imports }))
        h.outline
    rw [Option.map_map, Option.map_map] at hmap ⊢
    exact hmap
  · rw [Work.output?_addImport, Work.output?_addImport, if_pos rfl, if_pos rfl, h.output hexact]

theorem addEdge (h : SameRecord exact id w w') (target : String) (export? : Option String) (deferred deferred' : Bool) :
    SameRecord exact id (w.addEdge ⟨id, target, export?, deferred⟩) (w'.addEdge ⟨id, target, export?, deferred'⟩) := by
  refine ⟨h.outline, h.output, fun target' export?' => ?_⟩
  rw [Work.refersTo_addEdge, Work.refersTo_addEdge]
  exact or_congr_left (h.refersTo target' export?')

theorem finishExport {setup : Setup} (h : SameRecord exact d.id w w') (e : Export) {v v' : Validator}
    (hv : exact → v' = v) :
    SameRecord exact d.id (w.finishExport setup d e v) (w'.finishExport setup d e v') := by
  -- Without its text the export is the same, whatever its validator.
  let listed (o : DocumentOutput) : DocumentOutput :=
    { o with exports := o.exports ++ [{ Work.exportOutput setup d e v with expression := "" }] }
  have hlisted : ∀ (v : Validator) (o : DocumentOutput), ({ o with exports := o.exports ++
      [Work.exportOutput setup d e v] } : DocumentOutput).withoutTexts = listed o.withoutTexts := by
    intro v o
    unfold DocumentOutput.withoutTexts
    simp only [List.map_append]
    rfl
  refine ⟨?_, fun hexact => ?_, h.refersTo⟩
  · rw [Work.output?_finishExport, Work.output?_finishExport, if_pos rfl, if_pos rfl, Option.map_map, Option.map_map]
    simp only [Function.comp_def, hlisted]
    have hmap := congrArg (Option.map listed) h.outline
    rwa [Option.map_map, Option.map_map] at hmap
  · rw [Work.output?_finishExport, Work.output?_finishExport, if_pos rfl, if_pos rfl, h.output hexact, hv hexact]

/-- **A document that begins has the same record in all works that have none of it.** -/
theorem openDocument (houtput : w.output? d.id = none) (hedges : ∀ target export?, ¬ w.RefersTo d.id target export?)
    (houtput' : w'.output? d.id = none) (hedges' : ∀ target export?, ¬ w'.RefersTo d.id target export?) :
    SameRecord exact d.id (w.openDocument d) (w'.openDocument d) := by
  refine of_eq ?_ (fun target export? => iff_of_false (hedges' target export?) (hedges target export?))
  rw [Work.output?_openDocument, Work.output?_openDocument, houtput, houtput']

end SameRecord

end Project
end Valgen
