import Valgen.Project.Compile
import Valgen.Proofs.Graph.Order
/-!
# Proofs.Project.Work — what the moves of a compilation do to its work

The work of a compilation is looked at through five views: the document of an id as it was registered (`document?`), its
phase (`phase?`), its output (`output?`), where its exports stand (`Cache.progress?`) and the edges.  A compilation
changes its work by six moves only; here is what each does to each view.
-/
namespace Valgen
namespace Project

open Compile (Setup)

/-- **A document as it was registered**, whatever became of it since. -/
def Document.reset (d : Document) : Document := { d with phase := .registered }

namespace Registry

theorem resetPhases_eq (r : Registry) : r.resetPhases = List.map Document.reset r := rfl

theorem get?_resetPhases (r : Registry) (id : String) : r.resetPhases.get? id = (r.get? id).map Document.reset := by
  unfold Registry.get?
  rw [resetPhases_eq, List.find?_map]
  rfl

theorem get?_setPhase (r : Registry) (id other : String) (phase : Phase) :
    (r.setPhase id phase).get? other =
      (r.get? other).map (fun d => if d.id == id then { d with phase := phase } else d) := by
  unfold Registry.get? setPhase modify
  rw [List.find?_map]
  have hid : ((fun d : Document => d.id == other) ∘ fun d => if d.id == id then { d with phase := phase } else d) =
      fun d => d.id == other := by
    funext d
    simp only [Function.comp_apply]
    split <;> rfl
  rw [hid]

theorem id_of_get? {r : Registry} {id : String} {d : Document} (h : r.get? id = some d) : d.id = id := by
  have := List.find?_some h
  simpa using this

theorem isSome_get?_iff {r : Registry} {id : String} : (r.get? id).isSome ↔ id ∈ r.map Document.id := by
  unfold Registry.get?
  rw [List.find?_isSome, List.mem_map]
  simp

end Registry

namespace Cache

theorem progress?_put (c : Cache) (document other : String) (e f : Export) (p : Progress) :
    (c.put document e p).progress? other f = if (other, f) = (document, e) then some p else c.progress? other f := by
  unfold progress? put
  rw [List.find?_append, List.find?_filter]
  by_cases h : (other, f) = (document, e)
  · have hnone : c.find? (fun a => decide ((a.1 != (document, e)) = true ∧ (a.1 == (other, f)) = true)) = none := by
      rw [List.find?_eq_none]
      intro x _ hx
      simp only [h, decide_eq_true_eq, bne_iff_ne, beq_iff_eq] at hx
      exact hx.1 hx.2
    rw [if_pos h, hnone, h]
    simp
  · have hsame : (fun a : (String × Export) × Progress =>
        decide ((a.1 != (document, e)) = true ∧ (a.1 == (other, f)) = true)) = fun a => a.1 == (other, f) := by
      funext a
      by_cases ha : a.1 = (other, f)
      · simp [ha, h]
      · simp [ha]
    have hlast : ([((document, e), p)] : Cache).find? (fun entry => entry.1 == (other, f)) = none := by
      simp [Ne.symm h]
    rw [if_neg h, hsame, hlast, Option.or_none]

theorem get?_eq_some_iff {c : Cache} {document : String} {e : Export} {v : Validator} :
    c.get? document e = some v ↔ c.progress? document e = some (.compiled v) := by
  unfold get?
  cases c.progress? document e with
  | none => simp
  | some p => cases p <;> simp

theorem isCompiling_iff {c : Cache} {document : String} {e : Export} :
    c.isCompiling document e = true ↔ c.progress? document e = some .compiling := by
  unfold isCompiling
  cases c.progress? document e with
  | none => simp
  | some p => cases p <;> simp

theorem progress?_eq_none_of {c : Cache} {document : String} {e : Export} (hget : c.get? document e = none)
    (hcompiling : ¬ c.isCompiling document e = true) : c.progress? document e = none := by
  cases hp : c.progress? document e with
  | none => rfl
  | some p =>
    cases p with
    | compiling => exact absurd (isCompiling_iff.2 hp) hcompiling
    | compiled v => rw [get?_eq_some_iff.2 hp] at hget; cases hget

end Cache

namespace Work

/-! ## Views -/

def document? (w : Work) (id : String) : Option Document := (w.registry.get? id).map Document.reset

def phase? (w : Work) (id : String) : Option Phase := (w.registry.get? id).map Document.phase

def output? (w : Work) (id : String) : Option DocumentOutput := w.outputs.find? (fun o => o.id == id)

theorem document?_of_get? {w : Work} {id : String} {d : Document} (h : w.registry.get? id = some d) :
    w.document? id = some d.reset := by
  unfold document?
  rw [h, Option.map_some]

theorem phase?_of_get? {w : Work} {id : String} {d : Document} (h : w.registry.get? id = some d) :
    w.phase? id = some d.phase := by
  unfold phase?
  rw [h, Option.map_some]

theorem id_of_document? {w : Work} {id : String} {d : Document} (h : w.document? id = some d) : d.id = id := by
  obtain ⟨d', hd', rfl⟩ := Option.map_eq_some_iff.1 h
  show d'.id = id
  exact Registry.id_of_get? hd'

theorem id_of_output? {w : Work} {id : String} {o : DocumentOutput} (h : w.output? id = some o) : o.id = id := by
  have := List.find?_some h
  simpa using this

/-- **Documents in different phases are different.** -/
theorem ne_of_phase? {w : Work} {x y : String} {a b : Phase} (hx : w.phase? x = some a) (hy : w.phase? y = some b)
    (hne : a ≠ b) : x ≠ y := by
  rintro rfl
  exact hne (Option.some.inj (hx.symm.trans hy))

theorem isSome_document?_iff {w : Work} {id : String} : (w.document? id).isSome ↔ (w.phase? id).isSome := by
  unfold document? phase?
  rw [Option.isSome_map, Option.isSome_map]

/-! ## Moves -/

def addImport (w : Work) (source : String) (d : Document) : Work :=
  w.modifyOutput source (fun o => { o with
    imports := Project.addImport { id := d.id, importName := d.importName, module := d.module } o.imports })

def openDocument (w : Work) (d : Document) : Work :=
  { w.setPhase d.id .compiling with
    outputs := w.outputs ++ [{ id := d.id, importName := d.importName, module := d.module }] }

def closeDocument (w : Work) (d : Document) : Work := w.setPhase d.id .compiled

def beginExport (w : Work) (d : Document) (e : Export) : Work := { w with cache := w.cache.begin d.id e }

def exportOutput (setup : Setup) (d : Document) (e : Export) (v : Validator) : ExportOutput where
  name? := e.name?
  binding := d.binding e
  expression := setup.render v
  isDefault := e == .root

/-- **An export ends**: it is remembered, and listed behind those that ended before. -/
def finishExport (setup : Setup) (w : Work) (d : Document) (e : Export) (v : Validator) : Work :=
  ({ w with cache := w.cache.finish d.id e v } : Work).modifyOutput d.id (fun o =>
    { o with exports := o.exports ++ [exportOutput setup d e v] })

def addEdge (w : Work) (edge : Edge) : Work := { w with graph := w.graph.addEdge edge }

/-! ## Documents and phases -/

variable (w : Work) (setup : Setup) (source id other : String) (d : Document) (e f : Export) (v : Validator)
  (edge : Edge)

@[simp] theorem document?_setPhase (phase : Phase) : (w.setPhase id phase).document? other = w.document? other := by
  unfold document? setPhase
  rw [Registry.get?_setPhase, Option.map_map]
  congr 1
  funext d
  simp only [Function.comp_apply]
  split <;> rfl

@[simp] theorem document?_addImport : (w.addImport source d).document? other = w.document? other := rfl

@[simp] theorem document?_openDocument : (w.openDocument d).document? other = w.document? other :=
  document?_setPhase w d.id other .compiling

@[simp] theorem document?_closeDocument : (w.closeDocument d).document? other = w.document? other :=
  document?_setPhase w d.id other .compiled

@[simp] theorem document?_beginExport : (w.beginExport d e).document? other = w.document? other := rfl

@[simp] theorem document?_finishExport : (w.finishExport setup d e v).document? other = w.document? other := rfl

@[simp] theorem document?_addEdge : (w.addEdge edge).document? other = w.document? other := rfl

theorem phase?_setPhase (phase : Phase) :
    (w.setPhase id phase).phase? other = if other = id then (w.phase? id).map (fun _ => phase) else w.phase? other := by
  unfold phase? setPhase
  rw [Registry.get?_setPhase, Option.map_map]
  cases hd : w.registry.get? other with
  | none =>
    split
    · rename_i h
      rw [← h, hd]
      rfl
    · rfl
  | some d =>
    have hid := Registry.id_of_get? hd
    by_cases h : other = id
    · rw [if_pos h, ← h, hd]
      simp [hid, h]
    · rw [if_neg h]
      simp [hid, h]

@[simp] theorem phase?_addImport : (w.addImport source d).phase? other = w.phase? other := rfl

theorem phase?_openDocument : (w.openDocument d).phase? other =
    if other = d.id then (w.phase? d.id).map (fun _ => .compiling) else w.phase? other :=
  phase?_setPhase w d.id other .compiling

theorem phase?_closeDocument : (w.closeDocument d).phase? other =
    if other = d.id then (w.phase? d.id).map (fun _ => .compiled) else w.phase? other :=
  phase?_setPhase w d.id other .compiled

@[simp] theorem phase?_beginExport : (w.beginExport d e).phase? other = w.phase? other := rfl

@[simp] theorem phase?_finishExport : (w.finishExport setup d e v).phase? other = w.phase? other := rfl

@[simp] theorem phase?_addEdge : (w.addEdge edge).phase? other = w.phase? other := rfl

/-! ## Where exports stand -/

@[simp] theorem progress?_addImport : (w.addImport source d).cache.progress? other f = w.cache.progress? other f := rfl

@[simp] theorem progress?_openDocument : (w.openDocument d).cache.progress? other f = w.cache.progress? other f := rfl

@[simp] theorem progress?_closeDocument : (w.closeDocument d).cache.progress? other f = w.cache.progress? other f := rfl

theorem progress?_beginExport : (w.beginExport d e).cache.progress? other f =
    if (other, f) = (d.id, e) then some .compiling else w.cache.progress? other f :=
  Cache.progress?_put w.cache d.id other e f .compiling

theorem progress?_finishExport : (w.finishExport setup d e v).cache.progress? other f =
    if (other, f) = (d.id, e) then some (.compiled v) else w.cache.progress? other f :=
  Cache.progress?_put w.cache d.id other e f (.compiled v)

theorem isCompiling_beginExport : (w.beginExport d e).cache.isCompiling other f =
    if (other, f) = (d.id, e) then true else w.cache.isCompiling other f := by
  unfold Cache.isCompiling
  rw [progress?_beginExport]
  by_cases h : (other, f) = (d.id, e)
  · rw [if_pos h, if_pos h]
  · rw [if_neg h, if_neg h]

theorem isCompiling_finishExport : (w.finishExport setup d e v).cache.isCompiling other f =
    if (other, f) = (d.id, e) then false else w.cache.isCompiling other f := by
  unfold Cache.isCompiling
  rw [progress?_finishExport]
  by_cases h : (other, f) = (d.id, e)
  · rw [if_pos h, if_pos h]
  · rw [if_neg h, if_neg h]

@[simp] theorem progress?_addEdge : (w.addEdge edge).cache.progress? other f = w.cache.progress? other f := rfl

/-! ## Outputs -/

theorem output?_modifyOutput (g : DocumentOutput → DocumentOutput) (hg : ∀ o, (g o).id = o.id) :
    (w.modifyOutput id g).output? other = if other = id then (w.output? id).map g else w.output? other := by
  unfold output? modifyOutput
  rw [List.find?_map]
  have hid : ((fun o : DocumentOutput => o.id == other) ∘ fun o => if o.id == id then g o else o) =
      fun o => o.id == other := by
    funext o
    simp only [Function.comp_apply]
    split
    · rw [hg]
    · rfl
  rw [hid]
  cases ho : w.outputs.find? (fun o => o.id == other) with
  | none =>
    split
    · rename_i h
      rw [← h, ho]
      rfl
    · rfl
  | some o =>
    have hoid : o.id = other := by simpa using List.find?_some ho
    by_cases h : other = id
    · rw [if_pos h, ← h, ho]
      simp [hoid, h]
    · rw [if_neg h]
      simp [hoid, h]

theorem output?_addImport : (w.addImport source d).output? other =
    if other = source then (w.output? source).map (fun o => { o with
      imports := Project.addImport { id := d.id, importName := d.importName, module := d.module } o.imports })
    else w.output? other :=
  output?_modifyOutput w source other _ (fun _ => rfl)

theorem output?_openDocument : (w.openDocument d).output? other =
    (w.output? other).or (if other = d.id then
      some { id := d.id, importName := d.importName, module := d.module } else none) := by
  unfold output? openDocument
  rw [List.find?_append]
  congr 1
  by_cases h : other = d.id
  · simp [h]
  · simp [h, Ne.symm h]

@[simp] theorem output?_closeDocument : (w.closeDocument d).output? other = w.output? other := rfl

@[simp] theorem output?_beginExport : (w.beginExport d e).output? other = w.output? other := rfl

theorem output?_finishExport : (w.finishExport setup d e v).output? other =
    if other = d.id then (w.output? d.id).map (fun o =>
      { o with exports := o.exports ++ [exportOutput setup d e v] })
    else w.output? other :=
  output?_modifyOutput { w with cache := w.cache.finish d.id e v } d.id other _ (fun _ => rfl)

@[simp] theorem output?_addEdge : (w.addEdge edge).output? other = w.output? other := rfl

/-! ## Edges -/

@[simp] theorem graph_addEdge : (w.addEdge edge).graph = w.graph.addEdge edge := rfl

end Work
end Project
end Valgen
