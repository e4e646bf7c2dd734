import Valgen.Proofs.Project.Exports
import Valgen.Proofs.Project.Imports
/-!
# Proofs.Project.References — no reference dangles

What a reference is answered with names a constant that is in the output (`Stands`): one of the document itself, which
stands before the exports under way unless it is looked up later, or one of a document that is imported.  A compilation
that refuses every other answer has therefore the same outcome.
-/
namespace Valgen
namespace Project

open Compile (Context Setup)
open Schema (Reference)

/-- **The name that a reference from one document to an export of another, or its own, is answered with stands in the
output.** -/
inductive Stands (out : Output) (w : Work) (source target : String) (e : Export) : Validator → Prop
  /-- An export of the document itself, which was listed before those under way. -/
  | listed {o now : DocumentOutput} {x : ExportOutput} {after : List ExportOutput} :
    target = source → o ∈ out.documents → o.id = source → w.output? source = some now →
    o.exports = now.exports ++ after → x ∈ now.exports → x.name? = e.name? →
    (∀ f, w.cache.isCompiling source f = true → ∃ y ∈ after, y.name? = f.name?) →
    Stands out w source target e (Validator.reference x.binding)
  /-- An export of the document itself, looked up later. -/
  | underWay {o : DocumentOutput} {x : ExportOutput} :
    target = source → o ∈ out.documents → o.id = source → x ∈ o.exports → x.name? = e.name? →
    Stands out w source target e (Validator.lazy x.binding)
  /-- An export of a document that is imported. -/
  | imported {o t : DocumentOutput} {i : DocumentImport} {x : ExportOutput} (deferred : Bool) :
    target ≠ source → o ∈ out.documents → o.id = source → i ∈ o.imports → i.id = target →
    t ∈ out.documents → t.id = target → t.importName = i.importName → x ∈ t.exports → x.name? = e.name? →
    Stands out w source target e (if deferred then Validator.lazy (i.importName ++ "." ++ x.binding)
      else Validator.reference (i.importName ++ "." ++ x.binding))

/-- **What a reference is answered with, when the work is `w`, stands in the output.** -/
def AnswerStands (p : Project) (out : Output) (w : Work) (reference : String) (ctx : Context) (v : Validator) : Prop :=
  ∃ source d e, ctx.document = some source ∧ p.registry.get? (targetOf reference source) = some d ∧
    exportOf? d (Reference.parse reference).fragment = some e ∧ Stands out w source d.id e v

section
variable {p : Project} {final : Work}

/-- **Every export of a document is listed in the end.** -/
theorem Completes.exists_export (h : Completes p final) {x : String} {d : Document} {o : DocumentOutput}
    (hd : final.document? x = some d) (ho : final.output? x = some o) {e : Export} (he : e ∈ d.exports) :
    ∃ y ∈ o.exports, y.name? = e.name? ∧ y.binding = d.binding e := by
  obtain ⟨o', done, ho', hlists⟩ := h.exists_output hd
  obtain rfl : o = o' := Option.some.inj (ho.symm.trans ho')
  obtain ⟨v, hv⟩ := Option.isSome_iff_exists.1 (h.get?_isSome hd e he)
  exact ⟨_, hlists.mem_exports_iff.2 ⟨e, v, hv, rfl⟩, rfl, rfl⟩

variable {setup : Setup} {w : Work} {source : String} {d : Document} {e : Export}

/-- **An export that is compiled is listed, and those under way are listed behind it.** -/
theorem Completes.stands_listed (h : Completes p final) (hready : Ready setup source w) (hgrows : Grows w final)
    (hd : w.document? source = some d) (hcompiled : (w.cache.get? source e).isSome) :
    Stands final.output w source d.id e (Validator.reference (d.binding e)) := by
  have hid := Work.id_of_document? hd
  have hfinal : final.document? source = some d := (hgrows.documents source).trans hd
  obtain ⟨v, hv⟩ := Option.isSome_iff_exists.1 hcompiled
  obtain ⟨now, done, hnow, hlists⟩ := hready.consistent.listed source d hd (by simp [hready.compiling])
  obtain ⟨o, ho, after, hafter⟩ := hgrows.exports source now hnow
  have hlisted : Work.exportOutput setup d e v ∈ now.exports := hlists.mem_exports_iff.2 ⟨e, v, hid ▸ hv, rfl⟩
  have hmem := h.mem_documents (by simp [hfinal]) ho
  refine Stands.listed hid hmem (Work.id_of_output? ho) hnow hafter.symm hlisted rfl ?_
  intro f hcompiling
  have hf : f ∈ d.exports := by
    refine hready.consistent.begun source d f hd ?_
    rw [Cache.isCompiling_iff.1 hcompiling]
    exact Option.some_ne_none _
  obtain ⟨y, hy, hname, _⟩ := h.exists_export hfinal ho hf
  rw [← hafter] at hy
  rcases List.mem_append.1 hy with hold | hnew
  · -- What was listed already is compiled, so it is not under way.
    obtain ⟨g, v', hg, rfl⟩ := hlists.mem_exports_iff.1 hold
    obtain rfl : g = f := Export.name?_injective hname
    rw [hid, Cache.get?_eq_some_iff, Cache.isCompiling_iff.1 hcompiling] at hg
    cases hg
  · exact ⟨y, hnew, hname⟩

theorem Completes.stands_underWay (h : Completes p final) (hgrows : Grows w final) (hd : w.document? source = some d)
    (he : e ∈ d.exports) : Stands final.output w source d.id e (Validator.lazy (d.binding e)) := by
  have hfinal : final.document? source = some d := (hgrows.documents source).trans hd
  obtain ⟨o, _, ho, _⟩ := h.exists_output hfinal
  obtain ⟨x, hx, hname, hbinding⟩ := h.exists_export hfinal ho he
  rw [← hbinding]
  have hmem := h.mem_documents (by simp [hfinal]) ho
  exact Stands.underWay (Work.id_of_document? hd) hmem (Work.id_of_output? ho) hx hname

/-- **A document with an edge to another imports it**, under the name it has. -/
theorem Completes.stands_imported (h : Completes p final) (hp : p.registry.Distinct) (hgrows : Grows w final)
    (hsource : (w.document? source).isSome) (hd : w.document? d.id = some d) (hne : d.id ≠ source) (he : e ∈ d.exports)
    {deferred : Bool} (hedge : ⟨source, d.id, e.name?, deferred⟩ ∈ w.graph.edges) :
    Stands final.output w source d.id e (if deferred then Validator.lazy (d.importName ++ "." ++ d.binding e)
      else Validator.reference (d.importName ++ "." ++ d.binding e)) := by
  have hfinal : final.document? d.id = some d := (hgrows.documents d.id).trans hd
  rw [← hgrows.documents] at hsource
  obtain ⟨c, hc⟩ := Option.isSome_iff_exists.1 hsource
  obtain ⟨o, _, ho, _⟩ := h.exists_output hc
  obtain ⟨t, _, ht, hlists⟩ := h.exists_output hfinal
  have htraced := h.traced hp
  obtain ⟨i, hi, hid⟩ := List.mem_map.1 (htraced.imported _ (hgrows.edges _ hedge))
  obtain ⟨d', hd', rfl⟩ := htraced.known source i hi
  obtain rfl : d' = d := by
    have hsame : d'.id = d.id := hid
    rw [hsame, hfinal] at hd'
    exact (Option.some.inj hd').symm
  rw [Work.imports_of_output? ho] at hi
  obtain ⟨x, hx, hname, hbinding⟩ := h.exists_export hfinal ht he
  rw [← hbinding]
  exact Stands.imported deferred hne (h.mem_documents hsource ho) (Work.id_of_output? ho) hi rfl
    (h.mem_documents (by simp [hfinal]) ht) (Work.id_of_output? ht) hlists.importName hx hname

end

/-- **Every answer stands in the output.** -/
theorem Completes.passes {p : Project} {final : Work} (h : Completes p final) (hp : p.registry.Distinct) :
    Passes p.setup final (AnswerStands p final.output) := by
  intro w reference ctx source d e v hctx hready hgrows hd hexport hanswer
  have hregistered : ∃ c, p.registry.get? (targetOf reference source) = some c ∧ c.reset = d := by
    rw [← hgrows.documents, h.document?_eq] at hd
    exact Option.map_eq_some_iff.1 hd
  obtain ⟨c, hc, rfl⟩ := hregistered
  have hid := Work.id_of_document? hd
  have he := mem_exports_of_exportOf? hexport
  refine ⟨source, c, e, hctx, hc, hexport, ?_⟩
  cases hanswer with
  | compiled hown hcompiled =>
    rw [← hid, hown] at hd
    exact h.stands_listed (d := c.reset) hready hgrows hd hcompiled
  | underWay hown _ =>
    rw [← hid, hown] at hd
    exact h.stands_underWay (d := c.reset) hgrows hd he
  | other deferred hne hedge =>
    rw [← hid] at hd
    exact h.stands_imported hp hgrows (Work.isSome_document?_iff.2 (by simp [hready.compiling])) hd hne he hedge

/-- **No reference dangles**: a compilation that refuses every answer that does not stand in the output has the same
outcome.  And every document imports those it has edges to, each once and under its name. -/
theorem every_reference_stands {p : Project} (hp : Reached p) {out : Output} (h : p.compile.1 = .ok out) :
    p.compileGuarded (AnswerStands p out) = p.compile ∧
      ∀ o ∈ out.documents, (o.imports.map DocumentImport.id).Nodup ∧
        (∀ x, x ∈ o.imports.map DocumentImport.id ↔ ∃ edge ∈ out.edges, edge.source = o.id ∧ edge.target = x) ∧
        ∀ i ∈ o.imports, ∃ t ∈ out.documents, t.id = i.id ∧ t.importName = i.importName ∧ t.module = i.module := by
  have hcompletes := completes_of_compile h
  have htraced := hcompletes.traced hp.distinct
  refine ⟨?_, fun o ho => ?_⟩
  · rw [output_of_compile h]
    exact compileGuarded_eq h (hcompletes.passes hp.distinct)
  · obtain rfl := output_of_compile h
    obtain ⟨d, _, hd, hout, _⟩ := hcompletes.lists_of_mem ho
    have hdoc : (p.finalWork.document? o.id).isSome := by rw [hcompletes.document?_eq, hd]; rfl
    rw [← Work.imports_of_output? hout]
    refine ⟨htraced.nodup_imports o.id, fun x => hcompletes.mem_imports_iff hp.distinct hdoc, fun i hi => ?_⟩
    obtain ⟨c, hc, rfl⟩ := htraced.known o.id i hi
    obtain ⟨t, _, ht, hlists⟩ := hcompletes.exists_output hc
    exact ⟨t, hcompletes.mem_documents (by simp [hc]) ht, Work.id_of_output? ht, hlists.importName, hlists.module⟩

theorem reached_mutualPair : Reached mutualPair := by
  have hregistered :
      ((({} : Project).register "a" mutualFirst.node {}).2.register "b" mutualSecond.node {}).2 = mutualPair := rfl
  exact hregistered ▸ .register _ _ _ (.register _ _ _ (.new {}))

theorem every_reference_stands_mutualPair :
    mutualPair.compileGuarded (AnswerStands mutualPair mutualPairOutput) = mutualPair.compile :=
  (every_reference_stands reached_mutualPair compile_mutualPair).1

end Project
end Valgen
