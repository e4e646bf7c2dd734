import Valgen.Proofs.Project.Precedence
/-!
# Proofs.Project.Exports — every export is listed once

Whatever order references force on a compilation, the documents of its output are those that were registered, and the
exports of each are those the document has, each compiled once and listed once.
-/
namespace Valgen
namespace Project

theorem Export.name?_injective : Function.Injective Export.name? := by
  intro e f h
  cases e <;> cases f <;> cases h <;> rfl

section
variable {setup : Compile.Setup} {c : Cache} {d : Document} {o : DocumentOutput} {done : List (Export × Validator)}

theorem Lists.map_name? (h : Lists setup c d o done) :
    o.exports.map ExportOutput.name? = (done.map Prod.fst).map Export.name? := by
  rw [h.exports, List.map_map, List.map_map]
  rfl

theorem Lists.nodup_names (h : Lists setup c d o done) : (o.exports.map ExportOutput.name?).Nodup := by
  rw [h.map_name?]
  exact h.once.map Export.name?_injective

theorem Lists.mem_exports_iff (h : Lists setup c d o done) {x : ExportOutput} :
    x ∈ o.exports ↔ ∃ e v, c.get? d.id e = some v ∧ x = Work.exportOutput setup d e v := by
  rw [h.exports, List.mem_map]
  constructor
  · rintro ⟨⟨e, v⟩, hmem, rfl⟩
    exact ⟨e, v, (h.cached e v).1 hmem, rfl⟩
  · rintro ⟨e, v, hv, rfl⟩
    exact ⟨(e, v), (h.cached e v).2 hv, rfl⟩

/-- **The root is listed once**, if it is compiled. -/
theorem Lists.countP_isDefault (h : Lists setup c d o done) (hroot : (c.get? d.id .root).isSome) :
    o.exports.countP ExportOutput.isDefault = 1 := by
  obtain ⟨v, hv⟩ := Option.isSome_iff_exists.1 hroot
  have hmem : Export.root ∈ done.map Prod.fst := List.mem_map.2 ⟨(.root, v), (h.cached .root v).2 hv, rfl⟩
  calc o.exports.countP ExportOutput.isDefault
      = (done.map Prod.fst).count .root := by
        rw [h.exports, List.countP_map, List.count_eq_countP, List.countP_map]
        rfl
    _ = 1 := List.count_eq_one_of_mem h.once hmem

end

/-- **The documents of the output are those that were registered, each once, and list their exports, each compiled and
listed once**, with the root as the one default. -/
theorem every_export_listed_once {p : Project} {out : Output} (h : p.compile.1 = .ok out) :
    (out.documents.map DocumentOutput.id).Nodup ∧
      (∀ x, x ∈ out.documents.map DocumentOutput.id ↔ x ∈ p.registry.map Document.id) ∧
      ∀ o ∈ out.documents, ∃ d, p.registry.get? o.id = some d ∧ (o.exports.map ExportOutput.name?).Nodup ∧
        (∀ e ∈ d.exports, e.name? ∈ o.exports.map ExportOutput.name?) ∧
        (∀ x ∈ o.exports, ∃ e ∈ d.exports, ∃ v, p.compile.2.cache.get? d.id e = some v ∧
          x = Work.exportOutput p.setup d e v) ∧
        o.exports.countP ExportOutput.isDefault = 1 := by
  have hcompletes := completes_of_compile h
  obtain rfl := output_of_compile h
  refine ⟨?_, fun x => ?_, fun o ho => ?_⟩
  · rw [hcompletes.map_id_documents]
    exact hcompletes.charted.wellFormed.order_perm.nodup_iff.2 hcompletes.charted.wellFormed.nodup
  · rw [hcompletes.map_id_documents, hcompletes.charted.wellFormed.order_perm.mem_iff, hcompletes.charted.nodes,
      hcompletes.document?_eq, Option.isSome_map, Registry.isSome_get?_iff]
  · obtain ⟨d, done, hd, _, hlists⟩ := hcompletes.lists_of_mem ho
    have hdoc : p.finalWork.document? o.id = some d.reset := by rw [hcompletes.document?_eq, hd, Option.map_some]
    have hall := hcompletes.get?_isSome hdoc
    have hdefault := hlists.countP_isDefault (hall .root List.mem_cons_self)
    refine ⟨d, hd, hlists.nodup_names, fun e he => ?_, fun x hx => ?_, hdefault⟩
    · obtain ⟨v, hv⟩ := Option.isSome_iff_exists.1 (hall e he)
      exact List.mem_map.2 ⟨_, hlists.mem_exports_iff.2 ⟨e, v, hv, rfl⟩, rfl⟩
    · obtain ⟨e, v, hv, rfl⟩ := hlists.mem_exports_iff.1 hx
      exact ⟨e, hlists.known (e, v) ((hlists.cached e v).2 hv), v, hv, rfl⟩

theorem every_export_listed_once_mutualPair : (mutualPairOutput.documents.map DocumentOutput.id).Nodup ∧
    ∃ d, mutualPair.registry.get? "a" = some d ∧ ∀ e ∈ d.exports, e.name? ∈ [none, some "Item", some "Tree"] := by
  obtain ⟨honce, _, hlisted⟩ := every_export_listed_once compile_mutualPair
  obtain ⟨d, hd, _, hall, _⟩ := hlisted _ (List.mem_cons_of_mem _ List.mem_cons_self)
  exact ⟨honce, d, hd, hall⟩

end Project
end Valgen
