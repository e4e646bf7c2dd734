import Valgen.Code.Emit
import Valgen.Proofs.Project.References
import Valgen.Proofs.Project.Registration
/-!
# Proofs.Code.Scope — the names a module declares

Three schemes of names meet at the top of a module: the name of the validator library, the names under which documents
are imported, and the constants of the exports.  The library's name is reserved, so that neither an import nor a
constant takes it (`Name.isReserved_safeIdentifier`, `Reached.usable`); imports differ from imports, and constants
from constants.  Nothing keeps an import from having the name of a constant: a module declares its names once exactly
when that does not happen (`nodup_declared_iff`).
-/
namespace Valgen
namespace Project

namespace Registry

variable {r r' : Registry}

theorem Usable.congr (h : r.Usable) (hreset : r'.resetPhases = r.resetPhases) : r'.Usable := by
  intro d hd
  rw [resetPhases_eq, resetPhases_eq] at hreset
  have hd' : d.reset ∈ r.map Document.reset := hreset ▸ List.mem_map_of_mem hd
  obtain ⟨old, hold, heq⟩ := List.mem_map.1 hd'
  have hname : old.importName = d.importName := show old.reset.importName = d.reset.importName by rw [heq]
  exact hname ▸ h old hold

end Registry

theorem Reached.usable {p : Project} (h : Reached p) : p.registry.Usable := by
  induction h with
  | new setup => exact .nil
  | register id node wishes _ ih => exact ih.change (.register id node wishes)
  | @update p id node wishes _ ih => exact p.registry_update id node wishes ▸ ih.change (.update id node wishes)
  | @remove p id _ ih => exact p.registry_remove id ▸ ih.change (.remove id)
  | clear _ _ => exact .nil
  | @compile p _ ih => exact ih.congr (resetPhases_compile p)

/-! ## The constants and the imports of a compiled document -/

section
variable {p : Project} {w : Work} {o : DocumentOutput}

/-- **The constants of a compiled document** are bindings of its exports, and distinct. -/
theorem Completes.bindings (h : Completes p w) (hp : p.registry.Distinct) (ho : o ∈ w.output.documents) :
    (o.exports.map ExportOutput.binding).Nodup ∧ ∀ x ∈ o.exports, Name.isReserved x.binding = false := by
  obtain ⟨d, done, hd, _, hlists⟩ := h.lists_of_mem ho
  have hmap : o.exports.map ExportOutput.binding = (done.map Prod.fst).map d.binding := by
    rw [hlists.exports, List.map_map, List.map_map]
    rfl
  have hinj := List.inj_on_of_nodup_map (hp.bindings d (List.mem_of_find?_eq_some hd))
  refine ⟨?_, fun x hx => ?_⟩
  · rw [hmap]
    refine hlists.once.map_on (fun e he f hf heq => ?_)
    obtain ⟨a, ha, rfl⟩ := List.mem_map.1 he
    obtain ⟨b, hb, rfl⟩ := List.mem_map.1 hf
    exact hinj (hlists.known a ha) (hlists.known b hb) heq
  · have hbinding : x.binding ∈ o.exports.map ExportOutput.binding := List.mem_map_of_mem hx
    rw [hmap] at hbinding
    obtain ⟨e, _, heq⟩ := List.mem_map.1 hbinding
    exact heq ▸ (d.usable_binding e).2

/-- **The names under which a compiled document imports others** are distinct. -/
theorem Completes.importNames (h : Completes p w) (hp : Reached p) (ho : o ∈ w.output.documents) :
    (o.imports.map DocumentImport.importName).Nodup ∧ ∀ i ∈ o.imports, Name.isReserved i.importName = false := by
  obtain ⟨_, _, _, hout, _⟩ := h.lists_of_mem ho
  have htraced := h.traced hp.distinct
  rw [← Work.imports_of_output? hout]
  refine ⟨?_, fun i hi => ?_⟩
  · exact List.pairwise_map.2 ((htraced.ascending o.id).imp (fun hlt => ne_of_lt hlt))
  · obtain ⟨d, hd, rfl⟩ := htraced.known o.id i hi
    rw [h.document?_eq] at hd
    obtain ⟨c, hc, rfl⟩ := Option.map_eq_some_iff.1 hd
    exact (hp.usable c (List.mem_of_find?_eq_some hc)).2

end

end Project

/-! ## Modules -/

namespace Code

/-- The names an import declares: its alias, which counts more, or the names it takes. -/
def Import.declared (i : Import) : List String :=
  match i.wholeAs with
  | some name => [name]
  | none => i.names

def Statement.declared? : Statement → Option String
  | .constant name _ _ => some name
  | .typeAlias name _ => some name
  | .raw _ => none

/-- **The names a module declares at its top**, in order. -/
def Module.declared (m : Module) : List String :=
  m.imports.flatMap Import.declared ++ m.body.filterMap Statement.declared?

/-- The names declared for the validator library. -/
def hostNames (options : Options) : List String := if options.withImport then ["z"] else []

theorem flatMap_declared_hostImports (options : Options) :
    (hostImports options).flatMap Import.declared = hostNames options := by
  unfold hostImports hostNames hostImport
  cases options.withImport <;> cases options.dialect <;> rfl

theorem declared_projectModule (options : Options) (o : Project.DocumentOutput) :
    (projectModule options o).declared = hostNames options ++
      (o.imports.map Project.DocumentImport.importName ++ o.exports.map Project.ExportOutput.binding) := by
  have himports : ∀ (form : Form) (l : List Project.DocumentImport),
      (l.map (fun i => { specifier := i.module, wholeAs := some i.importName, form := form : Import })).flatMap
        Import.declared = l.map Project.DocumentImport.importName := by
    intro form l
    rw [List.flatMap_map, List.map_eq_flatMap]
    rfl
  have hbody : ∀ (exported : Bool) (l : List Project.ExportOutput),
      (l.map (fun e => Statement.constant e.binding e.expression exported)).filterMap Statement.declared? =
        l.map Project.ExportOutput.binding := by
    intro exported l
    rw [List.filterMap_map, ← List.filterMap_eq_map]
    rfl
  unfold projectModule Module.declared
  simp only [List.flatMap_append, flatMap_declared_hostImports, himports, hbody, List.append_assoc]

open Project in
/-- **A module of a project declares no name twice exactly when it imports no document under the name of one of its own
constants.** -/
theorem nodup_declared_iff {p : Project} (hp : Reached p) {out : Output} (h : p.compile.1 = .ok out)
    {o : DocumentOutput} (ho : o ∈ out.documents) (options : Options) :
    (projectModule options o).declared.Nodup ↔ ∀ i ∈ o.imports, ∀ x ∈ o.exports, i.importName ≠ x.binding := by
  have hcompletes := completes_of_compile h
  obtain rfl := output_of_compile h
  obtain ⟨hbindings, hfreeBindings⟩ := hcompletes.bindings hp.distinct ho
  obtain ⟨hnames, hfreeNames⟩ := hcompletes.importNames hp ho
  have hhost : (hostNames options).Nodup := by
    unfold hostNames
    split <;> simp
  have hz : ∀ name ∈ hostNames options, name = "z" := by
    unfold hostNames
    split <;> simp
  have hapart : ∀ a ∈ hostNames options, ∀ b ∈ o.imports.map DocumentImport.importName ++
      o.exports.map ExportOutput.binding, a ≠ b := by
    intro a ha b hb heq
    rw [hz a ha] at heq
    rcases List.mem_append.1 hb with hname | hbinding
    · obtain ⟨i, hi, rfl⟩ := List.mem_map.1 hname
      exact Name.ne_z_of_not_reserved (hfreeNames i hi) heq.symm
    · obtain ⟨x, hx, rfl⟩ := List.mem_map.1 hbinding
      exact Name.ne_z_of_not_reserved (hfreeBindings x hx) heq.symm
  rw [declared_projectModule, List.nodup_append, List.nodup_append]
  constructor
  · rintro ⟨_, ⟨_, _, hcross⟩, _⟩ i hi x hx
    exact hcross _ (List.mem_map_of_mem hi) _ (List.mem_map_of_mem hx)
  · intro hcross
    refine ⟨hhost, ⟨hnames, hbindings, fun a ha b hb => ?_⟩, hapart⟩
    obtain ⟨i, hi, rfl⟩ := List.mem_map.1 ha
    obtain ⟨x, hx, rfl⟩ := List.mem_map.1 hb
    exact hcross i hi x hx

open Project in
theorem nodup_declared_iff_mutualPair :
    ∃ o ∈ mutualPairOutput.documents, (projectModule {} o).declared = ["z", "b", "a", "Item", "Tree"] ∧
      ((projectModule {} o).declared.Nodup ↔ ∀ i ∈ o.imports, ∀ x ∈ o.exports, i.importName ≠ x.binding) :=
  ⟨_, List.mem_cons_of_mem _ List.mem_cons_self, rfl,
    nodup_declared_iff reached_mutualPair compile_mutualPair (List.mem_cons_of_mem _ List.mem_cons_self) {}⟩

/-! ## An import with the name of a constant -/

section
open Project

def clashPost : Document where
  id := "post"
  node := .object { ref := some "user#", defs := some [("user", .bool true)] }
  wishes := {}
  importName := "post"

def clashUser : Document where
  id := "user"
  node := .object { type := some (.single "string") }
  wishes := {}
  importName := "user"

/-- **A document that refers to another and has a definition of that one's name.** -/
def clash : Project where
  registry := [clashPost, clashUser]

def clashPostOutput : DocumentOutput where
  id := "post"
  importName := "post"
  module := "./post"
  imports := [{ id := "user", importName := "user", module := "./user" }]
  exports := [
    { name? := none, binding := "post", expression := "user.user", isDefault := true },
    { name? := some "user", binding := "user", expression := "z.any()", isDefault := false }]

theorem reached_clash : Reached clash := by
  have hregistered :
      ((({} : Project).register "post" clashPost.node {}).2.register "user" clashUser.node {}).2 = clash := rfl
  exact hregistered ▸ .register _ _ _ (.register _ _ _ (.new {}))

/-- **Its module declares the name twice**, as an import and as a constant. -/
theorem not_nodup_declared_clash : Reached clash ∧ ∃ out, clash.compile.1 = .ok out ∧ ∃ o ∈ out.documents,
    (projectModule clash.setup.options o).declared = ["z", "user", "post", "user"] ∧
      ¬ (projectModule clash.setup.options o).declared.Nodup := by
  refine ⟨reached_clash, ?_⟩
  have hmem : clash.compile.1.toOption.any (fun out => clashPostOutput ∈ out.documents) = true := by decide +kernel
  cases hcompile : clash.compile.1 with
  | error e =>
    rw [hcompile] at hmem
    cases hmem
  | ok out =>
    rw [hcompile] at hmem
    have hpost : clashPostOutput ∈ out.documents := of_decide_eq_true hmem
    have hdeclared : (projectModule clash.setup.options clashPostOutput).declared = ["z", "user", "post", "user"] := rfl
    refine ⟨out, rfl, clashPostOutput, hpost, hdeclared, ?_⟩
    rw [hdeclared]
    decide

end

end Code
end Valgen
