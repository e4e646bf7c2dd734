import Mathlib.Tactic.MkIffOfInductiveProp
import Valgen.Proofs.Compile.SideBySide
/-!
# Proofs.Compile.Dialects — validators that do not depend on the dialect

The dialect counts where validators are written.  While a document is being compiled they are written in functions only:
in negations and conditions, and for `false` among the members of `allOf`, which is taken for a negation.  A document
without them (`Functionless`) is compiled to one validator, or fails with one error, in every dialect
(`dialect_independent`).

The two compilations are aligned (`speaking`): each schema faces itself, at places that differ in the dialect, and the
validators are equal.  That no schema becomes a function is handed down to the parts, and to what references name.
-/
namespace Valgen
namespace Compile

open Schema (Keywords Node)

def Setup.speaking (setup : Setup) (dialect : Dialect) : Setup :=
  { setup with options := { setup.options with dialect := dialect } }

/-- **A schema that becomes no function in the text**, whatever becomes of its subschemas.  Without `if`, branches of a
condition are refused. -/
@[mk_iff]
structure NoFunction (k : Keywords Node) : Prop where
  not : k.not = none
  ifSchema : k.ifSchema = none
  allOf : .bool false ∉ k.allOf.getD []

/-- **A document without functions.** -/
def Functionless (root : Node) : Prop := ∀ k, root.Inside (.object k) → NoFunction k

namespace Functionless

variable {root : Node}

theorem inside (h : Functionless root) {node : Node} (hnode : root.Inside node) : Functionless node :=
  fun k hk => h k (hnode.trans hk)

theorem empty : Functionless Node.empty := by
  intro k hk
  rcases hk.eq_or_below with heq | ⟨c, hc, _⟩
  · cases heq
    exact ⟨rfl, rfl, List.not_mem_nil⟩
  · cases hc

/-- **The parts of a schema without functions have none.** -/
theorem part {k : Keywords Node} (h : Functionless (.object k)) {node : Node} (hpart : Part k node) :
    Functionless node := by
  cases hpart with
  | sub hholds => exact h.inside (.child .root hholds)
  | @member member hmember =>
    cases member with
    | bool value =>
      cases value with
      | true => exact empty
      | false => exact absurd hmember (h k .root).allOf
    | object _ => exact h.inside (.child .root (.allOf hmember))
  | narrow typeName _ =>
    intro inner hinner
    rcases hinner.eq_or_below with heq | ⟨c, hc, hbelow⟩
    · cases heq
      exact ⟨(h k .root).not, (h k .root).ifSchema, (h k .root).allOf⟩
    · exact h inner (.trans (.child .root (holds_of_narrow (Keywords.holds_iff.2 ⟨c.1, hc⟩))) hbelow)
  | noItem _ => exact empty

end Functionless

/-- **The alignment of schemas without functions with themselves**, in two dialects. -/
def speaking (setup : Setup) (dialect dialect' : Dialect) :
    Alignment unlessSpent (setup.speaking dialect) (setup.speaking dialect') :=
  { (agreeing unlessSpent True False none none Functionless False.elim rfl
      (fun {_ _ _ _} hctx hv => applyRules_coupled rfl (by rw [hctx.2]) hv) :
        Alignment unlessSpent (setup.speaking dialect) (setup.speaking dialect')) with
    place := fun ctx ctx' => ctx' = { ctx with dialect := dialect' }
    path := by
      rintro ctx _ rfl
      rfl
    child := by
      rintro ctx _ segment rfl
      rfl
    withoutDefault := by
      rintro ctx _ rfl
      rfl
    rules := by
      rintro ctx _ v v' rfl hv
      exact applyRules_coupled rfl rfl hv
    condition := False.elim }

/-- **A document without functions corresponds to itself** in another dialect. -/
theorem Functionless.documentsAligned {setup : Setup} (hhook : ∀ node ctx, setup.hook node ctx = none)
    (hrecipes : setup.recipes = []) {root : Node} (hroot : Functionless root) (dialect dialect' : Dialect) :
    DocumentsAligned (speaking setup dialect dialect') root root where
  hook := hhook
  hook' := hhook
  name := rfl
  alike := by
    rintro k _ ⟨heq, hk⟩
    cases heq
    exact Keywords.alike_self (fun c hc => ⟨rfl, hk.part (.sub hc)⟩)
  functions := by
    rintro k _ ⟨-, hk⟩ (hnot | hif | hne)
    · rw [(hk k .root).not] at hnot
      cases hnot
    · rw [(hk k .root).ifSchema] at hif
      cases hif
    · exact hne hrecipes
  recipes _ hne := absurd hrecipes hne
  parts := by
    rintro k _ c c' ⟨heq, hk⟩ hpart
    cases heq
    cases hpart with
    | sub hc => exact hc
    | member hmember hd => exact ⟨congrArg asObject hd.1, hk.part (.member hmember)⟩
    | narrow typeName hseveral => exact ⟨rfl, hk.part (.narrow typeName hseveral)⟩
    | noItem htype => exact ⟨rfl, .empty⟩
  annotated := by
    rintro k _ ctx _ v v' ⟨heq, _⟩ hctx hv _
    cases heq
    cases hctx
    rw [hv trivial]
    rfl
  roots := ⟨rfl, hroot⟩
  named key := by
    cases hkey : root.pointer? key with
    | none => exact .none
    | some target => exact .some ⟨rfl, hroot.inside (Node.inside_of_pointer? hkey)⟩

/-- **The dialect does not matter to validators**: a document without functions has one validator or one error in all
dialects, whatever the rules and the other options, where there are no hooks and no recipes. -/
theorem dialect_independent {setup : Setup} (hhook : ∀ node ctx, setup.hook node ctx = none)
    (hrecipes : setup.recipes = []) {root : Node} (hroot : Functionless root) (dialect dialect' : Dialect) :
    compileValidator (setup.speaking dialect) root = compileValidator (setup.speaking dialect') root := by
  rcases (hroot.documentsAligned hhook hrecipes dialect dialect').compileValidator rfl rfl with
    ⟨e, he, he'⟩ | ⟨v, v', hv, hv', hsame⟩
  · rw [he, he']
  · rw [hv, hv', hsame trivial]

/-- **A chain of labels**: a schema that refers to itself and to a definition. -/
def labelChain : Node := .object {
  type := some (.single "object")
  properties := some [
    ("next", .object { ref := some "#", nullable := some true }),
    ("label", .object { ref := some "#/$defs/label" })]
  additionalProperties := some (.bool false)
  allOf := some [.bool true, .object { required := ["label"] }]
  defs := some [("label", .object { type := some (.multiple ["string", "null"]), format := some "email" })] }

theorem functionless_labelChain : Functionless labelChain := by
  suffices h : ∀ node, labelChain.Inside node → ∀ k, node = .object k → NoFunction k from fun k hk => h _ hk k rfl
  unfold labelChain
  simp [noFunction_iff, Node.forall_inside_object, Node.forall_inside_bool, Keywords.children, Keywords.childrenOfMap,
    Keywords.childrenOfOne, Keywords.childrenOfList, Keywords.childrenOfItems]

theorem dialect_independent_labelChain :
    let setup : Setup := { options := { name := some "chain" }, rules := [.strictObjects, .forceRequired "**"] }
    Functionless labelChain ∧
      compileValidator (setup.speaking .v3) labelChain = compileValidator (setup.speaking .v4) labelChain :=
  ⟨functionless_labelChain, dialect_independent (fun _ _ => rfl) rfl functionless_labelChain .v3 .v4⟩

end Compile
end Valgen
