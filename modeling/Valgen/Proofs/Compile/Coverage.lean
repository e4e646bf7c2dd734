import Mathlib.Tactic.MkIffOfInductiveProp
import Valgen.Proofs.Compile.Results
import Valgen.Proofs.Schema.Expansion
import Valgen.Proofs.Validator.Shapes
/-!
# Proofs.Compile.Coverage — where the shape rules reach

The rules are run on what a subschema is compiled to, wherever it stands; they are not run on two things in between: the
object that is intersected with the compositions beside it, and the branches of a schema with several types.
-/
namespace Valgen

namespace Compile

open Schema (Keywords Node Reference)

/-! ## Schemas that the rules pass over -/

/-- **A schema is compiled to a shape that a rule is there for**, if only it is run on it.  `active` holds the keys of
the references that are being expanded. -/
inductive Bare (root : Node) : Rule → List String → Node → Prop
  | object {active : List String} {k : Keywords Node} : select [] k = .object → k.properties.isSome →
    k.additionalProperties = none → k.hasComposition = false → Bare root .strictObjects active (.object k)
  | array {active : List String} {k : Keywords Node} : select [] k = .array → k.prefixItems = none →
    (∀ nodes, k.items ≠ some (.tuple nodes)) → (∀ n, k.minItems = some n → n = 0) →
    Bare root .nonEmptyArrays active (.object k)
  | reference {rule : Rule} {active : List String} {k : Keywords Node} {reference : String} {target : Node} :
    select [] k = .reference → k.ref = some reference →
    Reference.keyOf (Reference.parse reference).fragment ∉ active → root.target? reference = some target →
    Bare root rule (Reference.keyOf (Reference.parse reference).fragment :: active) target →
    Bare root rule active (.object k)

/-- **The subschemas whose validators become parts of the validator of a schema.** -/
@[mk_iff]
inductive Places (k : Keywords Node) : Node → Prop
  | property {name : String} {c : Node} : select [] k = .object → (name, c) ∈ k.properties.getD [] → Places k c
  | additionalProperties {c : Node} : select [] k = .object → k.additionalProperties = some c → Places k c
  | prefixItem {c : Node} : select [] k = .array → c ∈ k.prefixItems.getD [] → Places k c
  | item {cs : List Node} {c : Node} : select [] k = .array → k.prefixItems = none → k.items = some (.tuple cs) →
    c ∈ cs → Places k c
  | items {c : Node} : select [] k = .array → k.items = some (.single c) → Places k c
  | allOf {c : Node} : select [] k = .object ∨ select [] k = .allOf → c ∈ k.allOf.getD [] → Places k c
  | anyOf {c : Node} : select [] k = .object ∨ select [] k = .anyOf → c ∈ k.anyOf.getD [] → Places k c
  | oneOf {c : Node} : select [] k = .object ∨ select [] k = .oneOf → c ∈ k.oneOf.getD [] → Places k c
  | thenSchema {c : Node} : select [] k = .conditional → k.thenSchema = some c → Places k c
  | elseSchema {c : Node} : select [] k = .conditional → k.elseSchema = some c → Places k c

theorem Places.holds {k : Keywords Node} {c : Node} (h : Places k c) : k.Holds c := by
  cases h with
  | property _ hmem => exact .property hmem
  | additionalProperties _ hsome => exact .additionalProperties hsome
  | prefixItem _ hmem => exact .prefixItem hmem
  | item _ _ hsome hmem => exact .item hsome hmem
  | items _ hsome => exact .items hsome
  | allOf _ hmem => exact .allOf hmem
  | anyOf _ hmem => exact .anyOf hmem
  | oneOf _ hmem => exact .oneOf hmem
  | thenSchema _ hsome => exact .thenSchema hsome
  | elseSchema _ hsome => exact .elseSchema hsome

/-- **A schema is compiled to a validator with a shape inside that a rule was not run on**: an object beside
compositions, or a branch of several types. -/
inductive Spared (root : Node) : Rule → List String → Node → Prop
  | wrapped {active : List String} {k : Keywords Node} : select [] k = .object → k.properties.isSome →
    k.additionalProperties = none → k.hasComposition = true → Spared root .strictObjects active (.object k)
  | bareBranch {rule : Rule} {active : List String} {k : Keywords Node} {t : String} :
    select [] k = .multiType → t ∈ k.types → Bare root rule active (.object (narrow k t)) →
    Spared root rule active (.object k)
  | branch {rule : Rule} {active : List String} {k : Keywords Node} {t : String} :
    select [] k = .multiType → t ∈ k.types → Spared root rule active (.object (narrow k t)) →
    Spared root rule active (.object k)
  | part {rule : Rule} {active : List String} {k : Keywords Node} {c : Node} : Places k c →
    Spared root rule active c → Spared root rule active (.object k)
  | reference {rule : Rule} {active : List String} {k : Keywords Node} {reference : String} {target : Node} :
    select [] k = .reference → k.ref = some reference →
    Reference.keyOf (Reference.parse reference).fragment ∉ active → root.target? reference = some target →
    Spared root rule (Reference.keyOf (Reference.parse reference).fragment :: active) target →
    Spared root rule active (.object k)

section
variable {root : Node} {rule : Rule} {active : List String} {k : Keywords Node}

/-- **The kinds of schemas whose subschemas can become parts**, or that become what another one is compiled to. -/
def innerKinds : List Kind :=
  [.object, .array, .allOf, .anyOf, .oneOf, .conditional, .multiType, .reference]

theorem Places.kind {c : Node} (h : Places k c) : select [] k ∈ innerKinds := by
  cases h with
  | allOf hselect | anyOf hselect | oneOf hselect =>
    rcases hselect with hselect | hselect <;> simp [hselect, innerKinds]
  | property hselect | additionalProperties hselect | prefixItem hselect | item hselect | items hselect
  | thenSchema hselect | elseSchema hselect => simp [hselect, innerKinds]

theorem Bare.kind (h : Bare root rule active (.object k)) : select [] k ∈ innerKinds := by
  cases h with
  | object hselect | array hselect | reference hselect => simp [hselect, innerKinds]

theorem Spared.kind (h : Spared root rule active (.object k)) : select [] k ∈ innerKinds := by
  cases h with
  | wrapped hselect | bareBranch hselect | branch hselect | reference hselect => simp [hselect, innerKinds]
  | part hplaces => exact hplaces.kind

theorem bare_object_iff : Bare root rule active (.object k) ↔
    (select [] k = .object ∧ (rule = .strictObjects ∧ k.properties.isSome ∧ k.additionalProperties = none) ∧
      k.hasComposition = false) ∨
    (select [] k = .array ∧ k.prefixItems = none ∧ (∀ nodes, k.items ≠ some (.tuple nodes)) ∧
      (∀ n, k.minItems = some n → n = 0) ∧ rule = .nonEmptyArrays) ∨
    (select [] k = .reference ∧ ∃ reference target, k.ref = some reference ∧
      Reference.keyOf (Reference.parse reference).fragment ∉ active ∧ root.target? reference = some target ∧
      Bare root rule (Reference.keyOf (Reference.parse reference).fragment :: active) target) := by
  constructor
  · intro h
    cases h with
    | object hselect hproperties hadditional hcomposition =>
      exact .inl ⟨hselect, ⟨rfl, hproperties, hadditional⟩, hcomposition⟩
    | array hselect hplaces hitems hmin => exact .inr (.inl ⟨hselect, hplaces, hitems, hmin, rfl⟩)
    | reference hselect href hfresh htarget h => exact .inr (.inr ⟨hselect, _, _, href, hfresh, htarget, h⟩)
  · rintro (⟨hselect, ⟨rfl, hproperties, hadditional⟩, hcomposition⟩ | ⟨hselect, hplaces, hitems, hmin, rfl⟩ |
      ⟨hselect, _, _, href, hfresh, htarget, h⟩)
    · exact .object hselect hproperties hadditional hcomposition
    · exact .array hselect hplaces hitems hmin
    · exact .reference hselect href hfresh htarget h

theorem spared_object_iff : Spared root rule active (.object k) ↔
    (select [] k = .object ∧ (rule = .strictObjects ∧ k.properties.isSome ∧ k.additionalProperties = none) ∧
      k.hasComposition = true) ∨
    (select [] k = .multiType ∧ ∃ t ∈ k.types,
      Bare root rule active (.object (narrow k t)) ∨ Spared root rule active (.object (narrow k t))) ∨
    (∃ c, Places k c ∧ Spared root rule active c) ∨
    (select [] k = .reference ∧ ∃ reference target, k.ref = some reference ∧
      Reference.keyOf (Reference.parse reference).fragment ∉ active ∧ root.target? reference = some target ∧
      Spared root rule (Reference.keyOf (Reference.parse reference).fragment :: active) target) := by
  constructor
  · intro h
    cases h with
    | wrapped hselect hproperties hadditional hcomposition =>
      exact .inl ⟨hselect, ⟨rfl, hproperties, hadditional⟩, hcomposition⟩
    | bareBranch hselect ht h => exact .inr (.inl ⟨hselect, _, ht, .inl h⟩)
    | branch hselect ht h => exact .inr (.inl ⟨hselect, _, ht, .inr h⟩)
    | part hplaces h => exact .inr (.inr (.inl ⟨_, hplaces, h⟩))
    | reference hselect href hfresh htarget h => exact .inr (.inr (.inr ⟨hselect, _, _, href, hfresh, htarget, h⟩))
  · rintro (⟨hselect, ⟨rfl, hproperties, hadditional⟩, hcomposition⟩ | ⟨hselect, _, ht, h | h⟩ | ⟨_, hplaces, h⟩ |
      ⟨hselect, _, _, href, hfresh, htarget, h⟩)
    · exact .wrapped hselect hproperties hadditional hcomposition
    · exact .bareBranch hselect ht h
    · exact .branch hselect ht h
    · exact .part hplaces h
    · exact .reference hselect href hfresh htarget h

end

theorem not_spared_bool (root : Node) (rule : Rule) (active : List String) (value : Bool) :
    ¬ Spared root rule active (.bool value) := by
  rintro ⟨⟩

theorem spared_of_object {root : Node} {rule : Rule} {active : List String} {k : Keywords Node}
    (hselect : select [] k = .object) : Spared root rule active (.object k) ↔
      ((rule = .strictObjects ∧ k.properties.isSome ∧ k.additionalProperties = none) ∧ k.hasComposition = true) ∨
      ((∃ e ∈ k.properties.getD [], Spared root rule active e.2) ∨
        ∃ c, k.additionalProperties = some c ∧ Spared root rule active c) ∨
      (∃ c ∈ k.allOf.getD [], Spared root rule active c) ∨ (∃ c ∈ k.anyOf.getD [], Spared root rule active c) ∨
      ∃ c ∈ k.oneOf.getD [], Spared root rule active c := by
  have hentries : (∃ e ∈ k.properties.getD [], Spared root rule active e.2) ↔
      ∃ c, (∃ name, (name, c) ∈ k.properties.getD []) ∧ Spared root rule active c := by
    constructor
    · rintro ⟨e, he, hspared⟩
      exact ⟨e.2, ⟨e.1, he⟩, hspared⟩
    · rintro ⟨c, ⟨name, hmem⟩, hspared⟩
      exact ⟨(name, c), hmem, hspared⟩
  rw [spared_object_iff, hentries]
  simp [hselect, places_iff, or_and_right, exists_or, or_assoc]

theorem spared_of_array {root : Node} {rule : Rule} {active : List String} {k : Keywords Node}
    (hselect : select [] k = .array) : Spared root rule active (.object k) ↔
      (∃ c ∈ k.prefixItems.getD [], Spared root rule active c) ∨
      (∃ c, (∃ cs, k.prefixItems = none ∧ k.items = some (.tuple cs) ∧ c ∈ cs) ∧ Spared root rule active c) ∨
      ∃ c, k.items = some (.single c) ∧ Spared root rule active c := by
  rw [spared_object_iff]
  simp [hselect, places_iff, or_and_right, exists_or]

theorem any_demandsItem_sizeChecks {k : Keywords Node} :
    (sizeChecks k).any Rule.demandsItem = false ↔ ∀ n, k.minItems = some n → n = 0 := by
  unfold sizeChecks constraint?
  cases hmin : k.minItems <;> cases hmax : k.maxItems <;> simp [Rule.demandsItem]

theorem lacks_array_iff_bare {root : Node} {rule : Rule} {active : List String} {k : Keywords Node}
    (hselect : select [] k = .array) (hplaces : k.prefixItems = none) (hitems : ∀ nodes, k.items ≠ some (.tuple nodes))
    (item : Validator) : rule.Lacks (.array item (sizeChecks k)) ↔ Bare root rule active (.object k) := by
  rw [Rule.lacks_array_iff, any_demandsItem_sizeChecks, bare_object_iff]
  simp [hselect, hplaces, hitems, and_comm]

theorem spared_asObject {root : Node} {rule : Rule} {active : List String} {c : Node} :
    Spared root rule active (asObject c) ↔ Spared root rule active c := by
  match c with
  | .bool true =>
    have hselect : select [] ({} : Keywords Node) = .any := rfl
    rw [asObject, Node.empty, spared_object_iff]
    simp [not_spared_bool, places_iff, hselect]
  | .bool false =>
    have hselect : select [] ({ not := some Node.empty } : Keywords Node) = .not := rfl
    rw [asObject, Node.nothing, spared_object_iff]
    simp [not_spared_bool, places_iff, hselect]
  | .object k => rfl

/-! ## Validators whose outermost base is no such shape -/

/-- **The outermost base is not what the rule is there for, and there is one inside if and only if.** -/
def Settled (rule : Rule) (v : Validator) (inside : Prop) : Prop :=
  ¬ rule.Lacks v.base ∧ ((∃ w ∈ v.parts, w.Shows rule.Lacks) ↔ inside)

section
variable {rule : Rule} {v : Validator} {inside : Prop}

theorem Settled.shows (h : Settled rule v inside) : v.Shows rule.Lacks ↔ inside := by
  rw [Validator.shows_iff, or_iff_right h.1, h.2]

theorem settled_of_leaf (hbase : ¬ rule.Lacks v.base) (hparts : v.parts = []) : Settled rule v False :=
  ⟨hbase, by simp [hparts]⟩

theorem settled_any (rule : Rule) : Settled rule .any False := settled_of_leaf (by rintro ⟨⟩) rfl

theorem settled_ofBase {base : Base} {vs : List Validator} (hbase : ¬ rule.Lacks base) (hparts : base.parts = vs) :
    Settled rule (.ofBase base) (∃ v ∈ vs, v.Shows rule.Lacks) :=
  ⟨hbase, by rw [Validator.parts_ofBase, hparts]⟩

theorem settled_literalOf (rule : Rule) (facts : Schema.Facts) (value : Json) :
    Settled rule (literalOf facts value) False := by
  unfold literalOf
  split
  · exact settled_of_leaf (by rintro ⟨⟩) rfl
  · exact settled_of_leaf (by rintro ⟨⟩) rfl
  · exact settled_of_leaf (by rintro ⟨⟩) rfl

theorem settled_enumeration (rule : Rule) (facts : Schema.Facts) : Settled rule (enumeration facts) False := by
  unfold enumeration
  split
  · exact settled_of_leaf (by rintro ⟨⟩) rfl
  · exact settled_literalOf rule facts _
  · split
    · exact settled_of_leaf (by rintro ⟨⟩) rfl
    · refine ⟨(by rintro ⟨⟩), ?_⟩
      simp [Base.parts, (settled_literalOf rule facts _).shows]

theorem settled_constant (rule : Rule) (facts : Schema.Facts) : Settled rule (constant facts) False := by
  unfold constant
  split
  · exact settled_literalOf rule facts _
  · exact settled_any rule

theorem settled_primitive (rule : Rule) (kind : Kind) (facts : Schema.Facts) :
    Settled rule (primitive kind facts) False := by
  unfold primitive
  split_ifs
  · exact settled_enumeration rule facts
  · exact settled_constant rule facts
  · split <;> exact settled_of_leaf (by rintro ⟨⟩) rfl

theorem settled_balanced : ∀ vs : List Validator, (∀ v ∈ vs, ¬ rule.Lacks v.base) →
    Settled rule (balanced vs) (∃ v ∈ vs, v.Shows rule.Lacks)
  | [], _ => by
    rw [balanced]
    exact ⟨(by rintro ⟨⟩), by simp [Validator.never, Base.parts]⟩
  | [v], h => by
    have hv : ¬ rule.Lacks v.base := h v List.mem_cons_self
    rw [balanced]
    refine ⟨hv, ?_⟩
    simp [Validator.shows_iff (v := v), hv]
  | v :: w :: rest, h => by
    -- The list is cut in the middle, so the recursion is on its length.
    rw [balanced]
    have hleft := settled_balanced ((v :: w :: rest).take ((v :: w :: rest).length / 2))
      (fun u hu => h u (List.mem_of_mem_take hu))
    have hright := settled_balanced ((v :: w :: rest).drop ((v :: w :: rest).length / 2))
      (fun u hu => h u (List.mem_of_mem_drop hu))
    have hboth : ∀ (vs : List Validator) (n : Nat), ((∃ u ∈ vs.take n, u.Shows rule.Lacks) ∨
        ∃ u ∈ vs.drop n, u.Shows rule.Lacks) ↔ ∃ u ∈ vs, u.Shows rule.Lacks := by
      intro vs n
      conv_rhs => rw [← List.take_append_drop n vs]
      simp only [List.mem_append, or_and_right, exists_or]
    refine ⟨(by rintro ⟨⟩), ?_⟩
    rw [← hboth (v :: w :: rest) ((v :: w :: rest).length / 2), ← hleft.shows, ← hright.shows]
    simp [Base.parts]
termination_by vs => vs.length
decreasing_by
  all_goals
    simp only [List.length_take, List.length_drop, List.length_cons]
    omega

end

/-! ## What a schema is compiled to -/

/-- **Before the rules, the validator of a schema shows what the schema says**: by itself, and inside. -/
structure Covers (root : Node) (rule : Rule) (active : List String) (node : Node) (v : Validator) : Prop where
  base : rule.Lacks v.base ↔ Bare root rule active node
  parts : (∃ w ∈ v.parts, w.Shows rule.Lacks) ↔ Spared root rule active node

theorem Settled.covers {root : Node} {rule : Rule} {active : List String} {node : Node} {v : Validator} {inside : Prop}
    (hv : Settled rule v inside) (hbare : ¬ Bare root rule active node)
    (hspared : Spared root rule active node ↔ inside) : Covers root rule active node v :=
  ⟨iff_of_false hv.1 hbare, hv.2.trans hspared.symm⟩

/-- **After the rules only what is inside is left.** -/
theorem Covers.settled {root : Node} {rule : Rule} {active : List String} {node : Node} {raw w : Validator}
    (h : Covers root rule active node raw) (hw : w.parts = raw.parts) {rules : Pipeline}
    (hrules : ∀ rule ∈ rules, rule.isUser = false) (hmem : rule ∈ rules) (path : Path) :
    Settled rule (rules.result path w) (Spared root rule active node) := by
  refine ⟨Pipeline.not_lacks_result path hrules w hmem, ?_⟩
  rw [Pipeline.parts_result hrules, hw]
  exact h.parts

/-- **The same of what a reference names**, unless it is being expanded. -/
structure CoversReference (root : Node) (rule : Rule) (active : List String) (reference : String) (v : Validator) :
    Prop where
  base : rule.Lacks v.base ↔ ∃ target, Reference.keyOf (Reference.parse reference).fragment ∉ active ∧
    root.target? reference = some target ∧
    Bare root rule (Reference.keyOf (Reference.parse reference).fragment :: active) target
  parts : (∃ w ∈ v.parts, w.Shows rule.Lacks) ↔ ∃ target,
    Reference.keyOf (Reference.parse reference).fragment ∉ active ∧ root.target? reference = some target ∧
    Spared root rule (Reference.keyOf (Reference.parse reference).fragment :: active) target

/-- **The parts of a schema are compiled so, and the rule is run on them.** -/
structure SubCovers {ω : Type} (root : Node) (rule : Rule) (active : List String) (sub : Sub ω) : Prop where
  mem : rule ∈ sub.setup.rules
  rules : ∀ rule ∈ sub.setup.rules, rule.isUser = false
  recipes : sub.setup.recipes = []
  raw : ∀ {node ctx v}, Gives (sub.raw node ctx) v → Covers root rule active node v
  refer : ∀ {reference ctx v}, Gives (sub.refer reference ctx) v → CoversReference root rule active reference v

namespace SubCovers

variable {ω : Type} {root : Node} {rule : Rule} {active : List String} {sub : Sub ω} {k : Keywords Node} {ctx : Context}
  {v : Validator}

theorem compile (h : SubCovers root rule active sub) {node : Node} (hv : Gives (sub.compile node ctx) v) :
    Settled rule v (Spared root rule active node) := by
  obtain ⟨raw, hraw, rfl⟩ := gives_compile hv
  exact (h.raw hraw).settled rfl h.rules h.mem ctx.path

theorem compileEach (h : SubCovers root rule active sub) {keyword : String} {start : Nat} {nodes : List Node}
    {vs : List Validator}
    (hvs : List.Forall₂ (fun c v => Gives (sub.compile c.1 (ctx.descend keyword (.index c.2))) v)
      (nodes.zipIdx start) vs) :
    (∀ v ∈ vs, ¬ rule.Lacks v.base) ∧
      ((∃ v ∈ vs, v.Shows rule.Lacks) ↔ ∃ c ∈ nodes, Spared root rule active c) := by
  have hsettled := hvs.imp (fun _ _ hv => h.compile hv)
  have hnodes : (∃ c ∈ nodes.zipIdx start, Spared root rule active c.1) ↔ ∃ c ∈ nodes, Spared root rule active c := by
    conv_rhs => rw [← List.zipIdx_map_fst start nodes]
    simp only [List.mem_map, exists_exists_and_eq_and]
  refine ⟨?_, ?_⟩
  · have hbases := hsettled.imp (fun _ _ hv => iff_of_true trivial hv.1)
    exact (forall_iff_of_forall₂ hbases).1 (fun _ _ => trivial)
  · rw [← hnodes, exists_iff_of_forall₂ (hsettled.imp (fun _ _ hv => hv.shows.symm))]

theorem compileAllOf (h : SubCovers root rule active sub) (hv : Gives (Compile.compileAllOf sub k ctx) v) :
    Settled rule v (∃ c ∈ k.allOf.getD [], Spared root rule active c) := by
  obtain ⟨vs, rfl, hvs⟩ := gives_compileAllOf hv
  obtain ⟨hbases, hshows⟩ := h.compileEach hvs
  have hbalanced := settled_balanced vs hbases
  rw [hshows] at hbalanced
  simpa [spared_asObject] using hbalanced

theorem compileAlternatives (h : SubCovers root rule active sub) {keyword : String} {join : List Validator → Base}
    (hjoin : ∀ vs, ¬ rule.Lacks (join vs) ∧ (join vs).parts = vs) {members : List Node}
    (hv : Gives (Compile.compileAlternatives sub keyword join members ctx) v) :
    Settled rule v (∃ c ∈ members, Spared root rule active c) := by
  rcases gives_compileAlternatives hv with ⟨rfl, rfl⟩ | ⟨c, rfl, hc⟩ | ⟨vs, _, rfl, hvs⟩
  · simpa using settled_any rule
  · simpa using h.compile hc
  · rw [← (h.compileEach hvs).2]
    exact settled_ofBase (hjoin vs).1 (hjoin vs).2

theorem compileAnyOf (h : SubCovers root rule active sub) (hv : Gives (Compile.compileAnyOf sub k ctx) v) :
    Settled rule v (∃ c ∈ k.anyOf.getD [], Spared root rule active c) :=
  h.compileAlternatives (fun _ => ⟨(by rintro ⟨⟩), rfl⟩) hv

theorem compileOneOf (h : SubCovers root rule active sub) (hv : Gives (Compile.compileOneOf sub k ctx) v) :
    Settled rule v (∃ c ∈ k.oneOf.getD [], Spared root rule active c) :=
  h.compileAlternatives (fun _ => ⟨(by rintro ⟨⟩), rfl⟩) hv

theorem compileOrAny (h : SubCovers root rule active sub) {node : Option Node}
    (hv : Gives (sub.compileOrAny node ctx) v) : Settled rule v (∃ c, node = some c ∧ Spared root rule active c) := by
  rcases gives_compileOrAny hv with ⟨rfl, rfl⟩ | ⟨c, rfl, hc⟩
  · simpa using settled_any rule
  · simpa using h.compile hc

/-! ### Objects -/

theorem properties (h : SubCovers root rule active sub) {entries : List (String × Node)} {properties : List Property}
    (hproperties : List.Forall₂ (PropertyOf sub k ctx) entries properties) :
    (∃ p ∈ properties, p.value.Shows rule.Lacks) ↔ ∃ e ∈ entries, Spared root rule active e.2 := by
  refine (exists_iff_of_forall₂ (hproperties.imp (fun e p hp => ?_))).symm
  obtain ⟨raw, hraw, hvalue⟩ := hp.value
  have hparts : (marked (k.isRequired e.1) raw).parts = raw.parts := by
    unfold marked
    split
    · rfl
    · exact raw.parts_mark rfl
  rw [hvalue]
  exact ((h.raw hraw).settled hparts h.rules h.mem _).shows.symm

theorem unlisted (h : SubCovers root rule active sub) {additional : Option Node} {rest : Unlisted}
    (hrest : UnlistedOf sub ctx additional rest) :
    (∃ w ∈ rest.parts, w.Shows rule.Lacks) ↔ ∃ c, additional = some c ∧ Spared root rule active c := by
  cases hrest with
  | absent => simp [Unlisted.parts]
  | no => simp [Unlisted.parts, not_spared_bool]
  | yes => simp [Unlisted.parts, not_spared_bool]
  | values hv => simpa [Unlisted.parts] using (h.compile hv).shows

/-- **The object itself**: it lacks something if it strips keys, and its properties and unlisted keys are inside. -/
theorem objectBase (h : SubCovers root rule active sub) (hv : ObjectBaseOf sub k ctx v) :
    (rule.Lacks v.base ↔ rule = .strictObjects ∧ k.properties.isSome ∧ k.additionalProperties = none) ∧
    ((∃ w ∈ v.parts, w.Shows rule.Lacks) ↔ (∃ e ∈ k.properties.getD [], Spared root rule active e.2) ∨
      ∃ c, k.additionalProperties = some c ∧ Spared root rule active c) := by
  cases hv with
  | anyMap hproperties hother =>
    refine ⟨iff_of_false (by rintro ⟨⟩) (by simp [hproperties]), ?_⟩
    have hnone : ¬ ∃ c, k.additionalProperties = some c ∧ Spared root rule active c := by
      rintro ⟨c, hc, hspared⟩
      cases c with
      | bool value => exact not_spared_bool root rule active value hspared
      | object values => exact hother values hc
    simp [hproperties, hnone, Base.parts, (settled_any rule).shows]
  | map hproperties hvalues hgives =>
    refine ⟨iff_of_false (by rintro ⟨⟩) (by simp [hproperties]), ?_⟩
    simp [hproperties, hvalues, Base.parts, (h.compile hgives).shows]
  | @shape entries properties rest hentries hproperties hrest =>
    constructor
    · simp [hentries, Validator.ofBase, Rule.lacks_object_iff, hrest.eq_strip_iff]
    · rw [hentries, Option.getD_some, ← h.properties hproperties, ← h.unlisted hrest]
      simp [Base.parts, or_and_right, exists_or]

/-- **One composition beside an object**: what lacked something by itself is now inside. -/
theorem intersectIf_step {present : Bool} {own inside beside : Prop} {composition : CompileM ω Validator}
    {w : Validator}
    (hv : (rule.Lacks v.base ↔ own) ∧ ((∃ u ∈ v.parts, u.Shows rule.Lacks) ↔ inside))
    (hcomposition : ∀ {other}, Gives composition other → Settled rule other beside)
    (habsent : present = false → ¬ beside) (hw : Gives (intersectIf present v composition) w) :
    (rule.Lacks w.base ↔ own ∧ present = false) ∧
    ((∃ u ∈ w.parts, u.Shows rule.Lacks) ↔ (own ∧ present = true) ∨ inside ∨ beside) := by
  rcases gives_intersectIf hw with ⟨rfl, rfl⟩ | ⟨rfl, other, hother, rfl⟩
  · simp [hv, habsent]
  · have hshows : v.Shows rule.Lacks ↔ own ∨ inside := by rw [Validator.shows_iff, hv.1, hv.2]
    refine ⟨iff_of_false (by rintro ⟨⟩) (by simp), ?_⟩
    simp [Base.parts, hshows, (hcomposition hother).shows, or_assoc]

theorem or_beside_iff {own inside all any one : Prop} {p q r : Bool} :
    (((own ∧ p = false) ∧ q = false) ∧ r = true) ∨
      (((own ∧ p = false) ∧ q = true) ∨ ((own ∧ p = true) ∨ inside ∨ all) ∨ any) ∨ one ↔
    (own ∧ (p || q || r) = true) ∨ inside ∨ all ∨ any ∨ one := by
  cases p <;> cases q <;> cases r <;> simp [or_assoc]

theorem compileObject (h : SubCovers root rule active sub) (hselect : select [] k = .object)
    (hv : Gives (Compile.compileObject sub k ctx) v) : Covers root rule active (.object k) v := by
  have habsent : ∀ members : Option (List Node), members.isSome = false →
      ¬ ∃ c ∈ members.getD [], Spared root rule active c := by
    intro members hnone
    rw [Option.isSome_eq_false_iff, Option.isNone_iff_eq_none] at hnone
    simp [hnone]
  obtain ⟨base, first, second, hbase, hfirst, hsecond, hlast⟩ := gives_compileObject hv
  have hall := intersectIf_step (h.objectBase hbase) h.compileAllOf (habsent k.allOf) hfirst
  have hany := intersectIf_step hall h.compileAnyOf (habsent k.anyOf) hsecond
  obtain ⟨hown, hinside⟩ := intersectIf_step hany h.compileOneOf (habsent k.oneOf) hlast
  constructor
  · rw [hown, bare_object_iff]
    simp [hselect, Keywords.hasComposition, and_assoc]
  · rw [hinside, spared_of_object hselect]
    exact or_beside_iff

/-! ### Arrays -/

theorem compileRest (h : SubCovers root rule active sub) {rest : Option Validator}
    (hrest : Gives (Compile.compileRest sub k ctx) rest) : (∃ w ∈ rest.toList, w.Shows rule.Lacks) ↔
      ∃ c, k.items = some (.single c) ∧ Spared root rule active c := by
  rcases gives_compileRest hrest with ⟨rfl, hfalse⟩ | ⟨node, w, hitems, rfl, hw⟩
  · refine iff_of_false (by simp) ?_
    rintro ⟨c, hc, hspared⟩
    rw [hfalse c hc] at hspared
    exact not_spared_bool root rule active false hspared
  · simpa [hitems] using (h.compile hw).shows

theorem compileArray (h : SubCovers root rule active sub) (hselect : select [] k = .array)
    (hv : Gives (Compile.compileArray sub k ctx) v) : Covers root rule active (.object k) v := by
  cases gives_compileArray hv with
  | @places nodes items rest hnodes hitems hrest =>
    refine ⟨iff_of_false (by rintro ⟨⟩) (by rw [bare_object_iff]; simp [hselect, hnodes]), ?_⟩
    rw [spared_of_array hselect, hnodes, ← h.compileRest hrest]
    simp [Base.parts, or_and_right, exists_or, (h.compileEach hitems).2]
  | @tuple nodes items hplaces hnodes hitems =>
    refine ⟨iff_of_false (by rintro ⟨⟩) (by rw [bare_object_iff]; simp [hselect, hnodes]), ?_⟩
    rw [spared_of_array hselect, hplaces, hnodes]
    simp [Base.parts, (h.compileEach hitems).2]
  | items hplaces hnode hitem =>
    refine ⟨lacks_array_iff_bare hselect hplaces (by simp [hnode]) _, ?_⟩
    rw [spared_of_array hselect, hplaces, hnode]
    simp [Base.parts, (h.compile hitem).shows]
  | anyItems hplaces hnone =>
    refine ⟨lacks_array_iff_bare hselect hplaces (by simp [hnone]) _, ?_⟩
    rw [spared_of_array hselect, hplaces, hnone]
    simp [Base.parts, (settled_any rule).shows]

/-! ### All kinds -/

theorem covers_of_leaf (hleaf : select [] k ∉ innerKinds) (hv : Settled rule v False) :
    Covers root rule active (.object k) v :=
  hv.covers (fun hbare => hleaf hbare.kind) (iff_of_false (fun hspared => hleaf hspared.kind) not_false)

theorem compileMultiType (h : SubCovers root rule active sub) (hselect : select [] k = .multiType)
    (hv : Gives (Compile.compileMultiType sub k ctx) v) : Covers root rule active (.object k) v := by
  obtain ⟨vs, rfl, hvs⟩ := gives_compileMultiType (select_eq_multiType hselect) hv
  -- The branches are compiled without the rules, so what a branch lacks by itself counts here.
  have hbranches : (∃ w ∈ vs, w.Shows rule.Lacks) ↔ ∃ t ∈ k.types,
      Bare root rule active (.object (narrow k t)) ∨ Spared root rule active (.object (narrow k t)) := by
    refine (exists_iff_of_forall₂ (hvs.imp (fun t w hw => ?_))).symm
    rw [Validator.shows_iff, (h.raw hw).base, (h.raw hw).parts]
  refine ⟨iff_of_false (by rintro ⟨⟩) (by rw [bare_object_iff]; simp [hselect]), ?_⟩
  rw [Validator.parts_ofBase, Base.parts, hbranches, spared_object_iff]
  simp [hselect, places_iff]

theorem compileConditional (h : SubCovers root rule active sub) (hselect : select [] k = .conditional)
    (hv : Gives (Compile.compileConditional sub k ctx) v) : Covers root rule active (.object k) v := by
  obtain ⟨_, _, yes, no, _, hyes, hno, rfl⟩ := gives_compileConditional hv
  refine ⟨iff_of_false (by rintro ⟨⟩) (by rw [bare_object_iff]; simp [hselect]), ?_⟩
  rw [spared_object_iff]
  simp [hselect, places_iff, or_and_right, exists_or, Validator.superRefine, Base.parts, Modifier.parts,
    (h.compileOrAny hyes).shows, (h.compileOrAny hno).shows]

theorem compileReference (h : SubCovers root rule active sub) (hselect : select [] k = .reference) {reference : String}
    (href : k.ref = some reference) (hv : Gives (sub.refer reference ctx) v) :
    Covers root rule active (.object k) v := by
  obtain ⟨hbase, hparts⟩ := h.refer hv
  refine ⟨hbase.trans ?_, hparts.trans ?_⟩
  · rw [bare_object_iff]
    simp [hselect, href]
  · rw [spared_object_iff]
    simp [hselect, href, places_iff]

theorem compileKind (h : SubCovers root rule active sub) {kind : Kind} (hselect : select [] k = kind)
    (hv : Gives (Compile.compileKind sub kind k ctx) v) : Covers root rule active (.object k) v := by
  cases kind with
  | custom typeName recipe => exact absurd (select_eq_custom hselect).2 List.not_mem_nil
  | object => exact h.compileObject hselect hv
  | array => exact h.compileArray hselect hv
  | string | number | integer | boolean | null =>
    refine covers_of_leaf (by simp [hselect, innerKinds]) ?_
    rw [gives_pure hv]
    exact settled_primitive rule _ k.toFacts
  | enum =>
    refine covers_of_leaf (by simp [hselect, innerKinds]) ?_
    rw [gives_pure hv]
    exact settled_enumeration rule k.toFacts
  | const =>
    refine covers_of_leaf (by simp [hselect, innerKinds]) ?_
    rw [gives_pure hv]
    exact settled_constant rule k.toFacts
  | allOf =>
    refine (h.compileAllOf hv).covers (by rw [bare_object_iff]; simp [hselect]) ?_
    rw [spared_object_iff]
    simp [hselect, places_iff]
  | anyOf =>
    refine (h.compileAnyOf hv).covers (by rw [bare_object_iff]; simp [hselect]) ?_
    rw [spared_object_iff]
    simp [hselect, places_iff]
  | oneOf =>
    refine (h.compileOneOf hv).covers (by rw [bare_object_iff]; simp [hselect]) ?_
    rw [spared_object_iff]
    simp [hselect, places_iff]
  | not =>
    refine covers_of_leaf (by simp [hselect, innerKinds]) ?_
    rcases gives_compileNot hv with rfl | ⟨_, _, _, _, rfl⟩
    · exact settled_any rule
    · exact settled_of_leaf (by rintro ⟨⟩) rfl
  | conditional => exact h.compileConditional hselect hv
  | multiType => exact h.compileMultiType hselect hv
  | reference =>
    cases href : k.ref with
    | some reference =>
      rw [Compile.compileKind, href] at hv
      exact h.compileReference hselect href hv
    | none =>
      rw [Compile.compileKind, href] at hv
      rw [gives_pure hv]
      refine (settled_any rule).covers (by rw [bare_object_iff]; simp [hselect, href]) ?_
      rw [spared_object_iff]
      simp [hselect, href, places_iff]
  | any =>
    refine covers_of_leaf (by simp [hselect, innerKinds]) ?_
    rw [gives_pure hv]
    exact settled_any rule

theorem compileNode (h : SubCovers root rule active sub) {node : Node} (hhook : sub.setup.hook node ctx = none)
    (hv : Gives (Compile.compileNode sub node ctx) v) : Covers root rule active node v := by
  rcases gives_compileNode hhook hv with ⟨rfl, rfl⟩ | ⟨rfl, rfl⟩ | ⟨k, w, rfl, hw, rfl⟩
  · refine (settled_any rule).covers (by rintro ⟨⟩) (by simp [not_spared_bool])
  · have hnever : Settled rule .never False := settled_of_leaf (by rintro ⟨⟩) rfl
    exact hnever.covers (by rintro ⟨⟩) (by simp [not_spared_bool])
  · rw [h.recipes] at hw
    obtain ⟨hbase, hparts⟩ := h.compileKind rfl hw
    refine ⟨?_, ?_⟩
    · rw [base_annotate]
      exact hbase
    · rw [parts_annotate]
      exact hparts

end SubCovers

/-! ## Documents -/

/-- **A schema that the shape rules pass over stands in the document**: an object beside compositions that says nothing
about unlisted keys, or a schema with several types. -/
theorem Spared.exists_inside {root : Node} {rule : Rule} {active : List String} {node : Node}
    (h : Spared root rule active node) (hnode : root.Inside node) : ∃ k, root.Inside (.object k) ∧
      ((select [] k = .object ∧ k.properties.isSome ∧ k.additionalProperties = none ∧ k.hasComposition = true) ∨
        select [] k = .multiType) := by
  induction h with
  | wrapped hselect hproperties hadditional hcomposition =>
    exact ⟨_, hnode, .inl ⟨hselect, hproperties, hadditional, hcomposition⟩⟩
  | bareBranch hselect => exact ⟨_, hnode, .inr hselect⟩
  | branch hselect => exact ⟨_, hnode, .inr hselect⟩
  | part hplaces _ ih => exact ih (hnode.child hplaces.holds)
  | reference _ _ _ htarget _ ih => exact ih (Schema.inside_of_target? htarget)

section
variable {setup : Setup} {root : Node} {rule : Rule}

theorem settled_recursion {ω : Type} (rule : Rule) (s : Session ω) (key : String) :
    Settled rule (s.recursion key) False := by
  unfold Session.recursion
  split
  · split <;> exact settled_of_leaf (by rintro ⟨⟩) rfl
  · exact settled_any rule

theorem covers_refer {compileAt : List String → Node → Context → CompileM Unit Validator}
    (hat : ∀ {active node ctx v}, Gives (compileAt active node ctx) v → Covers root rule active node v)
    {active : List String} {reference : String} {ctx : Context} {v : Validator}
    (hv : Gives ((standalone setup root).refer compileAt active reference ctx) v) :
    CoversReference root rule active reference v := by
  rcases gives_refer hv with hvalidator | ⟨pointer, hpointer, hwhere⟩
  · obtain ⟨_, hinline⟩ := gives_resolve_standalone hvalidator
    cases hinline
  · obtain ⟨hdocument, hinline⟩ := gives_resolve_standalone hpointer
    cases hinline
    rcases hwhere with ⟨hactive, rfl⟩ | ⟨hfresh, target, hfound, htarget⟩
    · -- A reference that is being expanded ends in a name or in any value, which no rule is there for.
      obtain ⟨hbase, hparts⟩ := settled_recursion rule (standalone setup root)
        (Reference.keyOf (Reference.parse reference).fragment)
      refine ⟨iff_of_false hbase ?_, hparts.trans (iff_of_false not_false ?_)⟩ <;>
        exact fun ⟨_, hfresh, _⟩ => hfresh hactive
    · have hnamed : root.target? reference = some target := Schema.target?_eq_some_iff.2 ⟨hdocument, hfound⟩
      obtain ⟨hbase, hparts⟩ := hat htarget
      constructor
      · rw [hbase, hnamed]
        simp [hfresh]
      · rw [hparts, hnamed]
        simp [hfresh]

/-- **A document that stands alone**: by induction on the nesting of calls, for every list of references that are being
expanded. -/
theorem covers_compileRaw (hhook : ∀ node ctx, setup.hook node ctx = none) (hrecipes : setup.recipes = [])
    (hrules : ∀ rule ∈ setup.rules, rule.isUser = false) (hmem : rule ∈ setup.rules) :
    ∀ (budget : Nat) {active : List String} {node : Node} {ctx : Context} {v : Validator},
      Gives ((standalone setup root).compileRaw budget active node ctx) v → Covers root rule active node v
  | 0, _, _, _, _, hv => absurd hv not_gives_throw
  | budget + 1, active, node, ctx, v, hv => by
    have hat := @covers_compileRaw hhook hrecipes hrules hmem budget
    have hsub : SubCovers root rule active {
        setup := setup
        raw := (standalone setup root).compileRaw budget active
        refer := (standalone setup root).refer ((standalone setup root).compileRaw budget) active } :=
      ⟨hmem, hrules, hrecipes, hat, covers_refer hat⟩
    exact hsub.compileNode (hhook node ctx) hv

theorem shows_iff_spared (hhook : ∀ node ctx, setup.hook node ctx = none) (hrecipes : setup.recipes = [])
    (hrules : ∀ rule ∈ setup.rules, rule.isUser = false) (hmem : rule ∈ setup.rules) {v : Validator}
    (hv : compileValidator setup root = .ok v) : v.Shows rule.Lacks ↔ Spared root rule [""] root := by
  obtain ⟨raw, hraw, rfl⟩ := gives_session_compile (gives_of_compileValidator hv)
  exact ((covers_compileRaw hhook hrecipes hrules hmem _ hraw).settled rfl hrules hmem _).shows

/-- **Where the shape rules reach.**  With `strictObjects` among the rules no object anywhere in the compiled validator
strips unlisted keys, and with `nonEmptyArrays` every array demands an item, exactly if the document holds no schema
that these rules pass over; such a schema is an object beside compositions that says nothing about unlisted keys, or has
several types. -/
theorem shape_rules_reach_iff (hhook : ∀ node ctx, setup.hook node ctx = none) (hrecipes : setup.recipes = [])
    (hrules : ∀ rule ∈ setup.rules, rule.isUser = false) {v : Validator} (hv : compileValidator setup root = .ok v) :
    (.strictObjects ∈ setup.rules →
      ((∀ w, v.Inside w → ∀ properties, w.base ≠ .object properties .strip) ↔
        ¬ Spared root .strictObjects [""] root)) ∧
    (.nonEmptyArrays ∈ setup.rules →
      ((∀ w, v.Inside w → ∀ items checks, w.base = .array items checks →
          ∃ n message, ⟨.min n, message⟩ ∈ checks ∧ 1 ≤ n) ↔ ¬ Spared root .nonEmptyArrays [""] root)) ∧
    ∀ rule, Spared root rule [""] root → ∃ k, root.Inside (.object k) ∧
      ((select [] k = .object ∧ k.properties.isSome ∧ k.additionalProperties = none ∧ k.hasComposition = true) ∨
        select [] k = .multiType) := by
  have hnowhere : ∀ {rule : Rule}, rule ∈ setup.rules →
      ((∀ w, v.Inside w → ¬ rule.Lacks w.base) ↔ ¬ Spared root rule [""] root) := by
    intro rule hmem
    rw [← shows_iff_spared hhook hrecipes hrules hmem hv]
    simp [Validator.Shows]
  refine ⟨fun hmem => ?_, fun hmem => ?_, fun _ hspared => hspared.exists_inside .root⟩
  · simpa only [Rule.not_lacks_strict_iff] using hnowhere hmem
  · simpa only [Rule.not_lacks_nonEmpty_iff] using hnowhere hmem

end

def shapeRules : Setup := { rules := [.strictObjects, .nonEmptyArrays] }

theorem hook_shapeRules (node : Node) (ctx : Context) : shapeRules.hook node ctx = none := rfl

theorem isUser_shapeRules : ∀ rule ∈ shapeRules.rules, rule.isUser = false := by decide

theorem strictObjects_mem_shapeRules : .strictObjects ∈ shapeRules.rules := List.mem_cons_self

theorem nonEmptyArrays_mem_shapeRules : .nonEmptyArrays ∈ shapeRules.rules :=
  List.mem_cons_of_mem _ List.mem_cons_self

/-- **A schema of objects with arrays**, each by one type. -/
def tagged : Node := .object {
  type := some (.single "object")
  properties := some [("tags", .object { type := some (.single "array") })] }

/-- **A schema of objects and of arrays.** -/
def branching : Node := .object { type := some (.multiple ["object", "array"]), properties := some [] }

theorem inside_tagged {k : Keywords Node} (h : tagged.Inside (.object k)) :
    k.hasComposition = false ∧ select [] k ≠ .multiType := by
  have hevery : ∀ node, tagged.Inside node → node = tagged ∨ node = .object { type := some (.single "array") } := by
    simp [tagged, Node.forall_inside_object, Keywords.children, Keywords.childrenOfMap, Keywords.childrenOfOne,
      Keywords.childrenOfList, Keywords.childrenOfItems]
  rcases hevery _ h with heq | heq
  · cases heq
    exact ⟨rfl, show Kind.object ≠ .multiType from Kind.noConfusion⟩
  · cases heq
    exact ⟨rfl, show Kind.array ≠ .multiType from Kind.noConfusion⟩

theorem compile_tagged : ∃ v, compileValidator shapeRules tagged = .ok v := by
  obtain ⟨b, hb⟩ := (standalone shapeRules tagged).exists_budget
  unfold compileValidator runStandalone Session.compileRoot Session.compile
  rw [hb]
  exact ⟨_, rfl⟩

theorem compile_branching : ∃ v, compileValidator shapeRules branching = .ok v := by
  obtain ⟨b, hb⟩ := (standalone shapeRules branching).exists_budget
  unfold compileValidator runStandalone Session.compileRoot Session.compile
  rw [hb]
  exact ⟨_, rfl⟩

theorem shape_rules_reach_iff_tagged : ∃ v, compileValidator shapeRules tagged = .ok v ∧
    (∀ w, v.Inside w → ∀ properties, w.base ≠ .object properties .strip) ∧
    ∀ w, v.Inside w → ∀ items checks, w.base = .array items checks →
      ∃ n message, ⟨.min n, message⟩ ∈ checks ∧ 1 ≤ n := by
  obtain ⟨v, hv⟩ := compile_tagged
  obtain ⟨hstrict, hnonEmpty, hpassed⟩ := shape_rules_reach_iff hook_shapeRules rfl isUser_shapeRules hv
  have hplain : ∀ rule, ¬ Spared tagged rule [""] tagged := by
    intro rule hspared
    obtain ⟨k, hinside, hk⟩ := hpassed rule hspared
    obtain ⟨hcomposition, hselect⟩ := inside_tagged hinside
    rcases hk with ⟨_, _, _, hpresent⟩ | hseveral
    · rw [hcomposition] at hpresent
      cases hpresent
    · exact hselect hseveral
  exact ⟨v, hv, (hstrict strictObjects_mem_shapeRules).2 (hplain _),
    (hnonEmpty nonEmptyArrays_mem_shapeRules).2 (hplain _)⟩

/-- **The branches of several types stay as they are.** -/
theorem not_reached_branching : ∃ v, compileValidator shapeRules branching = .ok v ∧
    (∃ w properties, v.Inside w ∧ w.base = .object properties .strip) ∧
    ∃ w items checks, v.Inside w ∧ w.base = .array items checks ∧ ∀ n message, ⟨.min n, message⟩ ∈ checks → n = 0 := by
  obtain ⟨v, hv⟩ := compile_branching
  have hobject : Spared branching .strictObjects [""] branching :=
    .bareBranch (t := "object") rfl (by decide) (.object rfl rfl rfl rfl)
  have harray : Spared branching .nonEmptyArrays [""] branching :=
    .bareBranch (t := "array") rfl (by decide)
      (.array rfl rfl (fun _ h => by cases h) (fun _ h => by cases h))
  have hshows : ∀ {rule}, rule ∈ shapeRules.rules → (v.Shows rule.Lacks ↔ Spared branching rule [""] branching) :=
    fun hmem => shows_iff_spared hook_shapeRules rfl isUser_shapeRules hmem hv
  obtain ⟨w, hw, hstrips⟩ := (hshows strictObjects_mem_shapeRules).2 hobject
  obtain ⟨u, hu, hempty⟩ := (hshows nonEmptyArrays_mem_shapeRules).2 harray
  refine ⟨v, hv, ?_, ?_⟩
  · by_contra hnone
    refine (Rule.not_lacks_strict_iff.2 (fun properties hbase => ?_)) hstrips
    exact hnone ⟨w, properties, hw, hbase⟩
  · by_contra hnone
    refine (Rule.not_lacks_nonEmpty_iff.2 (fun items checks hbase => ?_)) hempty
    by_contra hchecks
    refine hnone ⟨u, items, checks, hu, hbase, fun n message hmem => ?_⟩
    by_contra hn
    exact hchecks ⟨n, message, hmem, Nat.one_le_iff_ne_zero.2 hn⟩

end Compile
end Valgen
