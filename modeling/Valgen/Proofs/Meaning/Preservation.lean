import Valgen.Proofs.Compile.Nesting
import Valgen.Proofs.Meaning.Denotation
/-!
# Proofs.Meaning.Preservation — validators accept what schemas demand

`Structured` are the schemas whose every keyword has a counterpart among the validators.  For them the compiler keeps
the meaning: the validator of a schema accepts exactly the values that satisfy it (`compile_preserves_meaning`).
-/
namespace Valgen
namespace Meaning

open Compile hiding Sub
open Schema (Facts Keywords Node)

/-! ## The fragment -/

/-- **The keywords of a schema that may stand beside its type.** -/
def beside (k : Keywords Node) : Keywords Node where
  type := k.type
  minLength := k.minLength
  maxLength := k.maxLength
  multipleOf := k.multipleOf
  minimum := k.minimum
  maximum := k.maximum
  exclusiveMinimum := k.exclusiveMinimum
  exclusiveMaximum := k.exclusiveMaximum
  items := k.items
  minItems := k.minItems
  maxItems := k.maxItems
  properties := k.properties
  required := k.required
  additionalProperties := k.additionalProperties
  allOf := k.allOf
  anyOf := k.anyOf
  oneOf := k.oneOf

/-- **A schema with a type or several**, and with compositions if it is for objects only. -/
structure Typed (k : Keywords Node) : Prop where
  only : k = beside k
  types : k.types ≠ []
  builtin : ∀ typeName ∈ k.types, typeName ∈ builtinTypes
  items : ∀ nodes, k.items ≠ some (.tuple nodes)
  required : ∀ name ∈ k.required, name ∈ Assoc.keys (k.properties.getD [])
  closed : k.additionalProperties = some (.bool false) → k.properties.isSome
  composition : k.hasComposition = true → k.singleType? = some "object"
  allOf : ∀ nodes, k.allOf = some nodes → nodes ≠ [] ∧ Node.bool false ∉ nodes
  anyOf : k.anyOf ≠ some []
  oneOf : k.oneOf ≠ some []

/-- **The schemas whose meaning is kept.** -/
inductive Structured : Node → Prop
  | bool (value : Bool) : Structured (.bool value)
  | empty : Structured Node.empty
  | typed {k : Keywords Node} : Typed k → (∀ node, k.Holds node → Structured node) → Structured (.object k)
  | enum {values : List Json} : (∀ value ∈ values, IsPrimitive value) → Structured (.object { enum := some values })
  | const {value : Json} : IsPrimitive value → Structured (.object { const := some value })
  | allOf {nodes : List Node} : nodes ≠ [] → Node.bool false ∉ nodes → (∀ node ∈ nodes, Structured node) →
    Structured (.object { allOf := some nodes })
  | anyOf {nodes : List Node} : nodes ≠ [] → (∀ node ∈ nodes, Structured node) →
    Structured (.object { anyOf := some nodes })
  | oneOf {nodes : List Node} : nodes ≠ [] → (∀ node ∈ nodes, Structured node) →
    Structured (.object { oneOf := some nodes })

section
variable {ω : Type} {I : Interpretation} {sub : Compile.Sub ω} {k : Keywords Node}

/-! ## Typed schemas -/

/-- **What a typed schema does not have.** -/
theorem Typed.absent (h : Typed k) : k.enum = none ∧ k.const = none ∧ k.ref = none ∧ k.format = none ∧
    k.pattern = none ∧ k.contentEncoding = none ∧ k.description = none ∧ k.default = none ∧ k.readOnly = none ∧
    k.nullable = none ∧ k.prefixItems = none ∧ k.not = none ∧ k.ifSchema = none ∧ k.thenSchema = none ∧
    k.elseSchema = none := by
  rw [h.only]
  exact ⟨rfl, rfl, rfl, rfl, rfl, rfl, rfl, rfl, rfl, rfl, rfl, rfl, rfl, rfl, rfl⟩

theorem types_of_singleType? {typeName : String} (h : k.singleType? = some typeName) :
    k.type.isSome ∧ k.types = [typeName] := by
  unfold Facts.singleType? at h
  unfold Facts.types
  split at h
  · rename_i name htype
    cases h
    simp [htype]
  · rename_i name htype
    cases h
    simp [htype]
  · cases h

/-- **What a schema with one type demands.** -/
theorem valid_typed (htyped : Typed k) {typeName : String} (htype : k.singleType? = some typeName) {j : Json} :
    valid I (.object k) j ↔ hasType typeName j ∧ (∀ text, j = .string text → TextValid I k text) ∧
      (∀ x, j = .number x → NumberValid k x) ∧ (∀ xs, j = .array xs → ArrayValid (valid I) k xs) ∧
      (∀ members, j = .object members → ObjectValid (valid I) k members) ∧
      (∀ nodes, k.allOf = some nodes → ∀ node ∈ nodes, valid I node j) ∧
      (∀ nodes, k.anyOf = some nodes → ∃ node ∈ nodes, valid I node j) ∧
      ∀ nodes, k.oneOf = some nodes → ExactlyOne (fun node => valid I node j) nodes := by
  obtain ⟨henum, hconst, href, _, _, _, _, _, _, _, _, hnot, hif, _⟩ := htyped.absent
  obtain ⟨hsome, htypes⟩ := types_of_singleType? htype
  rw [valid_object, satisfies_iff]
  simp [henum, hconst, href, hnot, hif, hsome, htypes]

/-- **A primitive type has no compositions beside it.** -/
theorem Typed.no_composition (h : Typed k) (hne : k.singleType? ≠ some "object") :
    k.allOf = none ∧ k.anyOf = none ∧ k.oneOf = none := by
  have hnone : k.hasComposition = false := by
    cases hcomposition : k.hasComposition with
    | false => rfl
    | true => exact absurd (h.composition hcomposition) hne
  simpa [Keywords.hasComposition, and_assoc] using hnone

theorem select_typed {typeName : String} (htype : k.singleType? = some typeName) : select [] k =
    if typeName = "object" then .object else if typeName = "array" then .array
      else (primitiveKind? typeName).getD (selectUntyped k) := by
  obtain ⟨hsome, _⟩ := types_of_singleType? htype
  have hnotNone : k.type.isNone = false := by
    cases htype' : k.type with
    | none => rw [htype'] at hsome; cases hsome
    | some _ => rfl
  have hcustom : customKind? [] k = none := by simp [customKind?, htype, Assoc.get?]
  unfold select
  rw [hcustom]
  simp [isObjectLike, isArrayLike, htype, hnotNone]

/-- **A primitive type denotes the values of its type that its keywords allow.** -/
theorem accepts_primitive (htyped : Typed k) {typeName : String} (htype : k.singleType? = some typeName) {kind : Kind}
    (hkind : primitiveKind? typeName = some kind) :
    (primitive kind k.toFacts).modifiers = [] ∧
      ∀ j, accepts I (primitive kind k.toFacts) j ↔ valid I (.object k) j := by
  obtain ⟨henum, hconst, _, hformat, _, hencoding, _⟩ := htyped.absent
  have hne : typeName ≠ "object" := by
    rintro rfl
    simp [primitiveKind?] at hkind
  obtain ⟨hall, hany, hone⟩ := htyped.no_composition (by rw [htype]; simpa using hne)
  have hvalid := fun j => valid_typed (I := I) (j := j) htyped htype
  simp only [hall, hany, hone] at hvalid
  unfold primitiveKind? at hkind
  unfold primitive
  rw [henum, hconst]
  split_ifs at hkind with hstring hnumber hinteger hboolean hnull <;> cases hkind
  · refine ⟨rfl, fun j => ?_⟩
    rw [hvalid, hstring]
    simp only [Option.isSome_none, Bool.false_eq_true, ↓reduceIte]
    rw [accepts_stringOf hformat hencoding]
    cases j <;> simp [hasType]
  · refine ⟨rfl, fun j => ?_⟩
    rw [hvalid, hnumber]
    simp only [Option.isSome_none, Bool.false_eq_true, ↓reduceIte]
    rw [accepts_numberOf]
    cases j <;> simp [hasType]
  · refine ⟨rfl, fun j => ?_⟩
    rw [hvalid, hinteger]
    simp only [Option.isSome_none, Bool.false_eq_true, ↓reduceIte]
    rw [accepts_numberOf]
    cases j <;> simp [hasType]
  · refine ⟨rfl, fun j => ?_⟩
    rw [hvalid, hboolean]
    cases j <;> simp [acceptsBase, hasType]
  · refine ⟨rfl, fun j => ?_⟩
    rw [hvalid, hnull]
    cases j <;> simp [acceptsBase, hasType]

/-- **A schema with one type is compiled to a validator of its meaning.** -/
theorem denotes_single (hplain : Plain sub.setup) (htyped : Typed k) {typeName : String}
    (htype : k.singleType? = some typeName) (h : ∀ node, k.Holds node → Translates I sub node)
    (hmembers : ∀ node ∈ k.allOf.getD [], Translates I sub (asObject node)) (ctx : Context) :
    Denotes I (compileNode sub (.object k) ctx) (valid I (.object k)) := by
  obtain ⟨_, _, _, _, _, _, hdescription, hdefault, hreadOnly, hnullable, hplaces, _⟩ := htyped.absent
  have hbuiltin : typeName ∈ builtinTypes := htyped.builtin typeName (by rw [(types_of_singleType? htype).2]; simp)
  refine denotes_compileNode hplain hnullable hreadOnly hdescription hdefault (select_typed htype) ?_
  by_cases hobject : typeName = "object"
  · have hall : ∀ nodes, k.allOf = some nodes → nodes ≠ [] ∧ Node.bool false ∉ nodes ∧
        ∀ node ∈ nodes, Translates I sub (asObject node) := by
      intro nodes hnodes
      rw [hnodes] at hmembers
      exact ⟨(htyped.allOf nodes hnodes).1, (htyped.allOf nodes hnodes).2, hmembers⟩
    rw [if_pos hobject]
    refine (denotes_compileObject hplain htyped.required htyped.closed h ctx hall htyped.anyOf htyped.oneOf).congr
      (fun j => ?_)
    rw [valid_typed htyped htype, hobject]
    cases j <;> simp [hasType, and_assoc]
  by_cases harray : typeName = "array"
  · rw [if_neg hobject, if_pos harray]
    obtain ⟨hall, hany, hone⟩ := htyped.no_composition (by rw [htype]; simpa using hobject)
    refine (denotes_compileArray hplain hplaces htyped.items h ctx).congr (fun j => ?_)
    rw [valid_typed htyped htype, harray, hall, hany, hone]
    cases j <;> simp [hasType]
  · rw [if_neg hobject, if_neg harray]
    obtain ⟨kind, hkind⟩ : ∃ kind, primitiveKind? typeName = some kind := by
      simp only [builtinTypes, List.mem_cons, List.not_mem_nil, or_false] at hbuiltin
      rcases hbuiltin with rfl | rfl | rfl | rfl | rfl | rfl | rfl
      · exact absurd rfl hobject
      · exact absurd rfl harray
      all_goals simp [primitiveKind?]
    obtain ⟨hbare, hacc⟩ := accepts_primitive (I := I) htyped htype hkind
    rw [hkind, Option.getD_some]
    unfold primitiveKind? at hkind
    split_ifs at hkind <;> cases hkind <;> exact ⟨_, yields_pure _, hbare, hacc⟩

/-! ### Several types -/

theorem typed_narrow (htyped : Typed k) (hseveral : 1 < k.types.length) {typeName : String}
    (hmem : typeName ∈ k.types) : Typed (narrow k typeName) where
  only := by
    rw [htyped.only]
    rfl
  types := List.cons_ne_nil _ _
  builtin name hname := by
    obtain rfl : name = typeName := List.mem_singleton.1 hname
    exact htyped.builtin name hmem
  items := htyped.items
  required := htyped.required
  closed := htyped.closed
  composition hcomposition := by
    have hsingle := types_of_singleType? (htyped.composition hcomposition)
    rw [hsingle.2] at hseveral
    exact absurd hseveral (Nat.lt_irrefl 1)
  allOf := htyped.allOf
  anyOf := htyped.anyOf
  oneOf := htyped.oneOf

theorem exists_singleType? (hsome : k.types ≠ []) (hone : ¬ 1 < k.types.length) :
    ∃ typeName, k.singleType? = some typeName := by
  unfold Facts.types at hsome hone
  unfold Facts.singleType?
  match htype : k.type with
  | none => simp [htype] at hsome
  | some (.single name) => exact ⟨name, rfl⟩
  | some (.multiple []) => simp [htype] at hsome
  | some (.multiple [name]) => exact ⟨name, rfl⟩
  | some (.multiple (_ :: _ :: _)) => simp [htype] at hone

theorem exists_compileTypes (ctx : Context) : ∀ types : List String,
    (∀ typeName ∈ types, Translates I sub (.object (narrow k typeName))) →
      ∃ vs, Yields (compileTypes sub k ctx types) vs ∧
        List.Forall₂ (fun v typeName => ∀ j, accepts I v j ↔ valid I (.object (narrow k typeName)) j) vs types
  | [], _ => ⟨[], yields_pure _, .nil⟩
  | typeName :: rest, h => by
    obtain ⟨v, hv, _, hacc⟩ := h typeName List.mem_cons_self ctx.withoutDefault
    obtain ⟨vs, hvs, haccs⟩ := exists_compileTypes ctx rest (fun t ht => h t (List.mem_cons_of_mem _ ht))
    exact ⟨v :: vs, hv.bind (hvs.bind (yields_pure _)), .cons hacc haccs⟩

theorem select_several (htyped : Typed k) (hseveral : 1 < k.types.length) : select [] k = .multiType := by
  obtain ⟨henum, hconst, _, _, _, _, _, _, _, _, _, hnot, hif, hthen, helse⟩ := htyped.absent
  have hsingle : k.singleType? = none := by
    cases hsingle : k.singleType? with
    | none => rfl
    | some typeName =>
      rw [(types_of_singleType? hsingle).2] at hseveral
      exact absurd hseveral (Nat.lt_irrefl 1)
  have htype : k.type.isNone = false := by
    cases htype : k.type with
    | none => simp [Facts.types, htype] at hseveral
    | some _ => rfl
  obtain ⟨hall, hany, hone⟩ := htyped.no_composition (by rw [hsingle]; simp)
  simp [select, customKind?, isObjectLike, isArrayLike, selectUntyped, hsingle, htype, henum, hconst, hall, hany, hone,
    hnot, hif, hthen, helse, hseveral]

/-- **A schema with several types is compiled to a union over them.** -/
theorem denotes_several (hplain : Plain sub.setup) (htyped : Typed k) (hseveral : 1 < k.types.length)
    (h : ∀ typeName ∈ k.types, Translates I sub (.object (narrow k typeName))) (ctx : Context) :
    Denotes I (compileNode sub (.object k) ctx) (valid I (.object k)) := by
  obtain ⟨_, _, _, _, _, _, hdescription, hdefault, hreadOnly, hnullable, _⟩ := htyped.absent
  have hsome : k.type.isSome := by
    cases htype : k.type with
    | none => simp [Facts.types, htype] at hseveral
    | some _ => rfl
  obtain ⟨vs, hvs, hacc⟩ := exists_compileTypes ctx k.types h
  refine denotes_compileNode hplain hnullable hreadOnly hdescription hdefault (select_several htyped hseveral) ?_
  refine ⟨Validator.ofBase (.union vs), hvs.bind ?_, rfl, fun j => ?_⟩
  · have hlength := hacc.length_eq
    match vs with
    | [] | [_] => simp at hlength; omega
    | _ :: _ :: _ => exact yields_pure _
  · rw [accepts_ofBase, acceptsBase, acceptsSome_iff, exists_iff_of_forall₂ (hacc.imp (fun _ _ hv => hv j)),
      valid_object, satisfies_iff_narrow hsome]
    simp only [valid_object]

end

/-! ## All schemas of the fragment -/

section
variable {ω : Type} {I : Interpretation} {s : Session ω}

/-- **What a schema without a type demands.** -/
theorem valid_untyped (enum : Option (List Json)) (const : Option Json) (allOf anyOf oneOf : Option (List Node))
    (j : Json) :
    valid I (.object { enum := enum, const := const, allOf := allOf, anyOf := anyOf, oneOf := oneOf }) j ↔
      (∀ values, enum = some values → ∃ value ∈ values, value.Same j) ∧ (∀ value, const = some value → value.Same j) ∧
      (∀ nodes, allOf = some nodes → ∀ node ∈ nodes, valid I node j) ∧
      (∀ nodes, anyOf = some nodes → ∃ node ∈ nodes, valid I node j) ∧
      ∀ nodes, oneOf = some nodes → ExactlyOne (fun node => valid I node j) nodes := by
  rw [valid_object, satisfies_iff]
  simp [textValid_iff, numberValid_iff, arrayValid_iff, objectValid_iff]

/-- **How a node is compiled with calls to spare**: the parts get one less. -/
def subOf (s : Session ω) (budget : Nat) (active : List String) : Compile.Sub ω where
  setup := s.setup
  raw := s.compileRaw budget active
  refer := s.refer (s.compileRaw budget) active

/-- **With a call for each level, a node is compiled from its parts.** -/
theorem exists_subOf {node : Node} {budget : Nat} (h : levels node ≤ budget) (active : List String) (ctx : Context) :
    ∃ b, levels node ≤ b + 1 ∧ s.compileRaw budget active node ctx = compileNode (subOf s b active) node ctx := by
  have hpos := one_le_levels node
  obtain ⟨b, rfl⟩ : ∃ b, budget = b + 1 := ⟨budget - 1, by omega⟩
  exact ⟨b, h, rfl⟩

/-- **A node is compiled to a validator of its meaning**, given a call for each of its levels. -/
def Kept (I : Interpretation) (s : Session ω) (node : Node) : Prop :=
  ∀ (budget : Nat) (active : List String) (ctx : Context), levels node ≤ budget →
    Denotes I (s.compileRaw budget active node ctx) (valid I node)

/-- **A schema without annotations keeps its meaning if its kind does.** -/
theorem kept_of_kind (hplain : Plain s.setup) {k : Keywords Node} (hnullable : k.nullable = none)
    (hreadOnly : k.readOnly = none) (hdescription : k.description = none) (hdefault : k.default = none) {kind : Kind}
    (hkind : select [] k = kind) (h : ∀ (b : Nat) (active : List String) (ctx : Context), levels (.object k) ≤ b + 1 →
      Denotes I (compileKind (subOf s b active) kind k ctx) (valid I (.object k))) : Kept I s (.object k) := by
  intro budget active ctx hbudget
  obtain ⟨b, hb, hraw⟩ := exists_subOf (s := s) hbudget active ctx
  rw [hraw]
  exact denotes_compileNode hplain hnullable hreadOnly hdescription hdefault hkind (h b active ctx hb)

theorem kept_empty (hplain : Plain s.setup) : Kept I s Node.empty := by
  have hkind : select [] ({} : Keywords Node) = .any := rfl
  refine kept_of_kind hplain rfl rfl rfl rfl hkind (fun b active ctx _ => ?_)
  exact (denotes_ofBase .any).congr (fun j => iff_of_true (by simp [acceptsBase]) (valid_empty j))

/-- **A member of `allOf` keeps its meaning as an object.** -/
theorem translates_asObject (hplain : Plain s.setup) {budget : Nat} {active : List String} {node : Node}
    (hfalse : node ≠ .bool false) (hlevels : levels node ≤ budget)
    (h : ∀ ctx, Denotes I (s.compileRaw budget active node ctx) (valid I node)) :
    Translates I (subOf s budget active) (asObject node) := by
  match node with
  | .bool true =>
    have hone : levels Node.empty ≤ budget := by
      rw [levels_empty]
      exact Nat.le_trans (one_le_levels _) hlevels
    exact fun ctx => kept_empty hplain budget active ctx hone
  | .bool false => exact absurd rfl hfalse
  | .object k => exact h

section
variable {k : Keywords Node}

/-- **The subschemas of a node get their calls.** -/
theorem translates_of_kept {b : Nat} (hb : levels (.object k) ≤ b + 1) (active : List String) {node : Node}
    (hnode : k.Holds node) (h : Kept I s node) : Translates I (subOf s b active) node := by
  have hlevels := levels_lt_of_holds hnode
  exact fun ctx => h b active ctx (by omega)

/-- **So do the members of `allOf`.** -/
theorem translates_member_of_kept (hplain : Plain s.setup) {b : Nat} (hb : levels (.object k) ≤ b + 1)
    (active : List String) {nodes : List Node} (hnodes : k.allOf = some nodes) (hfalse : Node.bool false ∉ nodes)
    {node : Node} (hnode : node ∈ nodes) (h : Kept I s node) : Translates I (subOf s b active) (asObject node) := by
  have hholds : k.Holds node := .allOf (by rw [hnodes]; exact hnode)
  have hlevels := levels_lt_of_holds hholds
  have hne : node ≠ .bool false := fun heq => hfalse (heq ▸ hnode)
  exact translates_asObject hplain hne (by omega) (translates_of_kept hb active hholds h)

theorem kept_single (hplain : Plain s.setup) (htyped : Typed k) {typeName : String}
    (htype : k.singleType? = some typeName) (h : ∀ node, k.Holds node → Kept I s node) : Kept I s (.object k) := by
  intro budget active ctx hbudget
  obtain ⟨b, hb, hraw⟩ := exists_subOf (s := s) hbudget active ctx
  rw [hraw]
  refine denotes_single hplain htyped htype (fun node hnode => translates_of_kept hb active hnode (h node hnode))
    (fun node hnode => ?_) ctx
  have hholds : k.Holds node := .allOf hnode
  cases hall : k.allOf with
  | none => simp [hall] at hnode
  | some nodes =>
    rw [hall, Option.getD_some] at hnode
    exact translates_member_of_kept hplain hb active hall (htyped.allOf nodes hall).2 hnode (h node hholds)

/-- **Each type of several costs a level**, at which the others are gone. -/
theorem kept_several (hplain : Plain s.setup) (htyped : Typed k) (hseveral : 1 < k.types.length)
    (h : ∀ node, k.Holds node → Kept I s node) : Kept I s (.object k) := by
  intro budget active ctx hbudget
  obtain ⟨b, hb, hraw⟩ := exists_subOf (s := s) hbudget active ctx
  rw [hraw]
  refine denotes_several hplain htyped hseveral (fun typeName hmem ctx' => ?_) ctx
  have hlevels := levels_narrow_lt hseveral typeName
  have hnarrow : Kept I s (.object (narrow k typeName)) :=
    kept_single hplain (typed_narrow htyped hseveral hmem) rfl (fun node hnode => h node (holds_of_narrow hnode))
  exact hnarrow b active ctx' (by omega)

end

/-- **The compiler keeps the meaning of every node of the fragment.** -/
theorem kept_of_structured (hplain : Plain s.setup) {node : Node} (hnode : Structured node) : Kept I s node := by
  induction hnode with
  | empty => exact kept_empty hplain
  | bool value =>
    intro budget active ctx hbudget
    obtain ⟨b, _, hraw⟩ := exists_subOf (s := s) hbudget active ctx
    rw [hraw]
    unfold compileNode subOf
    rw [hplain.hook]
    cases value with
    | true => exact (denotes_ofBase .any).congr (fun j => by simp [acceptsBase, valid_bool])
    | false => exact (denotes_ofBase .never).congr (fun j => by simp [acceptsBase, valid_bool])
  | @typed k htyped _ ih =>
    by_cases hseveral : 1 < k.types.length
    · exact kept_several hplain htyped hseveral ih
    · obtain ⟨typeName, htype⟩ := exists_singleType? htyped.types hseveral
      exact kept_single hplain htyped htype ih
  | @enum values hvalues =>
    have hkind : select [] ({ enum := some values } : Keywords Node) = .enum := rfl
    refine kept_of_kind hplain rfl rfl rfl rfl hkind (fun b active ctx _ => ?_)
    exact (denotes_enumeration rfl hvalues).congr (fun j => by simp [valid_untyped])
  | @const value hvalue =>
    have hkind : select [] ({ const := some value } : Keywords Node) = .const := rfl
    refine kept_of_kind hplain rfl rfl rfl rfl hkind (fun b active ctx _ => ?_)
    exact (denotes_constant rfl hvalue).congr (fun j => by simp [valid_untyped])
  | @allOf nodes hne hfalse _ ih =>
    have hkind : select [] ({ allOf := some nodes } : Keywords Node) = .allOf := rfl
    refine kept_of_kind hplain rfl rfl rfl rfl hkind (fun b active ctx hb => ?_)
    refine (denotes_compileAllOf hplain rfl hne hfalse (fun node hnode => ?_) ctx).congr
      (fun j => by simp [valid_untyped])
    exact translates_member_of_kept hplain hb active rfl hfalse hnode (ih node hnode)
  | @anyOf nodes hne _ ih =>
    have hkind : select [] ({ anyOf := some nodes } : Keywords Node) = .anyOf := rfl
    refine kept_of_kind hplain rfl rfl rfl rfl hkind (fun b active ctx hb => ?_)
    refine (denotes_compileAnyOf hplain rfl hne (fun node hnode => ?_) ctx).congr (fun j => by simp [valid_untyped])
    exact translates_of_kept hb active (.anyOf hnode) (ih node hnode)
  | @oneOf nodes hne _ ih =>
    have hkind : select [] ({ oneOf := some nodes } : Keywords Node) = .oneOf := rfl
    refine kept_of_kind hplain rfl rfl rfl rfl hkind (fun b active ctx hb => ?_)
    refine (denotes_compileOneOf hplain rfl hne (fun node hnode => ?_) ctx).congr (fun j => by simp [valid_untyped])
    exact translates_of_kept hb active (.oneOf hnode) (ih node hnode)

end

/-! ## Documents -/

section
variable {setup : Setup} {root : Node}

/-- **A document that stands alone has a call for each of its levels.** -/
theorem levels_le_budget : levels root ≤ (standalone setup root).budget := by
  have hneed := (standalone setup root).need_le_budget [""] (Node.Within.refl root)
  unfold Session.need at hneed
  omega

theorem compileValidator_eq_of_yields (hplain : Plain setup) (hoptions : checkOptions setup.options = .ok ())
    {v : Validator} (hv : Yields ((standalone setup root).compileRaw (standalone setup root).budget [""] root
      (Context.root setup.options none)) v) : compileValidator setup root = .ok v := by
  have hroot := hv.bind (yields_applyRules hplain.rules (Context.root setup.options none) v)
  have hruns : ((standalone setup root).compileRoot (Context.root setup.options none)).run.run
      ⟨PatternCache.empty, ()⟩ = (.ok v, ⟨PatternCache.empty, ()⟩) := hroot _
  unfold compileValidator runStandalone
  simp only [hoptions, hruns]

/-- **A document of the fragment is compiled, and its validator accepts exactly the values that satisfy it.** -/
theorem compile_preserves_meaning (hplain : Plain setup) (hoptions : checkOptions setup.options = .ok ())
    (h : Structured root) :
    ∃ v, compileValidator setup root = .ok v ∧ ∀ I j, accepts I v j ↔ valid I root j := by
  have hone : ∀ I, ∃ v, compileValidator setup root = .ok v ∧ ∀ j, accepts I v j ↔ valid I root j := by
    intro I
    have hkept : Kept I (standalone setup root) root := kept_of_structured hplain h
    obtain ⟨v, hv, _, hacc⟩ := hkept _ [""] (Context.root setup.options none) levels_le_budget
    exact ⟨v, compileValidator_eq_of_yields hplain hoptions hv, hacc⟩
  -- The validator is the same whatever is left open.
  obtain ⟨v, hv, _⟩ := hone ⟨String.length, fun _ _ => True, fun _ _ => True, fun _ _ => True, fun _ _ => True,
    fun _ _ => True⟩
  refine ⟨v, hv, fun I => ?_⟩
  obtain ⟨v', hv', hacc⟩ := hone I
  obtain rfl : v = v' := Except.ok.inj (hv.symm.trans hv')
  exact hacc

end

theorem structured_of_children {k : Keywords Node} (htyped : Typed k) (h : ∀ entry ∈ k.children, Structured entry.2) :
    Structured (.object k) := by
  refine .typed htyped (fun node hnode => ?_)
  obtain ⟨step, hmem⟩ := Keywords.holds_iff.1 hnode
  exact h _ hmem

/-- **An age above eighteen, or none.** -/
def age : Node := .object {
  type := some (.multiple ["integer", "null"])
  minimum := some (.whole 18)
  exclusiveMinimum := some (.flag true) }

/-- **At most three tags of two kinds.** -/
def tags : Node := .object {
  type := some (.single "array")
  items := some (.single (.object { enum := some [.string "founder", .string "guest"] }))
  maxItems := some 3 }

/-- **A member of a club**, of which nothing else is known. -/
def member : Node := .object {
  type := some (.single "object")
  properties := some [("age", age), ("tags", tags)]
  required := ["age"]
  additionalProperties := some (.bool false)
  allOf := some [.bool true, .object { anyOf := some [.object { const := some .null }, Node.empty] }] }

theorem structured_member : Structured member := by
  have hage : Structured age := structured_of_children
    ⟨rfl, by decide, by decide, by simp, by simp, by simp, by decide, by simp, by simp, by simp⟩ (List.forall_mem_nil _)
  have htag : Structured (.object { enum := some [.string "founder", .string "guest"] }) :=
    .enum (by simp [IsPrimitive])
  have htags : Structured tags := structured_of_children
    ⟨rfl, by decide, by decide, by simp, by simp, by simp, by decide, by simp, by simp, by simp⟩
    (List.forall_mem_singleton.2 htag)
  have hsome : Structured (.object { anyOf := some [.object { const := some .null }, Node.empty] }) :=
    .anyOf (by simp) (List.forall_mem_cons.2 ⟨.const trivial, List.forall_mem_singleton.2 .empty⟩)
  refine structured_of_children
    ⟨rfl, by decide, by decide, by simp, by decide, by simp, by decide, by simp, by simp, by simp⟩ ?_
  simp [Keywords.children, Keywords.childrenOfMap, Keywords.childrenOfOne, Keywords.childrenOfList,
    Keywords.childrenOfItems, hage, htags, hsome, Structured.bool]

theorem compile_preserves_meaning_member : Structured member ∧
    ∃ v, compileValidator {} member = .ok v ∧ ∀ I j, accepts I v j ↔ valid I member j :=
  ⟨structured_member, compile_preserves_meaning ⟨rfl, rfl, fun _ _ => rfl⟩ rfl structured_member⟩

end Meaning
end Valgen
