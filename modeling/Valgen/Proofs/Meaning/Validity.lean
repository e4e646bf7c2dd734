import Mathlib.Tactic.MkIffOfInductiveProp
import Valgen.Proofs.Meaning.Acceptance
import Valgen.Proofs.Schema.Subschemas
/-!
# Proofs.Meaning.Validity — which values satisfy a schema

`valid I node j` says that the value `j` satisfies the schema `node`: every keyword of the schema makes its own demand,
and a keyword that is about one kind of values demands nothing of the others (`Satisfies`).  The annotations demand
nothing, `format` among them.
-/
namespace Valgen
namespace Meaning

open Schema (Facts Keywords Node TypeSet)

/-- **A value has a type**; a whole number is an integer, whatever its form. -/
def hasType (typeName : String) : Json → Prop
  | .null => typeName = "null"
  | .bool _ => typeName = "boolean"
  | .number x => typeName = "number" ∨ (typeName = "integer" ∧ x.IsWhole)
  | .string _ => typeName = "string"
  | .array _ => typeName = "array"
  | .object _ => typeName = "object"

variable (I : Interpretation) (sat : Node → Json → Prop)

/-- **What the keywords demand of a text.** -/
@[mk_iff]
structure TextValid (k : Keywords Node) (text : String) : Prop where
  minLength : ∀ count, k.minLength = some count → count ≤ I.length text
  maxLength : ∀ count, k.maxLength = some count → I.length text ≤ count
  pattern : ∀ source, k.pattern = some source → I.pattern source text

/-- **What the keywords demand of a number.**  An exclusive bound is a bound of its own, or a flag that makes the other
bound exclusive. -/
@[mk_iff]
structure NumberValid (k : Keywords Node) (x : Number) : Prop where
  multipleOf : ∀ factor, k.multipleOf = some factor → factor.IsMultiple x
  minimum : ∀ bound, k.minimum = some bound → bound.value ≤ x.value
  maximum : ∀ bound, k.maximum = some bound → x.value ≤ bound.value
  exclusiveMinimum : ∀ bound, k.exclusiveMinimum = some (.value bound) ∨
    (k.exclusiveMinimum = some (.flag true) ∧ k.minimum = some bound) → bound.value < x.value
  exclusiveMaximum : ∀ bound, k.exclusiveMaximum = some (.value bound) ∨
    (k.exclusiveMaximum = some (.flag true) ∧ k.maximum = some bound) → x.value < bound.value

/-- **What the keywords demand of an array.** -/
@[mk_iff]
structure ArrayValid (k : Keywords Node) (xs : List Json) : Prop where
  minItems : ∀ count, k.minItems = some count → count ≤ xs.length
  maxItems : ∀ count, k.maxItems = some count → xs.length ≤ count
  places : ∀ nodes, k.prefixItems = some nodes ∨ k.items = some (.tuple nodes) →
    ∀ (i : Nat) node x, nodes[i]? = some node → xs[i]? = some x → sat node x
  items : ∀ node, k.items = some (.single node) → ∀ x ∈ xs.drop (k.prefixItems.getD []).length, sat node x

/-- **What the keywords demand of an object.** -/
@[mk_iff]
structure ObjectValid (k : Keywords Node) (members : List (String × Json)) : Prop where
  required : ∀ name ∈ k.required, (Assoc.get? members name).isSome
  properties : ∀ entry ∈ k.properties.getD [], ∀ j, Assoc.get? members entry.1 = some j → sat entry.2 j
  additionalProperties : ∀ node, k.additionalProperties = some node → ∀ m ∈ members,
    m.1 ∉ Assoc.keys (k.properties.getD []) → sat node m.2

/-- **A value meets the demands of all keywords**, where `sat` says which values satisfy the subschemas. -/
@[mk_iff]
structure Satisfies (k : Keywords Node) (j : Json) : Prop where
  type : k.type.isSome → ∃ typeName ∈ k.types, hasType typeName j
  enum : ∀ values, k.enum = some values → ∃ value ∈ values, value.Same j
  const : ∀ value, k.const = some value → value.Same j
  text : ∀ text, j = .string text → TextValid I k text
  number : ∀ x, j = .number x → NumberValid k x
  array : ∀ xs, j = .array xs → ArrayValid sat k xs
  object : ∀ members, j = .object members → ObjectValid sat k members
  allOf : ∀ nodes, k.allOf = some nodes → ∀ node ∈ nodes, sat node j
  anyOf : ∀ nodes, k.anyOf = some nodes → ∃ node ∈ nodes, sat node j
  oneOf : ∀ nodes, k.oneOf = some nodes → ExactlyOne (fun node => sat node j) nodes
  not : ∀ node, k.not = some node → ¬ sat node j
  thenSchema : ∀ condition node, k.ifSchema = some condition → k.thenSchema = some node → sat condition j → sat node j
  elseSchema : ∀ condition node, k.ifSchema = some condition → k.elseSchema = some node → ¬ sat condition j → sat node j
  ref : ∀ reference, k.ref = some reference → I.reference reference j

def valid : Node → Json → Prop
  | .bool value, _ => value = true
  | .object k, j => Satisfies I (fun node j => ∃ _h : k.Holds node, valid node j) k j
termination_by n => n
decreasing_by
  obtain ⟨step, hmem⟩ := Keywords.holds_iff.1 _h
  exact @Node.sizeOf_lt_of_mem_children (.object k) _ _ hmem

variable {I} {sat}

/-- **The keywords look at subschemas only.** -/
theorem Satisfies.congr {sat' : Node → Json → Prop} {k : Keywords Node} {j : Json}
    (hsat : ∀ node, k.Holds node → ∀ j, sat node j ↔ sat' node j) (h : Satisfies I sat k j) : Satisfies I sat' k j where
  type := h.type
  enum := h.enum
  const := h.const
  text := h.text
  number := h.number
  array xs hj := by
    obtain ⟨hmin, hmax, hplaces, hitems⟩ := h.array xs hj
    refine ⟨hmin, hmax, fun nodes hnodes i node x hi hx => ?_, fun node hnode x hx => ?_⟩
    · have hholds : k.Holds node := by
        rcases hnodes with hp | ht
        · exact .prefixItem (by rw [hp]; exact List.mem_of_getElem? hi)
        · exact .item ht (List.mem_of_getElem? hi)
      exact (hsat node hholds x).1 (hplaces nodes hnodes i node x hi hx)
    · exact (hsat node (.items hnode) x).1 (hitems node hnode x hx)
  object members hj := by
    obtain ⟨hrequired, hproperties, hmore⟩ := h.object members hj
    refine ⟨hrequired, fun entry he j hget => ?_, fun node hnode m hm hkey => ?_⟩
    · exact (hsat entry.2 (.property he) j).1 (hproperties entry he j hget)
    · exact (hsat node (.additionalProperties hnode) m.2).1 (hmore node hnode m hm hkey)
  allOf nodes hnodes node hnode :=
    (hsat node (.allOf (by rw [hnodes]; exact hnode)) j).1 (h.allOf nodes hnodes node hnode)
  anyOf nodes hnodes := by
    obtain ⟨node, hnode, hvalid⟩ := h.anyOf nodes hnodes
    exact ⟨node, hnode, (hsat node (.anyOf (by rw [hnodes]; exact hnode)) j).1 hvalid⟩
  oneOf nodes hnodes := by
    refine (exactlyOne_congr ?_).1 (h.oneOf nodes hnodes)
    exact List.forall₂_same.2 (fun node hnode => hsat node (.oneOf (by rw [hnodes]; exact hnode)) j)
  not node hnode hvalid := h.not node hnode ((hsat node (.not hnode) j).2 hvalid)
  thenSchema condition node hif hthen hvalid :=
    (hsat node (.thenSchema hthen) j).1 (h.thenSchema condition node hif hthen
      ((hsat condition (.ifSchema hif) j).2 hvalid))
  elseSchema condition node hif helse hvalid :=
    (hsat node (.elseSchema helse) j).1 (h.elseSchema condition node hif helse
      (fun hcondition => hvalid ((hsat condition (.ifSchema hif) j).1 hcondition)))
  ref := h.ref

theorem valid_bool {value : Bool} {j : Json} : valid I (.bool value) j ↔ value = true := by rw [valid.eq_def]

theorem valid_object {k : Keywords Node} {j : Json} : valid I (.object k) j ↔ Satisfies I (valid I) k j := by
  have hsub : ∀ node, k.Holds node → ∀ j, (∃ _h : k.Holds node, valid I node j) ↔ valid I node j :=
    fun node hnode j => ⟨fun ⟨_, hvalid⟩ => hvalid, fun hvalid => ⟨hnode, hvalid⟩⟩
  rw [valid.eq_def]
  exact ⟨Satisfies.congr hsub, Satisfies.congr (fun node hnode j => (hsub node hnode j).symm)⟩

/-- **Only the type of a schema looks at its type**, and nothing looks at its annotations. -/
theorem Satisfies.retype {k : Keywords Node} {j : Json} (h : Satisfies I sat k j) (type : Option TypeSet)
    (description : Option String) (nullable readOnly : Option Bool)
    (htype : type.isSome → ∃ typeName ∈ ({ type := type } : Facts).types, hasType typeName j) : Satisfies I sat { k with
      type := type, description := description, nullable := nullable, readOnly := readOnly } j where
  type := htype
  enum := h.enum
  const := h.const
  text text hj := ⟨(h.text text hj).minLength, (h.text text hj).maxLength, (h.text text hj).pattern⟩
  number x hj := ⟨(h.number x hj).multipleOf, (h.number x hj).minimum, (h.number x hj).maximum,
    (h.number x hj).exclusiveMinimum, (h.number x hj).exclusiveMaximum⟩
  array xs hj := ⟨(h.array xs hj).minItems, (h.array xs hj).maxItems, (h.array xs hj).places, (h.array xs hj).items⟩
  object members hj := ⟨(h.object members hj).required, (h.object members hj).properties,
    (h.object members hj).additionalProperties⟩
  allOf := h.allOf
  anyOf := h.anyOf
  oneOf := h.oneOf
  not := h.not
  thenSchema := h.thenSchema
  elseSchema := h.elseSchema
  ref := h.ref

/-- **A value satisfies a schema with several types if it satisfies the schema narrowed to one of them.** -/
theorem satisfies_iff_narrow {k : Keywords Node} (htype : k.type.isSome) {j : Json} :
    Satisfies I sat k j ↔ ∃ typeName ∈ k.types, Satisfies I sat (Compile.narrow k typeName) j := by
  constructor
  · intro h
    obtain ⟨typeName, hmem, hhas⟩ := h.type htype
    exact ⟨typeName, hmem, h.retype _ _ _ _ (fun _ => ⟨typeName, List.mem_singleton.2 rfl, hhas⟩)⟩
  · rintro ⟨typeName, hmem, h⟩
    obtain ⟨other, hother, hhas⟩ := h.type rfl
    obtain rfl : other = typeName := List.mem_singleton.1 hother
    exact h.retype k.type k.description k.nullable k.readOnly (fun _ => ⟨other, hmem, hhas⟩)

end Meaning
end Valgen
