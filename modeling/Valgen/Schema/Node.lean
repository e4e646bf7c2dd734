import Valgen.Json.Basic
/-!
# Schema.Node — schemas as trees

A schema is `true`, `false`, or an object of keywords.  `Keywords` holds the keywords the compiler understands: those
without subschemas are `Facts`, the others carry the subschemas.  A `Step` leads from a schema to one of its
subschemas; `Keywords.children` lists them all, each under its step, and every one is smaller than the schema it stands
in (`Keywords.sizeOf_lt_of_mem_children`), which is what recursion over schemas rests on.
-/
namespace Valgen
namespace Schema

inductive TypeSet where
  | single (name : String)
  | multiple (names : List String)
deriving DecidableEq, Repr

/-- **The `items` keyword**: one schema for every item, or one for each place. -/
inductive Items (ν : Type) where
  | single (node : ν)
  | tuple (nodes : List ν)

/-- **An exclusive bound**: a bound of its own, or a flag that sharpens the inclusive one. -/
inductive ExclusiveBound where
  | flag (on : Bool)
  | value (bound : Number)
deriving DecidableEq, Repr

/-- **The `errorMessage` keyword**: one message for every condition, or one by keyword. -/
inductive Messages where
  | all (text : String)
  | byKeyword (texts : Assoc String)
deriving DecidableEq, Repr

def Messages.get? (messages : Messages) (keyword : String) : Option String :=
  match messages with
  | .all text => some text
  | .byKeyword texts => texts.get? keyword

/-- **The keywords without subschemas.** -/
structure Facts where
  type : Option TypeSet := none
  required : List String := []
  minItems : Option Nat := none
  maxItems : Option Nat := none
  enum : Option (List Json) := none
  const : Option Json := none
  ref : Option String := none
  format : Option String := none
  pattern : Option String := none
  minLength : Option Nat := none
  maxLength : Option Nat := none
  contentEncoding : Option String := none
  multipleOf : Option Number := none
  minimum : Option Number := none
  maximum : Option Number := none
  exclusiveMinimum : Option ExclusiveBound := none
  exclusiveMaximum : Option ExclusiveBound := none
  description : Option String := none
  default : Option Json := none
  readOnly : Option Bool := none
  nullable : Option Bool := none
  errorMessage : Option Messages := none

def Items.map {ν μ : Type} (f : ν → μ) : Items ν → Items μ
  | .single c => .single (f c)
  | .tuple cs => .tuple (cs.map f)

/-- **The keywords of a schema** whose subschemas are of type `ν`. -/
structure Keywords (ν : Type) extends Facts where
  properties : Option (List (String × ν)) := none
  additionalProperties : Option ν := none
  items : Option (Items ν) := none
  prefixItems : Option (List ν) := none
  allOf : Option (List ν) := none
  anyOf : Option (List ν) := none
  oneOf : Option (List ν) := none
  not : Option ν := none
  ifSchema : Option ν := none
  thenSchema : Option ν := none
  elseSchema : Option ν := none
  defs : Option (List (String × ν)) := none
  definitions : Option (List (String × ν)) := none

inductive Node where
  | bool (value : Bool)
  | object (keywords : Keywords Node)

/-- **The step from a schema to a subschema.** -/
inductive Step where
  | property (key : String)
  | additionalProperties
  | items
  | item (index : Nat)
  | prefixItem (index : Nat)
  | allOf (index : Nat)
  | anyOf (index : Nat)
  | oneOf (index : Nat)
  | not
  | ifSchema
  | thenSchema
  | elseSchema
  | defs (key : String)
  | definition (key : String)
deriving DecidableEq, Repr

namespace Facts

def types (facts : Facts) : List String :=
  match facts.type with
  | none => []
  | some (.single name) => [name]
  | some (.multiple names) => names

/-- **The type**, when exactly one is named. -/
def singleType? (facts : Facts) : Option String :=
  match facts.type with
  | some (.single name) => some name
  | some (.multiple [name]) => some name
  | _ => none

def messageFor (facts : Facts) (keyword : String) : Option String :=
  facts.errorMessage.bind (fun messages => messages.get? keyword)

def isRequired (facts : Facts) (property : String) : Bool := facts.required.contains property

end Facts

namespace Keywords

variable {ν : Type}

/-- **A named definition**: of `$defs`, else of `definitions`. -/
def definition? (k : Keywords ν) (name : String) : Option ν :=
  match k.defs.bind (fun l => Assoc.get? l name) with
  | some node => some node
  | none => k.definitions.bind (fun l => Assoc.get? l name)

/-- **The names of the definitions**, those of `$defs` first, none twice. -/
def definitionNames (k : Keywords ν) : List String :=
  (Assoc.keys (k.defs.getD []) ++ Assoc.keys (k.definitions.getD [])).foldl
    (fun names name => if names.contains name then names else names ++ [name]) []

def hasComposition (k : Keywords ν) : Bool := k.allOf.isSome || k.anyOf.isSome || k.oneOf.isSome

/-! ## Subschemas -/

def map {μ : Type} (f : ν → μ) (k : Keywords ν) : Keywords μ where
  toFacts := k.toFacts
  properties := k.properties.map (List.map (fun e => (e.1, f e.2)))
  additionalProperties := k.additionalProperties.map f
  items := k.items.map (fun items => items.map f)
  prefixItems := k.prefixItems.map (List.map f)
  allOf := k.allOf.map (List.map f)
  anyOf := k.anyOf.map (List.map f)
  oneOf := k.oneOf.map (List.map f)
  not := k.not.map f
  ifSchema := k.ifSchema.map f
  thenSchema := k.thenSchema.map f
  elseSchema := k.elseSchema.map f
  defs := k.defs.map (List.map (fun e => (e.1, f e.2)))
  definitions := k.definitions.map (List.map (fun e => (e.1, f e.2)))

/-- **What is left of the keywords without the subschemas.** -/
def shape (k : Keywords ν) : Keywords Unit := k.map (fun _ => ())

/-- **The subschema that a step leads to**, if there is one. -/
def child? (k : Keywords ν) : Step → Option ν
  | .property key => k.properties.bind (fun l => Assoc.get? l key)
  | .additionalProperties => k.additionalProperties
  | .items =>
    match k.items with
    | some (.single child) => some child
    | _ => none
  | .item index =>
    match k.items with
    | some (.tuple children) => children[index]?
    | _ => none
  | .prefixItem index => k.prefixItems.bind (fun l => l[index]?)
  | .allOf index => k.allOf.bind (fun l => l[index]?)
  | .anyOf index => k.anyOf.bind (fun l => l[index]?)
  | .oneOf index => k.oneOf.bind (fun l => l[index]?)
  | .not => k.not
  | .ifSchema => k.ifSchema
  | .thenSchema => k.thenSchema
  | .elseSchema => k.elseSchema
  | .defs key => k.defs.bind (fun l => Assoc.get? l key)
  | .definition key => k.definitions.bind (fun l => Assoc.get? l key)

def childrenOfOne (step : Step) (child : Option ν) : List (Step × ν) := (child.map (fun c => (step, c))).toList

def childrenOfList (step : Nat → Step) (children : List ν) : List (Step × ν) :=
  children.zipIdx.map (fun c => (step c.2, c.1))

def childrenOfMap (step : String → Step) (children : Assoc ν) : List (Step × ν) :=
  children.map (fun c => (step c.1, c.2))

def childrenOfItems : Option (Items ν) → List (Step × ν)
  | none => []
  | some (.single child) => [(.items, child)]
  | some (.tuple children) => childrenOfList .item children

/-- **The subschemas**, each under its step. -/
def children (k : Keywords ν) : List (Step × ν) :=
  childrenOfMap .property (k.properties.getD []) ++ childrenOfOne .additionalProperties k.additionalProperties ++
  childrenOfItems k.items ++ childrenOfList .prefixItem (k.prefixItems.getD []) ++
  childrenOfList .allOf (k.allOf.getD []) ++ childrenOfList .anyOf (k.anyOf.getD []) ++
  childrenOfList .oneOf (k.oneOf.getD []) ++ childrenOfOne .not k.not ++ childrenOfOne .ifSchema k.ifSchema ++
  childrenOfOne .thenSchema k.thenSchema ++ childrenOfOne .elseSchema k.elseSchema ++
  childrenOfMap .defs (k.defs.getD []) ++ childrenOfMap .definition (k.definitions.getD [])

theorem sizeOf_lt_of_mem_one [SizeOf ν] {step s : Step} {child : Option ν} {c : ν}
    (h : (s, c) ∈ childrenOfOne step child) : sizeOf c < sizeOf child := by
  cases child with
  | none => simp [childrenOfOne] at h
  | some d =>
    simp only [childrenOfOne, Option.map_some, Option.toList_some, List.mem_singleton, Prod.mk.injEq] at h
    rw [h.2, Option.some.sizeOf_spec]
    omega

theorem sizeOf_lt_of_mem_list [SizeOf ν] {step : Nat → Step} {s : Step} {children : List ν} {c : ν}
    (h : (s, c) ∈ childrenOfList step children) : sizeOf c < sizeOf children := by
  simp only [childrenOfList, List.mem_map] at h
  obtain ⟨⟨d, i⟩, hd, he⟩ := h
  have hc : d = c := congrArg Prod.snd he
  exact hc ▸ List.sizeOf_lt_of_mem (List.fst_mem_of_mem_zipIdx hd)

theorem sizeOf_lt_of_mem_map [SizeOf ν] {step : String → Step} {s : Step} {children : Assoc ν} {c : ν}
    (h : (s, c) ∈ childrenOfMap step children) : sizeOf c < sizeOf children := by
  simp only [childrenOfMap, List.mem_map] at h
  obtain ⟨⟨key, d⟩, hd, he⟩ := h
  have hc : d = c := congrArg Prod.snd he
  have hlt := List.sizeOf_lt_of_mem hd
  rw [Prod.mk.sizeOf_spec] at hlt
  rw [← hc]
  omega

theorem sizeOf_lt_of_mem_items [SizeOf ν] {s : Step} {items : Option (Items ν)} {c : ν}
    (h : (s, c) ∈ childrenOfItems items) : sizeOf c < sizeOf items := by
  match items, h with
  | some (.single d), h =>
    simp only [childrenOfItems, List.mem_singleton, Prod.mk.injEq] at h
    rw [h.2, Option.some.sizeOf_spec, Items.single.sizeOf_spec]
    omega
  | some (.tuple ds), h =>
    have := sizeOf_lt_of_mem_list (show (s, c) ∈ childrenOfList Step.item ds from h)
    rw [Option.some.sizeOf_spec, Items.tuple.sizeOf_spec]
    omega

theorem sizeOf_getD_le {α : Type} [SizeOf α] (o : Option (List α)) : sizeOf (o.getD []) ≤ sizeOf o := by
  cases o with
  | none => simp
  | some l => simp

/-- **A subschema is smaller than the keywords it stands in.** -/
theorem sizeOf_lt_of_mem_children [SizeOf ν] {k : Keywords ν} {s : Step} {c : ν} (h : (s, c) ∈ k.children) :
    sizeOf c < sizeOf k := by
  have hsum : sizeOf k = 1 + sizeOf k.toFacts + sizeOf k.properties + sizeOf k.additionalProperties +
      sizeOf k.items + sizeOf k.prefixItems + sizeOf k.allOf + sizeOf k.anyOf + sizeOf k.oneOf + sizeOf k.not +
      sizeOf k.ifSchema + sizeOf k.thenSchema + sizeOf k.elseSchema + sizeOf k.defs + sizeOf k.definitions := by
    cases k
    simp
  have g1 := sizeOf_getD_le k.properties
  have g2 := sizeOf_getD_le k.prefixItems
  have g3 := sizeOf_getD_le k.allOf
  have g4 := sizeOf_getD_le k.anyOf
  have g5 := sizeOf_getD_le k.oneOf
  have g6 := sizeOf_getD_le k.defs
  have g7 := sizeOf_getD_le k.definitions
  simp only [children, List.mem_append] at h
  rcases h with (((((((((((h | h) | h) | h) | h) | h) | h) | h) | h) | h) | h) | h) | h
  · have := sizeOf_lt_of_mem_map h; omega
  · have := sizeOf_lt_of_mem_one h; omega
  · have := sizeOf_lt_of_mem_items h; omega
  · have := sizeOf_lt_of_mem_list h; omega
  · have := sizeOf_lt_of_mem_list h; omega
  · have := sizeOf_lt_of_mem_list h; omega
  · have := sizeOf_lt_of_mem_list h; omega
  · have := sizeOf_lt_of_mem_one h; omega
  · have := sizeOf_lt_of_mem_one h; omega
  · have := sizeOf_lt_of_mem_one h; omega
  · have := sizeOf_lt_of_mem_one h; omega
  · have := sizeOf_lt_of_mem_map h; omega
  · have := sizeOf_lt_of_mem_map h; omega

end Keywords

namespace Node

def empty : Node := .object {}

/-- **The schema that forbids the empty schema**, which no value satisfies. -/
def nothing : Node := .object { not := some empty }

/-- **The keywords** of a schema that is not a truth value. -/
def keywords? : Node → Option (Keywords Node)
  | .bool _ => none
  | .object k => some k

/-- **The subschemas**, each under its step. -/
def children : Node → List (Step × Node)
  | .bool _ => []
  | .object k => k.children

theorem sizeOf_lt_of_mem_children {n : Node} {s : Step} {c : Node} (h : (s, c) ∈ n.children) : sizeOf c < sizeOf n := by
  cases n with
  | bool value => simp [children] at h
  | object k =>
    have := Keywords.sizeOf_lt_of_mem_children h
    rw [Node.object.sizeOf_spec]
    omega

/-- **How deep schemas are nested in a schema**, itself included. -/
def height (n : Node) : Nat :=
  1 + (n.children.attach.map (fun c => height c.1.2)).foldl max 0
termination_by n
decreasing_by exact sizeOf_lt_of_mem_children c.2

/-- **The texts of the `$ref` keywords in a schema**, at every depth. -/
def refs (n : Node) : List String :=
  ((n.keywords?.bind (fun k => k.ref)).toList) ++ n.children.attach.flatMap (fun c => refs c.1.2)
termination_by n
decreasing_by exact sizeOf_lt_of_mem_children c.2

end Node
end Schema
end Valgen
