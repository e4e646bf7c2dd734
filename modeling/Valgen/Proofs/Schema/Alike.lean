import Mathlib.Data.List.Forall2
import Valgen.Proofs.Schema.Subschemas
/-!
# Proofs.Schema.Alike — schemas with the same keywords

Two schemas are alike if they have the same keywords, with related subschemas at the same places; only the value of
`default` may differ (`Keywords.Alike`).  A schema is like what a map over its subschemas makes of it
(`Keywords.alike_map`), and like itself.  Definitions do not count: they are reached by pointers only.
-/
namespace Valgen
namespace Schema

variable {ν μ : Type}

/-- **Items of the same form with related subschemas.** -/
inductive Items.Alike (N : ν → μ → Prop) : Items ν → Items μ → Prop
  | single {c : ν} {c' : μ} : N c c' → Alike N (.single c) (.single c')
  | tuple {cs : List ν} {cs' : List μ} : List.Forall₂ N cs cs' → Alike N (.tuple cs) (.tuple cs')

/-- **Two schemas of one form**: the same truth value, or keywords both. -/
inductive Node.SameForm : Node → Node → Prop
  | bool (value : Bool) : SameForm (.bool value) (.bool value)
  | object (k k' : Keywords Node) : SameForm (.object k) (.object k')

theorem Node.SameForm.refl : ∀ n : Node, n.SameForm n
  | .bool value => .bool value
  | .object k => .object k k

namespace Keywords

/-- **Keywords alike**: the same but for the default, with related subschemas. -/
structure Alike (N : ν → μ → Prop) (k : Keywords ν) (k' : Keywords μ) : Prop where
  facts : ∃ value, k'.toFacts = { k.toFacts with default := value }
  properties : Option.Rel (List.Forall₂ (fun e e' => e'.1 = e.1 ∧ N e.2 e'.2)) k.properties k'.properties
  additionalProperties : Option.Rel N k.additionalProperties k'.additionalProperties
  items : Option.Rel (Items.Alike N) k.items k'.items
  prefixItems : Option.Rel (List.Forall₂ N) k.prefixItems k'.prefixItems
  allOf : Option.Rel (List.Forall₂ N) k.allOf k'.allOf
  anyOf : Option.Rel (List.Forall₂ N) k.anyOf k'.anyOf
  oneOf : Option.Rel (List.Forall₂ N) k.oneOf k'.oneOf
  not : Option.Rel N k.not k'.not
  ifSchema : Option.Rel N k.ifSchema k'.ifSchema
  thenSchema : Option.Rel N k.thenSchema k'.thenSchema
  elseSchema : Option.Rel N k.elseSchema k'.elseSchema

theorem rel_map_of {α β : Type} {r : α → β → Prop} {f : α → β} {o : Option α} (h : ∀ a, o = some a → r a (f a)) :
    Option.Rel r o (o.map f) := by
  cases o with
  | none => exact .none
  | some a => exact .some (h a rfl)

theorem forall₂_map_of {N : ν → μ → Prop} {f : ν → μ} {cs : List ν} (h : ∀ c ∈ cs, N c (f c)) :
    List.Forall₂ N cs (cs.map f) :=
  List.forall₂_map_right_iff.2 (List.forall₂_same.2 h)

/-- **Keywords are like those that a map over their subschemas gives.** -/
theorem alike_map {k : Keywords ν} {N : ν → μ → Prop} {f : ν → μ} (h : ∀ c, k.Holds c → N c (f c)) :
    Alike N k (k.map f) where
  facts := ⟨k.default, rfl⟩
  properties := rel_map_of (fun entries hentries => List.forall₂_map_right_iff.2 (List.forall₂_same.2
    (fun e he => ⟨rfl, h e.2 (.property (by rw [hentries]; exact he))⟩)))
  additionalProperties := rel_map_of (fun c hc => h c (.additionalProperties hc))
  items := rel_map_of (fun items hitems => by
    cases items with
    | single c => exact .single (h c (.items hitems))
    | tuple cs => exact .tuple (forall₂_map_of (fun c hc => h c (.item hitems hc))))
  prefixItems := rel_map_of (fun cs hcs => forall₂_map_of (fun c hc => h c (.prefixItem (by rw [hcs]; exact hc))))
  allOf := rel_map_of (fun cs hcs => forall₂_map_of (fun c hc => h c (.allOf (by rw [hcs]; exact hc))))
  anyOf := rel_map_of (fun cs hcs => forall₂_map_of (fun c hc => h c (.anyOf (by rw [hcs]; exact hc))))
  oneOf := rel_map_of (fun cs hcs => forall₂_map_of (fun c hc => h c (.oneOf (by rw [hcs]; exact hc))))
  not := rel_map_of (fun c hc => h c (.not hc))
  ifSchema := rel_map_of (fun c hc => h c (.ifSchema hc))
  thenSchema := rel_map_of (fun c hc => h c (.thenSchema hc))
  elseSchema := rel_map_of (fun c hc => h c (.elseSchema hc))

theorem bind_get?_map (f : ν → μ) (o : Option (Assoc ν)) (key : String) :
    (o.map (List.map (fun e => (e.1, f e.2)))).bind (fun l => Assoc.get? l key) =
      (o.bind (fun l => Assoc.get? l key)).map f := by
  cases o with
  | none => rfl
  | some l =>
    simp only [Option.map_some, Option.bind_some, Assoc.get?, List.find?_map, Option.map_map]
    rfl

theorem bind_getElem?_map (f : ν → μ) (o : Option (List ν)) (index : Nat) :
    (o.map (List.map f)).bind (fun l => l[index]?) = (o.bind (fun l => l[index]?)).map f := by
  cases o <;> simp

theorem child?_map (f : ν → μ) (k : Keywords ν) (step : Step) : (k.map f).child? step = (k.child? step).map f := by
  cases step with
  | property key => exact bind_get?_map f k.properties key
  | defs key => exact bind_get?_map f k.defs key
  | definition key => exact bind_get?_map f k.definitions key
  | prefixItem index => exact bind_getElem?_map f k.prefixItems index
  | allOf index => exact bind_getElem?_map f k.allOf index
  | anyOf index => exact bind_getElem?_map f k.anyOf index
  | oneOf index => exact bind_getElem?_map f k.oneOf index
  | items | item =>
    unfold child? map
    match k.items with
    | none => rfl
    | some (.single _) => rfl
    | some (.tuple _) => simp [Items.map]
  | additionalProperties | not | ifSchema | thenSchema | elseSchema => rfl

theorem map_map {κ : Type} (f : ν → μ) (g : μ → κ) (k : Keywords ν) : (k.map f).map g = k.map (fun c => g (f c)) := by
  have hitems : ∀ items : Items ν, (items.map f).map g = items.map (fun c => g (f c)) := by
    intro items
    cases items <;> simp [Items.map]
  unfold map
  simp [Function.comp_def, hitems]

theorem shape_map (f : ν → μ) (k : Keywords ν) : (k.map f).shape = k.shape := k.map_map f (fun _ => ())

theorem map_id (k : Keywords ν) : k.map id = k := by
  have hitems : (Items.map id : Items ν → Items ν) = id := by
    funext items
    cases items <;> simp [Items.map]
  unfold map
  simp [hitems]

/-- **Keywords are like themselves.** -/
theorem alike_self {k : Keywords ν} {N : ν → ν → Prop} (h : ∀ c, k.Holds c → N c c) : Alike N k k := by
  have hmap := alike_map (f := id) h
  rwa [map_id] at hmap

end Keywords
end Schema
end Valgen
