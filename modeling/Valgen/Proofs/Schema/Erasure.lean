import Valgen.Proofs.Schema.Alike
/-!
# Proofs.Schema.Erasure — schemas without their defaults

`Node.withoutDefaults` takes the keyword `default` away from a schema and from every schema in it, definitions included.
Nothing else changes: a schema without defaults has the same keywords over subschemas without defaults
(`Keywords.withoutDefaults_eq`), and a pointer names in it what it named before, without its defaults
(`Node.pointer?_withoutDefaults`).
-/
namespace Valgen
namespace Schema

mutual

/-- **The schema without the keyword `default`**, at every depth. -/
def Node.withoutDefaults : Node → Node
  | .bool value => .bool value
  | .object k => .object k.withoutDefaults

/-- **The keywords without `default`**, at every depth. -/
def Keywords.withoutDefaults : Keywords Node → Keywords Node
  | ⟨facts, properties, additionalProperties, items, prefixItems, allOf, anyOf, oneOf, not, ifSchema, thenSchema,
      elseSchema, defs, definitions⟩ =>
    { toFacts := { facts with default := none }
      properties := mapWithoutDefaults properties
      additionalProperties := oneWithoutDefaults additionalProperties
      items := itemsWithoutDefaults items
      prefixItems := listWithoutDefaults prefixItems
      allOf := listWithoutDefaults allOf
      anyOf := listWithoutDefaults anyOf
      oneOf := listWithoutDefaults oneOf
      not := oneWithoutDefaults not
      ifSchema := oneWithoutDefaults ifSchema
      thenSchema := oneWithoutDefaults thenSchema
      elseSchema := oneWithoutDefaults elseSchema
      defs := mapWithoutDefaults defs
      definitions := mapWithoutDefaults definitions }

def oneWithoutDefaults : Option Node → Option Node
  | none => none
  | some c => some c.withoutDefaults

def listWithoutDefaults : Option (List Node) → Option (List Node)
  | none => none
  | some cs => some (allWithoutDefaults cs)

def mapWithoutDefaults : Option (List (String × Node)) → Option (List (String × Node))
  | none => none
  | some es => some (entriesWithoutDefaults es)

/-- **The value of `items`**, if it is there. -/
def itemsWithoutDefaults : Option (Items Node) → Option (Items Node)
  | none => none
  | some (.single c) => some (.single c.withoutDefaults)
  | some (.tuple cs) => some (.tuple (allWithoutDefaults cs))

def allWithoutDefaults : List Node → List Node
  | [] => []
  | c :: cs => c.withoutDefaults :: allWithoutDefaults cs

def entriesWithoutDefaults : List (String × Node) → List (String × Node)
  | [] => []
  | (key, c) :: es => (key, c.withoutDefaults) :: entriesWithoutDefaults es

end

theorem allWithoutDefaults_eq : ∀ cs : List Node, allWithoutDefaults cs = cs.map Node.withoutDefaults
  | [] => rfl
  | _ :: cs => by rw [allWithoutDefaults, allWithoutDefaults_eq cs, List.map_cons]

theorem entriesWithoutDefaults_eq : ∀ es : List (String × Node),
    entriesWithoutDefaults es = es.map (fun e => (e.1, e.2.withoutDefaults))
  | [] => rfl
  | (_, _) :: es => by rw [entriesWithoutDefaults, entriesWithoutDefaults_eq es, List.map_cons]

theorem oneWithoutDefaults_eq : ∀ o : Option Node, oneWithoutDefaults o = o.map Node.withoutDefaults
  | none => rfl
  | some _ => rfl

theorem listWithoutDefaults_eq : ∀ o : Option (List Node),
    listWithoutDefaults o = o.map (List.map Node.withoutDefaults)
  | none => rfl
  | some cs => congrArg some (allWithoutDefaults_eq cs)

theorem mapWithoutDefaults_eq : ∀ o : Option (List (String × Node)),
    mapWithoutDefaults o = o.map (List.map (fun e => (e.1, e.2.withoutDefaults)))
  | none => rfl
  | some es => congrArg some (entriesWithoutDefaults_eq es)

theorem itemsWithoutDefaults_eq : ∀ o : Option (Items Node),
    itemsWithoutDefaults o = o.map (Items.map Node.withoutDefaults)
  | none => rfl
  | some (.single _) => rfl
  | some (.tuple cs) => congrArg (fun cs => some (Items.tuple cs)) (allWithoutDefaults_eq cs)

/-- **Keywords without defaults are the same keywords over subschemas without defaults.** -/
theorem Keywords.withoutDefaults_eq (k : Keywords Node) :
    k.withoutDefaults = { k.map Node.withoutDefaults with default := none } := by
  cases k
  simp only [Keywords.withoutDefaults, Keywords.map, oneWithoutDefaults_eq, listWithoutDefaults_eq,
    mapWithoutDefaults_eq, itemsWithoutDefaults_eq]

namespace Keywords

variable (k : Keywords Node)

/-- **Keywords are like themselves without defaults.** -/
theorem alike_withoutDefaults : Alike (fun c c' => c' = c.withoutDefaults) k k.withoutDefaults := by
  have hmap : Alike (fun c c' => c' = c.withoutDefaults) k (k.map Node.withoutDefaults) := alike_map (fun _ _ => rfl)
  rw [withoutDefaults_eq]
  exact { hmap with facts := ⟨none, rfl⟩ }

/-! ## Pointers -/

theorem one?_withoutDefaults (keyword : String) :
    k.withoutDefaults.one? keyword = (k.one? keyword).map Node.withoutDefaults := by
  rw [withoutDefaults_eq]
  simp only [one?, map]
  split_ifs <;> rfl

theorem itemsSchema?_withoutDefaults : k.withoutDefaults.itemsSchema? = k.itemsSchema?.map Node.withoutDefaults := by
  rw [withoutDefaults_eq]
  simp only [itemsSchema?, map]
  match k.items with
  | none | some (.single _) | some (.tuple _) => rfl

theorem map?_withoutDefaults (keyword : String) :
    k.withoutDefaults.map? keyword = (k.map? keyword).map (List.map (fun e => (e.1, e.2.withoutDefaults))) := by
  rw [withoutDefaults_eq]
  simp only [map?, map]
  split_ifs <;> rfl

theorem list?_withoutDefaults (keyword : String) :
    k.withoutDefaults.list? keyword = (k.list? keyword).map (List.map Node.withoutDefaults) := by
  rw [withoutDefaults_eq]
  simp only [list?, map]
  rcases k.items with _ | (_ | _) <;> split_ifs <;> rfl

end Keywords

namespace Node

theorem get?_withoutDefaults (l : Assoc Node) (key : String) :
    Assoc.get? (l.map (fun e => (e.1, e.2.withoutDefaults))) key = (Assoc.get? l key).map withoutDefaults := by
  unfold Assoc.get?
  rw [List.find?_map, Option.map_map, Option.map_map]
  rfl

theorem follow_cons_withoutDefaults {token : List Char} {rest : List (List Char)} (k : Keywords Node)
    (hrest : ∀ node, follow rest node.withoutDefaults = (follow rest node).map withoutDefaults)
    (htail : ∀ node, follow rest.tail node.withoutDefaults = (follow rest.tail node).map withoutDefaults) :
    follow (token :: rest) (withoutDefaults (.object k)) =
      (follow (token :: rest) (.object k)).map withoutDefaults := by
  have hdirect : (if String.ofList token = "items" then k.withoutDefaults.itemsSchema?
      else k.withoutDefaults.one? (String.ofList token)) =
      (if String.ofList token = "items" then k.itemsSchema?
        else k.one? (String.ofList token)).map withoutDefaults := by
    rw [Keywords.itemsSchema?_withoutDefaults, Keywords.one?_withoutDefaults]
    split_ifs <;> rfl
  rw [withoutDefaults]
  unfold follow
  simp only [hdirect]
  cases (if String.ofList token = "items" then k.itemsSchema? else k.one? (String.ofList token)) with
  | some child => exact hrest child
  | none =>
    cases rest with
    | nil => rfl
    | cons place rest =>
      -- A keyword with several subschemas: the next token says which of them.
      have hstep : ∀ o : Option Node,
          (o.map withoutDefaults).bind (follow rest) = (o.bind (follow rest)).map withoutDefaults := by
        intro o
        cases o with
        | none => rfl
        | some child => exact htail child
      simp only [Option.map_none, Keywords.map?_withoutDefaults, Keywords.list?_withoutDefaults]
      cases k.map? (String.ofList token) with
      | some l =>
        simp only [Option.map_some]
        rw [get?_withoutDefaults, hstep]
      | none =>
        have hplace : ((k.list? (String.ofList token)).map (List.map withoutDefaults)).bind
            (fun l => (Text.decimal? place).bind (fun i => l[i]?)) =
            ((k.list? (String.ofList token)).bind
              (fun l => (Text.decimal? place).bind (fun i => l[i]?))).map withoutDefaults := by
          cases k.list? (String.ofList token) <;> cases Text.decimal? place <;> simp
        simp only [Option.map_none]
        rw [hplace, hstep]

/-- **A way through a schema leads to the same subschema, without its defaults.**  A step takes one token or two, hence
the induction on the number of tokens. -/
theorem follow_withoutDefaults (tokens : List (List Char)) (node : Node) :
    follow tokens node.withoutDefaults = (follow tokens node).map withoutDefaults := by
  induction hlength : tokens.length using Nat.strongRecOn generalizing tokens node with
  | _ n ih =>
    cases tokens with
    | nil => rfl
    | cons token rest =>
      cases node with
      | bool value => rfl
      | object k =>
        subst hlength
        refine follow_cons_withoutDefaults k (fun node => ih _ ?_ rest node rfl)
          (fun node => ih _ ?_ rest.tail node rfl)
        · simp
        · simp only [List.length_tail, List.length_cons]
          omega

/-- **A pointer names the same schema, without its defaults.** -/
theorem pointer?_withoutDefaults (node : Node) (pointer : String) :
    node.withoutDefaults.pointer? pointer = (node.pointer? pointer).map withoutDefaults := by
  unfold pointer?
  cases Pointer.tokens? pointer.toList with
  | none => rfl
  | some tokens => exact follow_withoutDefaults tokens node

end Node
end Schema
end Valgen
