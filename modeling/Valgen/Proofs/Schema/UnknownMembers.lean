import Mathlib.Logic.Relation
import Valgen.Proofs.Json.Repeats
import Valgen.Schema.Source
/-!
# Proofs.Schema.UnknownMembers — members that no keyword names

The objects that are read as schemas may hold members that no keyword names.  `GainsMember` says that a value has one of
them more than another, somewhere in a schema: which values are schemas is said by the keyword they stand under
(`Keyword.role?`).  Under `items` an array may be a list of schemas or, like everywhere, a schema that gives the
keywords their values by their places (`isPositional`); it begins with a value of `type` then, and no such value is a
schema (`node_of_isTypeValue`).

However many such members come and go, the value is read as the same schema, or as none (`unknown_members_ignored`).
-/
namespace Valgen
namespace Schema

/-! ## Where schemas stand -/

/-- **How a value is read.** -/
inductive Role where
  | schema
  /-- As a list of schemas. -/
  | list
  /-- As a map of schemas. -/
  | map
  /-- As one schema, or as a list of them. -/
  | items
deriving DecidableEq, Repr

/-- **How the value of a keyword is read**, if there are schemas in it. -/
def Keyword.role? : Keyword → Option Role
  | .properties | .defs | .definitions => some .map
  | .additionalProperties | .not | .ifSchema | .thenSchema | .elseSchema => some .schema
  | .prefixItems | .allOf | .anyOf | .oneOf => some .list
  | .items => some .items
  | _ => none

/-- **A value that `type` can have**, or null in its place. -/
def isTypeValue : Json → Bool
  | .null | .string _ => true
  | value => value.strings?.isSome

/-- **Whether an array gives every keyword its value by its place**, and does not list schemas. -/
def isPositional (items : List Json) : Bool := items.length == Keyword.all.length && items.head?.any isTypeValue

/-- **A value has one member more that no keyword names**, in an object that is read as a schema. -/
inductive GainsMember : Role → Json → Json → Prop
  | member (before after : List (String × Json)) (key : String) (value : Json) : Keyword.ofName? key = none →
    GainsMember .schema (.object (before ++ after)) (.object (before ++ (key, value) :: after))
  | keyword (before after : List (String × Json)) {key : String} {k : Keyword} {role : Role} {value value' : Json} :
    Keyword.ofName? key = some k → k.role? = some role → GainsMember role value value' →
    GainsMember .schema (.object (before ++ (key, value) :: after)) (.object (before ++ (key, value') :: after))
  | place (before after : List Json) {k : Keyword} {role : Role} {value value' : Json} :
    Keyword.all[before.length]? = some k → k.role? = some role → GainsMember role value value' →
    GainsMember .schema (.array (before ++ value :: after)) (.array (before ++ value' :: after))
  | item (before after : List Json) {value value' : Json} : GainsMember .schema value value' →
    GainsMember .list (.array (before ++ value :: after)) (.array (before ++ value' :: after))
  | entry (before after : List (String × Json)) {key : String} {value value' : Json} :
      GainsMember .schema value value' →
    GainsMember .map (.object (before ++ (key, value) :: after)) (.object (before ++ (key, value') :: after))
  | single {value value' : Json} : (∀ items, value = .array items → isPositional items = true) →
    GainsMember .schema value value' → GainsMember .items value value'
  | several {items : List Json} {value' : Json} : isPositional items = false →
    GainsMember .list (.array items) value' → GainsMember .items (.array items) value'

/-! ## Readings -/

@[simp] theorem raw_readingOf (value : Json) : (readingOf value).raw = value := by
  cases value <;> simp [readingOf]

theorem nodes_array (items : List Json) :
    (readingOf (.array items)).nodes = (items.map readingOf).mapM Reading.node := by
  rw [readingOf, readingsOf_eq_map]

theorem node_array (items : List Json) :
    (readingOf (.array items)).node = Reading.ofPlaces? (items.map readingOf) := by
  rw [readingOf, readingsOf_eq_map]

theorem node_object (members : List (String × Json)) :
    (readingOf (.object members)).node = Reading.ofMembers? (members.map (fun m => (m.1, readingOf m.2))) := by
  rw [readingOf, memberReadingsOf_eq_map]

theorem nodeMap_object (members : List (String × Json)) :
    (readingOf (.object members)).nodeMap = Reading.mapOfMembers? (members.map (fun m => (m.1, readingOf m.2))) := by
  rw [readingOf, memberReadingsOf_eq_map]

namespace Reading

/-- **Two readings agree in how a role reads them.** -/
def Agrees (role : Role) (r r' : Reading) : Prop :=
  match role with
  | .schema => r'.node = r.node
  | .list => r'.nodes = r.nodes
  | .map => r'.nodeMap = r.nodeMap
  | .items => r'.items? = r.items?

theorem orNull_of_ne {α : Type} {read : Reading → Option α} {r : Reading} (h : r.raw ≠ .null) :
    orNull read r = (read r).map some := by
  unfold orNull
  split
  · rename_i hnull
    exact absurd hnull h
  · rfl

/-- **A keyword takes over the same from readings that agree in its role.** -/
theorem set?_congr {keyword : Keyword} {role : Role} (hrole : keyword.role? = some role) {r r' : Reading}
    (hne : r.raw ≠ .null) (hne' : r'.raw ≠ .null) (h : Agrees role r r') (k : Keywords Node) :
    set? k keyword r' = set? k keyword r := by
  have hread : ∀ {α : Type} {read : Reading → Option α}, read r' = read r → orNull read r' = orNull read r := by
    intro α read heq
    rw [orNull_of_ne hne, orNull_of_ne hne', heq]
  cases keyword <;> cases hrole <;> simp only [set?, hread h]

/-- **A schema changes with no value whose keyword takes over the same.** -/
theorem ofKeywords?_congr {before after : List (Keyword × Reading)} {keyword : Keyword} {r r' : Reading}
    (h : ∀ k, set? k keyword r' = set? k keyword r) :
    ofKeywords? (before ++ (keyword, r') :: after) = ofKeywords? (before ++ (keyword, r) :: after) := by
  unfold ofKeywords?
  simp only [List.map_append, List.map_cons, List.foldlM_append, List.foldlM_cons, h]

theorem ofMembers?_congr {before after : List (String × Reading)} {key : String} {keyword : Keyword} {r r' : Reading}
    (hkey : Keyword.ofName? key = some keyword) (h : ∀ k, set? k keyword r' = set? k keyword r) :
    ofMembers? (before ++ (key, r') :: after) = ofMembers? (before ++ (key, r) :: after) := by
  unfold ofMembers? recognised
  simp only [List.filterMap_append, List.filterMap_cons, hkey, Option.map_some]
  exact ofKeywords?_congr h

/-- **A member that no keyword names does not count.** -/
theorem ofMembers?_unknown {before after : List (String × Reading)} {key : String} (r : Reading)
    (hkey : Keyword.ofName? key = none) : ofMembers? (before ++ (key, r) :: after) = ofMembers? (before ++ after) := by
  unfold ofMembers? recognised
  simp only [List.filterMap_append, List.filterMap_cons, hkey, Option.map_none]

theorem zip_append_cons {α β : Type} {as : List α} {before after : List β} {a : α} {b : β}
    (h : as[before.length]? = some a) : as.zip (before ++ b :: after) =
      (as.take before.length).zip before ++ (a, b) :: (as.drop (before.length + 1)).zip after := by
  obtain ⟨hlt, rfl⟩ := List.getElem?_eq_some_iff.1 h
  have hlength : (as.take before.length).length = before.length := List.length_take_of_le (Nat.le_of_lt hlt)
  calc as.zip (before ++ b :: after)
      = (as.take before.length ++ as.drop before.length).zip (before ++ b :: after) := by rw [List.take_append_drop]
    _ = _ := by rw [List.zip_append hlength, List.drop_eq_getElem_cons hlt, List.zip_cons_cons]

theorem ofPlaces?_congr {before after : List Reading} {keyword : Keyword} {r r' : Reading}
    (hplace : Keyword.all[before.length]? = some keyword) (h : ∀ k, set? k keyword r' = set? k keyword r) :
    ofPlaces? (before ++ r' :: after) = ofPlaces? (before ++ r :: after) := by
  unfold ofPlaces?
  rw [zip_append_cons hplace, zip_append_cons hplace, ofKeywords?_congr h]
  simp only [List.length_append, List.length_cons]

/-- **A schema needs every keyword to take its value over.** -/
theorem ofKeywords?_eq_none {before after : List (Keyword × Reading)} {keyword : Keyword} {r : Reading}
    (h : ∀ k, set? k keyword r = none) : ofKeywords? (before ++ (keyword, r) :: after) = none := by
  simp [ofKeywords?, h]

theorem ofPlaces?_eq_none (before after : List Reading) {keyword : Keyword} {r : Reading}
    (hplace : Keyword.all[before.length]? = some keyword) (h : ∀ k, set? k keyword r = none) :
    ofPlaces? (before ++ r :: after) = none := by
  unfold ofPlaces?
  rw [zip_append_cons hplace, ofKeywords?_eq_none h, ite_self]

theorem mapM_congr {α β : Type} {f : α → Option β} {before after : List α} {a a' : α} (h : f a' = f a) :
    (before ++ a' :: after).mapM f = (before ++ a :: after).mapM f := by
  simp only [List.mapM_append, List.mapM_cons, h]

end Reading

/-! ## Type values -/

theorem strings?_array_eq_none (before after : List Json) {value : Json} (h : value.string? = none) :
    Json.strings? (.array (before ++ value :: after)) = none := by
  simp [Json.strings?, Json.array?, h]

/-- **What stands in the first place of a schema is a type value.** -/
theorem node_array_of_not_isTypeValue {first : Json} (h : isTypeValue first = false) (rest : List Json) :
    (readingOf (.array (first :: rest))).node = none := by
  have htype : ∀ k, Reading.set? k .type (readingOf first) = none := by
    intro k
    cases first <;> simp_all [isTypeValue, Reading.set?, Reading.orNull, Reading.typeSet?]
  rw [node_array]
  exact Reading.ofPlaces?_eq_none [] _ rfl htype

/-- **An array that is not positional is no schema.** -/
theorem node_array_of_not_isPositional {items : List Json} (h : isPositional items = false) :
    (readingOf (.array items)).node = none := by
  rcases Bool.and_eq_false_iff.1 h with hlength | hfirst
  · rw [node_array, Reading.ofPlaces?, List.length_map, if_neg (by simpa using hlength)]
  · cases items with
    | nil => rfl
    | cons first rest => exact node_array_of_not_isTypeValue hfirst rest

/-- **No type value is a schema**: an array of texts has one in the place of the properties. -/
theorem node_of_isTypeValue {value : Json} (h : isTypeValue value = true) : (readingOf value).node = none := by
  cases value with
  | null | string _ | number _ => rfl
  | bool _ | object _ => cases h
  | array items =>
    obtain ⟨texts, htexts⟩ := Option.isSome_iff_exists.1 h
    obtain _ | ⟨first, _ | ⟨second, rest⟩⟩ := items
    · rfl
    · rfl
    · have hproperties : ∀ k, Reading.set? k .properties (readingOf second) = none := by
        intro k
        cases hsecond : second.string? with
        | none => cases (strings?_array_eq_none [first] rest hsecond).symm.trans htexts
        | some text =>
          cases second <;> cases hsecond
          rfl
      rw [node_array]
      exact Reading.ofPlaces?_eq_none [readingOf first] _ rfl hproperties

theorem nodes_array_of_isTypeValue {first : Json} (h : isTypeValue first = true) (rest : List Json) :
    (readingOf (.array (first :: rest))).nodes = none := by
  simp [nodes_array, node_of_isTypeValue h]

namespace GainsMember

/-- **Only objects and arrays gain members.** -/
theorem string?_eq_none {role : Role} {value value' : Json} (h : GainsMember role value value') :
    value.string? = none ∧ value'.string? = none ∧ value ≠ .null ∧ value' ≠ .null := by
  induction h with
  | single _ _ ih => exact ih
  | several _ _ ih => exact ih
  | _ => exact ⟨rfl, rfl, nofun, nofun⟩

/-- **A schema that gains a member is no type value**, before and after. -/
theorem not_isTypeValue {value value' : Json} (h : GainsMember .schema value value') :
    isTypeValue value = false ∧ isTypeValue value' = false := by
  cases h with
  | member => exact ⟨rfl, rfl⟩
  | keyword => exact ⟨rfl, rfl⟩
  | place _ _ _ _ hvalue =>
    obtain ⟨hnone, hnone', -⟩ := hvalue.string?_eq_none
    exact ⟨congrArg Option.isSome (strings?_array_eq_none _ _ hnone),
      congrArg Option.isSome (strings?_array_eq_none _ _ hnone')⟩

/-- **A schema that gains a member lists no schemas**, if it is positional where it is an array: no schema stands in its
first place, which keeps its type value. -/
theorem nodes_eq_none {value value' : Json} (h : GainsMember .schema value value')
    (hpositional : ∀ items, value = .array items → isPositional items = true) :
    (readingOf value).nodes = none ∧ (readingOf value').nodes = none := by
  cases h with
  | member => exact ⟨rfl, rfl⟩
  | keyword => exact ⟨rfl, rfl⟩
  | place before _ hplace hrole _ =>
    cases before with
    | nil =>
      cases hplace
      cases hrole
    | cons first before =>
      have hfirst : isTypeValue first = true := (Bool.and_eq_true_iff.1 (hpositional _ rfl)).2
      exact ⟨nodes_array_of_isTypeValue hfirst _, nodes_array_of_isTypeValue hfirst _⟩

/-- **An array of schemas stays positional, or not**, when one of them gains a member. -/
theorem isPositional_eq {items items' : List Json} (h : GainsMember .list (.array items) (.array items')) :
    isPositional items' = isPositional items := by
  cases h with
  | item before _ hitem =>
    obtain ⟨hold, hnew⟩ := hitem.not_isTypeValue
    cases before <;> simp [isPositional, hold, hnew]

theorem agrees {role : Role} {value value' : Json} (h : GainsMember role value value') :
    Reading.Agrees role (readingOf value) (readingOf value') := by
  induction h with
  | member _ _ key value hkey =>
    show (readingOf _).node = (readingOf _).node
    rw [node_object, node_object, List.map_append, List.map_append, List.map_cons]
    exact Reading.ofMembers?_unknown _ hkey
  | keyword _ _ hkey hrole hvalue ih =>
    obtain ⟨-, -, hne, hne'⟩ := hvalue.string?_eq_none
    show (readingOf _).node = (readingOf _).node
    rw [node_object, node_object, List.map_append, List.map_append, List.map_cons, List.map_cons]
    exact Reading.ofMembers?_congr hkey
      (Reading.set?_congr hrole (by rwa [raw_readingOf]) (by rwa [raw_readingOf]) ih)
  | place _ _ hplace hrole hvalue ih =>
    obtain ⟨-, -, hne, hne'⟩ := hvalue.string?_eq_none
    show (readingOf _).node = (readingOf _).node
    rw [node_array, node_array, List.map_append, List.map_append, List.map_cons, List.map_cons]
    exact Reading.ofPlaces?_congr (by rwa [List.length_map])
      (Reading.set?_congr hrole (by rwa [raw_readingOf]) (by rwa [raw_readingOf]) ih)
  | item _ _ _ ih =>
    show (readingOf _).nodes = (readingOf _).nodes
    rw [nodes_array, nodes_array, List.map_append, List.map_append, List.map_cons, List.map_cons]
    exact Reading.mapM_congr ih
  | entry _ _ _ ih =>
    show (readingOf _).nodeMap = (readingOf _).nodeMap
    rw [nodeMap_object, nodeMap_object, List.map_append, List.map_append, List.map_cons, List.map_cons]
    exact congrArg (Option.map Assoc.ofEntries) (Reading.mapM_congr (congrArg _ ih))
  | single hpositional hvalue ih =>
    obtain ⟨hnodes, hnodes'⟩ := hvalue.nodes_eq_none hpositional
    simp only [Reading.Agrees, Reading.items?, hnodes, hnodes'] at ih ⊢
    rw [ih]
  | several hlist hvalue ih =>
    cases hvalue with
    | item _ _ hitem =>
      have hlist' := (isPositional_eq (.item _ _ hitem)).trans hlist
      simp only [Reading.Agrees, Reading.items?, node_array_of_not_isPositional hlist,
        node_array_of_not_isPositional hlist'] at ih ⊢
      rw [ih]

end GainsMember

theorem ofJson?_eq_of_eqvGen {value value' : Json} (h : Relation.EqvGen (GainsMember .schema) value value') :
    Node.ofJson? value' = Node.ofJson? value := by
  induction h with
  | rel _ _ h => exact h.agrees
  | refl _ => rfl
  | symm _ _ _ ih => exact ih.symm
  | trans _ _ _ _ _ ih ih' => exact ih'.trans ih

/-- **Members that no keyword names do not count**: however many of them come and go in a value, at any depth of the
schema, it is read as the same schema, or before and after as none.  Where no object repeats a key, the value as a whole
is the same schema or is refused with the same error. -/
theorem unknown_members_ignored {value value' : Json} (h : Relation.EqvGen (GainsMember .schema) value value') :
    Node.ofJson? value' = Node.ofJson? value ∧
      (value.keysOnce = true → value'.keysOnce = true → Node.ofValue value' = Node.ofValue value) := by
  have hsame := ofJson?_eq_of_eqvGen h
  refine ⟨hsame, fun honce honce' => ?_⟩
  rw [Node.ofValue, Node.ofValue, Json.mergeRepeats_of_keysOnce value honce,
    Json.mergeRepeats_of_keysOnce value' honce', hsame]

/-- **A schema with members of its own in three places**: in itself, in the schema of its property, which has the name
of one of them, and in the schema of its first item. -/
def annotated (own property item : List (String × Json)) : Json :=
  .object (own ++
    [("properties", .object [("title", .object ([("type", .string "string")] ++ property))]),
     ("items", .array [.object ([("type", .string "number")] ++ item), .bool true])])

/-- **One member goes and two come**, at three depths. -/
theorem unknown_members_ignored_annotated :
    let value := annotated [("title", .string "Pair")] [] []
    let value' := annotated [] [("examples", .array [])] [("x-order", .null)]
    Relation.EqvGen (GainsMember .schema) value value' ∧ Node.ofJson? value' = Node.ofJson? value ∧
      (Node.ofJson? value).isSome = true ∧ Node.ofValue value' = Node.ofValue value := by
  intro value value'
  have hown : GainsMember .schema (annotated [] [] []) value := .member [] _ "title" _ rfl
  have hproperty : GainsMember .schema (annotated [] [] []) (annotated [] [("examples", .array [])] []) :=
    .keyword [] _ rfl rfl (.entry [] [] (.member _ [] "examples" _ rfl))
  have hitem : GainsMember .schema (annotated [] [("examples", .array [])] []) value' :=
    .keyword [_] [] rfl rfl (.several rfl (.item [] _ (.member _ [] "x-order" _ rfl)))
  have hvalue : Relation.EqvGen (GainsMember .schema) value value' :=
    .trans _ _ _ (.symm _ _ (.rel _ _ hown)) (.trans _ _ _ (.rel _ _ hproperty) (.rel _ _ hitem))
  obtain ⟨hjson, hvalues⟩ := unknown_members_ignored hvalue
  exact ⟨hvalue, hjson, by decide +kernel, hvalues (by decide +kernel) (by decide +kernel)⟩

end Schema
end Valgen
