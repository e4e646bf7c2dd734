import Mathlib.Data.List.Nodup
import Valgen.Proofs.Schema.UnknownMembers
/-!
# Proofs.Schema.Tuples — lists of schemas under `items`

Under `items` stands one schema or a list of them, and the value is read as one schema if it can be.  An array with an
item for each keyword has the form of both.  Still no list of schemas is read as one schema, however long it is
(`node_array_of_schemas`): in the first place of a schema stands a type value, and no such value is a schema
(`node_of_isTypeValue`).

A schema gives `items` its value by name or by place (`GivesItems`).  Either way a list of schemas becomes the tuple of
them, and nothing else in the schema changes (`schemas_read_as_tuple`).
-/
namespace Valgen
namespace Schema

/-- **The schema with other items**; a truth value has none. -/
def Node.withItems (items : Option (Items Node)) : Node → Node
  | .bool value => .bool value
  | .object k => .object { k with items := items }

theorem Node.withItems_comp (items items' : Option (Items Node)) :
    Node.withItems items ∘ Node.withItems items' = Node.withItems items := by
  funext n
  cases n <;> rfl

/-- **Two schemas of which the second gives `items` a value and the first does not**; else they are the same.  The value
is a member, or it stands in the place of a null. -/
inductive GivesItems (value : Json) : Json → Json → Prop
  | member (before after : List (String × Json)) : Keyword.items.name ∉ Assoc.keys (before ++ after) →
    GivesItems value (.object (before ++ after)) (.object (before ++ (Keyword.items.name, value) :: after))
  | place (before after : List Json) : Keyword.all[before.length]? = some .items →
    GivesItems value (.array (before ++ .null :: after)) (.array (before ++ value :: after))

/-! ## The items of a schema -/

namespace Keyword

theorem nodup_all : all.Nodup := by decide

theorem name_of_ofName? {s : String} {keyword : Keyword} (h : ofName? s = some keyword) : keyword.name = s := by
  simpa using List.find?_some h

end Keyword

namespace Reading

/-- **The other keywords neither look at the items nor change them.** -/
theorem set?_withItems {keyword : Keyword} (h : keyword ≠ .items) (k : Keywords Node) (items : Option (Items Node))
    (r : Reading) :
    set? { k with items := items } keyword r = (set? k keyword r).map (fun k => { k with items := items }) := by
  cases keyword with
  | items => exact absurd rfl h
  | const | default => rfl
  | _ =>
    simp only [set?, Option.map_map]
    rfl

theorem foldlM_set?_withItems (items : Option (Items Node)) {entries : List (Keyword × Reading)}
    (h : Keyword.items ∉ entries.map Prod.fst) (k : Keywords Node) :
    entries.foldlM (fun k e => set? k e.1 e.2) { k with items := items } =
      (entries.foldlM (fun k e => set? k e.1 e.2) k).map (fun k => { k with items := items }) := by
  induction entries generalizing k with
  | nil => rfl
  | cons e rest ih =>
    obtain ⟨hne, hrest⟩ := List.ne_and_not_mem_of_not_mem_cons h
    rw [List.foldlM_cons, List.foldlM_cons, set?_withItems hne.symm]
    cases set? k e.1 e.2 with
    | none => rfl
    | some next => exact ih hrest next

/-- **A schema has the items it is given**, and is otherwise the schema of the other keywords. -/
theorem ofKeywords?_items {before after : List (Keyword × Reading)} {r : Reading} {items : Option (Items Node)}
    (hread : orNull items? r = some items) (hnew : Keyword.items ∉ (before ++ after).map Prod.fst) :
    ofKeywords? (before ++ (.items, r) :: after) = (ofKeywords? (before ++ after)).map (Node.withItems items) := by
  have hnodup : ((before ++ (Keyword.items, r) :: after).map Prod.fst).Nodup ↔
      ((before ++ after).map Prod.fst).Nodup := by
    rw [List.map_append, List.map_cons, List.nodup_middle, List.nodup_cons, ← List.map_append]
    exact and_iff_right hnew
  have hfold : (before ++ (.items, r) :: after).foldlM (fun k e => set? k e.1 e.2) ({} : Keywords Node) =
      ((before ++ after).foldlM (fun k e => set? k e.1 e.2) {}).map (fun k => { k with items := items }) := by
    -- What comes behind sets other keywords only, so the items can just as well be set last.
    have hafter : Keyword.items ∉ after.map Prod.fst := fun h => hnew (by simp [h])
    rw [List.foldlM_append, List.foldlM_append]
    cases before.foldlM (fun k e => set? k e.1 e.2) {} with
    | none => rfl
    | some k =>
      show (set? k .items r).bind (fun k => after.foldlM (fun k e => set? k e.1 e.2) k) = _
      rw [set?, hread]
      exact foldlM_set?_withItems items hafter k
  unfold ofKeywords?
  simp only [hnodup, hfold]
  split_ifs
  · rw [Option.map_map, Option.map_map]
    rfl
  · rfl

theorem items_not_mem_recognised {members : List (String × Reading)}
    (h : Keyword.items.name ∉ members.map Prod.fst) : Keyword.items ∉ (recognised members).map Prod.fst := by
  intro hmem
  obtain ⟨e, he, hfst⟩ := List.mem_map.1 hmem
  obtain ⟨m, hm, heq⟩ := List.mem_filterMap.1 he
  obtain ⟨keyword, hkeyword, rfl⟩ := Option.map_eq_some_iff.1 heq
  cases hfst
  exact h (List.mem_map.2 ⟨m, hm, (Keyword.name_of_ofName? hkeyword).symm⟩)

theorem ofMembers?_items {before after : List (String × Reading)} {r : Reading} {items : Option (Items Node)}
    (hread : orNull items? r = some items) (hnew : Keyword.items.name ∉ (before ++ after).map Prod.fst) :
    ofMembers? (before ++ (Keyword.items.name, r) :: after) =
      (ofMembers? (before ++ after)).map (Node.withItems items) := by
  have hname : Keyword.ofName? Keyword.items.name = some .items := by decide
  have hothers := items_not_mem_recognised hnew
  unfold ofMembers?
  unfold recognised at hothers ⊢
  rw [List.filterMap_append] at hothers ⊢
  rw [List.filterMap_append, List.filterMap_cons, hname]
  exact ofKeywords?_items hread hothers

theorem not_mem_other_places {before : List Reading} {keyword : Keyword}
    (hplace : Keyword.all[before.length]? = some keyword) (after : List Reading) :
    keyword ∉ ((Keyword.all.take before.length).zip before ++
      (Keyword.all.drop (before.length + 1)).zip after).map Prod.fst := by
  have hall : Keyword.all = Keyword.all.take before.length ++ keyword :: Keyword.all.drop (before.length + 1) := by
    obtain ⟨hlt, heq⟩ := List.getElem?_eq_some_iff.1 hplace
    rw [← heq, ← List.drop_eq_getElem_cons hlt, List.take_append_drop]
  have honce := hall ▸ Keyword.nodup_all
  intro hmem
  obtain ⟨e, he, rfl⟩ := List.mem_map.1 hmem
  refine (List.nodup_cons.1 (List.nodup_middle.1 honce)).1 (List.mem_append.2 ?_)
  exact (List.mem_append.1 he).imp (fun h => (List.of_mem_zip h).1) (fun h => (List.of_mem_zip h).1)

theorem ofPlaces?_items {before after : List Reading} (hplace : Keyword.all[before.length]? = some .items) {r : Reading}
    {items : Option (Items Node)} (hread : orNull items? r = some items) :
    ofPlaces? (before ++ r :: after) =
      (ofPlaces? (before ++ readingOf .null :: after)).map (Node.withItems items) := by
  have hothers := not_mem_other_places hplace after
  have hnull : orNull items? (readingOf .null) = some none := rfl
  unfold ofPlaces?
  rw [zip_append_cons hplace, zip_append_cons hplace, ofKeywords?_items hread hothers, ofKeywords?_items hnull hothers]
  simp only [List.length_append, List.length_cons]
  split_ifs
  · rw [Option.map_map, Node.withItems_comp]
  · rfl

end Reading

theorem GivesItems.ofJson?_eq {value plain schema : Json} (h : GivesItems value plain schema) (hne : value ≠ .null)
    {items : Items Node} (hread : (readingOf value).items? = some items) :
    Node.ofJson? schema = (Node.ofJson? plain).map (Node.withItems (some items)) := by
  have hvalue : Reading.orNull Reading.items? (readingOf value) = some (some items) := by
    rw [Reading.orNull_of_ne (by rwa [raw_readingOf]), hread, Option.map_some]
  unfold Node.ofJson?
  cases h with
  | member before after hnew =>
    rw [node_object, node_object, List.map_append, List.map_append, List.map_cons]
    refine Reading.ofMembers?_items hvalue ?_
    rwa [← List.map_append, List.map_map]
  | place before after hplace =>
    rw [node_array, node_array, List.map_append, List.map_append, List.map_cons, List.map_cons]
    exact Reading.ofPlaces?_items (by rwa [List.length_map]) hvalue

/-! ## Lists of schemas -/

/-- **No list of schemas is a schema**, however long it is. -/
theorem node_array_of_schemas {values : List Json} {nodes : List Node} (h : values.map Node.ofJson? = nodes.map some) :
    (readingOf (.array values)).node = none := by
  cases values with
  | nil => rfl
  | cons first rest =>
    cases nodes with
    | nil => cases h
    | cons node nodes =>
      -- Whether there is a value for each place does not matter: the first one cannot stand in its place.
      have hfirst : (readingOf first).node = some node := (List.cons.inj h).1
      have htype : isTypeValue first = false := by
        rw [Bool.eq_false_iff]
        intro htype
        cases (node_of_isTypeValue htype).symm.trans hfirst
      exact node_array_of_not_isTypeValue htype rest

theorem nodes_array_of_schemas {values : List Json} {nodes : List Node} (h : values.map Node.ofJson? = nodes.map some) :
    (readingOf (.array values)).nodes = some nodes :=
  calc (readingOf (.array values)).nodes
      = (values.map readingOf).mapM Reading.node := nodes_array values
    _ = (values.map Node.ofJson?).mapM id := by rw [List.mapM_map, List.mapM_map]; rfl
    _ = (nodes.map some).mapM id := by rw [h]
    _ = some nodes := by simpa using List.mapM_pure (m := Option) (l := nodes) (f := id)

theorem items?_array_of_schemas {values : List Json} {nodes : List Node}
    (h : values.map Node.ofJson? = nodes.map some) : (readingOf (.array values)).items? = some (.tuple nodes) := by
  rw [Reading.items?, node_array_of_schemas h, nodes_array_of_schemas h, Option.map_some]

/-- **A list of schemas under `items` is the tuple of them, in order**, of whatever length it is and whatever schemas it
holds; and a schema that gives it by name or by place has this tuple as its items, and is otherwise the schema that
gives none. -/
theorem schemas_read_as_tuple {values : List Json} {nodes : List Node} (h : values.map Node.ofJson? = nodes.map some) :
    (readingOf (.array values)).items? = some (.tuple nodes) ∧
      ∀ plain schema, GivesItems (.array values) plain schema →
        Node.ofJson? schema = (Node.ofJson? plain).map (Node.withItems (some (.tuple nodes))) := by
  have hread := items?_array_of_schemas h
  exact ⟨hread, fun _ _ hgives => hgives.ofJson?_eq nofun hread⟩

/-- **A schema by places** that says nothing but what its items are. -/
def itemsByPlace (items : Json) : Json :=
  .array ([.null, .null, .array [], .null] ++ items :: List.replicate 30 .null)

/-- **As many schemas as there are places**, the first of them by places too, in a schema by places: a null `const` and
a null `default` are values. -/
theorem schemas_read_as_tuple_by_places :
    let values := itemsByPlace .null :: .object [("type", .string "string")] :: List.replicate 33 (.bool true)
    let nodes := .object { const := some .null, default := some .null } ::
      .object { type := some (.single "string") } :: List.replicate 33 (.bool true)
    values.length = Keyword.all.length ∧ values.map Node.ofJson? = nodes.map some ∧
      (readingOf (.array values)).items? = some (.tuple nodes) ∧
      Node.ofJson? (itemsByPlace (.array values)) =
        some (.object { const := some .null, default := some .null, items := some (.tuple nodes) }) := by
  intro values nodes
  have hnodes : values.map Node.ofJson? = nodes.map some := rfl
  have hgives : GivesItems (.array values) (itemsByPlace .null) (itemsByPlace (.array values)) := .place _ _ rfl
  obtain ⟨hitems, hschema⟩ := schemas_read_as_tuple hnodes
  exact ⟨by decide, hnodes, hitems, hschema _ _ hgives⟩

-- It is not the length that decides: as many values that list no schemas are one schema.
example : (readingOf (itemsByPlace .null)).items? =
    some (.single (.object { const := some .null, default := some .null })) := rfl

end Schema
end Valgen
