import Mathlib.Tactic.SplitIfs
import Valgen.Schema.Reference
/-!
# Proofs.Schema.Subschemas — what a schema and its subschemas have to do with each other

`Keywords.Holds k c` says by keyword where a subschema stands, and `Keywords.child?` which one a step leads to.  A
subschema is less deep than its schema, and its references are among those of the schema; so are those of whatever a
pointer or a definition names (`Within`), since a pointer leads nowhere but along such steps
(`Node.exists_steps_of_pointer?`).
-/
namespace Valgen

theorem Assoc.mem_of_get? {α : Type} {l : Assoc α} {key : String} {value : α} (h : Assoc.get? l key = some value) :
    (key, value) ∈ l := by
  obtain ⟨⟨found, _⟩, hfind, rfl⟩ := Option.map_eq_some_iff.1 h
  obtain rfl : found = key := by simpa using List.find?_some hfind
  exact List.mem_of_find?_eq_some hfind

namespace Schema

namespace Keywords

variable {ν : Type}

/-- **A subschema stands under a keyword.** -/
inductive Holds (k : Keywords ν) : ν → Prop
  | property {name : String} {c : ν} : (name, c) ∈ k.properties.getD [] → Holds k c
  | additionalProperties {c : ν} : k.additionalProperties = some c → Holds k c
  | items {c : ν} : k.items = some (.single c) → Holds k c
  | item {cs : List ν} {c : ν} : k.items = some (.tuple cs) → c ∈ cs → Holds k c
  | prefixItem {c : ν} : c ∈ k.prefixItems.getD [] → Holds k c
  | allOf {c : ν} : c ∈ k.allOf.getD [] → Holds k c
  | anyOf {c : ν} : c ∈ k.anyOf.getD [] → Holds k c
  | oneOf {c : ν} : c ∈ k.oneOf.getD [] → Holds k c
  | not {c : ν} : k.not = some c → Holds k c
  | ifSchema {c : ν} : k.ifSchema = some c → Holds k c
  | thenSchema {c : ν} : k.thenSchema = some c → Holds k c
  | elseSchema {c : ν} : k.elseSchema = some c → Holds k c
  | defs {name : String} {c : ν} : (name, c) ∈ k.defs.getD [] → Holds k c
  | definition {name : String} {c : ν} : (name, c) ∈ k.definitions.getD [] → Holds k c

theorem exists_mem_childrenOfOne {step : Step} {child : Option ν} {c : ν} :
    (∃ s, (s, c) ∈ childrenOfOne step child) ↔ child = some c := by
  cases child <;> simp [childrenOfOne, eq_comm]

theorem exists_mem_childrenOfList {step : Nat → Step} {children : List ν} {c : ν} :
    (∃ s, (s, c) ∈ childrenOfList step children) ↔ c ∈ children := by
  constructor
  · rintro ⟨s, hs⟩
    obtain ⟨⟨d, i⟩, hd, heq⟩ := List.mem_map.1 hs
    obtain rfl : d = c := congrArg Prod.snd heq
    exact List.fst_mem_of_mem_zipIdx hd
  · intro hc
    obtain ⟨i, hi⟩ := List.mem_iff_getElem?.1 hc
    exact ⟨step i, List.mem_map.2 ⟨(c, i), List.mem_zipIdx_iff_getElem?.2 hi, rfl⟩⟩

theorem exists_mem_childrenOfMap {step : String → Step} {children : Assoc ν} {c : ν} :
    (∃ s, (s, c) ∈ childrenOfMap step children) ↔ ∃ name, (name, c) ∈ children := by
  constructor
  · rintro ⟨s, hs⟩
    obtain ⟨⟨name, d⟩, hd, heq⟩ := List.mem_map.1 hs
    obtain rfl : d = c := congrArg Prod.snd heq
    exact ⟨name, hd⟩
  · rintro ⟨name, hc⟩
    exact ⟨step name, List.mem_map.2 ⟨(name, c), hc, rfl⟩⟩

/-- **The subschemas are those that stand under a keyword.** -/
theorem holds_iff {k : Keywords ν} {c : ν} : k.Holds c ↔ ∃ step, (step, c) ∈ k.children := by
  have hitems : (∃ s, (s, c) ∈ childrenOfItems k.items) ↔
      k.items = some (.single c) ∨ ∃ cs, k.items = some (.tuple cs) ∧ c ∈ cs := by
    match k.items with
    | none => simp [childrenOfItems]
    | some (.single d) => simp [childrenOfItems, eq_comm]
    | some (.tuple cs) => simp [childrenOfItems, exists_mem_childrenOfList]
  simp only [children, List.mem_append, exists_or, exists_mem_childrenOfMap, exists_mem_childrenOfOne,
    exists_mem_childrenOfList, hitems]
  constructor
  · intro h
    cases h with
    | @property name _ h => simp [show ∃ name, (name, c) ∈ k.properties.getD [] from ⟨name, h⟩]
    | additionalProperties h => simp [h]
    | items h => simp [h]
    | item h hc => simp [h, hc]
    | prefixItem h => simp [h]
    | allOf h => simp [h]
    | anyOf h => simp [h]
    | oneOf h => simp [h]
    | not h => simp [h]
    | ifSchema h => simp [h]
    | thenSchema h => simp [h]
    | elseSchema h => simp [h]
    | @defs name _ h => simp [show ∃ name, (name, c) ∈ k.defs.getD [] from ⟨name, h⟩]
    | @definition name _ h => simp [show ∃ name, (name, c) ∈ k.definitions.getD [] from ⟨name, h⟩]
  · rintro ((((((((((((⟨_, h⟩ | h) | (h | ⟨_, h, hc⟩)) | h) | h) | h) | h) | h) | h) | h) | h) | ⟨_, h⟩) | ⟨_, h⟩)
    · exact .property h
    · exact .additionalProperties h
    · exact .items h
    · exact .item h hc
    · exact .prefixItem h
    · exact .allOf h
    · exact .anyOf h
    · exact .oneOf h
    · exact .not h
    · exact .ifSchema h
    · exact .thenSchema h
    · exact .elseSchema h
    · exact .defs h
    · exact .definition h

theorem mem_of_bind_getElem? {o : Option (List ν)} {index : Nat} {c : ν} (h : o.bind (fun l => l[index]?) = some c) :
    c ∈ o.getD [] := by
  obtain ⟨l, rfl, hget⟩ := Option.bind_eq_some_iff.1 h
  exact List.mem_of_getElem? hget

theorem mem_of_bind_get? {o : Option (Assoc ν)} {key : String} {c : ν}
    (h : o.bind (fun l => Assoc.get? l key) = some c) : (key, c) ∈ o.getD [] := by
  obtain ⟨l, rfl, hget⟩ := Option.bind_eq_some_iff.1 h
  exact Assoc.mem_of_get? hget

theorem holds_of_child? {k : Keywords ν} {step : Step} {c : ν} (h : k.child? step = some c) : k.Holds c := by
  cases step with
  | property key => exact .property (mem_of_bind_get? h)
  | additionalProperties => exact .additionalProperties h
  | items =>
    rw [child?] at h
    split at h
    · rename_i hitems
      cases h
      exact .items hitems
    · cases h
  | item index =>
    rw [child?] at h
    split at h
    · rename_i hitems
      exact .item hitems (List.mem_of_getElem? h)
    · cases h
  | prefixItem index => exact .prefixItem (mem_of_bind_getElem? h)
  | allOf index => exact .allOf (mem_of_bind_getElem? h)
  | anyOf index => exact .anyOf (mem_of_bind_getElem? h)
  | oneOf index => exact .oneOf (mem_of_bind_getElem? h)
  | not => exact .not h
  | ifSchema => exact .ifSchema h
  | thenSchema => exact .thenSchema h
  | elseSchema => exact .elseSchema h
  | defs key => exact .defs (mem_of_bind_get? h)
  | definition key => exact .definition (mem_of_bind_get? h)

end Keywords

namespace Node

/-- **The subschema that a step leads to**; a truth value has none. -/
def child? (node : Node) (step : Step) : Option Node := node.keywords?.bind (fun k => k.child? step)

/-- **The schema that steps lead to**, one after another. -/
def walk? : Node → List Step → Option Node
  | node, [] => some node
  | node, step :: rest => (node.child? step).bind (fun child => child.walk? rest)

theorem le_foldl_max (l : List Nat) (m : Nat) : m ≤ l.foldl max m ∧ ∀ x ∈ l, x ≤ l.foldl max m := by
  induction l generalizing m with
  | nil => simp
  | cons y l ih =>
    obtain ⟨hm, hl⟩ := ih (max m y)
    refine ⟨Nat.le_trans (Nat.le_max_left m y) hm, fun x hx => ?_⟩
    rcases List.mem_cons.1 hx with rfl | hx'
    · exact Nat.le_trans (Nat.le_max_right m x) hm
    · exact hl x hx'

theorem foldl_max_le {l : List Nat} {m b : Nat} (hm : m ≤ b) (hl : ∀ x ∈ l, x ≤ b) : l.foldl max m ≤ b := by
  induction l generalizing m with
  | nil => exact hm
  | cons y l ih =>
    refine ih (Nat.max_le.2 ⟨hm, hl y List.mem_cons_self⟩) (fun x hx => hl x (List.mem_cons_of_mem _ hx))

variable {k : Keywords Node} {c : Node}

theorem height_lt_of_holds (h : k.Holds c) : c.height < (Node.object k).height := by
  obtain ⟨step, hmem⟩ := Keywords.holds_iff.1 h
  rw [height.eq_def (.object k)]
  have hle := (le_foldl_max (((Node.object k).children.attach).map (fun c => height c.1.2)) 0).2 c.height
    (List.mem_map.2 ⟨⟨(step, c), hmem⟩, List.mem_attach _ _, rfl⟩)
  omega

theorem one_le_height (n : Node) : 1 ≤ n.height := by
  rw [height.eq_def]
  omega

theorem refs_object (k : Keywords Node) :
    (Node.object k).refs = k.ref.toList ++ k.children.flatMap (fun c => c.2.refs) := by
  rw [refs.eq_def, List.flatMap_subtype (g := fun c => c.2.refs) (fun _ _ => rfl), List.unattach_attach]
  rfl

theorem height_object (k : Keywords Node) :
    (Node.object k).height = 1 + (k.children.map (fun c => c.2.height)).foldl max 0 := by
  rw [height.eq_def, List.map_subtype (g := fun c => c.2.height) (fun _ _ => rfl), List.unattach_attach]
  rfl

theorem mem_refs_of_holds (h : k.Holds c) {reference : String} (hr : reference ∈ c.refs) :
    reference ∈ (Node.object k).refs := by
  obtain ⟨step, hmem⟩ := Keywords.holds_iff.1 h
  rw [refs.eq_def (.object k)]
  exact List.mem_append_right _ (List.mem_flatMap.2 ⟨⟨(step, c), hmem⟩, List.mem_attach _ _, hr⟩)

theorem mem_refs_of_ref {reference : String} (h : k.ref = some reference) : reference ∈ (Node.object k).refs := by
  rw [refs.eq_def]
  simp [keywords?, h]

/-- **A schema is no deeper than another and has no other references**, as a part of it. -/
structure Within (root node : Node) : Prop where
  height : node.height ≤ root.height
  refs : ∀ reference ∈ node.refs, reference ∈ root.refs

theorem Within.refl (root : Node) : Within root root := ⟨Nat.le_refl _, fun _ h => h⟩

theorem Within.trans {root node inner : Node} (h : Within root node) (h' : Within node inner) : Within root inner :=
  ⟨Nat.le_trans h'.height h.height, fun reference hr => h.refs reference (h'.refs reference hr)⟩

theorem within_of_holds (h : k.Holds c) : Within (.object k) c :=
  ⟨Nat.le_of_lt (height_lt_of_holds h), fun _ hr => mem_refs_of_holds h hr⟩

/-- **A schema stands somewhere in another one**, or is that one. -/
inductive Inside (root : Node) : Node → Prop
  | root : Inside root root
  | child {k : Keywords Node} {c : Node} : Inside root (.object k) → k.Holds c → Inside root c

theorem Inside.within {root node : Node} (h : Inside root node) : Within root node := by
  induction h with
  | root => exact Within.refl root
  | child _ hholds ih => exact ih.trans (within_of_holds hholds)

theorem Inside.trans {root node inner : Node} (h : Inside root node) (h' : Inside node inner) : Inside root inner := by
  induction h' with
  | root => exact h
  | child _ hc ih => exact ih.child hc

theorem Inside.eq_or_below {k : Keywords Node} {node : Node} (h : Inside (.object k) node) :
    node = .object k ∨ ∃ c ∈ k.children, Inside c.2 node := by
  induction h with
  | root => exact .inl rfl
  | child _ hc ih =>
    rcases ih with heq | ⟨c, hmem, hbelow⟩
    · cases heq
      obtain ⟨step, hmem⟩ := Keywords.holds_iff.1 hc
      exact .inr ⟨_, hmem, .root⟩
    · exact .inr ⟨c, hmem, hbelow.child hc⟩

/-- **What holds of every schema inside one** holds of it and of all inside its subschemas. -/
theorem forall_inside_object {k : Keywords Node} {P : Node → Prop} :
    (∀ node, Inside (.object k) node → P node) ↔
      P (.object k) ∧ ∀ c ∈ k.children, ∀ node, Inside c.2 node → P node := by
  constructor
  · intro h
    exact ⟨h _ .root, fun c hc node hnode => h node (.trans (.child .root (Keywords.holds_iff.2 ⟨c.1, hc⟩)) hnode)⟩
  · rintro ⟨hroot, hbelow⟩ node hnode
    rcases hnode.eq_or_below with rfl | ⟨c, hc, hinside⟩
    · exact hroot
    · exact hbelow c hc node hinside

theorem Inside.eq_bool {value : Bool} {node : Node} (h : Inside (.bool value) node) : node = .bool value := by
  induction h with
  | root => rfl
  | child _ _ ih => cases ih

theorem forall_inside_bool {value : Bool} {P : Node → Prop} :
    (∀ node, Inside (.bool value) node → P node) ↔ P (.bool value) :=
  ⟨fun h => h _ .root, fun h _ hnode => hnode.eq_bool ▸ h⟩

/-! ## Pointers and definitions -/

theorem exists_child_of_one? {keyword : String} (h : k.one? keyword = some c) : ∃ step, k.child? step = some c := by
  unfold Keywords.one? at h
  split_ifs at h
  · exact ⟨.not, h⟩
  · exact ⟨.ifSchema, h⟩
  · exact ⟨.thenSchema, h⟩
  · exact ⟨.elseSchema, h⟩
  · exact ⟨.additionalProperties, h⟩

theorem exists_child_of_itemsSchema? (h : k.itemsSchema? = some c) : ∃ step, k.child? step = some c := ⟨.items, h⟩

theorem exists_child_of_map? {keyword key : String} {l : Assoc Node} (h : k.map? keyword = some l)
    (hc : Assoc.get? l key = some c) : ∃ step, k.child? step = some c := by
  unfold Keywords.map? at h
  split_ifs at h
  · exact ⟨.property key, Option.bind_eq_some_iff.2 ⟨l, h, hc⟩⟩
  · exact ⟨.defs key, Option.bind_eq_some_iff.2 ⟨l, h, hc⟩⟩
  · exact ⟨.definition key, Option.bind_eq_some_iff.2 ⟨l, h, hc⟩⟩

theorem exists_child_of_list? {keyword : String} {l : List Node} {index : Nat} (h : k.list? keyword = some l)
    (hc : l[index]? = some c) : ∃ step, k.child? step = some c := by
  unfold Keywords.list? at h
  split_ifs at h
  · exact ⟨.prefixItem index, Option.bind_eq_some_iff.2 ⟨l, h, hc⟩⟩
  · exact ⟨.allOf index, Option.bind_eq_some_iff.2 ⟨l, h, hc⟩⟩
  · exact ⟨.anyOf index, Option.bind_eq_some_iff.2 ⟨l, h, hc⟩⟩
  · exact ⟨.oneOf index, Option.bind_eq_some_iff.2 ⟨l, h, hc⟩⟩
  · split at h
    · rename_i nodes hitems
      cases h
      refine ⟨.item index, ?_⟩
      rw [Keywords.child?, hitems]
      exact hc
    · cases h

theorem exists_steps_cons (h : ∃ step, k.child? step = some c) {target : Node}
    (hsteps : ∃ steps, c.walk? steps = some target) : ∃ steps, (Node.object k).walk? steps = some target := by
  obtain ⟨step, hstep⟩ := h
  obtain ⟨steps, hsteps⟩ := hsteps
  exact ⟨step :: steps, Option.bind_eq_some_iff.2 ⟨c, hstep, hsteps⟩⟩

/-- **Tokens lead nowhere but along steps.** -/
theorem exists_steps_of_follow : ∀ (tokens : List (List Char)) {node target : Node},
    follow tokens node = some target → ∃ steps, node.walk? steps = some target
  | [], node, target, h => ⟨[], h⟩
  | _ :: _, .bool _, _, h => by cases h
  | token :: rest, .object k, target, h => by
    unfold follow at h
    simp only at h
    split at h
    · rename_i child hdirect
      refine exists_steps_cons ?_ (exists_steps_of_follow rest h)
      split at hdirect
      · exact exists_child_of_itemsSchema? hdirect
      · exact exists_child_of_one? hdirect
    · match rest, h with
      | place :: rest, h =>
        -- A keyword with several subschemas: the next token says which of them.
        cases hmap : k.map? (String.ofList token) with
        | some l =>
          simp only [hmap] at h
          obtain ⟨child, hget, hfollow⟩ := Option.bind_eq_some_iff.1 h
          exact exists_steps_cons (exists_child_of_map? hmap hget) (exists_steps_of_follow rest hfollow)
        | none =>
          simp only [hmap] at h
          obtain ⟨child, hchild, hfollow⟩ := Option.bind_eq_some_iff.1 h
          obtain ⟨l, hl, hplace⟩ := Option.bind_eq_some_iff.1 hchild
          obtain ⟨i, _, hi⟩ := Option.bind_eq_some_iff.1 hplace
          exact exists_steps_cons (exists_child_of_list? hl hi) (exists_steps_of_follow rest hfollow)

theorem exists_steps_of_pointer? {root target : Node} {pointer : String} (h : root.pointer? pointer = some target) :
    ∃ steps, root.walk? steps = some target := by
  obtain ⟨tokens, _, hfollow⟩ := Option.bind_eq_some_iff.1 h
  exact exists_steps_of_follow tokens hfollow

theorem inside_of_walk? {root : Node} : ∀ (steps : List Step) {node target : Node}, Inside root node →
    node.walk? steps = some target → Inside root target
  | [], node, target, hnode, h => by
    cases h
    exact hnode
  | step :: rest, node, target, hnode, h => by
    obtain ⟨child, hchild, hwalk⟩ := Option.bind_eq_some_iff.1 h
    cases node with
    | bool value => cases hchild
    | object k => exact inside_of_walk? rest (hnode.child (Keywords.holds_of_child? hchild)) hwalk

/-- **A pointer leads to a schema that stands inside.** -/
theorem inside_of_pointer? {root target : Node} {pointer : String} (h : root.pointer? pointer = some target) :
    Inside root target := by
  obtain ⟨steps, hsteps⟩ := exists_steps_of_pointer? h
  exact inside_of_walk? steps .root hsteps

theorem within_of_pointer? {root target : Node} {pointer : String} (h : root.pointer? pointer = some target) :
    Within root target := (inside_of_pointer? h).within

theorem within_of_definition? {name : String} (h : k.definition? name = some c) : Within (.object k) c := by
  unfold Keywords.definition? at h
  split at h
  · rename_i node hdefs
    cases h
    obtain ⟨l, hl, hget⟩ := Option.bind_eq_some_iff.1 hdefs
    exact within_of_holds (@Keywords.Holds.defs _ _ name _ (by rw [hl]; exact Assoc.mem_of_get? hget))
  · obtain ⟨l, hl, hget⟩ := Option.bind_eq_some_iff.1 h
    exact within_of_holds (@Keywords.Holds.definition _ _ name _ (by rw [hl]; exact Assoc.mem_of_get? hget))

end Node
end Schema
end Valgen
