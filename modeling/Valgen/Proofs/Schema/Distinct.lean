import Mathlib.Data.List.Nodup
import Valgen.Proofs.Schema.Subschemas
import Valgen.Schema.Decode
/-!
# Proofs.Schema.Distinct — keys that stand once

A key that stood twice among the properties of a schema would be the place of two subschemas, of which a pointer finds
the first.  No schema that is read from JSON has one (`distinctProperties_ofJson?`): of a repeated key only the last
value is kept.
-/
namespace Valgen

namespace Assoc

variable {α : Type}

theorem get?_of_mem {key : String} {value : α} : ∀ {l : Assoc α}, (keys l).Nodup → (key, value) ∈ l →
    get? l key = some value
  | [], _, h => by cases h
  | e :: rest, hnodup, h => by
    rw [keys, List.map_cons, List.nodup_cons] at hnodup
    rw [get?, List.find?_cons]
    rcases List.mem_cons.1 h with rfl | h
    · simp
    · have hother : (e.1 == key) = false := by
        rw [beq_eq_false_iff_ne]
        rintro rfl
        exact hnodup.1 (List.mem_map.2 ⟨_, h, rfl⟩)
      rw [hother]
      exact get?_of_mem hnodup.2 h

theorem nodup_keys_insert {l : Assoc α} (h : (keys l).Nodup) (key : String) (value : α) :
    (keys (insert key value l)).Nodup := by
  by_cases hmem : key ∈ keys l
  · rwa [keys_insert_of_mem key value l hmem]
  · rw [keys_insert_of_not_mem key value l hmem, List.nodup_append]
    refine ⟨h, List.nodup_singleton key, fun a ha b hb hab => hmem ?_⟩
    rwa [← List.mem_singleton.1 hb, ← hab]

theorem mem_insert {key : String} {value : α} {e : String × α} : ∀ {l : Assoc α}, e ∈ insert key value l →
    e = (key, value) ∨ e ∈ l
  | [], h => by simpa [insert] using h
  | first :: rest, h => by
    rw [insert] at h
    split_ifs at h
    · exact (List.mem_cons.1 h).imp_right (List.mem_cons_of_mem _)
    · rcases List.mem_cons.1 h with h | h
      · exact .inr (h ▸ List.mem_cons_self)
      · exact (mem_insert h).imp_right (List.mem_cons_of_mem _)

/-- **What is read entry after entry has every key once**, and no entries but those. -/
theorem nodup_keys_ofEntries (entries : List (String × α)) :
    (keys (ofEntries entries)).Nodup ∧ ∀ e ∈ ofEntries entries, e ∈ entries := by
  have hfold : ∀ (rest : List (String × α)) (acc : Assoc α), (keys acc).Nodup →
      (keys (rest.foldl (fun acc e => insert e.1 e.2 acc) acc)).Nodup ∧
        ∀ e ∈ rest.foldl (fun acc e => insert e.1 e.2 acc) acc, e ∈ acc ∨ e ∈ rest := by
    intro rest
    induction rest with
    | nil => exact fun acc hacc => ⟨hacc, fun e he => .inl he⟩
    | cons first rest ih =>
      intro acc hacc
      obtain ⟨hnodup, hmem⟩ := ih _ (nodup_keys_insert hacc first.1 first.2)
      refine ⟨hnodup, fun e he => ?_⟩
      rcases hmem e he with he | he
      · rcases mem_insert he with rfl | he
        · exact .inr List.mem_cons_self
        · exact .inl he
      · exact .inr (List.mem_cons_of_mem _ he)
  obtain ⟨hnodup, hmem⟩ := hfold entries [] List.nodup_nil
  exact ⟨hnodup, fun e he => (hmem e he).resolve_left List.not_mem_nil⟩

end Assoc

namespace Schema

namespace Node

/-- **No schema inside lists a property twice.** -/
def DistinctProperties (root : Node) : Prop :=
  ∀ k, Inside root (.object k) → (Assoc.keys (k.properties.getD [])).Nodup

theorem distinctProperties_bool (value : Bool) : DistinctProperties (.bool value) := by
  have hroot : ∀ node, Inside (.bool value) node → node = .bool value := by
    intro node hnode
    induction hnode with
    | root => rfl
    | child _ _ ih => cases ih
  intro k hk
  cases hroot _ hk

theorem distinctProperties_object {k : Keywords Node} (hown : (Assoc.keys (k.properties.getD [])).Nodup)
    (hbelow : ∀ c, k.Holds c → DistinctProperties c) : DistinctProperties (.object k) := by
  intro inner hinner
  rcases hinner.eq_or_below with heq | ⟨c, hc, hinner⟩
  · cases heq
    exact hown
  · exact hbelow c.2 (Keywords.holds_iff.2 ⟨c.1, hc⟩) inner hinner

end Node

/-! ## Reading -/

open Node (DistinctProperties)

def DistinctAll (nodes : Option (List Node)) : Prop := ∀ l ∈ nodes, ∀ c ∈ l, DistinctProperties c

/-- **A map of schemas has every key once**, and so do the schemas in it. -/
def DistinctMap (nodes : Option (Assoc Node)) : Prop :=
  ∀ l ∈ nodes, (Assoc.keys l).Nodup ∧ ∀ e ∈ l, DistinctProperties e.2

/-- **Keywords whose schemas list no property twice**, keyword by keyword. -/
structure Keywords.Distinct (k : Keywords Node) : Prop where
  properties : DistinctMap k.properties
  additionalProperties : ∀ c ∈ k.additionalProperties, DistinctProperties c
  single : ∀ c, k.items = some (.single c) → DistinctProperties c
  tuple : ∀ cs, k.items = some (.tuple cs) → ∀ c ∈ cs, DistinctProperties c
  prefixItems : DistinctAll k.prefixItems
  allOf : DistinctAll k.allOf
  anyOf : DistinctAll k.anyOf
  oneOf : DistinctAll k.oneOf
  not : ∀ c ∈ k.not, DistinctProperties c
  ifSchema : ∀ c ∈ k.ifSchema, DistinctProperties c
  thenSchema : ∀ c ∈ k.thenSchema, DistinctProperties c
  elseSchema : ∀ c ∈ k.elseSchema, DistinctProperties c
  defs : DistinctMap k.defs
  definitions : DistinctMap k.definitions

theorem DistinctAll.of_getD {nodes : Option (List Node)} (h : DistinctAll nodes) {c : Node} (hc : c ∈ nodes.getD []) :
    DistinctProperties c := by
  cases nodes with
  | none => cases hc
  | some l => exact h l rfl c hc

theorem DistinctMap.of_getD {nodes : Option (Assoc Node)} (h : DistinctMap nodes) :
    (Assoc.keys (nodes.getD [])).Nodup ∧ ∀ {name c}, (name, c) ∈ nodes.getD [] → DistinctProperties c := by
  cases nodes with
  | none => exact ⟨List.nodup_nil, fun hc => absurd hc List.not_mem_nil⟩
  | some l => exact ⟨(h l rfl).1, fun hc => (h l rfl).2 _ hc⟩

theorem Keywords.Distinct.node {k : Keywords Node} (h : k.Distinct) : DistinctProperties (.object k) := by
  refine Node.distinctProperties_object h.properties.of_getD.1 (fun c hc => ?_)
  cases hc with
  | property hc => exact h.properties.of_getD.2 hc
  | additionalProperties hc => exact h.additionalProperties c hc
  | items hc => exact h.single c hc
  | item hcs hc => exact h.tuple _ hcs c hc
  | prefixItem hc => exact h.prefixItems.of_getD hc
  | allOf hc => exact h.allOf.of_getD hc
  | anyOf hc => exact h.anyOf.of_getD hc
  | oneOf hc => exact h.oneOf.of_getD hc
  | not hc => exact h.not c hc
  | ifSchema hc => exact h.ifSchema c hc
  | thenSchema hc => exact h.thenSchema c hc
  | elseSchema hc => exact h.elseSchema c hc
  | defs hc => exact h.defs.of_getD.2 hc
  | definition hc => exact h.definitions.of_getD.2 hc

namespace Reading

/-- **A value whose readings list no property twice.** -/
structure Distinct (r : Reading) : Prop where
  node : ∀ c ∈ r.node, DistinctProperties c
  nodes : DistinctAll r.nodes
  nodeMap : DistinctMap r.nodeMap

theorem eq_some_of_orNull {α : Type} {read : Reading → Option α} {r : Reading} {v : Option α}
    (h : orNull read r = some v)
    {a : α} (ha : a ∈ v) : read r = some a := by
  unfold orNull at h
  split at h
  · cases h
    cases ha
  · obtain ⟨b, hb, rfl⟩ := Option.map_eq_some_iff.1 h
    cases ha
    exact hb

/-- **A keyword that is taken over keeps the keys distinct**: the others are as they were. -/
theorem distinct_set? {k k' : Keywords Node} {keyword : Keyword} {r : Reading} (hk : k.Distinct) (hr : r.Distinct)
    (h : set? k keyword r = some k') : k'.Distinct := by
  have hone : ∀ {v : Option Node}, orNull node r = some v → ∀ c ∈ v, DistinctProperties c :=
    fun hv c hc => hr.node c (eq_some_of_orNull hv hc)
  have hall : ∀ {v : Option (List Node)}, orNull nodes r = some v → DistinctAll v :=
    fun hv l hl => hr.nodes l (eq_some_of_orNull hv hl)
  have hmap : ∀ {v : Option (Assoc Node)}, orNull nodeMap r = some v → DistinctMap v :=
    fun hv l hl => hr.nodeMap l (eq_some_of_orNull hv hl)
  cases keyword with
  | const | default =>
    cases h
    exact { hk with }
  | properties =>
    obtain ⟨v, hv, rfl⟩ := Option.map_eq_some_iff.1 h
    exact { hk with properties := hmap hv }
  | defs =>
    obtain ⟨v, hv, rfl⟩ := Option.map_eq_some_iff.1 h
    exact { hk with defs := hmap hv }
  | definitions =>
    obtain ⟨v, hv, rfl⟩ := Option.map_eq_some_iff.1 h
    exact { hk with definitions := hmap hv }
  | prefixItems =>
    obtain ⟨v, hv, rfl⟩ := Option.map_eq_some_iff.1 h
    exact { hk with prefixItems := hall hv }
  | allOf =>
    obtain ⟨v, hv, rfl⟩ := Option.map_eq_some_iff.1 h
    exact { hk with allOf := hall hv }
  | anyOf =>
    obtain ⟨v, hv, rfl⟩ := Option.map_eq_some_iff.1 h
    exact { hk with anyOf := hall hv }
  | oneOf =>
    obtain ⟨v, hv, rfl⟩ := Option.map_eq_some_iff.1 h
    exact { hk with oneOf := hall hv }
  | additionalProperties =>
    obtain ⟨v, hv, rfl⟩ := Option.map_eq_some_iff.1 h
    exact { hk with additionalProperties := hone hv }
  | not =>
    obtain ⟨v, hv, rfl⟩ := Option.map_eq_some_iff.1 h
    exact { hk with not := hone hv }
  | ifSchema =>
    obtain ⟨v, hv, rfl⟩ := Option.map_eq_some_iff.1 h
    exact { hk with ifSchema := hone hv }
  | thenSchema =>
    obtain ⟨v, hv, rfl⟩ := Option.map_eq_some_iff.1 h
    exact { hk with thenSchema := hone hv }
  | elseSchema =>
    obtain ⟨v, hv, rfl⟩ := Option.map_eq_some_iff.1 h
    exact { hk with elseSchema := hone hv }
  | items =>
    obtain ⟨v, hv, rfl⟩ := Option.map_eq_some_iff.1 h
    have hitems : ∀ {items}, v = some items → items? r = some items := fun hi => eq_some_of_orNull hv hi
    unfold items? at hitems
    refine { hk with single := fun c hc => ?_, tuple := fun cs hcs => ?_ }
    · have hread := hitems hc
      cases hnode : r.node with
      | some node =>
        rw [hnode] at hread
        cases hread
        exact hr.node c hnode
      | none =>
        rw [hnode] at hread
        obtain ⟨_, _, heq⟩ := Option.map_eq_some_iff.1 hread
        cases heq
    · have hread := hitems hcs
      cases hnode : r.node with
      | some node =>
        rw [hnode] at hread
        cases hread
      | none =>
        rw [hnode] at hread
        obtain ⟨l, hl, heq⟩ := Option.map_eq_some_iff.1 hread
        cases heq
        exact hr.nodes cs hl
  | _ =>
    obtain ⟨v, _, rfl⟩ := Option.map_eq_some_iff.1 h
    exact { hk with }

theorem distinct_ofKeywords? {entries : List (Keyword × Reading)} (h : ∀ e ∈ entries, e.2.Distinct) :
    ∀ c ∈ ofKeywords? entries, DistinctProperties c := by
  have hfold : ∀ (rest : List (Keyword × Reading)) (k : Keywords Node), (∀ e ∈ rest, e.2.Distinct) → k.Distinct →
      ∀ k' ∈ rest.foldlM (fun k e => set? k e.1 e.2) k, k'.Distinct := by
    intro rest
    induction rest with
    | nil =>
      intro k _ hk k' hk'
      cases hk'
      exact hk
    | cons e rest ih =>
      intro k he hk k' hk'
      rw [List.foldlM_cons] at hk'
      obtain ⟨next, hnext, hk'⟩ := Option.bind_eq_some_iff.1 hk'
      exact ih next (fun e' he' => he e' (List.mem_cons_of_mem _ he'))
        (distinct_set? hk (he e List.mem_cons_self) hnext) k' hk'
  have hempty : Keywords.Distinct {} := by constructor <;> intro _ hc <;> cases hc
  intro c hc
  unfold ofKeywords? at hc
  split_ifs at hc
  · obtain ⟨k, hk, rfl⟩ := Option.map_eq_some_iff.1 hc
    exact (hfold entries {} h hempty k hk).node
  · cases hc

end Reading

theorem exists_of_mapM {α β : Type} {f : α → Option β} : ∀ {as : List α} {bs : List β}, as.mapM f = some bs →
    ∀ b ∈ bs, ∃ a ∈ as, f a = some b
  | [], bs, h, b, hb => by
    cases h
    cases hb
  | a :: as, bs, h, b, hb => by
    rw [List.mapM_cons] at h
    obtain ⟨first, hfirst, h⟩ := Option.bind_eq_some_iff.1 h
    obtain ⟨rest, hrest, h⟩ := Option.bind_eq_some_iff.1 h
    cases h
    rcases List.mem_cons.1 hb with rfl | hb
    · exact ⟨a, List.mem_cons_self, hfirst⟩
    · obtain ⟨c, hc, heq⟩ := exists_of_mapM hrest b hb
      exact ⟨c, List.mem_cons_of_mem _ hc, heq⟩

mutual

theorem distinct_readingOf : ∀ value : Json, (readingOf value).Distinct
  | .null | .number _ | .string _ => ⟨nofun, nofun, nofun⟩
  | .bool value => by
    refine ⟨fun c hc => ?_, nofun, nofun⟩
    cases hc
    exact Node.distinctProperties_bool value
  | .array items => by
    have hitems := distinct_readingsOf items
    refine ⟨fun c hc => ?_, fun l hl c hc => ?_, nofun⟩
    · simp only [readingOf, Reading.ofPlaces?] at hc
      split_ifs at hc
      · exact Reading.distinct_ofKeywords? (fun e he => hitems _ (List.of_mem_zip he).2) c hc
      · cases hc
    · obtain ⟨r, hr, hnode⟩ := exists_of_mapM hl c hc
      exact (hitems r hr).node c hnode
  | .object members => by
    have hmembers := distinct_memberReadingsOf members
    refine ⟨fun c hc => ?_, nofun, fun l hl => ?_⟩
    · refine Reading.distinct_ofKeywords? (fun e he => ?_) c hc
      obtain ⟨m, hm, heq⟩ := List.mem_filterMap.1 he
      obtain ⟨keyword, _, rfl⟩ := Option.map_eq_some_iff.1 heq
      exact hmembers m hm
    · obtain ⟨entries, hentries, rfl⟩ := Option.map_eq_some_iff.1 hl
      obtain ⟨hnodup, hmem⟩ := Assoc.nodup_keys_ofEntries entries
      refine ⟨hnodup, fun e he => ?_⟩
      obtain ⟨m, hm, heq⟩ := exists_of_mapM hentries e (hmem e he)
      obtain ⟨c, hc, rfl⟩ := Option.map_eq_some_iff.1 heq
      exact (hmembers m hm).node c hc

theorem distinct_readingsOf : ∀ items : List Json, ∀ r ∈ readingsOf items, r.Distinct
  | [], _, h => by cases h
  | item :: rest, r, h => by
    rcases List.mem_cons.1 h with rfl | h
    · exact distinct_readingOf item
    · exact distinct_readingsOf rest r h

theorem distinct_memberReadingsOf : ∀ members : List (String × Json), ∀ m ∈ memberReadingsOf members, m.2.Distinct
  | [], _, h => by cases h
  | (key, value) :: rest, m, h => by
    rcases List.mem_cons.1 h with rfl | h
    · exact distinct_readingOf value
    · exact distinct_memberReadingsOf rest m h

end

/-- **A schema that was read lists no property twice.** -/
theorem distinctProperties_ofJson? {value : Json} {root : Node} (h : Node.ofJson? value = some root) :
    root.DistinctProperties := (distinct_readingOf value).node root h

end Schema
end Valgen
