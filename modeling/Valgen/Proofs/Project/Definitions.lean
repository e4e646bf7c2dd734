import Valgen.Project.Compile
import Valgen.Proofs.Schema.Subschemas
import Valgen.Proofs.Text.Split
/-!
# Proofs.Project.Definitions — the two ways to a definition

A pointer such as `/definitions/Item` can be read in two ways: by its tokens, each a keyword or a key, or as the name of
an export, which is looked up in `$defs` first and in `definitions` when it is not there.
`named_target_is_pointed_iff` says when the two find the same schema.
-/
namespace Valgen

namespace Schema

/-- **A pointer to a definition**, under one of the two keywords that hold definitions. -/
structure Reference.Defines (fragment keyword : String) (token : List Char) : Prop where
  under : keyword = "$defs" ∨ keyword = "definitions"
  text : fragment.toList = '/' :: (keyword.toList ++ '/' :: token)
  nonempty : token ≠ []
  single : '/' ∉ token

theorem Reference.exists_defines {fragment name : String} (h : definitionName? fragment = some name) :
    ∃ keyword token, Defines fragment keyword token ∧ name = String.ofList (Pointer.unescape token) := by
  unfold definitionName? at h
  dsimp only at h
  split at h
  · rename_i token htoken
    split_ifs at h with hbad
    simp only [Bool.or_eq_true, List.isEmpty_iff, List.contains_iff_mem, not_or] at hbad
    obtain rfl := Option.some.inj h
    split at htoken
    · rename_i rest hrest
      obtain rfl := Option.some.inj htoken
      exact ⟨"$defs", _, ⟨.inl rfl, Text.dropStart_eq_some_iff.1 hrest, hbad.1, hbad.2⟩, rfl⟩
    · exact ⟨"definitions", _, ⟨.inr rfl, Text.dropStart_eq_some_iff.1 htoken, hbad.1, hbad.2⟩, rfl⟩
  · cases h

namespace Reference.Defines

variable {fragment keyword : String} {token : List Char}

theorem definitionName? (h : Defines fragment keyword token) :
    definitionName? fragment = some (String.ofList (Pointer.unescape token)) := by
  have hgood : (token.isEmpty || token.contains '/') = false := by simp [h.nonempty, h.single]
  unfold Reference.definitionName?
  dsimp only
  rcases h.under with rfl | rfl
  · rw [Text.dropStart_eq_some_iff.2 h.text]
    simp only [hgood, Bool.false_eq_true, if_false]
  · have hnone : Text.dropStart "/$defs/".toList fragment.toList = none := by
      rw [h.text]
      rfl
    rw [hnone, Text.dropStart_eq_some_iff.2 h.text]
    simp only [hgood, Bool.false_eq_true, if_false]

theorem keyOf (h : Defines fragment keyword token) : keyOf fragment = fragment := by
  have hhash : Pointer.dropHash fragment.toList = fragment.toList := by
    rw [h.text]
    rfl
  have hlong : fragment.toList ≠ ['/'] := by
    rw [h.text]
    simp
  unfold Reference.keyOf
  dsimp only
  rw [hhash, if_neg hlong, String.ofList_toList]

/-- **The tokens of a pointer to a definition**: the keyword and the name. -/
theorem tokens? (h : Defines fragment keyword token) :
    Pointer.tokens? fragment.toList = some [keyword.toList, Pointer.unescape token] := by
  have hslash : '/' ∉ keyword.toList := by rcases h.under with rfl | rfl <;> decide
  have hplain : Pointer.unescape keyword.toList = keyword.toList := by rcases h.under with rfl | rfl <;> decide
  have hhash : Pointer.dropHash fragment.toList = '/' :: (keyword.toList ++ '/' :: token) := by
    rw [h.text]
    rfl
  unfold Pointer.tokens?
  rw [hhash]
  split
  · contradiction
  · rename_i heq
    simp at heq
  · rename_i rest _ heq
    obtain rfl : keyword.toList ++ '/' :: token = rest := (List.cons.inj heq).2
    rw [Text.splitAt_append hslash, Text.splitAt_of_not_mem h.single]
    simp [hplain]
  · rename_i hother
    exact absurd rfl (hother _)

/-- **What a pointer to a definition finds**: the definition of that keyword. -/
theorem pointer? (h : Defines fragment keyword token) (node : Node) : node.pointer? fragment =
    node.keywords?.bind (fun k => (k.map? keyword).bind
      (fun l => Assoc.get? l (String.ofList (Pointer.unescape token)))) := by
  unfold Node.pointer?
  rw [h.tokens?, Option.bind_some]
  cases node with
  | bool value => rfl
  | object k =>
    -- Neither keyword holds a single subschema or a list, so the second token is the key in its map.
    have hone : (if keyword = "items" then k.itemsSchema? else k.one? keyword) = none := by
      rcases h.under with rfl | rfl <;> rfl
    have hlist : k.list? keyword = none := by rcases h.under with rfl | rfl <;> rfl
    rw [Node.follow]
    simp only [String.ofList_toList, hone, hlist, Node.keywords?, Option.bind_some, Option.bind_none]
    cases k.map? keyword with
    | none => rfl
    | some l => simp [Node.follow]

end Reference.Defines
end Schema

namespace Project

open Schema (Keywords Node Reference)

variable {d : Document} {fragment name : String}

theorem definitionName?_of_exportOf? (h : exportOf? d fragment = some (.named name)) :
    Reference.definitionName? fragment = some name := by
  unfold exportOf? at h
  split_ifs at h
  · cases h
  · split at h
    · rename_i found hfound
      split_ifs at h
      cases h
      exact hfound
    · cases h

theorem mem_exportNames {d : Document} (hwishes : d.wishes = {}) {k : Keywords Node} (hk : d.node.keywords? = some k)
    {name : String} (h : name ∈ Assoc.keys (k.defs.getD [])) : name ∈ d.exportNames := by
  have hfold : ∀ l names : List String, name ∈ l.foldl
      (fun names name => if names.contains name then names else names ++ [name]) names ↔ name ∈ names ∨ name ∈ l := by
    intro l
    induction l with
    | nil => simp
    | cons first rest ih =>
      intro names
      rw [List.foldl_cons, ih]
      split
      · rename_i hthere
        grind
      · simp [or_assoc]
  rw [Document.exportNames, hwishes, hk]
  refine (hfold _ []).2 (.inr (List.mem_append_left _ h))

/-- **A pointer that finds a definition in `$defs` names an export**, if all definitions are exported. -/
theorem isSome_exportOf? (hwishes : d.wishes = {}) {token : List Char} (h : Reference.Defines fragment "$defs" token)
    {node : Node} (hnode : d.node.pointer? fragment = some node) : (exportOf? d fragment).isSome := by
  rw [h.pointer?] at hnode
  obtain ⟨k, hk, hfound⟩ := Option.bind_eq_some_iff.1 hnode
  obtain ⟨defs, hdefs, hget⟩ := Option.bind_eq_some_iff.1 hfound
  have hdefs : k.defs = some defs := hdefs
  have hname := mem_exportNames hwishes hk (by rw [hdefs]; exact List.mem_map_of_mem (Assoc.mem_of_get? hget))
  unfold exportOf?
  split
  · rfl
  · rw [h.definitionName?]
    simp [Document.hasExport, hname]

/-- **The two ways to a definition meet** exactly where `$defs` holds no other schema under the name: then the export
that a pointer names is compiled from the schema that the pointer finds. -/
theorem named_target_is_pointed_iff {node : Node} (hexport : exportOf? d fragment = some (.named name))
    (hnode : d.node.pointer? fragment = some node) : d.target? (.named name) = some node ↔
      ∀ other, d.node.keywords?.bind (fun k => k.defs.bind (fun l => Assoc.get? l name)) = some other →
        other = node := by
  obtain ⟨keyword, token, hdefines, rfl⟩ := Reference.exists_defines (definitionName?_of_exportOf? hexport)
  rw [hdefines.pointer?] at hnode
  obtain ⟨k, hk, hfound⟩ := Option.bind_eq_some_iff.1 hnode
  rw [Document.target?, hk, Option.bind_some, Option.bind_some, Keywords.definition?]
  rcases hdefines.under with rfl | rfl
  · -- Under `$defs` both lookups are the same.
    rw [show k.defs.bind _ = some node from hfound]
    simp
  · cases hdefs : k.defs.bind (fun l => Assoc.get? l (String.ofList (Schema.Pointer.unescape token))) with
    | none =>
      have hdefinition : k.definitions.bind _ = some node := hfound
      simp [hdefinition]
    | some other => simp

theorem register_first {d : Document} (hreset : { d with phase := .registered } = d)
    (halias : Registry.freshAlias [] d.id = d.importName) (hclash : (d.clash? [] d.exports).isNone = true) :
    Registry.register [] d.id d.node d.wishes = (.ok (), [d]) := by
  have hbindings : d.checkBindings = .ok () := by
    rw [Document.checkBindings, Option.isNone_iff_eq_none.1 hclash]
  unfold Registry.register
  simp only [halias]
  rw [show ({ id := d.id, node := d.node, wishes := d.wishes, importName := d.importName } : Document) = d from hreset,
    hbindings]
  rfl

/-- **A document with two definitions of one name.** -/
def twoItems : Document where
  id := "list"
  node := .object {
    ref := some "#/definitions/Item"
    defs := some [("Item", .object { type := some (.single "string") })]
    definitions := some [("Item", .object { type := some (.single "number") })] }
  wishes := {}
  importName := "list"

theorem register_twoItems : Registry.register [] "list" twoItems.node {} = (.ok (), [twoItems]) :=
  register_first (d := twoItems) rfl (by decide +kernel) (by decide +kernel)

theorem pointer?_twoItems : twoItems.node.pointer? "/$defs/Item" = some (.object { type := some (.single "string") }) ∧
    twoItems.node.pointer? "/definitions/Item" = some (.object { type := some (.single "number") }) := by
  have hdefs : Reference.Defines "/$defs/Item" "$defs" "Item".toList := ⟨.inl rfl, rfl, by decide, by decide⟩
  have hdefinitions : Reference.Defines "/definitions/Item" "definitions" "Item".toList :=
    ⟨.inr rfl, rfl, by decide, by decide⟩
  rw [hdefs.pointer?, hdefinitions.pointer?]
  exact ⟨rfl, rfl⟩

theorem named_target_is_pointed_iff_twoItems : exportOf? twoItems "/$defs/Item" = some (.named "Item") ∧
    twoItems.target? (.named "Item") = some (.object { type := some (.single "string") }) := by
  have hexport : exportOf? twoItems "/$defs/Item" = some (.named "Item") := by decide +kernel
  refine ⟨hexport, (named_target_is_pointed_iff hexport pointer?_twoItems.1).2 (fun other hother => ?_)⟩
  exact (Option.some.inj hother).symm

/-- **A reference to the second one is taken for the first.** -/
theorem not_pointed_twoItems : Registry.register [] "list" twoItems.node {} = (.ok (), [twoItems]) ∧
    exportOf? twoItems "/definitions/Item" = some (.named "Item") ∧
    twoItems.node.pointer? "/definitions/Item" = some (.object { type := some (.single "number") }) ∧
    twoItems.target? (.named "Item") ≠ some (.object { type := some (.single "number") }) := by
  refine ⟨register_twoItems, by decide +kernel, pointer?_twoItems.2, fun h => ?_⟩
  obtain htypes : ({ type := some (.single "string") } : Keywords Node) = { type := some (.single "number") } :=
    Node.object.inj (Option.some.inj h)
  exact absurd (congrArg (fun k => k.type) htypes) (by decide)

end Project
end Valgen
