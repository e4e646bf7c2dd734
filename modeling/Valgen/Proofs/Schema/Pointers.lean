import Valgen.Proofs.Schema.Subschemas
import Valgen.Proofs.Text.Split
/-!
# Proofs.Schema.Pointers — pointers and the steps they stand for

Every list of steps has a pointer: the tokens of the steps, each behind a `/`, with `~` and `/` inside a token written
as `~0` and `~1` (`Pointer.ofSteps`).  That pointer finds what the steps lead to, and whatever any text finds is at
the end of some steps (`pointers_are_steps`).
-/
namespace Valgen
namespace Schema

namespace Step

/-- **The keyword that holds the subschema of a step.** -/
def keyword : Step → String
  | .property _ => "properties"
  | .additionalProperties => "additionalProperties"
  | .items | .item _ => "items"
  | .prefixItem _ => "prefixItems"
  | .allOf _ => "allOf"
  | .anyOf _ => "anyOf"
  | .oneOf _ => "oneOf"
  | .not => "not"
  | .ifSchema => "if"
  | .thenSchema => "then"
  | .elseSchema => "else"
  | .defs _ => "$defs"
  | .definition _ => "definitions"

/-- **The key or the index of a step**, under a keyword that holds several subschemas. -/
def place? : Step → Option String
  | .property key | .defs key | .definition key => some key
  | .item index | .prefixItem index | .allOf index | .anyOf index | .oneOf index => some (toString index)
  | _ => none

def tokens (step : Step) : List String := step.keyword :: step.place?.toList

theorem keyword_ne_empty (step : Step) : step.keyword.toList ≠ [] := by
  cases step <;> simp [keyword]

theorem decimal?_keyword (step : Step) : Text.decimal? step.keyword.toList = none := by
  cases step <;> simp only [keyword] <;> rfl

end Step

namespace Pointer

/-- **A character of a token as a pointer has it.** -/
def escapeChar (c : Char) : List Char := if c = '~' then ['~', '0'] else if c = '/' then ['~', '1'] else [c]

def escape (cs : List Char) : List Char := cs.flatMap escapeChar

/-- **The pointer of tokens**, each behind a `/`. -/
def ofTokens (tokens : List String) : String :=
  String.ofList ((tokens.map (fun token => escape token.toList)).flatMap ('/' :: ·))

def ofSteps (steps : List Step) : String := ofTokens (steps.flatMap Step.tokens)

/-! ## Escapes -/

theorem unescapeSlash_cons {c : Char} (h : c ≠ '~') (rest : List Char) :
    unescapeSlash (c :: rest) = c :: unescapeSlash rest := by
  rw [unescapeSlash]
  rintro _ rfl
  exact absurd rfl h

theorem unescapeTilde_cons {c : Char} (h : c ≠ '~') (rest : List Char) :
    unescapeTilde (c :: rest) = c :: unescapeTilde rest := by
  rw [unescapeTilde]
  rintro _ rfl
  exact absurd rfl h

-- The slashes come back first: an escaped tilde is still `~0` then, so that a `1` behind it cannot make a slash of it.
theorem unescapeSlash_escape (cs : List Char) :
    unescapeSlash (escape cs) = cs.flatMap (fun c => if c = '~' then ['~', '0'] else [c]) := by
  induction cs with
  | nil => rfl
  | cons c rest ih =>
    rw [escape, List.flatMap_cons, ← escape, List.flatMap_cons, ← ih, escapeChar]
    by_cases htilde : c = '~'
    · subst htilde
      rfl
    · by_cases hslash : c = '/'
      · subst hslash
        rfl
      · rw [if_neg htilde, if_neg hslash, if_neg htilde, List.singleton_append, unescapeSlash_cons htilde]
        rfl

theorem unescape_escape (cs : List Char) : unescape (escape cs) = cs := by
  rw [unescape, unescapeSlash_escape]
  induction cs with
  | nil => rfl
  | cons c rest ih =>
    rw [List.flatMap_cons]
    by_cases htilde : c = '~'
    · subst htilde
      rw [if_pos rfl]
      exact congrArg _ ih
    · rw [if_neg htilde, List.singleton_append, unescapeTilde_cons htilde, ih]

theorem not_mem_slash_escape (cs : List Char) : '/' ∉ escape cs := by
  intro hmem
  obtain ⟨c, _, hc⟩ := List.mem_flatMap.1 hmem
  unfold escapeChar at hc
  split_ifs at hc with htilde hslash
  · simp at hc
  · simp at hc
  · exact hslash (List.mem_singleton.1 hc).symm

/-! ## Tokens -/

/-- **The tokens of a pointer are those it was put together from**; a first one that is empty could not be told from the
schema itself. -/
theorem tokens?_ofTokens {first : String} (h : first.toList ≠ []) (rest : List String) :
    tokens? (ofTokens (first :: rest)).toList = some ((first :: rest).map String.toList) := by
  have hne : escape first.toList ≠ [] := by
    intro hnil
    exact h (by rw [← unescape_escape first.toList, hnil]; rfl)
  obtain ⟨c, cs, hcs⟩ := List.exists_cons_of_ne_nil hne
  have hsplit : Text.splitAt '/' (escape first.toList ++
      (rest.map (fun token => escape token.toList)).flatMap ('/' :: ·)) =
        escape first.toList :: rest.map (fun token => escape token.toList) :=
    Text.splitAt_flatMap (not_mem_slash_escape _)
      (List.forall_mem_map.2 (fun token _ => not_mem_slash_escape token.toList))
  have htokens : ∀ more, tokens? ('/' :: (escape first.toList ++ more)) =
      some ((Text.splitAt '/' (escape first.toList ++ more)).map unescape) := by
    intro more
    rw [hcs]
    rfl
  rw [ofTokens, String.toList_ofList, List.map_cons, List.flatMap_cons, List.cons_append, htokens, hsplit]
  simp [unescape_escape]

theorem tokens?_ofSteps (steps : List Step) :
    tokens? (ofSteps steps).toList = some ((steps.flatMap Step.tokens).map String.toList) := by
  cases steps with
  | nil => rfl
  | cons step rest => exact tokens?_ofTokens step.keyword_ne_empty (step.place?.toList ++ rest.flatMap Step.tokens)

/-- **A hash before a pointer changes nothing.** -/
theorem tokens?_hash (steps : List Step) : tokens? ("#" ++ ofSteps steps).toList = tokens? (ofSteps steps).toList := by
  have hplain : dropHash (ofSteps steps).toList = (ofSteps steps).toList := by
    cases steps with
    | nil => rfl
    | cons step rest =>
      rw [ofSteps, ofTokens, String.toList_ofList]
      rfl
  rw [String.toList_append, tokens?, tokens?, hplain]
  rfl

end Pointer

/-! ## Steps -/

namespace Node

section
variable {k : Keywords Node} (keyword : String)

theorem follow_one (hitems : keyword ≠ "items") (hmap : k.map? keyword = none) (hlist : k.list? keyword = none)
    (rest : List (List Char)) :
    follow (keyword.toList :: rest) (.object k) = (k.one? keyword).bind (follow rest) := by
  rw [follow.eq_def]
  simp only [String.ofList_toList, if_neg hitems]
  cases hone : k.one? keyword with
  | some child => rfl
  | none =>
    cases rest with
    | nil => rfl
    | cons place rest => simp only [hmap, hlist, Option.bind_none]

theorem follow_map (hitems : keyword ≠ "items") (hone : k.one? keyword = none) (hlist : k.list? keyword = none)
    (key : String) (rest : List (List Char)) : follow (keyword.toList :: key.toList :: rest) (.object k) =
      ((k.map? keyword).bind (fun l => Assoc.get? l key)).bind (follow rest) := by
  rw [follow]
  simp only [String.ofList_toList, if_neg hitems, hone]
  cases hmap : k.map? keyword with
  | some l => rfl
  | none => simp only [hlist, Option.bind_none]

theorem follow_list (hitems : keyword ≠ "items") (hone : k.one? keyword = none) (hmap : k.map? keyword = none)
    (index : Nat) (rest : List (List Char)) :
    follow (keyword.toList :: (toString index).toList :: rest) (.object k) =
      ((k.list? keyword).bind (fun l => l[index]?)).bind (follow rest) := by
  rw [follow]
  simp only [String.ofList_toList, if_neg hitems, hone, hmap, Text.decimal?_toString, Option.bind_some]

end

section
variable {k : Keywords Node} (rest : List (List Char))

theorem follow_items_single {child : Node} (h : k.items = some (.single child)) :
    follow ("items".toList :: rest) (.object k) = follow rest child := by
  have hdirect : k.itemsSchema? = some child := by rw [Keywords.itemsSchema?, h]
  rw [follow.eq_def]
  simp only [String.ofList_toList, if_true, hdirect]

theorem follow_items_tuple {children : List Node} (h : k.items = some (.tuple children)) (place : List Char) :
    follow ("items".toList :: place :: rest) (.object k) =
      ((Text.decimal? place).bind (fun i => children[i]?)).bind (follow rest) := by
  have hdirect : k.itemsSchema? = none := by rw [Keywords.itemsSchema?, h]
  have hmap : k.map? "items" = none := rfl
  have hlist : k.list? "items" = some children := by
    rw [Keywords.list?, h]
    rfl
  rw [follow]
  simp only [String.ofList_toList, if_true, hdirect, hmap, hlist, Option.bind_some]

theorem follow_items_none (h : k.items = none) : follow ("items".toList :: rest) (.object k) = none := by
  have hdirect : k.itemsSchema? = none := by rw [Keywords.itemsSchema?, h]
  have hmap : k.map? "items" = none := rfl
  have hlist : k.list? "items" = none := by
    rw [Keywords.list?, h]
    rfl
  rw [follow.eq_def]
  cases rest with
  | nil => simp only [String.ofList_toList, if_true, hdirect]
  | cons place rest => simp only [String.ofList_toList, if_true, hdirect, hmap, hlist, Option.bind_none]

end

/-- **No keyword is an index.** -/
theorem follow_index {token : List Char} {index : Nat} (h : Text.decimal? token = some index) (rest : List (List Char))
    (node : Node) : follow (token :: rest) node = none := by
  have hne : ∀ {keyword : String}, Text.decimal? keyword.toList = none → String.ofList token ≠ keyword := by
    rintro keyword hkeyword rfl
    rw [String.toList_ofList, h] at hkeyword
    cases hkeyword
  cases node with
  | bool value => rfl
  | object k =>
    have hone : k.one? (String.ofList token) = none := by
      rw [Keywords.one?, if_neg (hne rfl), if_neg (hne rfl), if_neg (hne rfl), if_neg (hne rfl), if_neg (hne rfl)]
    have hmap : k.map? (String.ofList token) = none := by
      rw [Keywords.map?, if_neg (hne rfl), if_neg (hne rfl), if_neg (hne rfl)]
    have hlist : k.list? (String.ofList token) = none := by
      rw [Keywords.list?, if_neg (hne rfl), if_neg (hne rfl), if_neg (hne rfl), if_neg (hne rfl), if_neg (hne rfl)]
    have hfollow := follow_one _ (hne rfl) hmap hlist rest
    rwa [hone, String.toList_ofList] at hfollow

/-- **The tokens of a step lead where the step leads**, unless an index stands behind them: behind `items` it would be
taken for a place in a tuple. -/
theorem follow_tokens (k : Keywords Node) (step : Step) {rest : List (List Char)}
    (hrest : ∀ token ∈ rest.head?, Text.decimal? token = none) :
    follow (step.tokens.map String.toList ++ rest) (.object k) = (k.child? step).bind (follow rest) := by
  cases step with
  | property key => exact follow_map "properties" (by decide) rfl rfl key rest
  | additionalProperties => exact follow_one "additionalProperties" (by decide) rfl rfl rest
  | items =>
    show follow ("items".toList :: rest) (.object k) = _
    match hitems : k.items with
    | none => rw [follow_items_none _ hitems, Keywords.child?, hitems, Option.bind_none]
    | some (.single child) => rw [follow_items_single _ hitems, Keywords.child?, hitems, Option.bind_some]
    | some (.tuple children) =>
      rw [Keywords.child?, hitems, Option.bind_none]
      cases rest with
      | nil =>
        rw [follow.eq_def]
        simp [Keywords.itemsSchema?, hitems]
      | cons place rest => rw [follow_items_tuple _ hitems, hrest place rfl, Option.bind_none, Option.bind_none]
  | item index =>
    show follow ("items".toList :: (toString index).toList :: rest) (.object k) = _
    match hitems : k.items with
    | none => rw [follow_items_none _ hitems, Keywords.child?, hitems, Option.bind_none]
    | some (.single child) =>
      rw [follow_items_single _ hitems, follow_index (Text.decimal?_toString index), Keywords.child?, hitems,
        Option.bind_none]
    | some (.tuple children) =>
      rw [follow_items_tuple _ hitems, Text.decimal?_toString, Option.bind_some, Keywords.child?, hitems]
  | prefixItem index => exact follow_list "prefixItems" (by decide) rfl rfl index rest
  | allOf index => exact follow_list "allOf" (by decide) rfl rfl index rest
  | anyOf index => exact follow_list "anyOf" (by decide) rfl rfl index rest
  | oneOf index => exact follow_list "oneOf" (by decide) rfl rfl index rest
  | not => exact follow_one "not" (by decide) rfl rfl rest
  | ifSchema => exact follow_one "if" (by decide) rfl rfl rest
  | thenSchema => exact follow_one "then" (by decide) rfl rfl rest
  | elseSchema => exact follow_one "else" (by decide) rfl rfl rest
  | defs key => exact follow_map "$defs" (by decide) rfl rfl key rest
  | definition key => exact follow_map "definitions" (by decide) rfl rfl key rest

theorem follow_steps (steps : List Step) (node : Node) :
    follow ((steps.flatMap Step.tokens).map String.toList) node = node.walk? steps := by
  induction steps generalizing node with
  | nil => rfl
  | cons step rest ih =>
    rw [List.flatMap_cons, List.map_append]
    cases node with
    | bool value => rfl
    | object k =>
      have hkeyword : ∀ token ∈ ((rest.flatMap Step.tokens).map String.toList).head?, Text.decimal? token = none := by
        intro token htoken
        cases rest with
        | nil => cases htoken
        | cons next _ =>
          cases htoken
          exact next.decimal?_keyword
      rw [follow_tokens k step hkeyword, funext ih]
      rfl

/-- **Pointers and steps lead to the same schemas**: the pointer of steps finds what they lead to, with and without a
hash before it, and what a text finds is where some steps lead. -/
theorem pointers_are_steps (root : Node) :
    (∀ steps, root.pointer? (Pointer.ofSteps steps) = root.walk? steps ∧
      root.pointer? ("#" ++ Pointer.ofSteps steps) = root.walk? steps) ∧
    ∀ text target, root.pointer? text = some target → ∃ steps, root.walk? steps = some target := by
  have hpointer : ∀ steps, root.pointer? (Pointer.ofSteps steps) = root.walk? steps := by
    intro steps
    rw [pointer?, Pointer.tokens?_ofSteps, Option.bind_some, follow_steps]
  refine ⟨fun steps => ⟨hpointer steps, ?_⟩, fun text target => exists_steps_of_pointer?⟩
  rw [← hpointer, pointer?, Pointer.tokens?_hash, pointer?]

/-- **A schema whose keys look like escapes and like ends of tokens.** -/
def oddlyKeyed : Node := .object {
  properties := some [
    ("/", .bool true),
    ("~1", .object { items := some (.tuple [.bool true, .object { defs := some [("", .bool false)] }]) })] }

theorem pointers_are_steps_oddlyKeyed : oddlyKeyed.pointer? "#/properties/~01/items/1/$defs/" = some (.bool false) ∧
    oddlyKeyed.pointer? "/properties/~1" = some (.bool true) ∧
    ∃ steps, oddlyKeyed.walk? steps = some (.bool false) := by
  obtain ⟨hsteps, htext⟩ := pointers_are_steps oddlyKeyed
  have hdeep : Pointer.ofSteps [.property "~1", .item 1, .defs ""] = "/properties/~01/items/1/$defs/" := by
    decide +kernel
  have hslash : Pointer.ofSteps [.property "/"] = "/properties/~1" := by decide +kernel
  have hfound : oddlyKeyed.pointer? "#/properties/~01/items/1/$defs/" = some (.bool false) := by
    have hhash := (hsteps [.property "~1", .item 1, .defs ""]).2
    rw [hdeep] at hhash
    exact hhash
  exact ⟨hfound, hslash ▸ (hsteps [.property "/"]).1, htext _ _ hfound⟩

end Node
end Schema
end Valgen
