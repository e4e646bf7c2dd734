import Valgen.Proofs.Validator.Pairs
/-!
# Proofs.Validator.Texts — what the text of a validator is made of

The text of a validator is put together from plain text, literals, JSON and comments, with brackets around and
separators between them.  Four kinds of texts are taken over as they stand (`Validator.fragments`).  A kind of texts
that holds of the former and is kept by the latter (`TextKind`) therefore holds of the text of every validator whose
fragments are of it (`Render.whole_validator`).  What is said of all texts of validators is said by a kind.
-/
namespace Valgen

/-! ## Texts that are taken over -/

mutual

/-- **The texts that a validator takes over as they stand**: expressions, predicates and functions, at every depth. -/
def Validator.fragments : Validator → List String
  | ⟨base, modifiers⟩ => base.fragments ++ fragmentsOfModifiers modifiers

/-- **The texts that a base takes over.** -/
def Base.fragments : Base → List String
  | .object properties rest => fragmentsOfProperties properties ++ rest.fragments
  | .array items _ => items.fragments
  | .tuple items rest => fragmentsOfAll items ++ fragmentsOf? rest
  | .record values => values.fragments
  | .union members => fragmentsOfAll members
  | .xor members => fragmentsOfAll members
  | .intersection left right => left.fragments ++ right.fragments
  | .reference expression _ => [expression]
  | .custom text => [text]
  | _ => []

def fragmentsOfModifiers : List Modifier → List String
  | [] => []
  | m :: rest => m.fragments ++ fragmentsOfModifiers rest

def Modifier.fragments : Modifier → List String
  | .refine predicate _ => [predicate]
  | .superRefine body => [body]
  | .pipe target => target.fragments
  | _ => []

def fragmentsOfProperties : List Property → List String
  | [] => []
  | ⟨_, value, _⟩ :: rest => value.fragments ++ fragmentsOfProperties rest

/-- **The texts that the treatment of unlisted keys takes over.** -/
def Unlisted.fragments : Unlisted → List String
  | .catchall values => values.fragments
  | _ => []

def fragmentsOfAll : List Validator → List String
  | [] => []
  | v :: rest => v.fragments ++ fragmentsOfAll rest

/-- **The texts that a validator takes over which may be absent.** -/
def fragmentsOf? : Option Validator → List String
  | none => []
  | some v => v.fragments

end

theorem fragmentsOfAll_eq (vs : List Validator) : fragmentsOfAll vs = vs.flatMap Validator.fragments := by
  induction vs with
  | nil => rw [fragmentsOfAll, List.flatMap_nil]
  | cons v rest ih => rw [fragmentsOfAll, ih, List.flatMap_cons]

theorem fragmentsOf?_eq (v : Option Validator) : fragmentsOf? v = v.toList.flatMap Validator.fragments := by
  cases v with
  | none => rw [fragmentsOf?, Option.toList_none, List.flatMap_nil]
  | some v => rw [fragmentsOf?, Option.toList_some, List.flatMap_singleton]

theorem fragmentsOfProperties_eq (properties : List Property) :
    fragmentsOfProperties properties = (properties.map Property.value).flatMap Validator.fragments := by
  induction properties with
  | nil => rw [fragmentsOfProperties, List.map_nil, List.flatMap_nil]
  | cons p rest ih =>
    obtain ⟨key, value, description⟩ := p
    rw [fragmentsOfProperties, ih, List.map_cons, List.flatMap_cons]

theorem fragmentsOfModifiers_eq (modifiers : List Modifier) :
    fragmentsOfModifiers modifiers = modifiers.flatMap Modifier.fragments := by
  induction modifiers with
  | nil => rw [fragmentsOfModifiers, List.flatMap_nil]
  | cons m rest ih => rw [fragmentsOfModifiers, ih, List.flatMap_cons]

theorem Unlisted.fragments_eq (rest : Unlisted) : rest.fragments = rest.parts.flatMap Validator.fragments := by
  cases rest with
  | catchall values => rw [fragments, parts, List.flatMap_singleton]
  | strip | strict | passthrough => simp [fragments, parts]

/-- **A base takes over what its parts take over**, unless its own text comes from elsewhere. -/
theorem Base.fragments_eq {base : Base} (h : base.isForeign = false) :
    base.fragments = base.parts.flatMap Validator.fragments := by
  cases base with
  | reference | custom => cases h
  | object properties rest =>
    rw [fragments, parts, List.flatMap_append, fragmentsOfProperties_eq, Unlisted.fragments_eq]
  | tuple items rest => rw [fragments, parts, List.flatMap_append, fragmentsOfAll_eq, fragmentsOf?_eq]
  | intersection left right => simp [fragments, parts]
  | array items => rw [fragments, parts, List.flatMap_singleton]
  | record values => rw [fragments, parts, List.flatMap_singleton]
  | union members => rw [fragments, parts, fragmentsOfAll_eq]
  | xor members => rw [fragments, parts, fragmentsOfAll_eq]
  | any | unknown | never | boolean | null | string | number | literal | enum => simp [fragments, parts]

theorem Base.fragments_subset {base : Base} {c : Validator} (h : c ∈ base.parts) : c.fragments ⊆ base.fragments := by
  have hown : base.isForeign = false := by
    cases base with
    | reference | custom => cases h
    | _ => rfl
  rw [fragments_eq hown]
  exact fun text htext => List.mem_flatMap.2 ⟨c, h, htext⟩

namespace Validator

theorem fragments_eq (v : Validator) : v.fragments = v.base.fragments ++ v.modifiers.flatMap Modifier.fragments := by
  obtain ⟨base, modifiers⟩ := v
  rw [fragments, fragmentsOfModifiers_eq]

/-- **What stands inside a validator takes over nothing that it does not.** -/
theorem Inside.fragments_subset {v w : Validator} (h : v.Inside w) : w.fragments ⊆ v.fragments := by
  induction h with
  | root => exact List.Subset.refl _
  | @part u c _ hmem ih =>
    refine List.Subset.trans (fun text htext => ?_) ih
    rw [fragments_eq]
    rcases List.mem_append.1 hmem with hc | hc
    · exact List.mem_append_left _ (Base.fragments_subset hc htext)
    · obtain ⟨m, hm, hc⟩ := List.mem_flatMap.1 hc
      refine List.mem_append_right _ (List.mem_flatMap.2 ⟨m, hm, ?_⟩)
      cases m with
      | pipe target =>
        rw [Modifier.fragments, ← List.mem_singleton.1 hc]
        exact htext
      | _ => cases hc

end Validator

open Lexer

/-! ## Kinds of texts -/

/-- **A kind of texts that the text of a validator is put together in.**  A `Whole` text may stand alone; a `Part` may
also stand behind a whole one and before another.  The kind must hold of comments only if they are written. -/
structure TextKind (jsdocs : Bool) where
  Whole : String → Prop
  Part : String → Prop
  empty : Whole ""
  whole_of_part {text : String} : Part text → Whole text
  part_append {a b : String} : Part a → Part b → Part (a ++ b)
  /-- Two whole texts may stand beside each other with a part between them. -/
  separated {a between b : String} : Whole a → Part between → Whole b → Whole (a ++ between ++ b)
  plain {text : String} : text.toList ≠ [] → text.toList.all isPlain = true → Part text
  bracketed {inner text : String} {opening close : Char} : Whole inner → closer? opening = some close →
    text.toList = opening :: (inner.toList ++ [close]) → Part text
  quote (s : String) : Part (Text.quote s)
  jsonQuote (s : String) : Part (Json.quote s)
  comment (text : String) : jsdocs = true →
    Part ("/** " ++ (String.ofList (Render.uncommented text.toList) ++ " */"))
  /-- A block of text may be moved to the right. -/
  reindent {text : String} (depth : Nat) : Whole text → Whole (Text.reindent text depth)
  /-- The predicate that exactly one of several validators accepts. -/
  exactlyOne {members : String} : Whole members → Whole (Render.exactlyOne members)

variable {jsdocs : Bool} {K : TextKind jsdocs}

namespace TextKind

variable {a b inner text : String}

theorem Part.append (ha : K.Part a) (hb : K.Part b) : K.Part (a ++ b) := K.part_append ha hb

theorem Whole.append (ha : K.Whole a) (hb : K.Part b) : K.Whole (a ++ b) := by
  have h := K.separated ha hb K.empty
  rwa [String.append_empty] at h

theorem Whole.bracketed (h : K.Whole inner) (opening : Char) {close : Char}
    (htext : text.toList = opening :: (inner.toList ++ [close])) (hpair : closer? opening = some close) :
    K.Part text := K.bracketed h hpair htext

end TextKind

namespace Render

/-- **A line break and a margin.** -/
theorem part_margin (depth : Nat) : K.Part ("\n" ++ Text.indent depth) := by
  refine K.plain (by simp) (List.all_eq_true.2 (fun c hc => ?_))
  rw [String.toList_append, Text.indent, String.toList_ofList (l := List.replicate (2 * depth) ' ')] at hc
  rcases List.mem_append.1 hc with hc | hc
  · rw [List.mem_singleton.1 hc]
    rfl
  · rw [List.eq_of_mem_replicate hc]
    rfl

theorem part_entry (depth : Nat) (description : Option String) {line : String} (h : K.Part line) :
    K.Part (entry jsdocs depth description line) := by
  have hline : K.Part ("\n" ++ Text.indent depth ++ line) := (part_margin depth).append h
  cases jsdocs with
  | false =>
    rw [entry_of_comment_eq_nil rfl]
    exact hline
  | true =>
    cases description with
    | none =>
      rw [entry_of_comment_eq_nil rfl]
      exact hline
    | some text =>
      rw [entry_described]
      exact ((part_margin depth).append (K.comment text rfl)).append hline

end Render

/-- **A kind of texts as a relation**, which both texts stand in if they are the same. -/
def TextKind.pair (K : TextKind jsdocs) : TextPair jsdocs jsdocs 0 where
  Whole a a' := a = a' ∧ K.Whole a
  Part a a' := a = a' ∧ K.Part a
  Describes _ := True
  empty := ⟨rfl, K.empty⟩
  whole_of_part h := ⟨h.1, K.whole_of_part h.2⟩
  part_append := by
    rintro a _ b _ ⟨rfl, ha⟩ ⟨rfl, hb⟩
    exact ⟨rfl, ha.append hb⟩
  separated := by
    rintro a _ between _ b _ ⟨rfl, ha⟩ ⟨rfl, hbetween⟩ ⟨rfl, hb⟩
    exact ⟨rfl, K.separated ha hbetween hb⟩
  plain hne h := ⟨rfl, K.plain hne (List.all_eq_true.2 (fun c hc =>
    (Bool.and_eq_true_iff.1 (List.all_eq_true.1 h c hc)).2))⟩
  bracketed := by
    rintro inner _ text text' opening close ⟨rfl, hinner⟩ hpair htext htext'
    exact ⟨String.toList_inj.1 (htext.trans htext'.symm), K.bracketed hinner hpair htext⟩
  quote s := ⟨rfl, K.quote s⟩
  jsonQuote s := ⟨rfl, K.jsonQuote s⟩
  entry := by
    rintro a _ line _ depth description _ ⟨rfl, ha⟩ ⟨rfl, hline⟩
    exact ⟨rfl, ha.append (Render.part_entry depth description hline)⟩
  block := by
    rintro body _ depth ⟨rfl, hbody⟩
    exact ⟨rfl, (hbody.append (Render.part_margin depth)).bracketed '\x7b' (by simp) rfl⟩
  exactlyOne := by
    rintro members _ ⟨rfl, h⟩
    exact ⟨rfl, K.exactlyOne h⟩

namespace Render

/-- **A validator whose fragments are of a kind** takes over texts that are related to themselves. -/
theorem fits_of_fragments {v : Validator} (h : ∀ text ∈ v.fragments, K.Whole text) : K.pair.Fits v := by
  obtain ⟨base, modifiers⟩ := v
  rw [Validator.fragments_eq] at h
  have hblock : ∀ {text : String}, K.Whole text → K.pair.Block text := fun htext depth =>
    ⟨rfl, K.reindent depth htext⟩
  refine ⟨?_, fun m hm => ?_⟩
  · have hbase : ∀ text ∈ base.fragments, K.Whole text := fun text ht => h text (List.mem_append_left _ ht)
    cases base with
    | object => exact fun _ _ _ _ => trivial
    | reference expression deferred =>
      have hexpression := hbase expression (by rw [Base.fragments]; exact List.mem_cons_self)
      cases deferred with
      | true =>
        have harrow : K.pair.Part "() => " "() => " := part_parens.append (part_plain " => " (by decide))
        exact part_argsText (whole_one (harrow.append_whole ⟨rfl, hexpression⟩))
      | false => exact ⟨rfl, hexpression⟩
    | custom text => exact hblock (hbase text (by rw [Base.fragments]; exact List.mem_cons_self))
    | _ => trivial
  · have hmodifier : ∀ text ∈ m.fragments, K.Whole text := fun text ht =>
      h text (List.mem_append_right _ (List.mem_flatMap.2 ⟨m, hm, ht⟩))
    cases m with
    | refine predicate text => exact hblock (hmodifier predicate (by rw [Modifier.fragments]; exact List.mem_cons_self))
    | superRefine body => exact hblock (hmodifier body (by rw [Modifier.fragments]; exact List.mem_cons_self))
    | _ => trivial

/-- **The text of a validator is of every kind that its fragments are of.** -/
theorem whole_validator (style : Style) {K : TextKind style.jsdocs} (depth : Nat) (v : Validator)
    (h : ∀ text ∈ v.fragments, K.Whole text) : K.Whole (validator style depth v) := by
  have hfits : ∀ w, v.Inside w → K.pair.Fits w := fun w hw =>
    fits_of_fragments (fun text ht => h text (hw.fragments_subset ht))
  exact (TextPair.whole_validator style.dialect depth hfits).2

end Render
end Valgen
