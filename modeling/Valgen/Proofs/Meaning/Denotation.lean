import Valgen.Proofs.Compile.Halving
import Valgen.Proofs.Meaning.Validity
import Valgen.Proofs.Validator.Markers
/-!
# Proofs.Meaning.Denotation — what the compiler of each kind denotes

`Denotes I m P` says that a computation ends in a validator that accepts the values of `P`.  There is one lemma for the
compiler of each kind; it takes for granted that the subschemas are compiled to validators of their meaning
(`Translates`), and says what their values have to do with the demands of the keywords.
-/
namespace Valgen
namespace Meaning

open Compile hiding Sub
open Schema (ExclusiveBound Facts Keywords Node)

/-- **No rules, no recipes and no hook.** -/
structure Plain (setup : Setup) : Prop where
  rules : setup.rules = []
  recipes : setup.recipes = []
  hook : ∀ node ctx, setup.hook node ctx = none

/-! ## What computations end in -/

variable {ω : Type} {α β : Type}

/-- **A computation has a result and leaves the state as it is.** -/
def Yields (m : CompileM ω α) (a : α) : Prop := ∀ s, Runs m s a s

theorem yields_pure (a : α) : Yields (pure a : CompileM ω α) a := fun _ => runs_pure.2 ⟨rfl, rfl⟩

theorem Yields.bind {m : CompileM ω α} {f : α → CompileM ω β} {a : α} {b : β} (hm : Yields m a) (hf : Yields (f a) b) :
    Yields (m >>= f) b := fun s => runs_bind.2 ⟨a, s, hm s, hf s⟩

theorem yields_applyRules {setup : Setup} (h : setup.rules = []) (ctx : Context) (v : Validator) :
    Yields (applyRules setup ctx v : CompileM ω Validator) v := by
  intro s
  unfold Runs
  rw [run_applyRules, h]
  rfl

variable (I : Interpretation)

/-- **A computation ends in a bare validator that accepts the given values.** -/
def Denotes (m : CompileM ω Validator) (P : Json → Prop) : Prop :=
  ∃ v, Yields m v ∧ v.modifiers = [] ∧ ∀ j, accepts I v j ↔ P j

/-- **A subschema is compiled to a validator of its meaning.** -/
def Translates (sub : Compile.Sub ω) (node : Node) : Prop := ∀ ctx, Denotes I (sub.raw node ctx) (valid I node)

variable {I}

theorem Denotes.congr {m : CompileM ω Validator} {P Q : Json → Prop} (h : Denotes I m P) (hPQ : ∀ j, P j ↔ Q j) :
    Denotes I m Q := by
  obtain ⟨v, hv, hbare, hacc⟩ := h
  exact ⟨v, hv, hbare, fun j => (hacc j).trans (hPQ j)⟩

theorem denotes_ofBase (base : Base) :
    Denotes I (pure (Validator.ofBase base) : CompileM ω Validator) (acceptsBase I base) :=
  ⟨_, yields_pure _, rfl, fun _ => accepts_ofBase base⟩

/-! ## Subschemas in lists -/

section
variable {sub : Compile.Sub ω} {k : Keywords Node}

theorem denotes_compile (hplain : Plain sub.setup) {node : Node} (h : Translates I sub node) (ctx : Context) :
    Denotes I (sub.compile node ctx) (valid I node) := by
  obtain ⟨v, hv, hbare, hacc⟩ := h ctx
  exact ⟨v, hv.bind (yields_applyRules hplain.rules ctx v), hbare, hacc⟩

theorem exists_compileEach (hplain : Plain sub.setup) (keyword : String) (ctx : Context) :
    ∀ (nodes : List Node) (start : Nat), (∀ node ∈ nodes, Translates I sub node) →
      ∃ vs, Yields (sub.compileEach keyword ctx start nodes) vs ∧ (∀ v ∈ vs, v.modifiers = []) ∧
        List.Forall₂ (fun v node => ∀ j, accepts I v j ↔ valid I node j) vs nodes
  | [], _, _ => ⟨[], yields_pure _, fun _ h => absurd h List.not_mem_nil, .nil⟩
  | node :: rest, start, h => by
    obtain ⟨v, hv, hbare, hacc⟩ :=
      denotes_compile hplain (h node List.mem_cons_self) (ctx.descend keyword (.index start))
    obtain ⟨vs, hvs, hbares, haccs⟩ := exists_compileEach hplain keyword ctx rest (start + 1)
      (fun n hn => h n (List.mem_cons_of_mem _ hn))
    refine ⟨v :: vs, hv.bind (hvs.bind (yields_pure _)), fun w hw => ?_, .cons hacc haccs⟩
    rcases List.mem_cons.1 hw with rfl | hw'
    · exact hbare
    · exact hbares w hw'

/-! ## Compositions -/

/-- **A balanced tree of intersections accepts what all its leaves accept.** -/
theorem accepts_balanced (vs : List Validator) (hne : vs ≠ []) :
    accepts I (balanced vs) j ↔ ∀ v ∈ vs, accepts I v j := by
  induction vs using balanced.induct with
  | case1 => exact absurd rfl hne
  | case2 v => simp [balanced]
  | case3 v w rest vs half ihleft ihright =>
    have hleft : vs.take half ≠ [] := by simp [vs, half]
    have hright : vs.drop half ≠ [] := by
      simp only [vs, half, ne_eq, List.drop_eq_nil_iff, List.length_cons]
      omega
    rw [balanced, accepts_ofBase, acceptsBase, ihleft hleft, ihright hright, ← List.forall_mem_append,
      List.take_append_drop]

theorem bare_balanced : ∀ vs : List Validator, (∀ v ∈ vs, v.modifiers = []) → (balanced vs).modifiers = []
  | [], _ => by simp [balanced, Validator.never, Validator.ofBase]
  | [v], h => by simpa [balanced] using h
  | v :: w :: rest, _ => by rw [balanced]; rfl

theorem valid_empty (j : Json) : valid I Node.empty j := by
  refine valid_object.2 ?_
  simp [satisfies_iff, textValid_iff, numberValid_iff, arrayValid_iff, objectValid_iff]

theorem valid_asObject {node : Node} (h : node ≠ .bool false) (j : Json) :
    valid I (asObject node) j ↔ valid I node j := by
  match node with
  | .bool true => simp [asObject, valid_bool, valid_empty]
  | .bool false => exact absurd rfl h
  | .object k => rfl

theorem denotes_compileAllOf (hplain : Plain sub.setup) {nodes : List Node} (hnodes : k.allOf = some nodes)
    (hne : nodes ≠ []) (hfalse : Node.bool false ∉ nodes)
    (h : ∀ node ∈ nodes, Translates I sub (asObject node)) (ctx : Context) :
    Denotes I (compileAllOf sub k ctx) (fun j => ∀ node ∈ nodes, valid I node j) := by
  have hparts : ∀ node ∈ nodes.map asObject, Translates I sub node := by simpa using h
  obtain ⟨vs, hvs, hbare, hacc⟩ := exists_compileEach hplain "allOf" ctx (nodes.map asObject) 0 hparts
  have hne' : vs ≠ [] := by
    intro hnil
    have hlength := hacc.length_eq
    rw [hnil, List.length_map] at hlength
    exact hne (List.length_eq_zero_iff.1 hlength.symm)
  refine ⟨balanced vs, ?_, bare_balanced vs hbare, fun j => ?_⟩
  · rw [compileAllOf_eq, hnodes]
    exact hvs.bind (yields_pure _)
  · rw [accepts_balanced vs hne', forall_iff_of_forall₂ (hacc.imp (fun _ _ hv => hv j)), List.forall_mem_map]
    refine forall₂_congr (fun node hnode => valid_asObject (fun heq => hfalse (heq ▸ hnode)) j)

/-- **Alternatives denote what their join makes of the meanings of the members.** -/
theorem denotes_compileAlternatives (hplain : Plain sub.setup) (keyword : String) {join : List Validator → Base}
    {Q : List Node → Json → Prop} (hone : ∀ node j, Q [node] j ↔ valid I node j)
    (hmany : ∀ vs nodes j, List.Forall₂ (fun v node => accepts I v j ↔ valid I node j) vs nodes →
      (acceptsBase I (join vs) j ↔ Q nodes j))
    {nodes : List Node} (hne : nodes ≠ []) (h : ∀ node ∈ nodes, Translates I sub node) (ctx : Context) :
    Denotes I (compileAlternatives sub keyword join nodes ctx) (Q nodes) := by
  match nodes with
  | [] => exact absurd rfl hne
  | [node] =>
    exact (denotes_compile hplain (h node List.mem_cons_self) _).congr (fun j => (hone node j).symm)
  | first :: second :: rest =>
    obtain ⟨vs, hvs, _, hacc⟩ := exists_compileEach hplain keyword ctx (first :: second :: rest) 0 h
    refine ⟨Validator.ofBase (join vs), hvs.bind (yields_pure _), rfl, fun j => ?_⟩
    rw [accepts_ofBase]
    exact hmany vs _ j (hacc.imp (fun _ _ hv => hv j))

theorem denotes_compileAnyOf (hplain : Plain sub.setup) {nodes : List Node} (hnodes : k.anyOf = some nodes)
    (hne : nodes ≠ []) (h : ∀ node ∈ nodes, Translates I sub node) (ctx : Context) :
    Denotes I (compileAnyOf sub k ctx) (fun j => ∃ node ∈ nodes, valid I node j) := by
  unfold compileAnyOf
  rw [hnodes, Option.getD_some]
  refine denotes_compileAlternatives (Q := fun nodes j => ∃ node ∈ nodes, valid I node j) hplain "anyOf" (by simp)
    (fun vs nodes j hvs => ?_) hne h ctx
  rw [acceptsBase, acceptsSome_iff]
  exact exists_iff_of_forall₂ hvs

theorem denotes_compileOneOf (hplain : Plain sub.setup) {nodes : List Node} (hnodes : k.oneOf = some nodes)
    (hne : nodes ≠ []) (h : ∀ node ∈ nodes, Translates I sub node) (ctx : Context) :
    Denotes I (compileOneOf sub k ctx) (fun j => ExactlyOne (fun node => valid I node j) nodes) := by
  unfold compileOneOf
  rw [hnodes, Option.getD_some]
  refine denotes_compileAlternatives (Q := fun nodes j => ExactlyOne (fun node => valid I node j) nodes) hplain "oneOf"
    (by simp [ExactlyOne]) (fun vs nodes j hvs => ?_) hne h ctx
  rw [acceptsBase, acceptsOne_iff]
  exact exactlyOne_congr hvs

/-! ## Objects -/

/-- **The properties of a shape fit those of a schema**: keys, meanings, and which may be absent. -/
def Fits (I : Interpretation) (k : Keywords Node) (p : Property) (entry : String × Node) : Prop :=
  p.key = entry.1 ∧ (∀ j, accepts I p.value j ↔ valid I entry.2 j) ∧
    ((p.value.isOptional = true ∨ p.value.hasDefault = true) ↔ entry.1 ∉ k.required)

theorem exists_compileProperties (hplain : Plain sub.setup) (ctx : Context) : ∀ entries : List (String × Node),
    (∀ entry ∈ entries, Translates I sub entry.2) →
      ∃ properties, Yields (compileProperties sub k ctx entries) properties ∧
        List.Forall₂ (Fits I k) properties entries
  | [], _ => ⟨[], yields_pure _, .nil⟩
  | (name, node) :: rest, h => by
    obtain ⟨v, hv, hbare, hacc⟩ := h (name, node) List.mem_cons_self (ctx.descend "properties" (.key name))
    obtain ⟨properties, hproperties, hfits⟩ := exists_compileProperties hplain ctx rest
      (fun entry he => h entry (List.mem_cons_of_mem _ he))
    have hslots : v.isOptional = false ∧ v.hasDefault = false := by
      simp [Validator.isOptional, Validator.hasDefault, Validator.hasSlot, hbare]
    have hcontains : k.isRequired name = true ↔ name ∈ k.required := List.contains_iff_mem
    -- A property that is not required is marked, which changes nothing for a value that is there.
    have hmarked : ∃ w, w = (if k.isRequired name || v.hasDefault then v else v.optional) ∧
        (∀ j, accepts I w j ↔ valid I node j) ∧
        ((w.isOptional = true ∨ w.hasDefault = true) ↔ name ∉ k.required) := by
      by_cases hname : name ∈ k.required
      · refine ⟨v, by simp [hcontains.2 hname], hacc, ?_⟩
        simp [hslots, hname]
      · refine ⟨v.optional, by simp [hslots, mt hcontains.1 hname], fun j => ?_, ?_⟩
        · rw [accepts_optional hbare]
          exact hacc j
        · simp [hname]
    obtain ⟨w, hw, haccepts, habsent⟩ := hmarked
    refine ⟨⟨name, w, node.keywords?.bind (fun c => c.description)⟩ :: properties, ?_,
      .cons ⟨rfl, haccepts, habsent⟩ hfits⟩
    unfold compileProperties
    refine hv.bind ?_
    rw [← hw]
    exact (yields_applyRules hplain.rules _ w).bind (hproperties.bind (yields_pure _))

theorem denotes_compileRecord (hplain : Plain sub.setup) (hclosed : k.additionalProperties ≠ some (.bool false))
    (h : ∀ node, k.Holds node → Translates I sub node) (ctx : Context) :
    Denotes I (compileRecord sub k ctx) (fun j => ∃ members, j = .object members ∧
      ∀ node, k.additionalProperties = some node → ∀ m ∈ members, valid I node m.2) := by
  unfold compileRecord
  match hmore : k.additionalProperties with
  | none => exact (denotes_ofBase _).congr (fun j => by simp [acceptsBase])
  | some (.bool true) => exact (denotes_ofBase _).congr (fun j => by simp [acceptsBase, valid_bool])
  | some (.bool false) => exact absurd hmore hclosed
  | some (.object values) =>
    obtain ⟨v, hv, _, hacc⟩ := denotes_compile hplain (h _ (.additionalProperties hmore))
      (ctx.child (.key "additionalProperties"))
    refine ⟨_, hv.bind (yields_pure _), rfl, fun j => ?_⟩
    simp [acceptsBase, hacc]

theorem exists_compileUnlisted (hplain : Plain sub.setup) (h : ∀ node, k.Holds node → Translates I sub node)
    (ctx : Context) : ∃ rest, Yields (compileUnlisted sub k ctx) rest ∧ ∀ members, acceptsUnlisted I rest members ↔
      ∀ node, k.additionalProperties = some node → ∀ m ∈ members, valid I node m.2 := by
  unfold compileUnlisted
  match hmore : k.additionalProperties with
  | none => exact ⟨.strip, yields_pure _, fun members => by simp [acceptsUnlisted]⟩
  | some (.bool true) => exact ⟨.passthrough, yields_pure _, fun members => by simp [acceptsUnlisted, valid_bool]⟩
  | some (.bool false) =>
    refine ⟨.strict, yields_pure _, fun members => ?_⟩
    simp [acceptsUnlisted, valid_bool, List.eq_nil_iff_forall_not_mem]
  | some (.object values) =>
    obtain ⟨v, hv, _, hacc⟩ := denotes_compile hplain (h _ (.additionalProperties hmore))
      (ctx.child (.key "additionalProperties"))
    refine ⟨.catchall v, hv.bind (yields_pure _), fun members => ?_⟩
    simp [acceptsUnlisted, hacc]

/-- **A shape accepts the members that the keywords of an object allow.** -/
theorem acceptsProperties_iff_of_fits {properties : List Property} {entries : List (String × Node)}
    (hfits : List.Forall₂ (Fits I k) properties entries) (hrequired : ∀ name ∈ k.required, name ∈ Assoc.keys entries)
    (members : List (String × Json)) : acceptsProperties I properties members ↔
      (∀ name ∈ k.required, (Assoc.get? members name).isSome) ∧
        ∀ entry ∈ entries, ∀ j, Assoc.get? members entry.1 = some j → valid I entry.2 j := by
  have hentries : acceptsProperties I properties members ↔ ∀ entry ∈ entries,
      (∀ j, Assoc.get? members entry.1 = some j → valid I entry.2 j) ∧
        (Assoc.get? members entry.1 = none → entry.1 ∉ k.required) := by
    rw [acceptsProperties_iff]
    refine forall_iff_of_forall₂ (hfits.imp ?_)
    rintro p entry ⟨hkey, hacc, habsent⟩
    rw [hkey, habsent]
    simp only [hacc]
  rw [hentries]
  constructor
  · intro h
    refine ⟨fun name hname => ?_, fun entry he => (h entry he).1⟩
    obtain ⟨entry, he, rfl⟩ := List.mem_map.1 (hrequired name hname)
    rw [← Option.ne_none_iff_isSome]
    exact fun hnone => (h entry he).2 hnone hname
  · rintro ⟨hpresent, hvalid⟩ entry he
    refine ⟨hvalid entry he, fun hnone hname => ?_⟩
    have hsome := hpresent entry.1 hname
    rw [hnone] at hsome
    cases hsome

theorem map_key_of_fits {properties : List Property} {entries : List (String × Node)}
    (hfits : List.Forall₂ (Fits I k) properties entries) : properties.map Property.key = Assoc.keys entries := by
  unfold Assoc.keys
  induction hfits with
  | nil => rfl
  | cons hfit _ ih => rw [List.map_cons, List.map_cons, ih, hfit.1]

theorem denotes_compileObjectBase (hplain : Plain sub.setup)
    (hrequired : ∀ name ∈ k.required, name ∈ Assoc.keys (k.properties.getD []))
    (hclosed : k.additionalProperties = some (.bool false) → k.properties.isSome)
    (h : ∀ node, k.Holds node → Translates I sub node) (ctx : Context) :
    Denotes I (compileObjectBase sub k ctx)
      (fun j => ∃ members, j = .object members ∧ ObjectValid (valid I) k members) := by
  unfold compileObjectBase
  cases hproperties : k.properties with
  | none =>
    rw [hproperties] at hrequired hclosed
    have hnone : k.required = [] := by
      refine List.eq_nil_iff_forall_not_mem.2 (fun name hname => ?_)
      simpa [Assoc.keys] using hrequired name hname
    have hrecord := denotes_compileRecord hplain (fun hfalse => by simpa using hclosed hfalse) h ctx
    refine hrecord.congr (fun j => ?_)
    simp [objectValid_iff, hproperties, hnone, Assoc.keys]
  | some entries =>
    rw [hproperties, Option.getD_some] at hrequired
    have hentries : ∀ entry ∈ entries, Translates I sub entry.2 :=
      fun entry he => h entry.2 (.property (by rw [hproperties]; exact he))
    obtain ⟨properties, hyields, hfits⟩ := exists_compileProperties (k := k) hplain ctx entries hentries
    obtain ⟨rest, hrest, hunlisted⟩ := exists_compileUnlisted hplain h ctx
    refine ⟨_, hyields.bind (hrest.bind (yields_pure _)), rfl, fun j => ?_⟩
    rw [accepts_ofBase, acceptsBase]
    refine exists_congr (fun members => and_congr_right (fun _ => ?_))
    rw [acceptsProperties_iff_of_fits hfits hrequired, hunlisted, map_key_of_fits hfits, objectValid_iff, hproperties,
      Option.getD_some, and_assoc]
    simp

theorem Denotes.bind {m : CompileM ω Validator} {f : Validator → CompileM ω Validator} {P Q : Json → Prop}
    (hm : Denotes I m P) (hf : ∀ v, v.modifiers = [] → (∀ j, accepts I v j ↔ P j) → Denotes I (f v) Q) :
    Denotes I (m >>= f) Q := by
  obtain ⟨v, hv, hbare, hacc⟩ := hm
  obtain ⟨w, hw, hbare', hacc'⟩ := hf v hbare hacc
  exact ⟨w, hv.bind hw, hbare', hacc'⟩

theorem denotes_intersectIf {o : Option (List Node)} {v : Validator} {m : CompileM ω Validator} {P : Json → Prop}
    {Q : List Node → Json → Prop} (hbare : v.modifiers = []) (hacc : ∀ j, accepts I v j ↔ P j)
    (hm : ∀ nodes, o = some nodes → Denotes I m (Q nodes)) :
    Denotes I (intersectIf o.isSome v m) (fun j => P j ∧ ∀ nodes, o = some nodes → Q nodes j) := by
  cases o with
  | none => exact ⟨v, yields_pure _, hbare, fun j => by simp [hacc]⟩
  | some nodes =>
    obtain ⟨w, hw, _, hacc'⟩ := hm nodes rfl
    refine ⟨_, hw.bind (yields_pure _), rfl, fun j => ?_⟩
    simp [acceptsBase, hacc, hacc']

theorem denotes_compileObject (hplain : Plain sub.setup)
    (hrequired : ∀ name ∈ k.required, name ∈ Assoc.keys (k.properties.getD []))
    (hclosed : k.additionalProperties = some (.bool false) → k.properties.isSome)
    (h : ∀ node, k.Holds node → Translates I sub node) (ctx : Context)
    (hall : ∀ nodes, k.allOf = some nodes → nodes ≠ [] ∧ Node.bool false ∉ nodes ∧
      ∀ node ∈ nodes, Translates I sub (asObject node))
    (hany : k.anyOf ≠ some []) (hone : k.oneOf ≠ some []) :
    Denotes I (compileObject sub k ctx) (fun j =>
      (((∃ members, j = .object members ∧ ObjectValid (valid I) k members) ∧
        ∀ nodes, k.allOf = some nodes → ∀ node ∈ nodes, valid I node j) ∧
        ∀ nodes, k.anyOf = some nodes → ∃ node ∈ nodes, valid I node j) ∧
        ∀ nodes, k.oneOf = some nodes → ExactlyOne (fun node => valid I node j) nodes) := by
  have hallOf : ∀ nodes, k.allOf = some nodes →
      Denotes I (compileAllOf sub k ctx) (fun j => ∀ node ∈ nodes, valid I node j) := by
    intro nodes hnodes
    obtain ⟨hne, hfalse, hmembers⟩ := hall nodes hnodes
    exact denotes_compileAllOf hplain hnodes hne hfalse hmembers ctx
  have hanyOf : ∀ nodes, k.anyOf = some nodes →
      Denotes I (compileAnyOf sub k ctx) (fun j => ∃ node ∈ nodes, valid I node j) :=
    fun nodes hnodes => denotes_compileAnyOf hplain hnodes (fun hnil => hany (hnil ▸ hnodes))
      (fun node hnode => h node (.anyOf (by rw [hnodes]; exact hnode))) ctx
  have honeOf : ∀ nodes, k.oneOf = some nodes →
      Denotes I (compileOneOf sub k ctx) (fun j => ExactlyOne (fun node => valid I node j) nodes) :=
    fun nodes hnodes => denotes_compileOneOf hplain hnodes (fun hnil => hone (hnil ▸ hnodes))
      (fun node hnode => h node (.oneOf (by rw [hnodes]; exact hnode))) ctx
  unfold compileObject
  refine (denotes_compileObjectBase hplain hrequired hclosed h ctx).bind (fun v hbare hacc => ?_)
  refine (denotes_intersectIf hbare hacc hallOf).bind (fun v hbare hacc => ?_)
  refine (denotes_intersectIf hbare hacc hanyOf).bind (fun v hbare hacc => ?_)
  exact denotes_intersectIf hbare hacc honeOf

/-! ## Arrays, texts and numbers -/

theorem forall_mem_constraint? (P : Check → Prop) (facts : Facts) (keyword : String) {γ : Type} (check : γ → Check)
    (o : Option γ) : (∀ c ∈ constraint? facts keyword (o.map check), P c.check) ↔ ∀ a, o = some a → P (check a) := by
  cases o <;> simp [constraint?]

theorem denotes_compileArray (hplain : Plain sub.setup) (hplaces : k.prefixItems = none)
    (htuple : ∀ nodes, k.items ≠ some (.tuple nodes)) (h : ∀ node, k.Holds node → Translates I sub node)
    (ctx : Context) : Denotes I (compileArray sub k ctx)
      (fun j => ∃ xs, j = .array xs ∧ ArrayValid (valid I) k xs) := by
  have hsize : ∀ count, (∀ c ∈ sizeChecks k, countMeets count c.check) ↔
      (∀ least, k.minItems = some least → least ≤ count) ∧ ∀ most, k.maxItems = some most → count ≤ most := by
    intro count
    unfold sizeChecks
    rw [List.forall_mem_append, forall_mem_constraint? (countMeets count), forall_mem_constraint? (countMeets count)]
    rfl
  unfold compileArray
  rw [hplaces]
  match hitems : k.items with
  | none =>
    refine (denotes_ofBase _).congr (fun j => ?_)
    simp [acceptsBase, hsize, arrayValid_iff, hplaces, hitems]
  | some (.tuple nodes) => exact absurd hitems (htuple nodes)
  | some (.single node) =>
    obtain ⟨v, hv, _, hacc⟩ := denotes_compile hplain (h node (.items hitems)) (ctx.child (.key "items"))
    refine ⟨_, hv.bind (yields_pure _), rfl, fun j => ?_⟩
    simp [acceptsBase, hacc, hsize, arrayValid_iff, hplaces, hitems, and_comm, and_left_comm]

end

section
variable {k : Keywords Node} {j : Json}

theorem accepts_stringOf (hformat : k.format = none) (hencoding : k.contentEncoding = none) :
    accepts I (stringOf k.toFacts) j ↔ ∃ text, j = .string text ∧ TextValid I k text := by
  have hnone : formatOf? k.toFacts = none := by simp [formatOf?, hformat, hencoding]
  unfold stringOf
  rw [accepts_ofBase, acceptsBase, hnone]
  refine exists_congr (fun text => and_congr_right (fun _ => ?_))
  rw [List.forall_mem_append, List.forall_mem_append, forall_mem_constraint? (textMeets I text),
    forall_mem_constraint? (textMeets I text), forall_mem_constraint? (textMeets I text)]
  constructor
  · rintro ⟨_, ⟨hpattern, hmin⟩, hmax⟩
    exact ⟨hmin, hmax, hpattern⟩
  · rintro ⟨hmin, hmax, hpattern⟩
    exact ⟨fun _ hf => absurd hf (by simp), ⟨hpattern, hmin⟩, hmax⟩

/-- **The conditions of a bound and its exclusive companion.** -/
theorem forall_mem_bounds (P : Check → Prop) (facts : Facts) (keyword exclusiveKeyword : String)
    (inclusive strict : Number → Check) (hstrict : ∀ b, P (strict b) → P (inclusive b)) (bound : Option Number)
    (exclusive : Option ExclusiveBound) :
    (∀ c ∈ bounds facts keyword exclusiveKeyword inclusive strict bound exclusive, P c.check) ↔
      (∀ b, bound = some b → P (inclusive b)) ∧
        ∀ b, exclusive = some (.value b) ∨ (exclusive = some (.flag true) ∧ bound = some b) → P (strict b) := by
  unfold bounds
  match exclusive with
  | none => simp [forall_mem_constraint? P]
  | some (.flag false) => simp [forall_mem_constraint? P]
  | some (.flag true) =>
    -- Here the bound stands for the strict condition alone, which implies the other.
    rw [List.append_nil, forall_mem_constraint? P]
    cases bound with
    | none => simp
    | some b => simpa using hstrict b
  | some (.value number) =>
    rw [List.forall_mem_append, forall_mem_constraint? P]
    simp [constraint?]

/-- **A step of one is the demand to be whole**, as the type may be. -/
theorem whole_and_step (facts : Facts) (integer : Bool) (x : Number) :
    (((integer || facts.multipleOf.any Number.isOne) = true → x.IsWhole) ∧
      ∀ c ∈ (if facts.multipleOf.any Number.isOne then []
        else constraint? facts "multipleOf" (facts.multipleOf.map .multipleOf)), numberMeets x c.check) ↔
      (integer = true → x.IsWhole) ∧ ∀ factor, facts.multipleOf = some factor → factor.IsMultiple x := by
  cases hstep : facts.multipleOf with
  | none => simp [constraint?]
  | some factor =>
    by_cases hone : factor.isOne = true
    · simp only [Option.any_some, hone, Bool.or_true, ↓reduceIte, List.not_mem_nil, false_imp_iff, implies_true,
        and_true, true_imp_iff, Option.some.injEq, forall_eq', Number.isMultiple_of_isOne hone]
      exact ⟨fun hwhole => ⟨fun _ => hwhole, hwhole⟩, fun h => h.2⟩
    · simp [hone, constraint?, numberMeets]

theorem accepts_numberOf (integer : Bool) : accepts I (numberOf k.toFacts integer) j ↔
    ∃ x, j = .number x ∧ (integer = true → x.IsWhole) ∧ NumberValid k x := by
  unfold numberOf
  rw [accepts_ofBase, acceptsBase]
  refine exists_congr (fun x => and_congr_right (fun _ => ?_))
  have hlower := forall_mem_bounds (numberMeets x) k.toFacts "minimum" "exclusiveMinimum" .gte .gt
    (fun b hb => le_of_lt hb) k.minimum k.exclusiveMinimum
  have hupper := forall_mem_bounds (numberMeets x) k.toFacts "maximum" "exclusiveMaximum" .lte .lt
    (fun b hb => le_of_lt hb) k.maximum k.exclusiveMaximum
  have hstep := whole_and_step k.toFacts integer x
  rw [List.forall_mem_append, List.forall_mem_append, hlower, hupper]
  constructor
  · rintro ⟨hwhole, ⟨hmultiple, hmin, hmin'⟩, hmax, hmax'⟩
    obtain ⟨hinteger, hfactor⟩ := hstep.1 ⟨hwhole, hmultiple⟩
    exact ⟨hinteger, hfactor, hmin, hmax, hmin', hmax'⟩
  · rintro ⟨hinteger, hfactor, hmin, hmax, hmin', hmax'⟩
    obtain ⟨hwhole, hmultiple⟩ := hstep.2 ⟨hinteger, hfactor⟩
    exact ⟨hwhole, ⟨hmultiple, hmin, hmin'⟩, hmax, hmax'⟩

/-! ## Literals -/

/-- **A value that is neither an array nor an object.** -/
def IsPrimitive : Json → Prop
  | .array _ => False
  | .object _ => False
  | _ => True

theorem accepts_literalOf {facts : Facts} {value : Json} (h : IsPrimitive value) :
    accepts I (literalOf facts value) j ↔ value.Same j := by
  cases value with
  | array items => exact absurd h id
  | object members => exact absurd h id
  | null | bool value | number x | string text => rw [literalOf, accepts_ofBase, acceptsBase] <;> simp

theorem bare_literalOf {facts : Facts} {value : Json} (h : IsPrimitive value) :
    (literalOf facts value).modifiers = [] := by
  cases value with
  | array items => exact absurd h id
  | object members => exact absurd h id
  | null | bool value | number x | string text => rfl

theorem same_string {text : String} : (Json.string text).Same j ↔ j = .string text := by
  cases j <;> simp [Json.Same, eq_comm]

theorem eq_map_of_mapM_string? : ∀ {values : List Json} {texts : List String},
    values.mapM Json.string? = some texts → values = texts.map Json.string
  | [], texts, h => by
    cases h
    rfl
  | value :: rest, texts, h => by
    rw [List.mapM_cons] at h
    obtain ⟨text, htext, hrest⟩ := Option.bind_eq_some_iff.1 h
    obtain ⟨others, hothers, heq⟩ := Option.bind_eq_some_iff.1 hrest
    cases heq
    cases value with
    | string t =>
      cases htext
      rw [eq_map_of_mapM_string? hothers, List.map_cons]
    | _ => cases htext

/-- **A constant denotes its value.** -/
theorem denotes_constant {facts : Facts} {value : Json} (hvalue : facts.const = some value) (h : IsPrimitive value) :
    Denotes I (pure (constant facts) : CompileM ω Validator) value.Same := by
  unfold constant
  rw [hvalue]
  exact ⟨_, yields_pure _, bare_literalOf h, fun j => accepts_literalOf h⟩

/-- **An enumeration accepts the values it lists.** -/
theorem denotes_enumeration {facts : Facts} {values : List Json} (hvalues : facts.enum = some values)
    (h : ∀ value ∈ values, IsPrimitive value) :
    Denotes I (pure (enumeration facts) : CompileM ω Validator) (fun j => ∃ value ∈ values, value.Same j) := by
  unfold enumeration
  rw [hvalues, Option.getD_some]
  match values, h with
  | [], _ => exact (denotes_ofBase .never).congr (fun j => by simp [acceptsBase])
  | [value], h =>
    have hvalue := h value List.mem_cons_self
    exact ⟨_, yields_pure _, bare_literalOf hvalue, fun j => by simp [accepts_literalOf hvalue]⟩
  | first :: second :: rest, h =>
    simp only
    cases htexts : (first :: second :: rest).mapM Json.string? with
    | some texts =>
      rw [eq_map_of_mapM_string? htexts]
      exact (denotes_ofBase _).congr (fun j => by simp [acceptsBase, same_string])
    | none =>
      refine (denotes_ofBase _).congr (fun j => ?_)
      rw [acceptsBase, acceptsSome_iff]
      constructor
      · rintro ⟨_, hv, hacc⟩
        obtain ⟨value, hvalue, rfl⟩ := List.mem_map.1 hv
        exact ⟨value, hvalue, (accepts_literalOf (h value hvalue)).1 hacc⟩
      · rintro ⟨value, hvalue, hsame⟩
        exact ⟨_, List.mem_map_of_mem hvalue, (accepts_literalOf (h value hvalue)).2 hsame⟩

end

/-! ## Annotations and kinds -/

section
variable {sub : Compile.Sub ω} {k : Keywords Node}

/-- **A schema without annotations denotes what its kind does.** -/
theorem denotes_compileNode (hplain : Plain sub.setup) (hnullable : k.nullable = none) (hreadOnly : k.readOnly = none)
    (hdescription : k.description = none) (hdefault : k.default = none) {kind : Kind} (hkind : select [] k = kind)
    {ctx : Context} {P : Json → Prop} (h : Denotes I (compileKind sub kind k ctx) P) :
    Denotes I (compileNode sub (.object k) ctx) P := by
  have hannotate : ∀ v, annotate k ctx v = v := by
    intro v
    simp [annotate, hnullable, hreadOnly, hdescription, hdefault]
  unfold compileNode
  rw [hplain.hook, hplain.recipes]
  simp only [hkind, hannotate]
  exact h.bind (fun v hbare hacc => ⟨v, yields_pure _, hbare, hacc⟩)

end

end Meaning
end Valgen
