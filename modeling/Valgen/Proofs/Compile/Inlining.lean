import Valgen.Proofs.Compile.Results
import Valgen.Proofs.Compile.SideBySide
import Valgen.Proofs.Schema.Expansion
import Valgen.Proofs.Validator.Plain
/-!
# Proofs.Compile.Inlining — a reference is compiled as a copy of what it names

A document whose references can be replaced is compiled to the same text, or fails with the same error, as the document
in which they have been (`inlining_transparent`).

The two compilations are aligned (`expanding`): a reference on the one side faces the copy on the other, at one place,
so that rules and defaults apply alike.  What is being expanded never stops a reference on the one side, since no
reference leads back to itself (`Clear`), and nothing is expanded on the other.  The parents of a reference see a
validator of the same shape; only the description of a property is that of the reference, and it is not written.  A rule
that is given as a function may see it all the same, and then the two texts can differ (`not_transparent_labelled`).
-/
namespace Valgen
namespace Compile

open Schema (Expandable Expands Keywords Leads Node Reference Undescribed target?_eq_some_iff target?_of_tokens)

/-! ## Validators but for descriptions -/

/-- **Validators that differ in the descriptions of properties at most**, and not even there if those are seen. -/
structure LikePlain (seen : Prop) (v v' : Validator) : Prop where
  plain : v'.plain = v.plain
  same : Agree seen v v'

namespace LikePlain

variable {seen : Prop} {v v' : Validator}

theorem plainAll_eq : ∀ {vs vs' : List Validator}, List.Forall₂ (LikePlain seen) vs vs' → plainAll vs' = plainAll vs
  | _, _, .nil => rfl
  | _, _, .cons hv hvs => by
    unfold plainAll
    rw [hv.plain, plainAll_eq hvs]

theorem plainProperties_eq {described : Option String → Option String → Prop} : ∀ {ps ps' : List Property},
    List.Forall₂ (PropertyAlike (LikePlain seen) described) ps ps' → plainProperties ps' = plainProperties ps
  | _, _, .nil => rfl
  | ⟨_, _, _⟩ :: _, ⟨_, _, _⟩ :: _, .cons ⟨hkey, hvalue, _⟩ hps => by
    obtain rfl := hkey
    unfold plainProperties
    rw [hvalue.plain, plainProperties_eq hps]

theorem plain_unlisted_eq {rest rest' : Unlisted} (h : UnlistedAlike (LikePlain seen) rest rest') :
    rest'.plain = rest.plain := by
  cases h with
  | catchall hv => exact congrArg Unlisted.catchall hv.plain
  | strip | strict | passthrough => rfl

theorem plain?_eq {rest rest' : Option Validator} (h : Option.Rel (LikePlain seen) rest rest') :
    plain? rest' = plain? rest := by
  cases h with
  | some hv => exact congrArg some hv.plain
  | none => rfl

theorem agree? {rest rest' : Option Validator} (h : Option.Rel (LikePlain seen) rest rest') :
    Option.Rel (Agree seen) rest rest' := by
  cases h with
  | some hv => exact .some hv.same
  | none => exact .none

theorem agreeAll {vs vs' : List Validator} (h : List.Forall₂ (LikePlain seen) vs vs') :
    List.Forall₂ (Agree seen) vs vs' := h.imp (fun _ _ hv => hv.same)

theorem refl (v : Validator) : LikePlain seen v v := ⟨rfl, fun _ => rfl⟩

theorem ofBase {b b' : Base} (h : b'.plain = b.plain) (hsame : Agree seen (.ofBase b) (.ofBase b')) :
    LikePlain seen (.ofBase b) (.ofBase b') := ⟨congrArg Validator.ofBase h, hsame⟩

theorem render {setup : Setup} (hjsdocs : setup.options.jsdocs = false) (h : LikePlain seen v v') :
    setup.render v' = setup.render v := by
  unfold Setup.render
  rw [← Validator.render_plain hjsdocs v', h.plain, Validator.render_plain hjsdocs v]

theorem mark (h : LikePlain seen v v') (m : Modifier) : LikePlain seen (v.mark m) (v'.mark m) where
  plain := by rw [← Validator.mark_plain, ← Validator.mark_plain, h.plain]
  same hseen := by rw [h.same hseen]

theorem push (h : LikePlain seen v v') (m : Modifier) : LikePlain seen (v.push m) (v'.push m) where
  plain := by rw [← Validator.push_plain, ← Validator.push_plain, h.plain]
  same hseen := by rw [h.same hseen]

theorem marked (h : LikePlain seen v v') (required : Bool) :
    LikePlain seen (marked required v) (marked required v') := by
  have hdefault : v'.hasDefault = v.hasDefault := by
    unfold Validator.hasDefault
    rw [← v'.hasSlot_plain, h.plain, v.hasSlot_plain]
  unfold Compile.marked
  rw [hdefault]
  split
  · exact h
  · exact h.mark _

/-- **Rules keep validators alike**, if they take no notice of descriptions or those are seen. -/
theorem result {rules : Pipeline} (hrules : seen ∨ ∀ rule ∈ rules, rule.IgnoresDescriptions) (h : LikePlain seen v v')
    (path : Path) : LikePlain seen (rules.result path v) (rules.result path v') := by
  rcases hrules with hseen | hignore
  · rw [h.same hseen]
    exact refl _
  · exact ⟨Pipeline.plain_result path hignore h.plain, fun hseen => by rw [h.same hseen]⟩

end LikePlain

theorem annotate_plain (k : Keywords Node) (ctx : Context) (v : Validator) :
    annotate k ctx v.plain = (annotate k ctx v).plain := by
  have hnullable : ∀ w : Validator, w.plain.nullable = w.nullable.plain := fun w => w.mark_plain .nullable
  have hreadonly : ∀ w : Validator, w.plain.readonly = w.readonly.plain := fun w => w.mark_plain .readonly
  have hdescribe : ∀ (w : Validator) (text : String), w.plain.describe text = (w.describe text).plain :=
    fun w text => w.replace_plain (.describe text)
  have hdefault : ∀ (w : Validator) (value : Json), w.plain.withDefault value = (w.withDefault value).plain :=
    fun w value => w.replace_plain (.default value)
  unfold annotate
  simp only [hnullable, hreadonly, ← apply_ite Validator.plain]
  cases k.description <;> cases k.default <;> simp only [hdescribe, hdefault, ← apply_ite Validator.plain]

theorem LikePlain.annotate {seen : Prop} {v v' : Validator} (h : LikePlain seen v v') (k : Keywords Node)
    (ctx : Context) : LikePlain seen (annotate k ctx v) (annotate k ctx v') where
  plain := by rw [← annotate_plain, ← annotate_plain, h.plain]
  same hseen := by rw [h.same hseen]

/-! ## References that are not being expanded -/

/-- **No reference of a schema leads to what is being expanded.** -/
structure Clear (root : Node) (active : List String) (node : Node) : Prop where
  refs : ∀ reference ∈ node.refs, reference ∈ root.refs
  unexpanded : ∀ reference ∈ node.refs, ∀ inner, Relation.ReflTransGen (Leads root) reference inner →
    Reference.keyOf (Reference.parse inner).fragment ∉ active

namespace Clear

variable {root node : Node} {active : List String}

theorem part {k : Keywords Node} (h : Clear root active (.object k)) (hpart : Part k node) :
    Clear root active node where
  refs reference hr := h.refs reference (mem_refs_of_part hpart hr)
  unexpanded reference hr := h.unexpanded reference (mem_refs_of_part hpart hr)

theorem mem_refs_of_leads {reference inner : String} (h : reference ∈ root.refs)
    (hleads : Relation.ReflTransGen (Leads root) reference inner) : inner ∈ root.refs := by
  cases hleads with
  | refl => exact h
  | tail _ hlast => exact hlast.mem_refs

/-- **References with one key lead to the same schemas.** -/
theorem target?_eq_of_key {reference other : String} {target target' : Node}
    (hkey : Reference.keyOf (Reference.parse other).fragment = Reference.keyOf (Reference.parse reference).fragment)
    (h : root.target? reference = some target) (h' : root.target? other = some target') :
    target' = target := by
  have hpointer := (target?_eq_some_iff.1 h).2
  have hpointer' := (target?_eq_some_iff.1 h').2
  rw [hkey, hpointer] at hpointer'
  exact (Option.some.inj hpointer').symm

/-- **At the start only the root is being expanded**, and no reference leads to it. -/
theorem ofRoot (h : Expandable root) : Clear root [""] root where
  refs _ hr := hr
  unexpanded := by
    intro reference hr inner hleads hactive
    have hinner := mem_refs_of_leads hr hleads
    obtain ⟨target, htarget⟩ := h.resolves inner hinner
    have hroot : root = .object target := by
      have hpointer := (target?_eq_some_iff.1 htarget).2
      rw [List.mem_singleton.1 hactive] at hpointer
      exact Option.some.inj hpointer
    exact h.acyclic inner hinner (.single ⟨_, htarget, hroot ▸ hinner⟩)

/-- **What a reference names does not lead back to the reference.** -/
theorem target (h : Expandable root) {reference : String} {k : Keywords Node}
    (hclear : Clear root active (.object { ref := some reference }))
    (htarget : root.target? reference = some (.object k)) :
    Clear root (Reference.keyOf (Reference.parse reference).fragment :: active) (.object k) where
  refs := (Schema.inside_of_target? htarget).within.refs
  unexpanded := by
    intro first hfirst inner hleads hactive
    have hown : reference ∈ (Node.object { ref := some reference }).refs := Node.mem_refs_of_ref rfl
    rcases List.mem_cons.1 hactive with hkey | hactive
    · have hinner := mem_refs_of_leads ((Schema.inside_of_target? htarget).within.refs first hfirst) hleads
      obtain ⟨target, htarget'⟩ := h.resolves inner hinner
      rw [target?_eq_of_key hkey htarget htarget'] at htarget'
      exact h.acyclic inner hinner (Relation.TransGen.head' ⟨_, htarget', hfirst⟩ hleads)
    · exact hclear.unexpanded reference hown inner (.head ⟨_, htarget, hfirst⟩ hleads) hactive

end Clear

/-! ## A document beside its expansion -/

/-- **The alignment of equal schemas**, with validators that agree if descriptions are seen. -/
def unexpanded (seen : Prop) (setup : Setup) : Alignment unlessSpent setup setup :=
  agreeing unlessSpent seen True none none (fun _ => True) (fun _ => rfl) rfl
    (fun {_ _ _ _} hctx hv => applyRules_coupled rfl (by rw [hctx.2]) hv)

/-- **The alignment of schemas with their expansions**: at the same places, up to the descriptions of properties unless
those are seen. -/
def expanding {root : Node} (active : List String) {seen : Prop} (hseen : seen → Undescribed root) {setup : Setup}
    (hrecipes : setup.recipes = []) (hjsdocs : setup.options.jsdocs = false)
    (hrules : seen ∨ ∀ rule ∈ setup.rules, rule.IgnoresDescriptions) :
    Alignment unlessSpent setup setup where
  node n n' := Expands root n n' ∧ Clear root active n
  place ctx ctx' := ctx' = ctx
  like := LikePlain seen
  described d d' := seen → d' = d
  functions := True
  form h := h.1.sameForm
  describes h hs := h.1.description (hseen hs) h.2.refs
  path h := by rw [h]
  child _ h := by rw [h]
  withoutDefault h := by rw [h]
  recipes := rfl
  rules := by
    rintro ctx _ v v' rfl hv
    exact Coupling.ofStates_applyRules (fun _ _ hs => hs) (hv.result hrules _)
  refl := .refl
  marked required hv := hv.marked required
  object hps hrest := by
    refine .ofBase ?_ ((unexpanded seen setup).object
      (hps.imp (fun _ _ hp => ⟨hp.key, hp.value.same, hp.description⟩)) (hrest.imp (fun hv => hv.same)))
    unfold Base.plain
    rw [LikePlain.plainProperties_eq hps, LikePlain.plain_unlisted_eq hrest]
  array checks hv := by
    refine .ofBase ?_ ((unexpanded seen setup).array checks hv.same)
    unfold Base.plain
    rw [hv.plain]
  tuple hvs hrest := by
    refine .ofBase ?_ ((unexpanded seen setup).tuple (LikePlain.agreeAll hvs) (LikePlain.agree? hrest))
    unfold Base.plain
    rw [LikePlain.plainAll_eq hvs, LikePlain.plain?_eq hrest]
  record hv := .ofBase (congrArg Base.record hv.plain) ((unexpanded seen setup).record hv.same)
  union hvs := .ofBase (congrArg Base.union (LikePlain.plainAll_eq hvs))
    ((unexpanded seen setup).union (LikePlain.agreeAll hvs))
  xor hvs := .ofBase (congrArg Base.xor (LikePlain.plainAll_eq hvs))
    ((unexpanded seen setup).xor (LikePlain.agreeAll hvs))
  intersection hv hw := by
    refine .ofBase ?_ ((unexpanded seen setup).intersection hv.same hw.same)
    unfold Base.plain
    rw [hv.plain, hw.plain]
  negation _ _ _ _ hv := by
    rw [hv.render hjsdocs]
    exact .refl _
  condition := by
    rintro - ctx _ c c' yes yes' no no' rfl hc hyes hno
    rw [hc.render hjsdocs, hyes.render hjsdocs, hno.render hjsdocs]
    have hvs : List.Forall₂ (LikePlain seen) [yes, no] [yes', no'] := .cons hyes (.cons hno .nil)
    have hunion : LikePlain seen (.ofBase (.union [yes, no])) (.ofBase (.union [yes', no'])) :=
      .ofBase (congrArg Base.union (LikePlain.plainAll_eq hvs)) ((unexpanded seen setup).union (LikePlain.agreeAll hvs))
    exact hunion.push _
  made _ hne := absurd hrecipes hne

/-- **A reference that is not being expanded is compiled as what it names**, at its own place. -/
theorem compileRaw_reference {setup : Setup} (hhook : ∀ node ctx, setup.hook node ctx = none) {root target : Node}
    {reference : String} (htarget : root.target? reference = some target) {active : List String}
    (hactive : Reference.keyOf (Reference.parse reference).fragment ∉ active) (budget : Nat) (ctx : Context) :
    (standalone setup root).compileRaw (budget + 1) active (.object { ref := some reference }) ctx =
      (standalone setup root).compileRaw budget (Reference.keyOf (Reference.parse reference).fragment :: active)
        target ctx := by
  have hkey : active.contains (Reference.keyOf (Reference.parse reference).fragment) = false := by simpa using hactive
  obtain ⟨hdocument, hpointer⟩ := target?_eq_some_iff.1 htarget
  have hselect : select setup.recipes { ref := some reference } = .reference := rfl
  have hannotate : ∀ v, annotate { ref := some reference } ctx v = v := fun _ => rfl
  rw [Session.compileRaw]
  unfold compileNode
  simp only [standalone, hhook, hselect, hannotate, compileKind, Session.refer, resolveLocally, hdocument, if_true,
    pure_bind, bind_pure, hkey, hpointer, Bool.false_eq_true, if_false]

/-- **A member of `allOf` as an object is expanded to the copy as an object.** -/
theorem expands_asObject {root node node' : Node} (h : Expands root node node') :
    Expands root (asObject node) (asObject node') := by
  match node, node', h.sameForm with
  | _, _, .bool true => exact Schema.expands_empty root
  | _, _, .bool false => exact Schema.expands_nothing root
  | _, _, .object _ _ => exact h

theorem narrow_map (k : Keywords Node) (copy : Node → Node) (typeName : String) :
    narrow (k.map copy) typeName = (narrow k typeName).map copy := rfl

section
variable {setup : Setup} (hhook : ∀ node ctx, setup.hook node ctx = none) (hrecipes : setup.recipes = [])
  (hjsdocs : setup.options.jsdocs = false) {root : Node} (hroot : Expandable root) {seen : Prop}
  (hseen : seen → Undescribed root) (hrules : seen ∨ ∀ rule ∈ setup.rules, rule.IgnoresDescriptions)
include hhook hrecipes hjsdocs hroot hseen hrules

/-- **A schema and its expansion are compiled alike**, whatever is being expanded on the side of the expansion. -/
theorem compileRaw_expanded (root' : Node) (active' : List String) : ∀ (budget budget' : Nat) {active : List String}
      {node node' : Node} (ctx : Context), Expands root node node' → Clear root active node →
      unlessSpent.rel (LikePlain seen) ((standalone setup root).compileRaw budget active node ctx)
        ((standalone setup root').compileRaw budget' active' node' ctx)
  | 0, _, _, _, _, _, _, _ => fun s _ _ => .left s _ rfl
  | budget + 1, budget', active, _, _, ctx, .reference htarget hexpands, hclear => by
    have hactive := hclear.unexpanded _ (Node.mem_refs_of_ref rfl) _ .refl
    rw [compileRaw_reference hhook htarget hactive]
    exact compileRaw_expanded root' active' budget budget' ctx hexpands (hclear.target hroot htarget)
  | budget + 1, 0, _, _, _, _, _, _ => fun _ s' _ => .right _ s' rfl
  | budget + 1, budget' + 1, active, _, _, ctx, .bool value, _ =>
    compileNode_bool (expanding active hseen hrecipes hjsdocs hrules) rfl rfl value (by rw [hhook]; exact .none)
  | budget + 1, budget' + 1, active, _, _, ctx, .object (k := k) copy href hcopy, hclear => by
    let A := expanding active hseen hrecipes hjsdocs hrules
    have hparts : ∀ {c c'}, Parts A.node k (k.map copy) c c' → Expands root c c' ∧ Clear root active c := by
      intro c c' hpart
      cases hpart with
      | sub hc => exact hc
      | member hmember hc => exact ⟨expands_asObject hc.1, hclear.part (.member hmember)⟩
      | narrow typeName hseveral =>
        rw [narrow_map]
        exact ⟨.object copy href (fun c hc => hcopy c (holds_of_narrow hc)), hclear.part (.narrow typeName hseveral)⟩
      | noItem htype => exact ⟨Schema.expands_empty root, hclear.part (.noItem htype)⟩
    have hsub : SubAligned A k (k.map copy)
        { setup := setup, raw := (standalone setup root).compileRaw budget active,
          refer := (standalone setup root).refer ((standalone setup root).compileRaw budget) active }
        { setup := setup, raw := (standalone setup root').compileRaw budget' active',
          refer := (standalone setup root').refer ((standalone setup root').compileRaw budget') active' } := by
      refine ⟨rfl, rfl, Keywords.alike_map (fun c hc => ⟨hcopy c hc, hclear.part (.sub hc)⟩), fun _ => trivial,
        fun hne => absurd hrecipes hne, ?_, ?_⟩
      · rintro c c' _ ctx₁ hpart rfl
        obtain ⟨hexpands, hclear'⟩ := hparts hpart
        exact compileRaw_expanded root' active' budget budget' ctx₁ hexpands hclear'
      · intro reference ctx₁ ctx₁' hrefers _
        cases hrefers with
        | own href' => rw [href] at href'; cases href'
        | recipe hlisted => rw [hrecipes] at hlisted; cases hlisted
    have hannotate : ∀ {v v'}, LikePlain seen v v' → LikePlain seen (annotate k ctx v) (annotate (k.map copy) ctx v') :=
      fun hv => hv.annotate k ctx
    exact hsub.compileNode rfl (by rw [hhook, hhook]; exact .none) hannotate

/-- **A document and its expansion are compiled to one text**, or fail with one error. -/
theorem compileText_expanded {root' : Node} (hexpands : Expands root root root') :
    compileText setup root = compileText setup root' := by
  have hruns : unlessSpent.rel (LikePlain seen) ((standalone setup root).compileRoot (Context.root setup.options none))
      ((standalone setup root').compileRoot (Context.root setup.options none)) :=
    unlessSpent.sequence
      (compileRaw_expanded hhook hrecipes hjsdocs hroot hseen hrules root' [""] _ _ _ hexpands (.ofRoot hroot))
      (fun _ _ hv => (expanding [""] hseen hrecipes hjsdocs hrules).rules rfl hv)
  unfold compileText
  rcases compileValidator_alike hruns rfl with ⟨e, he, he'⟩ | ⟨v, v', hv, hv', hlike⟩
  · rw [he, he']
  · rw [hv, hv']
    exact congrArg Except.ok (hlike.render hjsdocs).symm

end

/-- **Inlining is transparent**, unless a rule given as a function takes notice of the descriptions of properties and a
reference names a schema with a description: a document whose references stand alone, name objects of the document and
do not lead back to themselves has an expansion, in which each is replaced by a copy of what it names, and is compiled
to the same text or to the same error as any expansion. -/
theorem inlining_transparent {setup : Setup} (hhook : ∀ node ctx, setup.hook node ctx = none)
    (hrecipes : setup.recipes = []) (hjsdocs : setup.options.jsdocs = false) {root : Node} (hroot : Expandable root)
    (hrules : (∀ rule ∈ setup.rules, rule.isUser = true → rule.IgnoresDescriptions) ∨ Undescribed root) :
    (∃ root', Expands root root root') ∧
      ∀ root', Expands root root root' → compileText setup root = compileText setup root' := by
  refine ⟨hroot.exists_expansion, fun root' hexpands => ?_⟩
  rcases hrules with huser | hundescribed
  · have hignore : ∀ rule ∈ setup.rules, rule.IgnoresDescriptions := fun rule hmem => .of_user (huser rule hmem)
    exact compileText_expanded hhook hrecipes hjsdocs hroot False.elim (.inr hignore) hexpands
  · exact compileText_expanded hhook hrecipes hjsdocs hroot (fun _ => hundescribed) (.inl trivial) hexpands

/-- **A label**, with a description and a default of its own. -/
def labelSchema : Keywords Node :=
  { type := some (.single "string"), description := some "A label.", default := some (.string "none") }

/-- **A place with a label.** -/
def placeSchema : Keywords Node :=
  { type := some (.single "object"), properties := some [("label", .object { ref := some "#/$defs/label" })] }

/-- **A schema with references at several places**, one of which leads to another. -/
def referring : Node := .object {
  type := some (.single "object")
  required := ["home"]
  properties := some [
    ("home", .object { ref := some "#/$defs/place" }),
    ("work", .object { ref := some "#/$defs/place" }),
    ("notes", .object {
      type := some (.single "array")
      items := some (.single (.object { ref := some "#/$defs/label" })) })]
  defs := some [("place", .object placeSchema), ("label", .object labelSchema)] }

theorem target?_place : referring.target? "#/$defs/place" = some (.object placeSchema) := by
  have htokens : Schema.Pointer.tokens? (Reference.keyOf (Reference.parse "#/$defs/place").fragment).toList =
      some [['$', 'd', 'e', 'f', 's'], ['p', 'l', 'a', 'c', 'e']] := by decide +kernel
  rw [target?_of_tokens (by decide +kernel) htokens]
  simp [referring, Node.follow, Keywords.one?, Keywords.map?, Assoc.get?]

theorem target?_label {k : Keywords Node} {entries : Assoc Node} {node : Node} (hdefs : k.defs = some entries)
    (hlabel : Assoc.get? entries "label" = some node) : (Node.object k).target? "#/$defs/label" = some node := by
  have htokens : Schema.Pointer.tokens? (Reference.keyOf (Reference.parse "#/$defs/label").fragment).toList =
      some [['$', 'd', 'e', 'f', 's'], ['l', 'a', 'b', 'e', 'l']] := by decide +kernel
  rw [target?_of_tokens (by decide +kernel) htokens]
  simp [Node.follow, Keywords.one?, Keywords.map?, hdefs, hlabel]

theorem refs_labelSchema : (Node.object labelSchema).refs = [] := by
  simp [labelSchema, Node.refs_object, Keywords.children, Keywords.childrenOfMap, Keywords.childrenOfOne,
    Keywords.childrenOfList, Keywords.childrenOfItems]

theorem expandable_referring : Expandable referring := by
  have hrefs : referring.refs = ["#/$defs/place", "#/$defs/place", "#/$defs/label", "#/$defs/label"] := by
    simp [referring, placeSchema, labelSchema, Node.refs_object, Keywords.children, Keywords.childrenOfMap,
      Keywords.childrenOfOne, Keywords.childrenOfList, Keywords.childrenOfItems]
  have hlabel : referring.target? "#/$defs/label" = some (.object labelSchema) := target?_label rfl rfl
  have hlast : ∀ inner, ¬ Leads referring "#/$defs/label" inner := by
    rintro inner ⟨target, htarget, hmem⟩
    obtain rfl := Option.some.inj (hlabel.symm.trans htarget)
    rw [refs_labelSchema] at hmem
    cases hmem
  have hnext : ∀ inner, Leads referring "#/$defs/place" inner → inner = "#/$defs/label" := by
    rintro inner ⟨target, htarget, hmem⟩
    obtain rfl := Option.some.inj (target?_place.symm.trans htarget)
    simpa [placeSchema, Node.refs_object, Keywords.children, Keywords.childrenOfMap,
      Keywords.childrenOfOne, Keywords.childrenOfList, Keywords.childrenOfItems] using hmem
  refine ⟨?_, ?_, ?_⟩
  · intro k reference hinside
    suffices h : ∀ node, referring.Inside node → ∀ k, node = .object k → k.ref = some reference →
        k = { ref := some reference } from h _ hinside k rfl
    unfold referring
    simp [placeSchema, labelSchema, Node.forall_inside_object, Keywords.children, Keywords.childrenOfMap,
      Keywords.childrenOfOne, Keywords.childrenOfList, Keywords.childrenOfItems]
  · rw [hrefs]
    intro reference hr
    simp only [List.mem_cons, List.not_mem_nil, or_false, or_self_left, or_self] at hr
    rcases hr with rfl | rfl
    · exact ⟨_, target?_place⟩
    · exact ⟨_, hlabel⟩
  · rw [hrefs]
    intro reference hr hcycle
    simp only [List.mem_cons, List.not_mem_nil, or_false, or_self_left, or_self] at hr
    obtain ⟨inner, hleads, hback⟩ := Relation.TransGen.head'_iff.1 hcycle
    rcases hr with rfl | rfl
    · obtain rfl := hnext inner hleads
      rcases hback.cases_head with heq | ⟨next, hnext, _⟩
      · exact absurd heq (by decide)
      · exact hlast next hnext
    · exact hlast inner hleads

/-- **A setup with a rule that is given as a function.** -/
def nullableEverywhere : Setup := {
  rules := [.strictObjects, .user "nullable" (fun _ v => .answer (some v.nullable)), .nonEmptyArrays] }

theorem inlining_transparent_referring : Expandable referring ∧ (∃ root', Expands referring referring root') ∧
    ∀ root', Expands referring referring root' →
      compileText nullableEverywhere referring = compileText nullableEverywhere root' := by
  have hignore : ∀ rule ∈ nullableEverywhere.rules, rule.isUser = true → rule.IgnoresDescriptions := by
    simp only [nullableEverywhere, List.forall_mem_cons]
    refine ⟨Bool.noConfusion, fun _ path v v' h => ?_, Bool.noConfusion, fun _ h => absurd h List.not_mem_nil⟩
    show v'.nullable.plain = v.nullable.plain
    rw [Validator.nullable, Validator.nullable, ← v'.mark_plain, ← v.mark_plain, h]
  have hhook : ∀ node ctx, nullableEverywhere.hook node ctx = none := fun _ _ => rfl
  exact ⟨expandable_referring, inlining_transparent hhook rfl rfl expandable_referring (.inl hignore)⟩

/-! ## A rule that sees descriptions -/

/-- **A setup with a rule that brands the objects with a described property.** -/
def documenting : Setup := {
  rules := [.user "brand-documented" (fun _ v => .answer (match v.base with
    | .object properties _ =>
      if properties.any (fun p => p.description.isSome) then some (v.brand "Documented") else none
    | _ => none))] }

/-- **An object whose one property is a reference to a label.** -/
def labelled : Keywords Node := {
  type := some (.single "object")
  properties := some [("label", .object { ref := some "#/$defs/label" })]
  defs := some [("label", .object labelSchema)] }

/-- **The same with a copy of the label in place of the reference.** -/
def labelledCopy : Keywords Node := { labelled with properties := some [("label", .object labelSchema)] }

theorem children_labelled : labelled.children =
    [(.property "label", .object { ref := some "#/$defs/label" }), (.defs "label", .object labelSchema)] := rfl

theorem target?_labelled : (Node.object labelled).target? "#/$defs/label" = some (.object labelSchema) :=
  target?_label rfl rfl

theorem expandable_labelled : Expandable (.object labelled) := by
  have hrefs : (Node.object labelled).refs = ["#/$defs/label"] := by
    simp [Node.refs_object, labelled, labelSchema, Keywords.children, Keywords.childrenOfMap, Keywords.childrenOfOne,
      Keywords.childrenOfList, Keywords.childrenOfItems]
  refine ⟨?_, ?_, ?_⟩
  · intro k reference hinside
    suffices h : ∀ node, (Node.object labelled).Inside node → ∀ k, node = .object k → k.ref = some reference →
        k = { ref := some reference } from h _ hinside k rfl
    simp [labelled, labelSchema, Node.forall_inside_object, Keywords.children, Keywords.childrenOfMap,
      Keywords.childrenOfOne, Keywords.childrenOfList, Keywords.childrenOfItems]
  · rw [hrefs]
    intro reference hr
    rw [List.mem_singleton.1 hr]
    exact ⟨_, target?_labelled⟩
  · rw [hrefs]
    intro reference hr hcycle
    obtain rfl := List.mem_singleton.1 hr
    obtain ⟨inner, ⟨target, htarget, hmem⟩, _⟩ := Relation.TransGen.head'_iff.1 hcycle
    obtain rfl := Option.some.inj (target?_labelled.symm.trans htarget)
    rw [refs_labelSchema] at hmem
    cases hmem

/-- **The schema that a reference in `labelled` is replaced by.** -/
def unlabel : Node → Node
  | .object { ref := some _, .. } => .object labelSchema
  | node => node

theorem expands_labelled : Expands (.object labelled) (.object labelled) (.object labelledCopy) := by
  have hlabel : Expands (.object labelled) (.object labelSchema) (.object labelSchema) := by
    refine .self rfl (fun c hc => ?_)
    obtain ⟨_, hmem⟩ := Keywords.holds_iff.1 hc
    cases hmem
  refine .object (k := labelled) unlabel rfl (fun c hc => ?_)
  obtain ⟨_, hmem⟩ := Keywords.holds_iff.1 hc
  rw [children_labelled] at hmem
  rcases List.mem_cons.1 hmem with heq | hmem
  · cases heq
    exact .reference target?_labelled hlabel
  · cases List.mem_singleton.1 hmem
    exact hlabel

/-- **What the label is compiled to.** -/
def labelValidator : Validator :=
  ((Validator.ofBase (.string none none [])).describe "A label.").withDefault (.string "none")

/-- **An object with a label**, and the description of that property. -/
def labelledValidator (description : Option String) : Validator :=
  .ofBase (.object [⟨"label", labelValidator, description⟩] .strip)

theorem compileNode_labelled {raw : Node → Context → CompileM Unit Validator}
    {refer : String → Context → CompileM Unit Validator} {ctx : Context}
    (h : raw (.object { ref := some "#/$defs/label" }) (ctx.descend "properties" (.key "label")) =
      pure labelValidator) :
    compileNode ⟨documenting, raw, refer⟩ (.object labelled) ctx = pure (labelledValidator none) := by
  have hproperties : compileProperties ⟨documenting, raw, refer⟩ labelled ctx
      [("label", .object { ref := some "#/$defs/label" })] = pure [⟨"label", labelValidator, none⟩] := by
    unfold compileProperties
    dsimp only
    rw [h]
    rfl
  have hobject : compileObjectBase ⟨documenting, raw, refer⟩ labelled ctx = pure (labelledValidator none) := by
    unfold compileObjectBase
    rw [show labelled.properties = some [("label", .object { ref := some "#/$defs/label" })] from rfl]
    dsimp only
    rw [hproperties]
    rfl
  have hselect : select documenting.recipes labelled = .object := rfl
  unfold compileNode
  dsimp only
  rw [hselect]
  unfold compileKind compileObject
  dsimp only
  rw [hobject]
  rfl

theorem compile_labelled : compileValidator documenting (.object labelled) = .ok (labelledValidator none) := by
  obtain ⟨b, hb⟩ := (standalone documenting (.object labelled)).exists_budget
  have hlabel : (standalone documenting (.object labelled)).compileRaw (b + 5) [""]
      (.object { ref := some "#/$defs/label" })
      ((Context.root documenting.options none).descend "properties" (.key "label")) = pure labelValidator :=
    compileRaw_reference (fun _ _ => rfl) target?_labelled (by decide +kernel) (b + 4) _
  have hroot : (standalone documenting (.object labelled)).compileRaw (b + 6) [""]
      (standalone documenting (.object labelled)).root (Context.root documenting.options none) =
        pure (labelledValidator none) := compileNode_labelled hlabel
  unfold compileValidator runStandalone Session.compileRoot Session.compile
  rw [hb, hroot]
  rfl

theorem compile_labelledCopy : compileValidator documenting (.object labelledCopy) =
    .ok ((labelledValidator (some "A label.")).brand "Documented") := by
  obtain ⟨b, hb⟩ := (standalone documenting (.object labelledCopy)).exists_budget
  unfold compileValidator runStandalone Session.compileRoot Session.compile
  rw [hb]
  rfl

/-- **A rule that sees descriptions tells a reference from a copy of what it names**: the description of the property is
that of the copy. -/
theorem not_transparent_labelled : Expandable (.object labelled) ∧
    Expands (.object labelled) (.object labelled) (.object labelledCopy) ∧ documenting.options.jsdocs = false ∧
    compileText documenting (.object labelled) ≠ compileText documenting (.object labelledCopy) := by
  refine ⟨expandable_labelled, expands_labelled, rfl, fun hsame => ?_⟩
  unfold compileText at hsame
  rw [compile_labelled, compile_labelledCopy] at hsame
  revert hsame
  decide +kernel

end Compile
end Valgen
