import Valgen.Proofs.Compile.Inlining
import Valgen.Proofs.Schema.Erasure
/-!
# Proofs.Compile.DefaultErasure — defaults that are not applied might as well not be there

A document compiled with defaults turned off has the validator, or the error, of the document without the keyword
`default` (`defaults_off_eq_erased`), whichever way the defaults are set for the latter.

The two compilations are aligned (`erasing`): each schema faces itself without defaults, at places that differ in
whether defaults are applied, and the validators are equal.  References are followed to the same key on both sides, and
what a key names in the one document is the same without defaults in the other.
-/
namespace Valgen
namespace Compile

open Schema (Keywords Node Reference)

def Setup.applyingDefaults (setup : Setup) (apply : Bool) : Setup :=
  { setup with options := { setup.options with applyDefaults := apply } }

/-- **A place where no defaults are applied, and the same place with defaults set anew.** -/
def PlaceOff (apply : Bool) (ctx ctx' : Context) : Prop :=
  ctx.applyDefaults = false ∧ ctx' = { ctx with applyDefaults := apply }

theorem PlaceOff.path {apply : Bool} {ctx ctx' : Context} (h : PlaceOff apply ctx ctx') : ctx'.path = ctx.path := by
  rw [h.2]

/-- **The alignment of schemas with themselves without defaults**, where the validators are equal. -/
def erasing (setup : Setup) (apply : Bool) :
    Alignment unlessSpent (setup.applyingDefaults false) (setup.applyingDefaults apply) :=
  { agreeing unlessSpent True True none none (fun _ => True) (fun _ => rfl) rfl
      (fun {_ _ _ _} hctx hv => applyRules_coupled rfl (by rw [hctx.2]) hv) with
    node := fun n n' => n' = n.withoutDefaults
    place := PlaceOff apply
    form := by
      rintro n _ rfl
      cases n with
      | bool value => exact .bool value
      | object k => exact .object k k.withoutDefaults
    describes := by
      rintro n _ rfl _
      cases n with
      | bool value => rfl
      | object k =>
        show k.withoutDefaults.description = k.description
        rw [Keywords.withoutDefaults_eq]
        rfl
    path := PlaceOff.path
    child := by
      rintro ctx _ segment ⟨hoff, rfl⟩
      exact ⟨hoff, rfl⟩
    withoutDefault := by
      rintro ctx _ ⟨hoff, rfl⟩
      exact ⟨hoff, rfl⟩
    rules := fun hctx hv => applyRules_coupled rfl hctx.path hv
    condition := by
      rintro - ctx _ c c' yes yes' no no' ⟨_, rfl⟩ hc hyes hno _
      rw [hc trivial, hyes trivial, hno trivial]
      rfl }

/-- **The other annotations are those of the schema**; the default is not applied, or is not there. -/
theorem annotate_withoutDefaults {apply : Bool} {ctx ctx' : Context} (hctx : PlaceOff apply ctx ctx')
    (k : Keywords Node) (v : Validator) : annotate k.withoutDefaults ctx' v = annotate k ctx v := by
  have hoff : ctx.defaultsEnabled = false := by
    unfold Context.defaultsEnabled
    rw [hctx.1]
    rfl
  rw [Keywords.withoutDefaults_eq]
  unfold annotate
  cases k.default with
  | none => rfl
  | some value =>
    simp only [hoff]
    rfl

theorem asObject_withoutDefaults (n : Node) : asObject n.withoutDefaults = (asObject n).withoutDefaults := by
  match n with
  | .bool true | .bool false | .object _ => rfl

theorem narrow_withoutDefaults (k : Keywords Node) (typeName : String) :
    narrow k.withoutDefaults typeName = (narrow k typeName).withoutDefaults := by
  cases k
  rfl

/-- **A recipe that takes no notice of the default of a schema.** -/
def Recipe.IgnoresDefaults (recipe : Recipe) : Prop :=
  ∀ (shape : Keywords Unit) (value : Option Json), recipe.TreatsAlike shape { shape with default := value }

theorem recipesAlike_withoutDefaults {book : RecipeBook} (h : ∀ e ∈ book, e.2.IgnoresDefaults) (k : Keywords Node) :
    RecipesAlike (fun n n' => n' = n.withoutDefaults) book k k.withoutDefaults := by
  rw [Keywords.withoutDefaults_eq]
  have hshape : Keywords.shape { k.map Node.withoutDefaults with default := none } =
      { k.shape with default := none } := by rw [← k.shape_map Node.withoutDefaults]; rfl
  refine ⟨fun e he => hshape ▸ h e he k.shape none, fun step => ?_⟩
  have hchild : Keywords.child? { k.map Node.withoutDefaults with default := none } step =
      (k.child? step).map Node.withoutDefaults := k.child?_map Node.withoutDefaults step
  rw [hchild]
  exact Keywords.rel_map_of (fun _ _ => rfl)

/-- **A document and the document without defaults correspond.** -/
theorem documentsAligned_withoutDefaults {setup : Setup} (hhook : ∀ node ctx, setup.hook node ctx = none)
    (hrecipes : ∀ e ∈ setup.recipes, e.2.IgnoresDefaults) (apply : Bool) (root : Node) :
    DocumentsAligned (erasing setup apply) root root.withoutDefaults where
  hook := hhook
  hook' := hhook
  name := rfl
  alike := by
    intro k k' hk
    cases hk
    exact k.alike_withoutDefaults
  functions _ _ := trivial
  recipes := by
    intro k k' hk _
    cases hk
    exact recipesAlike_withoutDefaults hrecipes k
  parts := by
    intro k k' c c' hk hpart
    cases hk
    cases hpart with
    | sub hc => exact hc
    | @member d _ _ hd =>
      cases hd
      exact asObject_withoutDefaults d
    | narrow typeName _ => exact congrArg Node.object (narrow_withoutDefaults k typeName)
    | noItem _ => rfl
  annotated := by
    intro k k' ctx ctx' v v' hk hctx hv _
    cases hk
    rw [hv trivial, annotate_withoutDefaults hctx]
  roots := rfl
  named key := by
    rw [Node.pointer?_withoutDefaults]
    cases root.pointer? key with
    | none => exact .none
    | some target => exact .some rfl

/-- **Turning defaults off is having none**: whatever the rules, and whether or not defaults are applied there, a
document with defaults turned off has the validator or the error of the document without the keyword `default`.  There
may be recipes that take no notice of defaults. -/
theorem defaults_off_eq_erased {setup : Setup} (hhook : ∀ node ctx, setup.hook node ctx = none)
    (hrecipes : ∀ e ∈ setup.recipes, e.2.IgnoresDefaults) (apply : Bool) (root : Node) :
    compileValidator (setup.applyingDefaults false) root =
      compileValidator (setup.applyingDefaults apply) root.withoutDefaults := by
  have hroot : PlaceOff apply (Context.root (setup.applyingDefaults false).options none)
      (Context.root (setup.applyingDefaults apply).options none) := ⟨rfl, rfl⟩
  rcases (documentsAligned_withoutDefaults hhook hrecipes apply root).compileValidator hroot rfl with
    ⟨e, he, he'⟩ | ⟨v, v', hv, hv', hsame⟩
  · rw [he, he']
  · rw [hv, hv', hsame trivial]

/-- **A setup with a rule given as a function**, which brands what has a default, and with a recipe. -/
def brandingDefaults : Setup := {
  rules := [.user "brand-defaults" (fun _ v => .answer (if v.hasDefault then some (v.brand "Default") else none)),
    .forceRequired "**"]
  recipes := [("tags", .itemArray)] }

/-- **A note with tags and a label**, all of which have defaults. -/
def taggedNote : Node := .object {
  type := some (.single "object")
  properties := some [
    ("tags", .object {
      type := some (.single "tags")
      items := some (.single (.object labelSchema))
      default := some (.array []) }),
    ("label", .object { ref := some "#/$defs/label" })]
  defs := some [("label", .object labelSchema)] }

theorem taggedNote_withoutDefaults_ne : taggedNote.withoutDefaults ≠ taggedNote := by
  simp [taggedNote, labelSchema, Node.withoutDefaults, Keywords.withoutDefaults, Schema.mapWithoutDefaults,
    Schema.entriesWithoutDefaults]

theorem defaults_off_eq_erased_taggedNote : taggedNote.withoutDefaults ≠ taggedNote ∧
    compileValidator (brandingDefaults.applyingDefaults false) taggedNote =
      compileValidator (brandingDefaults.applyingDefaults true) taggedNote.withoutDefaults := by
  have hrecipes : ∀ e ∈ brandingDefaults.recipes, e.2.IgnoresDefaults :=
    List.forall_mem_singleton.2 (fun _ _ => ⟨fun _ => rfl, fun _ _ _ => rfl⟩)
  exact ⟨taggedNote_withoutDefaults_ne, defaults_off_eq_erased (fun _ _ => rfl) hrecipes true taggedNote⟩

end Compile
end Valgen
