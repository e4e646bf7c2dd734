import Mathlib.Tactic.MkIffOfInductiveProp
import Valgen.Proofs.Compile.Nesting
import Valgen.Proofs.Compile.Results
import Valgen.Proofs.Schema.Expansion
import Valgen.Proofs.Validator.Markers
/-!
# Proofs.Compile.Defaults — where the default of a validator comes from

The validator of a schema has a default if the schema has one itself, if it is a composition of one member that has, or
if it is a reference to a schema that has and the session replaces the reference by that schema (`Defaulted`).  Whether
it does depends on the session: alone, a document replaces every reference; in a project one to an export is answered
with a name, and nothing of the schema behind it is seen.
-/
namespace Valgen

mutual

/-- **The properties of an object**, also beside compositions. -/
def Validator.shape? : Validator → Option (List Property)
  | ⟨base, _⟩ => base.shape?

/-- **The properties of an object base**, which stands first in the intersection with compositions. -/
def Base.shape? : Base → Option (List Property)
  | .object properties _ => some properties
  | .intersection left _ => left.shape?
  | _ => none

end

theorem Validator.shape?_eq (v : Validator) : v.shape? = v.base.shape? := by
  cases v
  rfl

namespace Compile

open Schema (Keywords Leads Node Reference target?_eq_some_iff)

/-! ## Schemas with a default -/

/-- **The only member of the composition that a schema is compiled as.** -/
@[mk_iff]
inductive Sole (k : Keywords Node) : Node → Prop
  | allOf {c : Node} : select [] k = .allOf → k.allOf = some [c] → Sole k (asObject c)
  | anyOf {c : Node} : select [] k = .anyOf → k.anyOf = some [c] → Sole k c
  | oneOf {c : Node} : select [] k = .oneOf → k.oneOf = some [c] → Sole k c

theorem Sole.part {k : Keywords Node} {c : Node} (h : Sole k c) : Part k c := by
  cases h with
  | allOf _ hmembers => exact .member (by simp [hmembers])
  | anyOf _ hmembers => exact .sub (.anyOf (by simp [hmembers]))
  | oneOf _ hmembers => exact .sub (.oneOf (by simp [hmembers]))

theorem Sole.eq {k : Keywords Node} {c c' : Node} (h : Sole k c) (h' : Sole k c') : c' = c := by
  cases h <;> cases h' <;> simp_all

theorem Sole.not_reference {k : Keywords Node} {c : Node} (h : Sole k c) : select [] k ≠ .reference := by
  cases h <;> simp_all

/-- **A schema whose validator has a default**, where `follow` gives the schema that a reference is replaced by. -/
inductive Defaulted (follow : String → Option Node) : Node → Prop
  | own {k : Keywords Node} {value : Json} : k.default = some value → Defaulted follow (.object k)
  | member {k : Keywords Node} {c : Node} : Sole k c → Defaulted follow c → Defaulted follow (.object k)
  | reference {k : Keywords Node} {reference : String} {target : Node} : select [] k = .reference →
    k.ref = some reference → follow reference = some target → Defaulted follow target → Defaulted follow (.object k)

theorem not_defaulted_bool (follow : String → Option Node) (value : Bool) : ¬ Defaulted follow (.bool value) := by
  rintro ⟨⟩

theorem Defaulted.mono {follow follow' : String → Option Node}
    (hfollow : ∀ {reference target}, follow reference = some target → follow' reference = some target) {node : Node}
    (h : Defaulted follow node) : Defaulted follow' node := by
  induction h with
  | own hdefault => exact .own hdefault
  | member hsole _ ih => exact .member hsole ih
  | reference hselect href htarget _ ih => exact .reference hselect href (hfollow htarget) ih

/-- **A schema whose validator has the default of another schema's.** -/
def Inherits (follow : String → Option Node) (k : Keywords Node) : Prop :=
  (∃ c, Sole k c ∧ Defaulted follow c) ∨
    (select [] k = .reference ∧ ∃ reference target, k.ref = some reference ∧ follow reference = some target ∧
      Defaulted follow target)

theorem defaulted_object_iff {follow : String → Option Node} {k : Keywords Node} :
    Defaulted follow (.object k) ↔ Inherits follow k ∨ k.default.isSome := by
  constructor
  · rintro (hdefault | ⟨hsole, h⟩ | ⟨hselect, href, htarget, h⟩)
    · exact .inr (Option.isSome_of_mem hdefault)
    · exact .inl (.inl ⟨_, hsole, h⟩)
    · exact .inl (.inr ⟨hselect, _, _, href, htarget, h⟩)
  · rintro ((⟨c, hsole, h⟩ | ⟨hselect, _, _, href, htarget, h⟩) | hdefault)
    · exact .member hsole h
    · exact .reference hselect href htarget h
    · obtain ⟨value, hvalue⟩ := Option.isSome_iff_exists.1 hdefault
      exact .own hvalue

theorem inherits_of_sole {follow : String → Option Node} {k : Keywords Node} {c : Node} (h : Sole k c) :
    Inherits follow k ↔ Defaulted follow c := by
  constructor
  · rintro (⟨c', hsole, hc⟩ | ⟨hselect, _⟩)
    · exact h.eq hsole ▸ hc
    · exact absurd hselect h.not_reference
  · exact fun hc => .inl ⟨c, h, hc⟩

theorem inherits_of_reference {follow : String → Option Node} {k : Keywords Node} {reference : String}
    (hselect : select [] k = .reference) (href : k.ref = some reference) :
    Inherits follow k ↔ ∃ target, follow reference = some target ∧ Defaulted follow target := by
  constructor
  · rintro (⟨c, hsole, _⟩ | ⟨_, reference', target, href', htarget, h⟩)
    · exact absurd hselect hsole.not_reference
    · rw [href] at href'
      cases href'
      exact ⟨target, htarget, h⟩
  · rintro ⟨target, htarget, h⟩
    exact .inr ⟨hselect, reference, target, href, htarget, h⟩

/-! ## Markers of a schema's own validator -/

theorem marks_literalOf (facts : Schema.Facts) (value : Json) : (literalOf facts value).Marks False := by
  unfold literalOf
  split
  · exact (Validator.marks_ofBase _).push rfl
  · exact (Validator.marks_ofBase _).push rfl
  · exact Validator.marks_ofBase _

theorem marks_enumeration (facts : Schema.Facts) : (enumeration facts).Marks False := by
  unfold enumeration
  split
  · exact Validator.marks_ofBase _
  · exact marks_literalOf facts _
  · split <;> exact Validator.marks_ofBase _

theorem marks_constant (facts : Schema.Facts) : (constant facts).Marks False := by
  unfold constant
  split
  · exact marks_literalOf facts _
  · exact Validator.marks_ofBase _

theorem marks_primitive (kind : Kind) (facts : Schema.Facts) : (primitive kind facts).Marks False := by
  unfold primitive
  split_ifs
  · exact marks_enumeration facts
  · exact marks_constant facts
  · split <;> exact Validator.marks_ofBase _

theorem isOptional_marked (required : Bool) (raw : Validator) :
    (marked required raw).isOptional = (raw.isOptional || (!required && !raw.hasDefault)) := by
  unfold marked
  cases required <;> cases raw.hasDefault <;> simp

theorem isOptional_annotate {k : Keywords Node} {ctx : Context} {v : Validator} :
    (annotate k ctx v).isOptional = v.isOptional :=
  annotate_induction (P := fun w => w.isOptional = v.isOptional)
    (fun _ hslot hw => by simpa [Validator.isOptional, Validator.hasSlot_mark, hslot] using hw)
    (fun _ hslot hw => by simpa [Validator.isOptional, Validator.hasSlot_replace, hslot] using hw) rfl

theorem hasDefault_annotate {k : Keywords Node} {ctx : Context} {v : Validator} :
    (annotate k ctx v).hasDefault = (v.hasDefault || (k.default.isSome && ctx.defaultsEnabled)) := by
  have hmark : ∀ (c : Prop) [Decidable c] (w : Validator) (m : Modifier), m.slot ≠ .default →
      (if c then w.mark m else w).hasSlot .default = w.hasSlot .default := by
    intro c _ w m hm
    split
    · simp [Validator.hasSlot_mark, hm]
    · rfl
  unfold annotate Validator.hasDefault Validator.nullable Validator.readonly Validator.describe Validator.withDefault
  dsimp only
  cases k.description <;> cases k.default <;> cases ctx.defaultsEnabled <;>
    simp [Validator.hasSlot_replace, Modifier.slot, hmark _ _ .readonly Slot.noConfusion,
      hmark _ _ .nullable Slot.noConfusion]

/-! ## Markers by kind -/

/-- **A place below another one**, in the same document and with the same choices. -/
structure Context.Below (ctx here : Context) : Prop where
  applyDefaults : here.applyDefaults = ctx.applyDefaults
  suppressDefault : here.suppressDefault = false
  document : here.document = ctx.document

theorem Context.below_descend (ctx : Context) (keyword : String) (segment : Segment) :
    ctx.Below (ctx.descend keyword segment) := ⟨rfl, rfl, rfl⟩

/-- **Where the markers of a schema's validator come from**, but for its own annotations: there are none, or they are
those of the only member, or those that a reference is answered with. -/
inductive MarkersOf {ω : Type} (sub : Sub ω) (k : Keywords Node) (ctx : Context) : Validator → Prop
  | unmarked {v : Validator} : (∀ c, ¬ Sole k c) → (select [] k = .reference → k.ref = none) → v.Marks False →
    MarkersOf sub k ctx v
  | member {c : Node} {here : Context} {raw : Validator} : Sole k c → ctx.Below here → Gives (sub.raw c here) raw →
    MarkersOf sub k ctx (sub.setup.rules.result here.path raw)
  | reference {reference : String} {v : Validator} : select [] k = .reference → k.ref = some reference →
    Gives (sub.refer reference ctx) v → MarkersOf sub k ctx v

section
variable {ω : Type} {sub : Sub ω} {k : Keywords Node} {ctx : Context} {v : Validator}

theorem MarkersOf.of_kind (hkind : select [] k ∉ [.allOf, .anyOf, .oneOf, .reference]) (hv : v.Marks False) :
    MarkersOf sub k ctx v := by
  refine .unmarked (fun c hsole => hkind ?_) (fun hselect => absurd ?_ hkind) hv
  · cases hsole with
    | allOf hselect | anyOf hselect | oneOf hselect => simp [hselect]
  · simp [hselect]

/-- **A composition**: its only member, or a validator without markers. -/
theorem MarkersOf.of_members (hkind : select [] k ≠ .reference)
    (h : (v.Marks False ∧ ∀ c, ¬ Sole k c) ∨
      ∃ c keyword segment, Sole k c ∧ Gives (sub.compile c (ctx.descend keyword segment)) v) :
        MarkersOf sub k ctx v := by
  rcases h with ⟨hv, hnone⟩ | ⟨c, keyword, segment, hsole, hc⟩
  · exact .unmarked hnone (fun hselect => absurd hselect hkind) hv
  · obtain ⟨raw, hraw, rfl⟩ := gives_compile hc
    exact .member hsole (ctx.below_descend keyword segment) hraw

theorem markersOf_compileAllOf (hselect : select [] k = .allOf) (h : Gives (compileAllOf sub k ctx) v) :
    MarkersOf sub k ctx v := by
  have hsole : ∀ {c}, Sole k c → ∃ node, k.allOf.getD [] = [node] := by
    intro c hc
    simp only [sole_iff, hselect, reduceCtorEq, false_and, or_false, true_and] at hc
    obtain ⟨node, hmembers, _⟩ := hc
    exact ⟨node, by rw [hmembers, Option.getD_some]⟩
  obtain ⟨vs, rfl, hvs⟩ := gives_compileAllOf h
  refine .of_members (by simp [hselect]) ?_
  generalize hmembers : k.allOf.getD [] = members at hsole hvs
  match members, vs, hvs with
  | [], [], _ =>
    rw [balanced]
    exact .inl ⟨Validator.marks_ofBase _, fun c hc => by simpa using hsole hc⟩
  | [node], [w], .cons hw _ =>
    have hsome : k.allOf = some [node] := by
      cases hallOf : k.allOf with
      | none => simp [hallOf] at hmembers
      | some nodes => simpa [hallOf] using hmembers
    rw [balanced]
    exact .inr ⟨_, _, _, .allOf hselect hsome, hw⟩
  | _ :: _ :: _, _ :: _ :: _, _ =>
    rw [balanced]
    exact .inl ⟨Validator.marks_ofBase _, fun c hc => by simpa using hsole hc⟩

theorem markersOf_compileAlternatives {keyword : String} {join : List Validator → Base} {members : List Node}
    (hkind : select [] k ≠ .reference) (hsole : ∀ c, Sole k c ↔ members = [c])
    (h : Gives (compileAlternatives sub keyword join members ctx) v) : MarkersOf sub k ctx v := by
  refine .of_members hkind ?_
  rcases gives_compileAlternatives h with ⟨rfl, rfl⟩ | ⟨c, rfl, hc⟩ | ⟨vs, hseveral, rfl, _⟩
  · exact .inl ⟨Validator.marks_ofBase _, fun c => by simp [hsole]⟩
  · exact .inr ⟨c, _, _, (hsole c).2 rfl, hc⟩
  · refine .inl ⟨Validator.marks_ofBase _, fun c hc => ?_⟩
    rw [(hsole c).1 hc] at hseveral
    exact absurd hseveral (by simp)

theorem marks_compileObject (h : Gives (compileObject sub k ctx) v) : v.Marks False := by
  obtain ⟨base, first, second, hbase, hfirst, hsecond, hlast⟩ := gives_compileObject h
  have hown : base.Marks False := by cases hbase <;> exact Validator.marks_ofBase _
  have hstep : ∀ {present : Bool} {v w : Validator} {composition : CompileM ω Validator}, v.Marks False →
      Gives (intersectIf present v composition) w → w.Marks False := by
    intro present v w composition hv hw
    rcases gives_intersectIf hw with ⟨_, rfl⟩ | ⟨_, _, _, rfl⟩
    · exact hv
    · exact Validator.marks_ofBase _
  exact hstep (hstep (hstep hown hfirst) hsecond) hlast

theorem markersOf_compileKind (h : Gives (compileKind sub (select [] k) k ctx) v) : MarkersOf sub k ctx v := by
  have hgetD : ∀ {members : Option (List Node)} {c : Node}, members = some [c] ↔ members.getD [] = [c] := by
    intro members c
    cases members <;> simp
  generalize hselect : select [] k = kind at h
  cases kind with
  | custom typeName recipe => exact absurd (select_eq_custom hselect).2 List.not_mem_nil
  | object => exact .of_kind (by simp [hselect]) (marks_compileObject h)
  | array =>
    refine .of_kind (by simp [hselect]) ?_
    cases gives_compileArray h <;> exact Validator.marks_ofBase _
  | string | number | integer | boolean | null =>
    rw [gives_pure h]
    exact .of_kind (by simp [hselect]) (marks_primitive _ _)
  | enum =>
    rw [gives_pure h]
    exact .of_kind (by simp [hselect]) (marks_enumeration _)
  | const =>
    rw [gives_pure h]
    exact .of_kind (by simp [hselect]) (marks_constant _)
  | allOf => exact markersOf_compileAllOf hselect h
  | anyOf => exact markersOf_compileAlternatives (by simp [hselect]) (fun c => by simp [sole_iff, hselect, hgetD]) h
  | oneOf => exact markersOf_compileAlternatives (by simp [hselect]) (fun c => by simp [sole_iff, hselect, hgetD]) h
  | not =>
    refine .of_kind (by simp [hselect]) ?_
    rcases gives_compileNot h with rfl | ⟨_, _, _, _, rfl⟩
    · exact Validator.marks_ofBase _
    · exact (Validator.marks_ofBase _).push rfl
  | conditional =>
    obtain ⟨_, _, yes, no, _, _, _, rfl⟩ := gives_compileConditional h
    exact .of_kind (by simp [hselect]) ((Validator.marks_ofBase _).push rfl)
  | multiType =>
    obtain ⟨vs, rfl, _⟩ := gives_compileMultiType (select_eq_multiType hselect) h
    exact .of_kind (by simp [hselect]) (Validator.marks_ofBase _)
  | reference =>
    rw [compileKind] at h
    cases href : k.ref with
    | some reference =>
      rw [href] at h
      exact .reference hselect href h
    | none =>
      rw [href] at h
      rw [gives_pure h]
      exact .unmarked (fun c hsole => absurd hselect hsole.not_reference) (fun _ => href) (Validator.marks_ofBase _)
  | any =>
    rw [gives_pure h]
    exact .of_kind (by simp [hselect]) (Validator.marks_ofBase _)

end

/-! ## Sessions -/

/-- **What a reference is answered with, as far as defaults go**: a name where `follow` finds nothing, or the place of
what `follow` finds, which is not being expanded. -/
inductive Shown (root : Node) (follow : String → Option Node) (fit : List String → Node → Prop) (active : List String)
    (reference : String) : Resolution → Prop
  | named {v : Validator} : v.Marks False → follow reference = none →
    Shown root follow fit active reference (.validator v)
  | inline : Reference.keyOf (Reference.parse reference).fragment ∉ active →
    follow reference = root.pointer? (Reference.keyOf (Reference.parse reference).fragment) →
    (∀ target, follow reference = some target →
      fit (Reference.keyOf (Reference.parse reference).fragment :: active) target) →
    Shown root follow fit active reference (.inline (Reference.parse reference).fragment)

/-- **A session in which references are replaced as `follow` says**, on the way from schemas that `fit` into the
document. -/
structure Session.FollowedBy {ω : Type} (s : Session ω) (follow : String → Option Node) (document : Option String)
    (fit : List String → Node → Prop) : Prop where
  hook : ∀ node ctx, s.setup.hook node ctx = none
  recipes : s.setup.recipes = []
  rules : ∀ rule ∈ s.setup.rules, rule.forces = false
  member : ∀ {active k c}, fit active (.object k) → Sole k c → fit active c
  answer : ∀ {active k reference ctx a}, fit active (.object k) → select [] k = .reference → k.ref = some reference →
    ctx.document = document → Gives (s.resolve reference ctx) a → Shown s.root follow fit active reference a

namespace Session.FollowedBy

variable {ω : Type} {s : Session ω} {follow : String → Option Node} {document : Option String}
  {fit : List String → Node → Prop}

/-- **The validator of a schema has a default where `Defaulted` says so**: by induction on the nesting of calls. -/
theorem marks (h : s.FollowedBy follow document fit) : ∀ (budget : Nat) {active : List String} {node : Node}
    {ctx : Context} {v : Validator}, fit active node → ctx.document = document → ctx.suppressDefault = false →
      Gives (s.compileRaw budget active node ctx) v → v.Marks (ctx.applyDefaults = true ∧ Defaulted follow node)
  | 0, _, _, _, _, _, _, _, hv => absurd hv not_gives_throw
  | budget + 1, active, node, ctx, v, hfit, hdocument, hsuppress, hv => by
    rcases gives_compileNode (h.hook node ctx) hv with ⟨rfl, rfl⟩ | ⟨rfl, rfl⟩ | ⟨k, w, rfl, hw, rfl⟩
    · simp only [not_defaulted_bool, and_false]
      exact Validator.marks_ofBase _
    · simp only [not_defaulted_bool, and_false]
      exact Validator.marks_ofBase _
    · rw [show s.setup.recipes = [] from h.recipes] at hw
      -- Before the annotations there is only the default that the schema has from another one.
      have hinherited : w.Marks (ctx.applyDefaults = true ∧ Inherits follow k) := by
        cases markersOf_compileKind hw with
        | unmarked hnone href hw =>
          have hno : ¬ Inherits follow k := by
            rintro (⟨c, hsole, _⟩ | ⟨hselect, reference, _, hreference, _⟩)
            · exact hnone c hsole
            · rw [href hselect] at hreference
              cases hreference
          simpa only [hno, and_false] using hw
        | member hsole hbelow hraw =>
          rw [inherits_of_sole hsole, ← hbelow.applyDefaults]
          exact (marks h budget (h.member hfit hsole) (hbelow.document.trans hdocument) hbelow.suppressDefault
            hraw).result h.rules _
        | reference hselect href hrefer =>
          rw [inherits_of_reference hselect href]
          rcases gives_refer hrefer with hresolve | ⟨pointer, hresolve, hwhere⟩
          · cases h.answer hfit hselect href hdocument hresolve with
            | named hw hnone => simpa [hnone] using hw
          · cases h.answer hfit hselect href hdocument hresolve with
            | inline hfresh hfollow htarget =>
              rcases hwhere with ⟨hactive, _⟩ | ⟨_, target, hfound, hgives⟩
              · exact absurd hactive hfresh
              · have hnamed := hfollow.trans hfound
                simpa [hnamed] using marks h budget (htarget target hnamed) hdocument hsuppress hgives
      refine ⟨isOptional_annotate.trans hinherited.mandatory, ?_⟩
      rw [hasDefault_annotate, defaulted_object_iff, Context.defaultsEnabled, hsuppress]
      simp [hinherited.hasDefault, and_or_left, and_comm]

/-- **A property is optional unless it is required or has a default.** -/
theorem isOptional_property (h : s.FollowedBy follow document fit) {budget : Nat} {active : List String}
    {refer : String → Context → CompileM ω Validator} {k : Keywords Node} {ctx : Context} {entry : String × Node}
    {p : Property} (hfit : fit active entry.2) (hdocument : ctx.document = document)
    (hp : PropertyOf ⟨s.setup, s.compileRaw budget active, refer⟩ k ctx entry p) :
    p.value.isOptional = true ↔
      k.isRequired entry.1 = false ∧ ¬ (ctx.applyDefaults = true ∧ Defaulted follow entry.2) := by
  obtain ⟨raw, hraw, hvalue⟩ := hp.value
  have hbelow := ctx.below_descend "properties" (.key entry.1)
  have hmarks := h.marks budget hfit (hbelow.document.trans hdocument) hbelow.suppressDefault hraw
  rw [hbelow.applyDefaults] at hmarks
  have hrules : ∀ w, (s.setup.rules.result (ctx.descend "properties" (.key entry.1)).path w).isOptional =
      w.isOptional :=
    fun w => Pipeline.hasSlot_result h.rules _ w (.inl rfl)
  rw [← hmarks.hasDefault, hvalue, hrules, isOptional_marked, hmarks.mandatory]
  simp

theorem isOptional_properties (h : s.FollowedBy follow document fit) {budget : Nat} {active : List String}
    {refer : String → Context → CompileM ω Validator} {k : Keywords Node} {ctx : Context}
    {entries : List (String × Node)} {properties : List Property} (hfit : ∀ e ∈ entries, fit active e.2)
    (hdocument : ctx.document = document)
    (hproperties : List.Forall₂ (PropertyOf ⟨s.setup, s.compileRaw budget active, refer⟩ k ctx) entries properties) :
    List.Forall₂ (fun e p => p.value.isOptional = true ↔
      k.isRequired e.1 = false ∧ ¬ (ctx.applyDefaults = true ∧ Defaulted follow e.2)) entries properties :=
  ((List.forall₂_and_left _ _).2 ⟨hfit, hproperties⟩).imp (fun _ _ hp => h.isOptional_property hp.1 hdocument hp.2)

end Session.FollowedBy

/-! ## The shape of a document -/

section
variable {ω : Type} {s : Session ω} {k : Keywords Node} {entries : List (String × Node)} {ctx : Context} {v : Validator}

theorem shape?_of_makes {rule : Rule} {v w : Validator} (h : rule.Makes v w) (hrule : rule.isUser = false) :
    w.shape? = v.shape? := by
  rw [w.shape?_eq, v.shape?_eq]
  cases h with
  | same | branded | required | refined => rfl
  | strict hbase | nonEmpty hbase => simp [hbase, Base.shape?]
  | optional => rw [Validator.optional, Validator.base_mark]
  | user => cases hrule

theorem shape?_result {rules : Pipeline} (hrules : ∀ rule ∈ rules, rule.isUser = false) (path : Path) (v : Validator) :
    (rules.result path v).shape? = v.shape? :=
  Pipeline.result_induction path (P := fun w => w.shape? = v.shape?)
    (fun rule hmem w hw => (shape?_of_makes (rule.makes_effect path w) (hrules rule hmem)).trans hw) rfl

theorem shape?_annotate : (annotate k ctx v).shape? = v.shape? := by
  rw [Validator.shape?_eq, base_annotate, ← Validator.shape?_eq]

theorem shape?_intersectIf {present : Bool} {v w : Validator} {composition : CompileM ω Validator}
    (h : Gives (intersectIf present v composition) w) : w.shape? = v.shape? := by
  rcases gives_intersectIf h with ⟨_, rfl⟩ | ⟨_, _, _, rfl⟩ <;> rfl

/-- **The root of a document that is an object shows its properties.** -/
theorem gives_compileRoot (hhook : ∀ node ctx, s.setup.hook node ctx = none) (hrecipes : s.setup.recipes = [])
    (hrules : ∀ rule ∈ s.setup.rules, rule.isUser = false) (hroot : s.root = .object k)
    (hselect : select [] k = .object) (hproperties : k.properties = some entries)
    (h : Gives (s.compileRoot ctx) v) : ∃ budget properties, v.shape? = some properties ∧ List.Forall₂
      (PropertyOf ⟨s.setup, s.compileRaw budget [""], s.refer (s.compileRaw budget) [""]⟩ k ctx) entries
        properties := by
  obtain ⟨raw, hraw, rfl⟩ := gives_session_compile h
  obtain ⟨budget, hbudget⟩ := s.exists_budget
  rw [hbudget, hroot] at hraw
  rcases gives_compileNode (hhook _ _) hraw with ⟨heq, _⟩ | ⟨heq, _⟩ | ⟨k', w, heq, hw, rfl⟩
  · cases heq
  · cases heq
  · cases heq
    rw [show s.setup.recipes = [] from hrecipes, hselect] at hw
    obtain ⟨base, first, second, hbase, hfirst, hsecond, hlast⟩ := gives_compileObject hw
    cases hbase with
    | anyMap hnone | map hnone => simp [hnone] at hproperties
    | @shape entries' properties rest hentries hps =>
      rw [hproperties] at hentries
      cases hentries
      refine ⟨budget + 5, properties, ?_, hps⟩
      rw [shape?_result hrules, shape?_annotate, shape?_intersectIf hlast, shape?_intersectIf hsecond,
        shape?_intersectIf hfirst]
      rfl

end

/-! ## Documents that stand alone -/

/-- **The way from the root to a schema**, through the references that are being expanded: each of them leads to every
reference that is left. -/
structure Trail (root : Node) (active : List String) (node : Node) : Prop where
  refs : ∀ reference ∈ node.refs, reference ∈ root.refs
  passed : ∀ key ∈ active, key = "" ∨ ∃ reference, (Reference.parse reference).document.isEmpty = true ∧
    Reference.keyOf (Reference.parse reference).fragment = key ∧
    ∀ inner ∈ node.refs, Relation.TransGen (Leads root) reference inner

namespace Trail

variable {root node : Node} {active : List String} {k : Keywords Node}

theorem part (h : Trail root active (.object k)) (hpart : Part k node) : Trail root active node where
  refs reference hr := h.refs reference (mem_refs_of_part hpart hr)
  passed key hkey := by
    rcases h.passed key hkey with hroot | ⟨reference, hdocument, heq, hleads⟩
    · exact .inl hroot
    · exact .inr ⟨reference, hdocument, heq, fun inner hr => hleads inner (mem_refs_of_part hpart hr)⟩

theorem of_property {entries : List (String × Node)} (hproperties : k.properties = some entries)
    {entry : String × Node} (hentry : entry ∈ entries) : Trail (.object k) [""] entry.2 where
  refs reference hr := Node.mem_refs_of_holds (.property (by rw [hproperties]; exact hentry)) hr
  passed key hkey := .inl (List.mem_singleton.1 hkey)

/-- **A reference that is left is not being expanded**, since it would lead back to itself. -/
theorem fresh (h : Trail root active node)
    (hacyclic : ∀ reference ∈ root.refs, ¬ Relation.TransGen (Leads root) reference reference) {reference : String}
    (hr : reference ∈ node.refs) (hdocument : (Reference.parse reference).document.isEmpty = true) :
    Reference.keyOf (Reference.parse reference).fragment ∉ active := by
  have hroot := h.refs reference hr
  intro hactive
  rcases h.passed _ hactive with hempty | ⟨before, hlocal, hkey, hleads⟩
  · -- The empty key is that of the root, which holds the reference.
    have htarget : root.target? reference = some root := by
      rw [Node.target?, if_pos hdocument, hempty]
      rfl
    exact hacyclic reference hroot (.single ⟨root, htarget, hroot⟩)
  · -- Two references with one key name one schema, so what the earlier one leads to this one leads to.
    have hsame : root.target? before = root.target? reference := by
      rw [Node.target?, Node.target?, if_pos hlocal, if_pos hdocument, hkey]
    obtain ⟨inner, ⟨target, htarget, hinner⟩, hback⟩ := Relation.TransGen.head'_iff.1 (hleads reference hr)
    exact hacyclic reference hroot (.head' ⟨target, hsame ▸ htarget, hinner⟩ hback)

theorem target (h : Trail root active (.object k)) {reference : String} {target : Node} (href : k.ref = some reference)
    (htarget : root.target? reference = some target) :
    Trail root (Reference.keyOf (Reference.parse reference).fragment :: active) target where
  refs inner hr := Leads.mem_refs ⟨target, htarget, hr⟩
  passed key hkey := by
    have hown := Node.mem_refs_of_ref href
    rcases List.mem_cons.1 hkey with rfl | hactive
    · exact .inr ⟨reference, (target?_eq_some_iff.1 htarget).1, rfl, fun inner hr => .single ⟨target, htarget, hr⟩⟩
    · rcases h.passed key hactive with hroot | ⟨before, hdocument, heq, hleads⟩
      · exact .inl hroot
      · exact .inr ⟨before, hdocument, heq, fun inner hr => (hleads reference hown).tail ⟨target, htarget, hr⟩⟩

end Trail

/-- **A document that stands alone replaces every reference.** -/
theorem followedBy_standalone {setup : Setup} {root : Node} (hhook : ∀ node ctx, setup.hook node ctx = none)
    (hrecipes : setup.recipes = []) (hrules : ∀ rule ∈ setup.rules, rule.forces = false)
    (hacyclic : ∀ reference ∈ root.refs, ¬ Relation.TransGen (Leads root) reference reference) :
    (standalone setup root).FollowedBy root.target? none (Trail root) where
  hook := hhook
  recipes := hrecipes
  rules := hrules
  member htrail hsole := htrail.part hsole.part
  answer := by
    intro active k reference ctx a htrail _ href _ hanswer
    obtain ⟨hdocument, rfl⟩ := gives_resolve_standalone hanswer
    refine .inline (htrail.fresh hacyclic (Node.mem_refs_of_ref href) hdocument) ?_ (fun _ => htrail.target href)
    rw [Node.target?, if_pos hdocument]
    rfl

/-- **A schema that the document, alone, was compiled through**, on a way from the root. -/
structure Compiled (setup : Setup) (root : Node) (active : List String) (node : Node) : Prop where
  trail : Trail root active node
  gives : ∃ budget ctx v, Gives ((standalone setup root).compileRaw budget active node ctx) v

namespace Compiled

variable {setup : Setup} {root : Node} {active : List String} {k : Keywords Node}

theorem markersOf (hhook : ∀ node ctx, setup.hook node ctx = none) (hrecipes : setup.recipes = [])
    (h : Compiled setup root active (.object k)) : ∃ budget ctx v, MarkersOf ⟨setup,
      (standalone setup root).compileRaw budget active,
      (standalone setup root).refer ((standalone setup root).compileRaw budget) active⟩ k ctx v := by
  obtain ⟨budget, ctx, v, hv⟩ := h.gives
  cases budget with
  | zero => exact absurd hv not_gives_throw
  | succ budget =>
    rcases gives_compileNode (hhook _ _) hv with ⟨heq, _⟩ | ⟨heq, _⟩ | ⟨k', w, heq, hw, _⟩
    · cases heq
    · cases heq
    · cases heq
      rw [show (standalone setup root).setup.recipes = [] from hrecipes] at hw
      exact ⟨budget, ctx, w, markersOf_compileKind hw⟩

theorem member (hhook : ∀ node ctx, setup.hook node ctx = none) (hrecipes : setup.recipes = [])
    (h : Compiled setup root active (.object k)) {c : Node} (hsole : Sole k c) : Compiled setup root active c := by
  obtain ⟨budget, ctx, v, hmarkers⟩ := h.markersOf hhook hrecipes
  refine ⟨h.trail.part hsole.part, ?_⟩
  cases hmarkers with
  | unmarked hnone => exact absurd hsole (hnone c)
  | member hsole' _ hraw =>
    obtain rfl := hsole.eq hsole'
    exact ⟨_, _, _, hraw⟩
  | reference hselect => exact absurd hselect hsole.not_reference

/-- **A reference on the way stays in the document and names a schema that the way goes on to.** -/
theorem target (hhook : ∀ node ctx, setup.hook node ctx = none) (hrecipes : setup.recipes = [])
    (hacyclic : ∀ reference ∈ root.refs, ¬ Relation.TransGen (Leads root) reference reference)
    (h : Compiled setup root active (.object k)) (hselect : select [] k = .reference) {reference : String}
    (href : k.ref = some reference) : (Reference.parse reference).document.isEmpty = true ∧
      ∃ target, root.target? reference = some target ∧
        Compiled setup root (Reference.keyOf (Reference.parse reference).fragment :: active) target := by
  obtain ⟨budget, ctx, v, hmarkers⟩ := h.markersOf hhook hrecipes
  cases hmarkers with
  | unmarked _ hnone => simp [hnone hselect] at href
  | member hsole => exact absurd hselect hsole.not_reference
  | @reference reference' _ _ href' hrefer =>
    obtain rfl : reference' = reference := Option.some.inj (href'.symm.trans href)
    rcases gives_refer hrefer with hresolve | ⟨pointer, hresolve, hwhere⟩
    · obtain ⟨_, hinline⟩ := gives_resolve_standalone hresolve
      cases hinline
    · obtain ⟨hdocument, hinline⟩ := gives_resolve_standalone hresolve
      cases hinline
      rcases hwhere with ⟨hactive, _⟩ | ⟨_, target, hfound, hgives⟩
      · exact absurd hactive (h.trail.fresh hacyclic (Node.mem_refs_of_ref href) hdocument)
      · have htarget : root.target? reference' = some target := target?_eq_some_iff.2 ⟨hdocument, hfound⟩
        exact ⟨hdocument, target, htarget, h.trail.target href htarget, budget, _, _, hgives⟩

end Compiled

end Compile
end Valgen
