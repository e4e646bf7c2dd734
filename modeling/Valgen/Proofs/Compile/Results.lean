import Valgen.Proofs.Compile.Alignment
import Valgen.Proofs.Validator.Parts
/-!
# Proofs.Compile.Results — what the compilers give

`Gives m a` says that a computation can end with a result, from some state.  There is one lemma for each compiler: what
it gives is put together from what the compilation of the parts gives.  Since the rules do not depend on the patterns
that were asked for before (`Pipeline.run_fst`), no lemma mentions a state.
-/
namespace Valgen
namespace Compile

open Schema (Keywords Node Reference)

variable {ω : Type} {α β : Type}

/-- **A computation can end with a result.** -/
def Gives (m : CompileM ω α) (a : α) : Prop := ∃ s t, Runs m s a t

theorem Gives.of_runs {m : CompileM ω α} {s t : State ω} {a : α} (h : Runs m s a t) : Gives m a := ⟨s, t, h⟩

theorem gives_pure {a b : α} (h : Gives (pure a : CompileM ω α) b) : b = a := by
  obtain ⟨s, t, hruns⟩ := h
  exact (runs_pure.1 hruns).1.symm

theorem not_gives_throw {e : Error} {a : α} : ¬ Gives (throw e : CompileM ω α) a := by
  rintro ⟨s, t, hruns⟩
  exact not_runs_throw hruns

theorem gives_bind {m : CompileM ω α} {f : α → CompileM ω β} {b : β} (h : Gives (m >>= f) b) :
    ∃ a, Gives m a ∧ Gives (f a) b := by
  obtain ⟨s, t, hruns⟩ := h
  obtain ⟨a, u, hm, hf⟩ := runs_bind.1 hruns
  exact ⟨a, .of_runs hm, .of_runs hf⟩

theorem gives_applyRules {setup : Setup} {ctx : Context} {v w : Validator}
    (h : Gives (applyRules setup ctx v : CompileM ω Validator) w) : w = setup.rules.result ctx.path v := by
  obtain ⟨s, t, hruns⟩ := h
  unfold Runs at hruns
  rw [run_applyRules, Prod.mk.injEq, Except.ok.injEq] at hruns
  rw [← hruns.1, Pipeline.run_fst]

section
variable {sub : Sub ω} {k : Keywords Node} {ctx : Context} {node : Node} {v : Validator}

/-! ## Parts -/

theorem gives_compile (h : Gives (sub.compile node ctx) v) :
    ∃ raw, Gives (sub.raw node ctx) raw ∧ v = sub.setup.rules.result ctx.path raw := by
  obtain ⟨raw, hraw, hrules⟩ := gives_bind h
  exact ⟨raw, hraw, gives_applyRules hrules⟩

theorem gives_compileOrAny {node : Option Node} (h : Gives (sub.compileOrAny node ctx) v) :
    (node = none ∧ v = Validator.any) ∨ ∃ c, node = some c ∧ Gives (sub.compile c ctx) v := by
  cases node with
  | none => exact .inl ⟨rfl, gives_pure h⟩
  | some c => exact .inr ⟨c, rfl, h⟩

theorem gives_compileEach {keyword : String} : ∀ {nodes : List Node} {start : Nat} {vs : List Validator},
    Gives (sub.compileEach keyword ctx start nodes) vs →
      List.Forall₂ (fun c v => Gives (sub.compile c.1 (ctx.descend keyword (.index c.2))) v) (nodes.zipIdx start) vs
  | [], _, vs, h => by
    rw [gives_pure h]
    exact .nil
  | node :: rest, start, vs, h => by
    obtain ⟨v, hv, htail⟩ := gives_bind h
    obtain ⟨ws, hws, hreturn⟩ := gives_bind htail
    rw [gives_pure hreturn]
    exact .cons hv (gives_compileEach hws)

/-! ## Compositions -/

theorem gives_compileAllOf (h : Gives (compileAllOf sub k ctx) v) : ∃ vs, v = balanced vs ∧
    List.Forall₂ (fun c v => Gives (sub.compile c.1 (ctx.descend "allOf" (.index c.2))) v)
      (((k.allOf.getD []).map asObject).zipIdx) vs := by
  rw [compileAllOf_eq] at h
  obtain ⟨vs, hvs, hreturn⟩ := gives_bind h
  exact ⟨vs, gives_pure hreturn, gives_compileEach hvs⟩

/-- **What alternatives give**: every value for no member, what one member gives for itself, else their join. -/
theorem gives_compileAlternatives {keyword : String} {join : List Validator → Base} {members : List Node}
    (h : Gives (compileAlternatives sub keyword join members ctx) v) :
    (members = [] ∧ v = Validator.any) ∨
    (∃ c, members = [c] ∧ Gives (sub.compile c (ctx.descend keyword (.index 0))) v) ∨
    (∃ vs, 1 < members.length ∧ v = Validator.ofBase (join vs) ∧
      List.Forall₂ (fun c v => Gives (sub.compile c.1 (ctx.descend keyword (.index c.2))) v) members.zipIdx vs) := by
  match members, h with
  | [], h => exact .inl ⟨rfl, gives_pure h⟩
  | [c], h => exact .inr (.inl ⟨c, rfl, h⟩)
  | c :: d :: rest, h =>
    obtain ⟨vs, hvs, hreturn⟩ := gives_bind h
    exact .inr (.inr ⟨vs, by simp, gives_pure hreturn, gives_compileEach hvs⟩)

theorem gives_compileNot (h : Gives (compileNot sub k ctx) v) :
    v = Validator.any ∨ ∃ node negated message, Gives (sub.compile node (ctx.child (.key "not"))) negated ∧
      v = Validator.any.refine (failsPredicate (sub.setup.render negated)) message := by
  unfold compileNot at h
  split at h
  · exact .inl (gives_pure h)
  · obtain ⟨negated, hnegated, hreturn⟩ := gives_bind h
    exact .inr ⟨_, negated, _, hnegated, gives_pure hreturn⟩

theorem gives_compileConditional (h : Gives (compileConditional sub k ctx) v) : ∃ node condition yes no,
    Gives (sub.compile node (ctx.child (.key "if"))) condition ∧
    Gives (sub.compileOrAny k.thenSchema (ctx.child (.key "then"))) yes ∧
    Gives (sub.compileOrAny k.elseSchema (ctx.child (.key "else"))) no ∧
    v = (Validator.ofBase (.union [yes, no])).superRefine (conditionBody (sub.setup.render condition)
      (sub.setup.render yes) (sub.setup.render no) (issuesField ctx.dialect)) := by
  unfold compileConditional at h
  split at h
  · exact absurd h not_gives_throw
  · obtain ⟨condition, hcondition, h⟩ := gives_bind h
    obtain ⟨yes, hyes, h⟩ := gives_bind h
    obtain ⟨no, hno, hreturn⟩ := gives_bind h
    exact ⟨_, condition, yes, no, hcondition, hyes, hno, gives_pure hreturn⟩

theorem gives_compileTypes : ∀ {types : List String} {vs : List Validator}, Gives (compileTypes sub k ctx types) vs →
    List.Forall₂ (fun t v => Gives (sub.raw (.object (narrow k t)) ctx.withoutDefault) v) types vs
  | [], vs, h => by
    rw [gives_pure h]
    exact .nil
  | t :: rest, vs, h => by
    obtain ⟨v, hv, htail⟩ := gives_bind h
    obtain ⟨ws, hws, hreturn⟩ := gives_bind htail
    rw [gives_pure hreturn]
    exact .cons hv (gives_compileTypes hws)

theorem gives_compileMultiType (hseveral : 1 < k.types.length) (h : Gives (compileMultiType sub k ctx) v) :
    ∃ vs, v = Validator.ofBase (.union vs) ∧
      List.Forall₂ (fun t v => Gives (sub.raw (.object (narrow k t)) ctx.withoutDefault) v) k.types vs := by
  obtain ⟨vs, hvs, h⟩ := gives_bind h
  have hbranches := gives_compileTypes hvs
  have hlength := hbranches.length_eq
  match vs, h with
  | [], h => exact ⟨[], gives_pure h, hbranches⟩
  | [v], _ =>
    rw [List.length_singleton] at hlength
    omega
  | v :: w :: rest, h => exact ⟨_, gives_pure h, hbranches⟩

/-! ## Objects -/

/-- **A property of a shape**, by its entry. -/
structure PropertyOf (sub : Sub ω) (k : Keywords Node) (ctx : Context) (entry : String × Node) (p : Property) :
    Prop where
  key : p.key = entry.1
  description : p.description = entry.2.keywords?.bind (fun c => c.description)
  value : ∃ raw, Gives (sub.raw entry.2 (ctx.descend "properties" (.key entry.1))) raw ∧
    p.value = sub.setup.rules.result (ctx.descend "properties" (.key entry.1)).path (marked (k.isRequired entry.1) raw)

theorem gives_compileProperties : ∀ {entries : List (String × Node)} {properties : List Property},
    Gives (compileProperties sub k ctx entries) properties → List.Forall₂ (PropertyOf sub k ctx) entries properties
  | [], properties, h => by
    rw [gives_pure h]
    exact .nil
  | (name, node) :: rest, properties, h => by
    obtain ⟨raw, hraw, h⟩ := gives_bind h
    obtain ⟨value, hvalue, h⟩ := gives_bind h
    obtain ⟨others, hothers, hreturn⟩ := gives_bind h
    rw [gives_pure hreturn]
    exact .cons ⟨rfl, rfl, raw, hraw, gives_applyRules hvalue⟩ (gives_compileProperties hothers)

theorem map_key_of_properties {entries : List (String × Node)} {properties : List Property}
    (h : List.Forall₂ (PropertyOf sub k ctx) entries properties) :
    properties.map Property.key = entries.map Prod.fst := by
  induction h with
  | nil => rfl
  | cons hp _ ih => rw [List.map_cons, List.map_cons, hp.key, ih]

/-- **What becomes of unlisted keys**, by `additionalProperties`. -/
inductive UnlistedOf (sub : Sub ω) (ctx : Context) : Option Node → Unlisted → Prop
  | absent : UnlistedOf sub ctx none .strip
  | no : UnlistedOf sub ctx (some (.bool false)) .strict
  | yes : UnlistedOf sub ctx (some (.bool true)) .passthrough
  | values {k : Keywords Node} {v : Validator} :
    Gives (sub.compile (.object k) (ctx.child (.key "additionalProperties"))) v →
      UnlistedOf sub ctx (some (.object k)) (.catchall v)

theorem UnlistedOf.eq_strip_iff {additional : Option Node} {rest : Unlisted} (h : UnlistedOf sub ctx additional rest) :
    rest = .strip ↔ additional = none := by
  cases h <;> simp

theorem gives_compileUnlisted {rest : Unlisted} (h : Gives (compileUnlisted sub k ctx) rest) :
    UnlistedOf sub ctx k.additionalProperties rest := by
  unfold compileUnlisted at h
  match hadditional : k.additionalProperties with
  | none =>
    simp only [hadditional] at h
    rw [gives_pure h]
    exact .absent
  | some (.bool false) =>
    simp only [hadditional] at h
    rw [gives_pure h]
    exact .no
  | some (.bool true) =>
    simp only [hadditional] at h
    rw [gives_pure h]
    exact .yes
  | some (.object values) =>
    simp only [hadditional] at h
    obtain ⟨v, hv, hreturn⟩ := gives_bind h
    rw [gives_pure hreturn]
    exact .values hv

/-- **What the object itself is**, without the compositions beside it: a map or a shape. -/
inductive ObjectBaseOf (sub : Sub ω) (k : Keywords Node) (ctx : Context) : Validator → Prop
  | anyMap : k.properties = none → (∀ values, k.additionalProperties ≠ some (.object values)) →
    ObjectBaseOf sub k ctx (.ofBase (.record .any))
  | map {values : Keywords Node} {v : Validator} : k.properties = none →
    k.additionalProperties = some (.object values) →
    Gives (sub.compile (.object values) (ctx.child (.key "additionalProperties"))) v →
    ObjectBaseOf sub k ctx (.ofBase (.record v))
  | shape {entries : List (String × Node)} {properties : List Property} {rest : Unlisted} :
    k.properties = some entries → List.Forall₂ (PropertyOf sub k ctx) entries properties →
    UnlistedOf sub ctx k.additionalProperties rest → ObjectBaseOf sub k ctx (.ofBase (.object properties rest))

theorem gives_compileObjectBase (h : Gives (compileObjectBase sub k ctx) v) : ObjectBaseOf sub k ctx v := by
  unfold compileObjectBase at h
  split at h
  · rename_i hproperties
    unfold compileRecord at h
    split at h
    · rename_i values hvalues
      obtain ⟨w, hw, hreturn⟩ := gives_bind h
      rw [gives_pure hreturn]
      exact .map hproperties hvalues hw
    · rename_i hother
      rw [gives_pure h]
      exact .anyMap hproperties hother
  · rename_i entries hentries
    obtain ⟨properties, hproperties, h⟩ := gives_bind h
    obtain ⟨rest, hrest, hreturn⟩ := gives_bind h
    rw [gives_pure hreturn]
    exact .shape hentries (gives_compileProperties hproperties) (gives_compileUnlisted hrest)

theorem gives_intersectIf {present : Bool} {composition : CompileM ω Validator} {w : Validator}
    (h : Gives (intersectIf present v composition) w) :
    (present = false ∧ w = v) ∨
    (present = true ∧ ∃ other, Gives composition other ∧ w = Validator.ofBase (.intersection v other)) := by
  unfold intersectIf at h
  cases present with
  | false => exact .inl ⟨rfl, gives_pure h⟩
  | true =>
    obtain ⟨other, hother, hreturn⟩ := gives_bind h
    exact .inr ⟨rfl, other, hother, gives_pure hreturn⟩

theorem gives_compileObject (h : Gives (compileObject sub k ctx) v) : ∃ base first second,
    ObjectBaseOf sub k ctx base ∧
    Gives (intersectIf k.allOf.isSome base (compileAllOf sub k ctx)) first ∧
    Gives (intersectIf k.anyOf.isSome first (compileAnyOf sub k ctx)) second ∧
    Gives (intersectIf k.oneOf.isSome second (compileOneOf sub k ctx)) v := by
  obtain ⟨base, hbase, h⟩ := gives_bind h
  obtain ⟨first, hfirst, h⟩ := gives_bind h
  obtain ⟨second, hsecond, h⟩ := gives_bind h
  exact ⟨base, first, second, gives_compileObjectBase hbase, hfirst, hsecond, h⟩

/-! ## Arrays -/

/-- **What an array is**: a tuple where its schema gives places to the items. -/
inductive ArrayOf (sub : Sub ω) (k : Keywords Node) (ctx : Context) : Validator → Prop
  | places {nodes : List Node} {items : List Validator} {rest : Option Validator} : k.prefixItems = some nodes →
    List.Forall₂ (fun c v => Gives (sub.compile c.1 (ctx.descend "prefixItems" (.index c.2))) v) nodes.zipIdx items →
    Gives (compileRest sub k ctx) rest → ArrayOf sub k ctx (.ofBase (.tuple items rest))
  | tuple {nodes : List Node} {items : List Validator} : k.prefixItems = none → k.items = some (.tuple nodes) →
    List.Forall₂ (fun c v => Gives (sub.compile c.1 (ctx.descend "items" (.index c.2))) v) nodes.zipIdx items →
    ArrayOf sub k ctx (.ofBase (.tuple items none))
  | items {node : Node} {item : Validator} : k.prefixItems = none → k.items = some (.single node) →
    Gives (sub.compile node (ctx.child (.key "items"))) item → ArrayOf sub k ctx (.ofBase (.array item (sizeChecks k)))
  | anyItems : k.prefixItems = none → k.items = none → ArrayOf sub k ctx (.ofBase (.array .any (sizeChecks k)))

theorem gives_compileArray (h : Gives (compileArray sub k ctx) v) : ArrayOf sub k ctx v := by
  unfold compileArray at h
  split at h
  · rename_i nodes hplaces
    obtain ⟨items, hitems, h⟩ := gives_bind h
    obtain ⟨rest, hrest, hreturn⟩ := gives_bind h
    rw [gives_pure hreturn]
    exact .places hplaces (gives_compileEach hitems) hrest
  · rename_i hplaces
    split at h
    · rename_i nodes hnodes
      obtain ⟨items, hitems, hreturn⟩ := gives_bind h
      rw [gives_pure hreturn]
      exact .tuple hplaces hnodes (gives_compileEach hitems)
    · rename_i node hnode
      obtain ⟨item, hitem, hreturn⟩ := gives_bind h
      rw [gives_pure hreturn]
      exact .items hplaces hnode hitem
    · rename_i hnone
      rw [gives_pure h]
      exact .anyItems hplaces hnone

theorem gives_compileRest {rest : Option Validator} (h : Gives (compileRest sub k ctx) rest) :
    (rest = none ∧ ∀ node, k.items = some (.single node) → node = .bool false) ∨
    ∃ node v, k.items = some (.single node) ∧ rest = some v ∧
      Gives (sub.compile node (ctx.child (.key "items"))) v := by
  unfold compileRest at h
  split at h
  · rename_i hfalse
    refine .inl ⟨gives_pure h, fun node hnode => ?_⟩
    rw [hfalse] at hnode
    cases hnode
    rfl
  · rename_i node _ hnode
    obtain ⟨v, hv, hreturn⟩ := gives_bind h
    exact .inr ⟨node, v, hnode, gives_pure hreturn, hv⟩
  · rename_i hother
    exact .inl ⟨gives_pure h, fun node hnode => absurd hnode (hother node)⟩

/-! ## Nodes and references -/

/-- **What the markers of annotations preserve, annotations preserve.** -/
theorem annotate_induction {P : Validator → Prop}
    (hmark : ∀ {v m}, m.slot ≠ .refinement → m.slot ≠ .optional → P v → P (v.mark m))
    (hreplace : ∀ {v m}, m.slot ≠ .refinement → m.slot ≠ .optional → P v → P (v.replace m)) (hv : P v) :
    P (annotate k ctx v) := by
  unfold annotate
  dsimp only
  have hnullable : P (if k.nullable = some true then v.nullable else v) := by
    split
    · exact hmark Slot.noConfusion Slot.noConfusion hv
    · exact hv
  generalize (if k.nullable = some true then v.nullable else v) = v at hnullable ⊢
  have hreadonly : P (if k.readOnly = some true then v.readonly else v) := by
    split
    · exact hmark Slot.noConfusion Slot.noConfusion hnullable
    · exact hnullable
  generalize (if k.readOnly = some true then v.readonly else v) = v at hreadonly ⊢
  have hdefault : ∀ {w : Validator} (value : Json), P w →
      P (if ctx.defaultsEnabled then w.withDefault value else w) := by
    intro w value hw
    split
    · exact hreplace Slot.noConfusion Slot.noConfusion hw
    · exact hw
  cases k.description with
  | none =>
    cases k.default with
    | none => exact hreadonly
    | some value => exact hdefault value hreadonly
  | some text =>
    have hdescribed : P (v.describe text) := hreplace Slot.noConfusion Slot.noConfusion hreadonly
    cases k.default with
    | none => exact hdescribed
    | some value => exact hdefault value hdescribed

theorem base_annotate : (annotate k ctx v).base = v.base :=
  annotate_induction (P := fun w => w.base = v.base) (fun _ _ hw => (Validator.base_mark _ _).trans hw)
    (fun _ _ hw => hw) rfl

theorem parts_annotate : (annotate k ctx v).parts = v.parts :=
  annotate_induction (P := fun w => w.parts = v.parts)
    (fun hslot _ hw => (Validator.parts_mark _ (Modifier.parts_of_slot hslot)).trans hw)
    (fun hslot _ hw => (Validator.parts_replace _ hslot).trans hw) rfl

theorem gives_compileNode (hhook : sub.setup.hook node ctx = none) (h : Gives (compileNode sub node ctx) v) :
    (node = .bool true ∧ v = .any) ∨ (node = .bool false ∧ v = .never) ∨
    ∃ k w, node = .object k ∧ Gives (compileKind sub (select sub.setup.recipes k) k ctx) w ∧ v = annotate k ctx w := by
  unfold compileNode at h
  rw [hhook] at h
  match node, h with
  | .bool true, h => exact .inl ⟨rfl, gives_pure h⟩
  | .bool false, h => exact .inr (.inl ⟨rfl, gives_pure h⟩)
  | .object k, h =>
    obtain ⟨w, hw, hreturn⟩ := gives_bind h
    exact .inr (.inr ⟨k, w, rfl, hw, gives_pure hreturn⟩)

end

/-- **What a reference gives**: what it is resolved to, or what the node it names gives, unless that is being
expanded. -/
theorem gives_refer {s : Session ω} {compileAt : List String → Node → Context → CompileM ω Validator}
    {active : List String} {reference : String} {ctx : Context} {v : Validator}
    (h : Gives (s.refer compileAt active reference ctx) v) :
    Gives (s.resolve reference ctx) (.validator v) ∨
    ∃ pointer, Gives (s.resolve reference ctx) (.inline pointer) ∧
      ((Reference.keyOf pointer ∈ active ∧ v = s.recursion (Reference.keyOf pointer)) ∨
        (Reference.keyOf pointer ∉ active ∧ ∃ target, s.root.pointer? (Reference.keyOf pointer) = some target ∧
          Gives (compileAt (Reference.keyOf pointer :: active) target ctx) v)) := by
  obtain ⟨resolution, hresolution, h⟩ := gives_bind h
  cases resolution with
  | validator w =>
    rw [gives_pure h]
    exact .inl hresolution
  | inline pointer =>
    refine .inr ⟨pointer, hresolution, ?_⟩
    dsimp only at h
    split at h
    · rename_i hactive
      exact .inl ⟨List.contains_iff_mem.1 hactive, gives_pure h⟩
    · rename_i hfresh
      refine .inr ⟨fun hmem => hfresh (List.contains_iff_mem.2 hmem), ?_⟩
      split at h
      · exact absurd h not_gives_throw
      · rename_i target htarget
        exact ⟨target, htarget, h⟩

theorem gives_resolve_standalone {setup : Setup} {root : Node} {reference : String} {ctx : Context}
    {resolution : Resolution} (h : Gives ((standalone setup root).resolve reference ctx) resolution) :
    (Reference.parse reference).document.isEmpty = true ∧
      resolution = .inline (Reference.parse reference).fragment := by
  unfold standalone resolveLocally at h
  dsimp only at h
  split at h
  · rename_i hdocument
    exact ⟨hdocument, gives_pure h⟩
  · exact absurd h not_gives_throw

theorem gives_session_compile {s : Session ω} {active : List String} {node : Node} {ctx : Context} {v : Validator}
    (h : Gives (s.compile active node ctx) v) :
    ∃ raw, Gives (s.compileRaw s.budget active node ctx) raw ∧ v = s.setup.rules.result ctx.path raw := by
  obtain ⟨raw, hraw, hrules⟩ := gives_bind h
  exact ⟨raw, hraw, gives_applyRules hrules⟩

/-- A few levels are always within the budget. -/
theorem Session.exists_budget (s : Session ω) : ∃ b, s.budget = b + 6 := by
  have hheight := s.root.one_le_height
  refine Nat.exists_eq_add_of_le' ?_
  unfold budget
  dsimp only
  generalize s.root.refs.length + s.setup.recipes.references.length = references
  have hlevels := Nat.mul_le_mul (show 1 ≤ references + 1 by omega) (show 5 ≤ 2 * s.root.height + 3 by omega)
  omega

/-- **A document that stands alone is compiled to what its root gives.** -/
theorem gives_of_compileValidator {setup : Setup} {root : Node} {v : Validator}
    (h : compileValidator setup root = .ok v) :
    Gives ((standalone setup root).compileRoot (Context.root setup.options none)) v := by
  unfold compileValidator runStandalone at h
  split at h
  · cases h
  · exact ⟨_, _, Prod.ext h rfl⟩

end Compile
end Valgen
