import Valgen.Proofs.Compile.Nesting
import Valgen.Proofs.Compile.Sessions
/-!
# Proofs.Compile.SideBySide — two documents that stand alone

Two compilations that end alike unless a budget is spent (`unlessSpent`) end alike, since none is
(`compileValidator_alike`).  So the budgets of two documents need not be compared, and neither need the documents be
equal: they correspond if an alignment goes on from a schema to its parts and holds of what a pointer names in both
(`DocumentsAligned`).  They are compiled to corresponding validators then, or to one error
(`DocumentsAligned.compileValidator`).
-/
namespace Valgen
namespace Compile

open Schema (Keywords Node Reference)

/-- **Two runs end alike**, unless a budget is spent. -/
def unlessSpent : Coupling Unit Unit := .ofStates (fun _ _ => True) (· = .budgetSpent) (· = .budgetSpent)

/-- **Documents whose compilations end alike unless a budget is spent** have corresponding validators or one error,
since none is spent. -/
theorem compileValidator_alike {setup setup' : Setup} {root root' : Node} {P : Validator → Validator → Prop}
    (h : unlessSpent.rel P ((standalone setup root).compileRoot (Context.root setup.options none))
      ((standalone setup' root').compileRoot (Context.root setup'.options none)))
    (hoptions : checkOptions setup'.options = checkOptions setup.options) :
    (∃ e, compileValidator setup root = .error e ∧ compileValidator setup' root' = .error e) ∨
      ∃ v v', compileValidator setup root = .ok v ∧ compileValidator setup' root' = .ok v' ∧ P v v' := by
  have hends := runStandalone_ends setup root PatternCache.empty
  have hends' := runStandalone_ends setup' root' PatternCache.empty
  unfold compileValidator
  unfold runStandalone at hends hends' ⊢
  rw [hoptions] at hends' ⊢
  cases hcheck : checkOptions setup.options with
  | error e => exact .inl ⟨e, rfl, rfl⟩
  | ok _ =>
    simp only [hcheck] at hends hends' ⊢
    match ((standalone setup root).compileRoot (Context.root setup.options none)).run.run ⟨PatternCache.empty, ()⟩,
      ((standalone setup' root').compileRoot (Context.root setup'.options none)).run.run ⟨PatternCache.empty, ()⟩,
      h _ _ trivial, hends, hends' with
    | _, _, .ok hv _, _, _ => exact .inr ⟨_, _, rfl, rfl, hv⟩
    | _, _, .error e _ _, _, _ => exact .inl ⟨e, rfl, rfl⟩
    | _, _, .left _ _ he, hends, _ => exact absurd (congrArg Except.error he) hends
    | _, _, .right _ _ he, _, hends' => exact absurd (congrArg Except.error he) hends'

/-- **One pipeline of rules changes equal validators alike**, at places with one path. -/
theorem applyRules_coupled {exact : Prop} {setup setup' : Setup} (hrules : setup'.rules = setup.rules)
    {ctx ctx' : Context} (hpath : ctx'.path = ctx.path) {v v' : Validator} (hv : Agree exact v v') :
    unlessSpent.rel (Agree exact) (applyRules setup ctx v) (applyRules setup' ctx' v') := by
  refine Coupling.ofStates_applyRules (fun _ _ hs => hs) (fun hexact => ?_)
  rw [hv hexact, hpath, hrules]

/-- **Two documents correspond**, with all that their compilations come to: the parts of corresponding schemas, and what
one pointer names in both. -/
structure DocumentsAligned {setup setup' : Setup} (A : Alignment unlessSpent setup setup') (root root' : Node) :
    Prop where
  hook : ∀ node ctx, setup.hook node ctx = none
  hook' : ∀ node ctx, setup'.hook node ctx = none
  name : setup'.options.name = setup.options.name
  alike : ∀ {k k'}, A.node (.object k) (.object k') → k.Alike A.node k'
  functions : ∀ {k k'}, A.node (.object k) (.object k') →
    k.not.isSome ∨ k.ifSchema.isSome ∨ setup.recipes ≠ [] → A.functions
  recipes : ∀ {k k'}, A.node (.object k) (.object k') → setup.recipes ≠ [] → RecipesAlike A.node setup.recipes k k'
  parts : ∀ {k k' c c'}, A.node (.object k) (.object k') → Parts A.node k k' c c' → A.node c c'
  annotated : ∀ {k k' ctx ctx' v v'}, A.node (.object k) (.object k') → A.place ctx ctx' → A.like v v' →
    A.like (annotate k ctx v) (annotate k' ctx' v')
  roots : A.node root root'
  named : ∀ key, Option.Rel A.node (root.pointer? key) (root'.pointer? key)

namespace DocumentsAligned

variable {setup setup' : Setup} {A : Alignment unlessSpent setup setup'} {root root' : Node}

/-- **A reference is followed to corresponding schemas**, or ends alike. -/
theorem refer (h : DocumentsAligned A root root')
    {compileAt compileAt' : List String → Node → Context → CompileM Unit Validator}
    (hat : ∀ {active node node' ctx ctx'}, A.node node node' → A.place ctx ctx' →
      unlessSpent.rel A.like (compileAt active node ctx) (compileAt' active node' ctx'))
    (active : List String) (reference : String) {ctx ctx' : Context} (hctx : A.place ctx ctx') :
    unlessSpent.rel A.like ((standalone setup root).refer compileAt active reference ctx)
      ((standalone setup' root').refer compileAt' active reference ctx') := by
  unfold Session.refer
  simp only [standalone, resolveLocally, Session.recursion, h.name, A.path hctx]
  split
  · simp only [pure_bind]
    split
    · exact unlessSpent.result (A.refl _)
    · have hnamed := h.named (Reference.keyOf (Reference.parse reference).fragment)
      generalize root.pointer? (Reference.keyOf (Reference.parse reference).fragment) = target at hnamed ⊢
      generalize root'.pointer? (Reference.keyOf (Reference.parse reference).fragment) = target' at hnamed ⊢
      cases hnamed with
      | none => exact unlessSpent.failure _ Error.noConfusion
      | some htarget => exact hat htarget hctx
  · exact unlessSpent.sequence (unlessSpent.failure (P := fun _ _ => False) _ Error.noConfusion)
      (fun _ _ => False.elim)

/-- **Corresponding schemas are compiled alike**, with any two budgets. -/
theorem compileRaw (h : DocumentsAligned A root root') (budget budget' : Nat) (active : List String) {node node' : Node}
    {ctx ctx' : Context} (hnode : A.node node node') (hctx : A.place ctx ctx') :
    unlessSpent.rel A.like ((standalone setup root).compileRaw budget active node ctx)
      ((standalone setup' root').compileRaw budget' active node' ctx') := by
  induction budget generalizing budget' active node node' ctx ctx' with
  | zero => exact fun s _ _ => .left s _ rfl
  | succ budget ih =>
    cases budget' with
    | zero => exact fun _ s' _ => .right _ s' rfl
    | succ budget' =>
      have hhook : Option.Rel A.like (setup.hook node ctx) (setup'.hook node' ctx') := by
        rw [h.hook, h.hook']
        exact .none
      unfold Session.compileRaw
      cases A.form hnode with
      | bool value => exact compileNode_bool A rfl rfl value hhook
      | object k k' =>
        have hsub : SubAligned A k k'
            { setup := setup, raw := (standalone setup root).compileRaw budget active,
              refer := (standalone setup root).refer ((standalone setup root).compileRaw budget) active }
            { setup := setup', raw := (standalone setup' root').compileRaw budget' active,
              refer := (standalone setup' root').refer ((standalone setup' root').compileRaw budget') active } := by
          refine ⟨rfl, rfl, h.alike hnode, h.functions hnode, h.recipes hnode, ?_, ?_⟩
          · intro c c' ctx₁ ctx₁' hpart hctx₁
            exact ih budget' active (h.parts hnode hpart) hctx₁
          · intro reference ctx₁ ctx₁' _ hctx₁
            exact h.refer (fun {active _ _ _ _} => ih budget' active) active reference hctx₁
        exact hsub.compileNode hctx hhook (h.annotated hnode hctx)

/-- **Documents that correspond have corresponding validators or one error.** -/
theorem compileValidator (h : DocumentsAligned A root root')
    (hplace : A.place (Context.root setup.options none) (Context.root setup'.options none))
    (hoptions : checkOptions setup'.options = checkOptions setup.options) :
    (∃ e, compileValidator setup root = .error e ∧ compileValidator setup' root' = .error e) ∨
      ∃ v v', compileValidator setup root = .ok v ∧ compileValidator setup' root' = .ok v' ∧ A.like v v' :=
  compileValidator_alike (unlessSpent.sequence (h.compileRaw _ _ [""] h.roots hplace) (fun _ _ hv => A.rules hplace hv))
    hoptions

end DocumentsAligned

end Compile
end Valgen
