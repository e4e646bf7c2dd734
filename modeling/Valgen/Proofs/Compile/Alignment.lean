import Valgen.Proofs.Compile.Halving
import Valgen.Proofs.Schema.Alike
/-!
# Proofs.Compile.Alignment — two compilations side by side

A `Coupling` relates two computations by what their results have in common, and is kept by results, failures and
sequences.  An `Alignment` says for two compilations which schemas, places and validators correspond: the relation
between validators has one clause for each way in which the compiler puts validators together, so that schemas with the
same keywords are compiled to corresponding validators as soon as their parts and references are
(`SubAligned.compileNode`).  Everything that compares compilations of different schemas, at different places or with
different answers to references rests on this one walk through the keywords.
-/
namespace Valgen
namespace Compile

open Schema (Facts Items Keywords Node)

variable {ω ω' : Type}

/-! ## Couplings -/

/-- **A relation between computations, given one between their results**, that is kept by all that the compilation of a
node puts them together with.  It need not hold where a budget is spent. -/
structure Coupling (ω ω' : Type) where
  rel : {α α' : Type} → (α → α' → Prop) → CompileM ω α → CompileM ω' α' → Prop
  result : ∀ {α α' : Type} {P : α → α' → Prop} {a : α} {a' : α'}, P a a' → rel P (pure a) (pure a')
  failure : ∀ {α α' : Type} {P : α → α' → Prop} (e : Error), e ≠ .budgetSpent → rel P (throw e) (throw e)
  sequence : ∀ {α α' β β' : Type} {P : α → α' → Prop} {Q : β → β' → Prop} {m : CompileM ω α} {m' : CompileM ω' α'}
    {f : α → CompileM ω β} {f' : α' → CompileM ω' β'},
    rel P m m' → (∀ a a', P a a' → rel Q (f a) (f' a')) → rel Q (m >>= f) (m' >>= f')

/-- **Two runs end alike**: with corresponding results in corresponding states, or with one error; or one of them fails
with an error that excuses it. -/
inductive EndsSideBySide (S : State ω → State ω' → Prop) (excused excused' : Error → Prop) {α α' : Type}
    (P : α → α' → Prop) : Except Error α × State ω → Except Error α' × State ω' → Prop
  | ok {a : α} {a' : α'} {t : State ω} {t' : State ω'} : P a a' → S t t' →
    EndsSideBySide S excused excused' P (.ok a, t) (.ok a', t')
  | error (e : Error) (t : State ω) (t' : State ω') : EndsSideBySide S excused excused' P (.error e, t) (.error e, t')
  | left {e : Error} (t : State ω) (r' : Except Error α' × State ω') : excused e →
    EndsSideBySide S excused excused' P (.error e, t) r'
  | right {e : Error} (r : Except Error α × State ω) (t' : State ω') : excused' e →
    EndsSideBySide S excused excused' P r (.error e, t')

theorem EndsSideBySide.mono {S T : State ω → State ω' → Prop} {excused excused' : Error → Prop} {α α' : Type}
    {P Q : α → α' → Prop} {r : Except Error α × State ω} {r' : Except Error α' × State ω'}
    (h : EndsSideBySide S excused excused' P r r') (hS : ∀ t t', S t t' → T t t') (hP : ∀ a a', P a a' → Q a a') :
    EndsSideBySide T excused excused' Q r r' := by
  cases h with
  | ok ha ht => exact .ok (hP _ _ ha) (hS _ _ ht)
  | error e t t' => exact .error e t t'
  | left t _ he => exact .left t _ he
  | right _ t' he => exact .right _ t' he

/-- **Sequences end alike**, if what follows two runs that do ends alike. -/
theorem EndsSideBySide.bind {S T : State ω → State ω' → Prop} {excused excused' : Error → Prop} {α α' β β' : Type}
    {P : α → α' → Prop} {Q : β → β' → Prop} {m : CompileM ω α} {m' : CompileM ω' α'} {f : α → CompileM ω β}
    {f' : α' → CompileM ω' β'} {s : State ω} {s' : State ω'}
    (hm : EndsSideBySide S excused excused' P (m.run.run s) (m'.run.run s'))
    (hf : ∀ a a' t t', Runs m s a t → Runs m' s' a' t' → P a a' → S t t' →
      EndsSideBySide T excused excused' Q ((f a).run.run t) ((f' a').run.run t')) :
    EndsSideBySide T excused excused' Q ((m >>= f).run.run s) ((m' >>= f').run.run s') := by
  rw [run_bind, run_bind]
  match hrun : m.run.run s, hrun' : m'.run.run s', hm with
  | _, _, .ok ha ht => exact hf _ _ _ _ hrun hrun' ha ht
  | _, _, .error e t t' => exact .error e t t'
  | _, _, .left t _ he => exact .left t _ he
  | _, _, .right _ t' he => exact .right _ t' he

/-- **The coupling of runs from corresponding states that end alike.** -/
def Coupling.ofStates (S : State ω → State ω' → Prop) (excused excused' : Error → Prop) : Coupling ω ω' where
  rel P m m' := ∀ s s', S s s' → EndsSideBySide S excused excused' P (m.run.run s) (m'.run.run s')
  result ha _ _ hs := .ok ha hs
  failure e _ s s' _ := .error e s s'
  sequence hm hf s s' hs := (hm s s' hs).bind (fun a a' t t' _ _ ha ht => hf a a' ha t t' ht)

/-- **Rules are coupled** where the states correspond whatever patterns they remember. -/
theorem Coupling.ofStates_applyRules {S : State ω → State ω' → Prop} {excused excused' : Error → Prop}
    (hS : ∀ {s s'} (patterns patterns' : PatternCache), S s s' →
      S { s with patterns := patterns } { s' with patterns := patterns' })
    {like : Validator → Validator → Prop} {setup setup' : Setup} {ctx ctx' : Context} {v v' : Validator}
    (h : like (Pipeline.result setup.rules ctx.path v) (Pipeline.result setup'.rules ctx'.path v')) :
    (Coupling.ofStates S excused excused').rel like (applyRules setup ctx v) (applyRules setup' ctx' v') := by
  intro s s' hs
  rw [run_applyRules, run_applyRules, Pipeline.run_fst, Pipeline.run_fst]
  exact .ok h (hS _ _ hs)

/-! ## Alignments -/

/-- **A property as the compiler marks it**: optional unless it is required or has a default. -/
def marked (required : Bool) (v : Validator) : Validator := if required || v.hasDefault then v else v.optional

/-- **Unlisted keys are treated alike.** -/
inductive UnlistedAlike (like : Validator → Validator → Prop) : Unlisted → Unlisted → Prop
  | strip : UnlistedAlike like .strip .strip
  | strict : UnlistedAlike like .strict .strict
  | passthrough : UnlistedAlike like .passthrough .passthrough
  | catchall {v v' : Validator} : like v v' → UnlistedAlike like (.catchall v) (.catchall v')

/-- **Properties alike**: one key, corresponding validators and descriptions. -/
structure PropertyAlike (like : Validator → Validator → Prop) (described : Option String → Option String → Prop)
    (p p' : Property) : Prop where
  key : p'.key = p.key
  value : like p.value p'.value
  description : described p.description p'.description

theorem UnlistedAlike.imp {like like' : Validator → Validator → Prop} (hlike : ∀ {v v'}, like v v' → like' v v')
    {rest rest' : Unlisted} (h : UnlistedAlike like rest rest') : UnlistedAlike like' rest rest' := by
  cases h with
  | catchall hv => exact .catchall (hlike hv)
  | strip => exact .strip
  | strict => exact .strict
  | passthrough => exact .passthrough

/-- **What corresponds in two compilations**, by two setups. -/
structure Alignment (C : Coupling ω ω') (setup setup' : Setup) where
  node : Node → Node → Prop
  place : Context → Context → Prop
  like : Validator → Validator → Prop
  /-- The descriptions that stand at corresponding properties. -/
  described : Option String → Option String → Prop
  /-- Whether there may be schemas that are written while they are compiled: in negations, conditions and recipes. -/
  functions : Prop
  form : ∀ {n n'}, node n n' → n.SameForm n'
  describes : ∀ {n n'}, node n n' →
    described (n.keywords?.bind (fun k => k.description)) (n'.keywords?.bind (fun k => k.description))
  path : ∀ {ctx ctx'}, place ctx ctx' → ctx'.path = ctx.path
  child : ∀ {ctx ctx'} (segment : Segment), place ctx ctx' → place (ctx.child segment) (ctx'.child segment)
  withoutDefault : ∀ {ctx ctx'}, place ctx ctx' → place ctx.withoutDefault ctx'.withoutDefault
  recipes : setup'.recipes = setup.recipes
  rules : ∀ {ctx ctx' v v'}, place ctx ctx' → like v v' →
    C.rel like (applyRules setup ctx v) (applyRules setup' ctx' v')
  refl : ∀ v, like v v
  marked : ∀ {v v'} (required : Bool), like v v' → like (marked required v) (marked required v')
  object : ∀ {ps ps' rest rest'}, List.Forall₂ (PropertyAlike like described) ps ps' → UnlistedAlike like rest rest' →
    like (.ofBase (.object ps rest)) (.ofBase (.object ps' rest'))
  array : ∀ {v v'} (checks : List Constraint), like v v' →
    like (.ofBase (.array v checks)) (.ofBase (.array v' checks))
  tuple : ∀ {vs vs' rest rest'}, List.Forall₂ like vs vs' → Option.Rel like rest rest' →
    like (.ofBase (.tuple vs rest)) (.ofBase (.tuple vs' rest'))
  record : ∀ {v v'}, like v v' → like (.ofBase (.record v)) (.ofBase (.record v'))
  union : ∀ {vs vs'}, List.Forall₂ like vs vs' → like (.ofBase (.union vs)) (.ofBase (.union vs'))
  xor : ∀ {vs vs'}, List.Forall₂ like vs vs' → like (.ofBase (.xor vs)) (.ofBase (.xor vs'))
  intersection : ∀ {v v' w w'}, like v v' → like w w' →
    like (.ofBase (.intersection v w)) (.ofBase (.intersection v' w'))
  negation : functions → ∀ {v v'} (message : Option String), like v v' →
    like (Validator.any.refine (failsPredicate (setup.render v)) message)
      (Validator.any.refine (failsPredicate (setup'.render v')) message)
  condition : functions → ∀ {ctx ctx' c c' yes yes' no no'}, place ctx ctx' → like c c' → like yes yes' → like no no' →
    like ((Validator.ofBase (.union [yes, no])).superRefine
        (conditionBody (setup.render c) (setup.render yes) (setup.render no) (issuesField ctx.dialect)))
      ((Validator.ofBase (.union [yes', no'])).superRefine
        (conditionBody (setup'.render c') (setup'.render yes') (setup'.render no') (issuesField ctx'.dialect)))
  made : functions → setup.recipes ≠ [] → ∀ {vs vs'} (make : Style → List Validator → Validator),
    List.Forall₂ like vs vs' → like (make setup.style vs) (make setup'.style vs')

/-- **The parts of two schemas that are compiled side by side.** -/
inductive Parts (N : Node → Node → Prop) (k k' : Keywords Node) : Node → Node → Prop
  | sub {c c' : Node} : N c c' → Parts N k k' c c'
  | member {c c' : Node} : c ∈ k.allOf.getD [] → N c c' → Parts N k k' (asObject c) (asObject c')
  | narrow (typeName : String) : 1 < k.types.length →
    Parts N k k' (.object (narrow k typeName)) (.object (narrow k' typeName))
  | noItem : k.type.isSome → Parts N k k' Node.empty Node.empty

theorem Parts.part {N : Node → Node → Prop} {k k' : Keywords Node} {c c' : Node} (h : Parts N k k' c c')
    (hN : ∀ {c c'}, N c c' → k.Holds c) : Part k c := by
  cases h with
  | sub hc => exact .sub (hN hc)
  | member hmem _ => exact .member hmem
  | narrow typeName hseveral => exact .narrow typeName hseveral
  | noItem htype => exact .noItem htype

/-- **A recipe treats two schemas alike**, as far as it sees them. -/
structure Recipe.TreatsAlike (recipe : Recipe) (shape shape' : Keywords Unit) : Prop where
  requests : ∀ path, recipe.requests shape' path = recipe.requests shape path
  make : ∀ path style answers, recipe.make shape' path style answers = recipe.make shape path style answers

/-- **Recipes come to the same in two schemas**: they treat them alike, and related subschemas stand behind
each step. -/
structure RecipesAlike (N : Node → Node → Prop) (book : RecipeBook) (k k' : Keywords Node) : Prop where
  treated : ∀ e ∈ book, e.2.TreatsAlike k.shape k'.shape
  child? : ∀ step, Option.Rel N (k.child? step) (k'.child? step)

theorem RecipesAlike.self {N : Node → Node → Prop} {k : Keywords Node} (h : ∀ c, k.Holds c → N c c)
    (book : RecipeBook) : RecipesAlike N book k k where
  treated _ _ := ⟨fun _ => rfl, fun _ _ _ => rfl⟩
  child? step := by
    cases hc : k.child? step with
    | none => exact .none
    | some c => exact .some (h c (Keywords.holds_of_child? hc))

/-- **The parts and the references of two schemas are compiled side by side.** -/
structure SubAligned {C : Coupling ω ω'} {setup setup' : Setup} (A : Alignment C setup setup') (k k' : Keywords Node)
    (sub : Sub ω) (sub' : Sub ω') : Prop where
  here : sub.setup = setup
  there : sub'.setup = setup'
  alike : k.Alike A.node k'
  functions : k.not.isSome ∨ k.ifSchema.isSome ∨ setup.recipes ≠ [] → A.functions
  recipes : setup.recipes ≠ [] → RecipesAlike A.node setup.recipes k k'
  raw : ∀ {c c' ctx ctx'}, Parts A.node k k' c c' → A.place ctx ctx' → C.rel A.like (sub.raw c ctx) (sub'.raw c' ctx')
  refer : ∀ {reference ctx ctx'}, Refers setup.recipes k reference → A.place ctx ctx' →
    C.rel A.like (sub.refer reference ctx) (sub'.refer reference ctx')

/-- **What a schema is compiled as does not depend on its subschemas.** -/
theorem select_eq_of_alike {N : Node → Node → Prop} {k k' : Keywords Node} (h : k.Alike N k') (book : RecipeBook) :
    select book k' = select book k := by
  have hsome : ∀ {α β : Type} {r : α → β → Prop} {o : Option α} {o' : Option β}, Option.Rel r o o' →
      o'.isSome = o.isSome := by
    intro α β r o o' ho
    cases ho <;> rfl
  obtain ⟨value, hfacts⟩ := h.facts
  unfold select customKind? isObjectLike isArrayLike selectUntyped
  rw [hfacts, hsome h.properties, hsome h.additionalProperties, hsome h.items, hsome h.prefixItems, hsome h.allOf,
    hsome h.anyOf, hsome h.oneOf, hsome h.not, hsome h.ifSchema, hsome h.thenSchema, hsome h.elseSchema]
  rfl

namespace SubAligned

variable {C : Coupling ω ω'} {setup setup' : Setup} {A : Alignment C setup setup'} {k k' : Keywords Node} {sub : Sub ω}
  {sub' : Sub ω'} {ctx ctx' : Context}

theorem compile (h : SubAligned A k k' sub sub') {c c' : Node} (hc : Parts A.node k k' c c')
    (hctx : A.place ctx ctx') : C.rel A.like (sub.compile c ctx) (sub'.compile c' ctx') := by
  unfold Sub.compile
  rw [h.here, h.there]
  exact C.sequence (h.raw hc hctx) (fun v v' hv => A.rules hctx hv)

theorem compileOrAny (h : SubAligned A k k' sub sub') {o o' : Option Node} (ho : Option.Rel A.node o o')
    (hctx : A.place ctx ctx') : C.rel A.like (sub.compileOrAny o ctx) (sub'.compileOrAny o' ctx') := by
  cases ho with
  | none => exact C.result (A.refl _)
  | some hc => exact h.compile (.sub hc) hctx

theorem descend (keyword : String) (segment : Segment) (hctx : A.place ctx ctx') :
    A.place (ctx.descend keyword segment) (ctx'.descend keyword segment) :=
  A.child _ (A.child _ hctx)

theorem compileEach (h : SubAligned A k k' sub sub') (keyword : String) (hctx : A.place ctx ctx') :
    ∀ {cs cs' : List Node} (start : Nat), List.Forall₂ (Parts A.node k k') cs cs' →
      C.rel (List.Forall₂ A.like) (sub.compileEach keyword ctx start cs) (sub'.compileEach keyword ctx' start cs')
  | _, _, _, .nil => C.result .nil
  | _, _, start, .cons hc hcs => by
    refine C.sequence (h.compile hc (descend keyword _ hctx)) (fun v v' hv => ?_)
    exact C.sequence (compileEach h keyword hctx (start + 1) hcs) (fun vs vs' hvs => C.result (.cons hv hvs))

/-! ## Compositions -/

theorem balanced_alike (A : Alignment C setup setup') : ∀ (vs vs' : List Validator), List.Forall₂ A.like vs vs' →
    A.like (balanced vs) (balanced vs')
  | [], _, h => by
    cases h
    exact A.refl _
  | [v], _, h => by
    cases h with
    | cons hv htail =>
      cases htail
      unfold balanced
      exact hv
  | v :: w :: rest, vs', h => by
    obtain ⟨v', ws', hv, hws, rfl⟩ := List.forall₂_cons_left_iff.1 h
    obtain ⟨w', rest', hw, hrest, rfl⟩ := List.forall₂_cons_left_iff.1 hws
    have hlength : (v' :: w' :: rest').length / 2 = (v :: w :: rest).length / 2 := by rw [h.length_eq]
    unfold balanced
    simp only [hlength]
    exact A.intersection
      (balanced_alike A _ _ (List.forall₂_take _ h)) (balanced_alike A _ _ (List.forall₂_drop _ h))
termination_by vs => vs.length
decreasing_by
  · simp only [List.length_take, List.length_cons]; omega
  · simp only [List.length_drop, List.length_cons]; omega

theorem compileAllOf (h : SubAligned A k k' sub sub') (hctx : A.place ctx ctx') :
    C.rel A.like (compileAllOf sub k ctx) (compileAllOf sub' k' ctx') := by
  have hmembers : List.Forall₂ (Parts A.node k k') ((k.allOf.getD []).map asObject)
      ((k'.allOf.getD []).map asObject) := by
    have hall : List.Forall₂ A.node (k.allOf.getD []) (k'.allOf.getD []) := by
      match k.allOf, k'.allOf, h.alike.allOf with
      | _, _, .none => exact .nil
      | _, _, .some hcs => exact hcs
    rw [List.forall₂_map_left_iff, List.forall₂_map_right_iff]
    exact ((List.forall₂_and_left _ _).2 ⟨fun _ hc => hc, hall⟩).imp (fun _ _ hc => .member hc.1 hc.2)
  rw [compileAllOf_eq, compileAllOf_eq]
  exact C.sequence (h.compileEach "allOf" hctx 0 hmembers) (fun vs vs' hvs => C.result (balanced_alike A vs vs' hvs))

theorem compileAlternatives (h : SubAligned A k k' sub sub') (keyword : String) {join : List Validator → Base}
    (hjoin : ∀ {vs vs'}, List.Forall₂ A.like vs vs' → A.like (.ofBase (join vs)) (.ofBase (join vs')))
    {o o' : Option (List Node)} (ho : Option.Rel (List.Forall₂ A.node) o o') (hctx : A.place ctx ctx') :
    C.rel A.like (compileAlternatives sub keyword join (o.getD []) ctx)
      (compileAlternatives sub' keyword join (o'.getD []) ctx') := by
  cases ho with
  | none => exact C.result (A.refl _)
  | some hcs =>
    cases hcs with
    | nil => exact C.result (A.refl _)
    | cons hc hrest =>
      cases hrest with
      | nil => exact h.compile (.sub hc) (descend keyword _ hctx)
      | cons hc' hrest' =>
        have hparts : List.Forall₂ (Parts A.node k k') _ _ :=
          (List.Forall₂.cons hc (.cons hc' hrest')).imp (fun _ _ hn => .sub hn)
        exact C.sequence (h.compileEach keyword hctx 0 hparts) (fun vs vs' hvs => C.result (hjoin hvs))

theorem compileNot (h : SubAligned A k k' sub sub') (hctx : A.place ctx ctx') :
    C.rel A.like (compileNot sub k ctx) (compileNot sub' k' ctx') := by
  obtain ⟨value, hfacts⟩ := h.alike.facts
  unfold Compile.compileNot
  rw [h.here, h.there, hfacts]
  match hnot : k.not, k'.not, h.alike.not with
  | _, _, .none => exact C.result (A.refl _)
  | _, _, .some hc =>
    have hfunctions : A.functions := h.functions (.inl (by rw [hnot]; rfl))
    refine C.sequence (h.compile (.sub hc) (A.child _ hctx)) (fun v v' hv => C.result ?_)
    exact A.negation hfunctions _ hv

theorem compileConditional (h : SubAligned A k k' sub sub') (hctx : A.place ctx ctx') :
    C.rel A.like (compileConditional sub k ctx) (compileConditional sub' k' ctx') := by
  unfold Compile.compileConditional
  rw [h.here, h.there, A.path hctx]
  match hif : k.ifSchema, k'.ifSchema, h.alike.ifSchema with
  | _, _, .none => exact C.failure _ Error.noConfusion
  | _, _, .some hc =>
    have hfunctions : A.functions := h.functions (.inr (.inl (by rw [hif]; rfl)))
    refine C.sequence (h.compile (.sub hc) (A.child _ hctx)) (fun c c' hcondition => ?_)
    refine C.sequence (h.compileOrAny h.alike.thenSchema (A.child _ hctx)) (fun yes yes' hyes => ?_)
    refine C.sequence (h.compileOrAny h.alike.elseSchema (A.child _ hctx)) (fun no no' hno => C.result ?_)
    exact A.condition hfunctions hctx hcondition hyes hno

theorem compileTypes (h : SubAligned A k k' sub sub') (hseveral : 1 < k.types.length) (hctx : A.place ctx ctx') :
    ∀ types : List String,
      C.rel (List.Forall₂ A.like) (compileTypes sub k ctx types) (compileTypes sub' k' ctx' types)
  | [] => C.result .nil
  | typeName :: rest => by
    refine C.sequence (h.raw (.narrow typeName hseveral) (A.withoutDefault hctx)) (fun v v' hv => ?_)
    exact C.sequence (compileTypes h hseveral hctx rest) (fun vs vs' hvs => C.result (.cons hv hvs))

theorem compileMultiType (h : SubAligned A k k' sub sub') (hseveral : 1 < k.types.length) (hctx : A.place ctx ctx') :
    C.rel A.like (compileMultiType sub k ctx) (compileMultiType sub' k' ctx') := by
  obtain ⟨value, hfacts⟩ := h.alike.facts
  unfold Compile.compileMultiType
  rw [hfacts]
  refine C.sequence (h.compileTypes hseveral hctx k.types) (fun vs vs' hvs => ?_)
  cases hvs with
  | nil => exact C.result (A.union .nil)
  | cons hv hrest =>
    cases hrest with
    | nil => exact C.result hv
    | cons hv' hrest' => exact C.result (A.union (.cons hv (.cons hv' hrest')))

/-! ## Objects and arrays -/

theorem compileProperties (h : SubAligned A k k' sub sub') (hctx : A.place ctx ctx') :
    ∀ {es es' : List (String × Node)}, List.Forall₂ (fun e e' => e'.1 = e.1 ∧ A.node e.2 e'.2) es es' →
      C.rel (List.Forall₂ (PropertyAlike A.like A.described)) (compileProperties sub k ctx es)
        (compileProperties sub' k' ctx' es')
  | _, _, .nil => C.result .nil
  | (name, c) :: es, (name', c') :: es', .cons he hes => by
    obtain ⟨hname, hc⟩ := he
    obtain rfl : name' = name := hname
    obtain ⟨value, hfacts⟩ := h.alike.facts
    have hhere := descend "properties" (.key name') hctx
    unfold Compile.compileProperties
    rw [h.here, h.there, hfacts]
    refine C.sequence (h.raw (.sub hc) hhere) (fun v v' hv => ?_)
    refine C.sequence (A.rules hhere (A.marked (k.isRequired name') hv)) (fun w w' hw => ?_)
    refine C.sequence (compileProperties h hctx hes) (fun ps ps' hps => C.result ?_)
    exact .cons ⟨rfl, hw, A.describes hc⟩ hps

theorem compileUnlisted (h : SubAligned A k k' sub sub') (hctx : A.place ctx ctx') :
    C.rel (UnlistedAlike A.like) (compileUnlisted sub k ctx) (compileUnlisted sub' k' ctx') := by
  unfold Compile.compileUnlisted
  match k.additionalProperties, k'.additionalProperties, h.alike.additionalProperties with
  | _, _, .none => exact C.result .strip
  | _, _, .some hc =>
    have hvalues := h.compile (.sub hc) (A.child (.key "additionalProperties") hctx)
    cases A.form hc with
    | bool value =>
      cases value with
      | true => exact C.result .passthrough
      | false => exact C.result .strict
    | object _ _ => exact C.sequence hvalues (fun v v' hv => C.result (.catchall hv))

theorem compileRecord (h : SubAligned A k k' sub sub') (hctx : A.place ctx ctx') :
    C.rel A.like (compileRecord sub k ctx) (compileRecord sub' k' ctx') := by
  unfold Compile.compileRecord
  match k.additionalProperties, k'.additionalProperties, h.alike.additionalProperties with
  | _, _, .none => exact C.result (A.refl _)
  | _, _, .some hc =>
    have hvalues := h.compile (.sub hc) (A.child (.key "additionalProperties") hctx)
    cases A.form hc with
    | bool _ => exact C.result (A.refl _)
    | object _ _ => exact C.sequence hvalues (fun v v' hv => C.result (A.record hv))

theorem compileObjectBase (h : SubAligned A k k' sub sub') (hctx : A.place ctx ctx') :
    C.rel A.like (compileObjectBase sub k ctx) (compileObjectBase sub' k' ctx') := by
  unfold Compile.compileObjectBase
  match k.properties, k'.properties, h.alike.properties with
  | _, _, .none => exact h.compileRecord hctx
  | _, _, .some hes =>
    refine C.sequence (h.compileProperties hctx hes) (fun ps ps' hps => ?_)
    exact C.sequence (h.compileUnlisted hctx) (fun rest rest' hrest => C.result (A.object hps hrest))

theorem intersectIf {α α' : Type} {o : Option α} {o' : Option α'} {r : α → α' → Prop} (ho : Option.Rel r o o')
    {v v' : Validator} (hv : A.like v v') {m : CompileM ω Validator} {m' : CompileM ω' Validator}
    (hm : C.rel A.like m m') : C.rel A.like (intersectIf o.isSome v m) (intersectIf o'.isSome v' m') := by
  cases ho with
  | none => exact C.result hv
  | some _ => exact C.sequence hm (fun w w' hw => C.result (A.intersection hv hw))

theorem compileObject (h : SubAligned A k k' sub sub') (hctx : A.place ctx ctx') :
    C.rel A.like (compileObject sub k ctx) (compileObject sub' k' ctx') := by
  refine C.sequence (h.compileObjectBase hctx) (fun v v' hv => ?_)
  refine C.sequence (intersectIf h.alike.allOf hv (h.compileAllOf hctx)) (fun v v' hv => ?_)
  have hanyOf := h.compileAlternatives "anyOf" A.union h.alike.anyOf hctx
  refine C.sequence (intersectIf h.alike.anyOf hv hanyOf) (fun v v' hv => ?_)
  exact intersectIf h.alike.oneOf hv (h.compileAlternatives "oneOf" A.xor h.alike.oneOf hctx)

theorem compileRest (h : SubAligned A k k' sub sub') (hctx : A.place ctx ctx') :
    C.rel (Option.Rel A.like) (compileRest sub k ctx) (compileRest sub' k' ctx') := by
  unfold Compile.compileRest
  match k.items, k'.items, h.alike.items with
  | _, _, .none => exact C.result .none
  | _, _, .some hitems =>
    cases hitems with
    | tuple _ => exact C.result .none
    | single hc =>
      have hvalues := h.compile (.sub hc) (A.child (.key "items") hctx)
      cases A.form hc with
      | bool value =>
        cases value with
        | true => exact C.sequence hvalues (fun v v' hv => C.result (.some hv))
        | false => exact C.result .none
      | object _ _ => exact C.sequence hvalues (fun v v' hv => C.result (.some hv))

theorem compileArray (h : SubAligned A k k' sub sub') (hctx : A.place ctx ctx') :
    C.rel A.like (compileArray sub k ctx) (compileArray sub' k' ctx') := by
  have hsizes : sizeChecks k' = sizeChecks k := by
    obtain ⟨value, hfacts⟩ := h.alike.facts
    unfold sizeChecks
    rw [hfacts]
    rfl
  have hparts : ∀ {cs cs' : List Node}, List.Forall₂ A.node cs cs' → List.Forall₂ (Parts A.node k k') cs cs' :=
    fun hcs => hcs.imp (fun _ _ hn => .sub hn)
  unfold Compile.compileArray
  rw [hsizes]
  match k.prefixItems, k'.prefixItems, h.alike.prefixItems with
  | _, _, .some hcs =>
    refine C.sequence (h.compileEach "prefixItems" hctx 0 (hparts hcs)) (fun vs vs' hvs => ?_)
    exact C.sequence (h.compileRest hctx) (fun rest rest' hrest => C.result (A.tuple hvs hrest))
  | _, _, .none =>
    match k.items, k'.items, h.alike.items with
    | _, _, .none => exact C.result (A.refl _)
    | _, _, .some hitems =>
      cases hitems with
      | tuple hcs =>
        exact C.sequence (h.compileEach "items" hctx 0 (hparts hcs)) (fun vs vs' hvs => C.result (A.tuple hvs .none))
      | single hc =>
        exact C.sequence (h.compile (.sub hc) (A.child _ hctx)) (fun v v' hv => C.result (A.array _ hv))

/-! ## Nodes -/

theorem answer (h : SubAligned A k k' sub sub') (hrecipes : setup.recipes ≠ []) (htype : k.type.isSome)
    {references : List String} (hreferences : ∀ target ∈ references, target ∈ setup.recipes.references)
    (request : Request references) (hctx : A.place ctx ctx') :
    C.rel A.like (answer sub k ctx request) (answer sub' k' ctx' request) := by
  cases request with
  | reference target hlisted => exact h.refer (.recipe (hreferences target hlisted)) hctx
  | schema step below ruled =>
    have hpart : Parts A.node k k' ((k.child? step).getD Node.empty) ((k'.child? step).getD Node.empty) := by
      match k.child? step, k'.child? step, (h.recipes hrecipes).child? step with
      | _, _, .none => exact .noItem htype
      | _, _, .some hc => exact .sub hc
    have hhere : A.place (below.foldl Context.child ctx) (below.foldl Context.child ctx') := by
      induction below generalizing ctx ctx' with
      | nil => exact hctx
      | cons segment below ih => exact ih (A.child segment hctx)
    cases ruled with
    | true => exact h.compile hpart hhere
    | false => exact h.raw hpart hhere

theorem compileRecipe (h : SubAligned A k k' sub sub') {typeName : String} {recipe : Recipe}
    (hrecipe : (typeName, recipe) ∈ setup.recipes) (htype : k.type.isSome) (hctx : A.place ctx ctx') :
    C.rel A.like (compileRecipe sub recipe k ctx) (compileRecipe sub' recipe k' ctx') := by
  have hrecipes : setup.recipes ≠ [] := List.ne_nil_of_mem hrecipe
  have hreferences : ∀ target ∈ recipe.references, target ∈ setup.recipes.references :=
    fun target htarget => List.mem_flatMap.2 ⟨_, hrecipe, htarget⟩
  have htreated := (h.recipes hrecipes).treated _ hrecipe
  have hanswers : ∀ requests : List (Request recipe.references),
      C.rel (List.Forall₂ A.like) (answerAll sub k ctx requests) (answerAll sub' k' ctx' requests) := by
    intro requests
    induction requests with
    | nil => exact C.result .nil
    | cons request rest ih =>
      refine C.sequence (h.answer hrecipes htype hreferences request hctx) (fun v v' hv => ?_)
      exact C.sequence ih (fun vs vs' hvs => C.result (.cons hv hvs))
  unfold Compile.compileRecipe
  rw [A.path hctx, htreated.requests]
  cases recipe.requests k.shape ctx.path with
  | error e => exact C.failure e.1 e.2
  | ok requests =>
    refine C.sequence (hanswers requests) (fun vs vs' hvs => C.result ?_)
    rw [h.here, h.there, htreated.make]
    exact A.made (h.functions (.inr (.inr hrecipes))) hrecipes (recipe.make k.shape ctx.path) hvs

theorem compileKind (h : SubAligned A k k' sub sub') {kind : Kind} (hkind : select setup.recipes k = kind)
    (hctx : A.place ctx ctx') : C.rel A.like (compileKind sub kind k ctx) (compileKind sub' kind k' ctx') := by
  obtain ⟨value, hfacts⟩ := h.alike.facts
  cases kind with
  | custom typeName recipe =>
    obtain ⟨htype, hrecipe⟩ := select_eq_custom hkind
    exact h.compileRecipe hrecipe htype hctx
  | object => exact h.compileObject hctx
  | array => exact h.compileArray hctx
  | allOf => exact h.compileAllOf hctx
  | anyOf => exact h.compileAlternatives "anyOf" A.union h.alike.anyOf hctx
  | oneOf => exact h.compileAlternatives "oneOf" A.xor h.alike.oneOf hctx
  | not => exact h.compileNot hctx
  | conditional => exact h.compileConditional hctx
  | multiType => exact h.compileMultiType (select_eq_multiType hkind) hctx
  | reference =>
    simp only [Compile.compileKind]
    rw [hfacts]
    cases href : k.ref with
    | none => exact C.result (A.refl _)
    | some reference => exact h.refer (.own href) hctx
  | any => exact C.result (A.refl _)
  | string | number | integer | boolean | null | enum | const =>
    simp only [Compile.compileKind]
    rw [hfacts]
    exact C.result (A.refl _)

/-- **Schemas with the same keywords are compiled alike if their parts are**, where no hook decides otherwise. -/
theorem compileNode (h : SubAligned A k k' sub sub') (hctx : A.place ctx ctx')
    (hhook : Option.Rel A.like (setup.hook (.object k) ctx) (setup'.hook (.object k') ctx'))
    (hannotate : ∀ {v v'}, A.like v v' → A.like (annotate k ctx v) (annotate k' ctx' v')) :
    C.rel A.like (compileNode sub (.object k) ctx) (compileNode sub' (.object k') ctx') := by
  unfold Compile.compileNode
  rw [h.here, h.there]
  match setup.hook (.object k) ctx, setup'.hook (.object k') ctx', hhook with
  | _, _, .some hv => exact C.result hv
  | _, _, .none =>
    simp only
    rw [A.recipes, select_eq_of_alike h.alike]
    exact C.sequence (h.compileKind rfl hctx) (fun v v' hv => C.result (hannotate hv))

end SubAligned

/-- **Truth values are compiled alike.** -/
theorem compileNode_bool {C : Coupling ω ω'} {setup setup' : Setup} (A : Alignment C setup setup') {sub : Sub ω}
    {sub' : Sub ω'} (hsetup : sub.setup = setup) (hsetup' : sub'.setup = setup') (value : Bool) {ctx ctx' : Context}
    (hhook : Option.Rel A.like (setup.hook (.bool value) ctx) (setup'.hook (.bool value) ctx')) :
    C.rel A.like (compileNode sub (.bool value) ctx) (compileNode sub' (.bool value) ctx') := by
  unfold Compile.compileNode
  rw [hsetup, hsetup']
  match setup.hook (.bool value) ctx, setup'.hook (.bool value) ctx', hhook with
  | _, _, .some hv => exact C.result hv
  | _, _, .none => cases value <;> exact C.result (A.refl _)

end Compile
end Valgen
