import Valgen.Proofs.Compile.Alignment
/-!
# Proofs.Compile.Sessions — what two sessions on one document have in common

A session touches what its references need to remember only where it resolves one.  Two sessions on one document that
answer references alike compile its nodes alike (`Session.compileRaw_aligned`): the answers may agree only where that is
asked for (`Agree`), and the sessions may know the document by different ids.

A relation between computations with one result (`Congruence`, `Simulation`) is the case in which all answers agree
(`Congruence.coupling`).  With one session on both sides this is how what every reference keeps is lifted to whole
schemas (`Session.compile_related`).
-/
namespace Valgen
namespace Compile

open Schema (Keywords Node)

variable {ω ω' : Type}

/-! ## Equal schemas -/

/-- **Validators agree**, where that is asked for. -/
def Agree (exact : Prop) (v v' : Validator) : Prop := exact → v' = v

theorem Agree.eq_of_forall₂ {exact : Prop} (hexact : exact) : ∀ {vs vs' : List Validator},
    List.Forall₂ (Agree exact) vs vs' → vs' = vs
  | _, _, .nil => rfl
  | _, _, .cons hv hvs => by rw [hv hexact, eq_of_forall₂ hexact hvs]

theorem Agree.eq_of_forall₂_property {exact : Prop} (hexact : exact) : ∀ {ps ps' : List Property},
    List.Forall₂ (PropertyAlike (Agree exact) (fun d d' => exact → d' = d)) ps ps' → ps' = ps
  | _, _, .nil => rfl
  | ⟨_, _, _⟩ :: _, ⟨_, _, _⟩ :: _, .cons ⟨hkey, hvalue, hdescription⟩ hps => by
    rw [eq_of_forall₂_property hexact hps]
    cases hkey
    cases hvalue hexact
    cases hdescription hexact
    rfl

/-- **The same place in a document that goes by two ids.** -/
def SamePlace (document document' : Option String) (ctx ctx' : Context) : Prop :=
  ctx.document = document ∧ ctx' = { ctx with document := document' }

/-- **The alignment of equal schemas**: at the same places, with validators that agree where that is asked for.  They
are written alike if there may be functions. -/
def agreeing {setup setup' : Setup} (C : Coupling ω ω') (exact functions : Prop) (document document' : Option String)
    (holds : Node → Prop) (hstyle : functions → setup'.style = setup.style)
    (hrecipes : setup'.recipes = setup.recipes)
    (hrules : ∀ {ctx ctx' v v'}, SamePlace document document' ctx ctx' → Agree exact v v' →
      C.rel (Agree exact) (applyRules setup ctx v) (applyRules setup' ctx' v')) : Alignment C setup setup' where
  node n n' := n' = n ∧ holds n
  place := SamePlace document document'
  like := Agree exact
  described d d' := exact → d' = d
  functions := functions
  form := by
    rintro n _ ⟨rfl, _⟩
    exact .refl _
  describes := by
    rintro n _ ⟨rfl, _⟩ _
    rfl
  path := by
    rintro ctx _ ⟨_, rfl⟩
    rfl
  child := by
    rintro ctx _ segment ⟨hctx, rfl⟩
    exact ⟨hctx, rfl⟩
  withoutDefault := by
    rintro ctx _ ⟨hctx, rfl⟩
    exact ⟨hctx, rfl⟩
  recipes := hrecipes
  rules := hrules
  refl _ _ := rfl
  marked _ hv hexact := by rw [hv hexact]
  object hps hrest hexact := by
    rw [Agree.eq_of_forall₂_property hexact hps]
    cases hrest with
    | catchall hv => rw [hv hexact]
    | strip | strict | passthrough => rfl
  array _ hv hexact := by rw [hv hexact]
  tuple hvs hrest hexact := by
    rw [Agree.eq_of_forall₂ hexact hvs]
    cases hrest with
    | some hv => rw [hv hexact]
    | none => rfl
  record hv hexact := by rw [hv hexact]
  union hvs hexact := by rw [Agree.eq_of_forall₂ hexact hvs]
  xor hvs hexact := by rw [Agree.eq_of_forall₂ hexact hvs]
  intersection hv hw hexact := by rw [hv hexact, hw hexact]
  negation hfunctions _ _ _ hv hexact := by
    unfold Setup.render
    rw [hv hexact, hstyle hfunctions]
  condition := by
    rintro hfunctions ctx _ c c' yes yes' no no' ⟨_, rfl⟩ hc hyes hno hexact
    unfold Setup.render
    rw [hc hexact, hyes hexact, hno hexact, hstyle hfunctions]
  made hfunctions _ _ _ _ hvs hexact := by rw [Agree.eq_of_forall₂ hexact hvs, hstyle hfunctions]

theorem agree_annotate {exact : Prop} {document document' : Option String} {ctx ctx' : Context} {v v' : Validator}
    (k : Keywords Node) (hctx : SamePlace document document' ctx ctx') (hv : Agree exact v v') :
    Agree exact (annotate k ctx v) (annotate k ctx' v') := by
  obtain ⟨_, rfl⟩ := hctx
  intro hexact
  rw [hv hexact]
  rfl

theorem rel_of_eq {α : Type} {r : α → α → Prop} (hrefl : ∀ a, r a a) : ∀ {o o' : Option α}, o' = o → Option.Rel r o o'
  | none, _, rfl => .none
  | some a, _, rfl => .some (hrefl a)

/-! ## Two sessions side by side -/

/-- **Two sessions on one document**, which goes by two ids: they write validators and apply rules alike.  Nodes that
are compiled satisfy `holds`. -/
structure SessionAligned (C : Coupling ω ω') (exact : Prop) (document document' : Option String) (holds : Node → Prop)
    (s : Session ω) (s' : Session ω') : Prop where
  style : s'.setup.style = s.setup.style
  recipes : s'.setup.recipes = s.setup.recipes
  hook : ∀ {ctx ctx'} (node : Node), SamePlace document document' ctx ctx' →
    s'.setup.hook node ctx' = s.setup.hook node ctx
  rules : ∀ {ctx ctx' v v'}, SamePlace document document' ctx ctx' → Agree exact v v' →
    C.rel (Agree exact) (applyRules s.setup ctx v) (applyRules s'.setup ctx' v')
  root : s'.root = s.root
  spent : ∀ {α α' : Type} {P : α → α' → Prop}, C.rel P (throw .budgetSpent) (throw .budgetSpent)
  parts : ∀ {k : Keywords Node} {c : Node}, holds (.object k) → Part k c → holds c

namespace Session

variable {C : Coupling ω ω'} {exact : Prop} {document document' : Option String} {holds : Node → Prop} {s : Session ω}
  {s' : Session ω'}

/-- **References are answered alike**, if what they lead to is compiled alike, where `Allowed` holds of the keys that
are being expanded. -/
def AnswersAlike (C : Coupling ω ω') (exact : Prop) (document document' : Option String) (holds : Node → Prop)
    (Allowed : List String → Prop) (s : Session ω) (s' : Session ω') : Prop :=
  ∀ {compileAt : List String → Node → Context → CompileM ω Validator}
    {compileAt' : List String → Node → Context → CompileM ω' Validator},
    (∀ {active node ctx ctx'}, Allowed active → holds node → SamePlace document document' ctx ctx' →
      C.rel (Agree exact) (compileAt active node ctx) (compileAt' active node ctx')) →
    ∀ {k : Keywords Node} {active reference ctx ctx'}, Allowed active → holds (.object k) →
      Refers s.setup.recipes k reference → SamePlace document document' ctx ctx' →
      C.rel (Agree exact) (s.refer compileAt active reference ctx) (s'.refer compileAt' active reference ctx')

/-- **Sessions that answer references alike compile nodes alike.** -/
theorem compileRaw_aligned {Allowed : List String → Prop} (h : SessionAligned C exact document document' holds s s')
    (hrefer : AnswersAlike C exact document document' holds Allowed s s') :
    ∀ (budget : Nat) {active : List String} {node : Node} {ctx ctx' : Context}, Allowed active → holds node →
      SamePlace document document' ctx ctx' →
      C.rel (Agree exact) (s.compileRaw budget active node ctx) (s'.compileRaw budget active node ctx')
  | 0, _, _, _, _, _, _, _ => h.spent
  | budget + 1, active, node, ctx, ctx', hactive, hnode, hctx => by
    have hraw := @compileRaw_aligned Allowed h hrefer budget
    let A := agreeing C exact True document document' holds (fun _ => h.style) h.recipes h.rules
    have hhook : Option.Rel (Agree exact) (s.setup.hook node ctx) (s'.setup.hook node ctx') :=
      rel_of_eq (fun _ _ => rfl) (h.hook node hctx)
    unfold compileRaw
    cases node with
    | bool value => exact compileNode_bool A rfl rfl value hhook
    | object k =>
      have hparts : ∀ {c c'}, Parts A.node k k c c' → c' = c ∧ holds c := by
        intro c c' hpart
        cases hpart with
        | sub hc => exact hc
        | member hmember hc => exact ⟨congrArg asObject hc.1, h.parts hnode (.member hmember)⟩
        | narrow typeName hseveral => exact ⟨rfl, h.parts hnode (.narrow typeName hseveral)⟩
        | noItem htype => exact ⟨rfl, h.parts hnode (.noItem htype)⟩
      have hsub : SubAligned A k k
          { setup := s.setup, raw := compileRaw s budget active, refer := s.refer (compileRaw s budget) active }
          { setup := s'.setup, raw := compileRaw s' budget active,
            refer := s'.refer (compileRaw s' budget) active } := by
        refine ⟨rfl, rfl, Keywords.alike_self (fun c hc => ⟨rfl, h.parts hnode (.sub hc)⟩), fun _ => trivial,
          fun _ => .self (fun c hc => ⟨rfl, h.parts hnode (.sub hc)⟩) _, ?_, ?_⟩
        · intro c c' ctx₁ ctx₁' hpart hctx₁
          obtain ⟨rfl, hc⟩ := hparts hpart
          exact hraw hactive hc hctx₁
        · intro reference ctx₁ ctx₁' hrefers hctx₁
          exact hrefer hraw hactive hnode hrefers hctx₁
      exact hsub.compileNode hctx hhook (agree_annotate k hctx)

theorem compile_aligned {Allowed : List String → Prop} (h : SessionAligned C exact document document' holds s s')
    (hrefer : AnswersAlike C exact document document' holds Allowed s s') {active : List String} {node : Node}
    {ctx ctx' : Context} (hactive : Allowed active) (hnode : holds node)
    (hctx : SamePlace document document' ctx ctx') :
    C.rel (Agree exact) (s.compile active node ctx) (s'.compile active node ctx') := by
  have hbudget : s'.budget = s.budget := by
    unfold budget
    rw [h.root, h.recipes]
  unfold Session.compile
  rw [hbudget]
  exact C.sequence (compileRaw_aligned h hrefer s.budget hactive hnode hctx) (fun v v' hv => h.rules hctx hv)

theorem compileRoot_aligned {Allowed : List String → Prop} (h : SessionAligned C exact document document' holds s s')
    (hrefer : AnswersAlike C exact document document' holds Allowed s s') {ctx ctx' : Context} (hactive : Allowed [""])
    (hroot : holds s.root) (hctx : SamePlace document document' ctx ctx') :
    C.rel (Agree exact) (s.compileRoot ctx) (s'.compileRoot ctx') := by
  unfold compileRoot
  rw [h.root]
  exact compile_aligned h hrefer hactive hroot hctx

/-- **Two resolutions agree**: the same pointer, or validators that agree. -/
inductive ResolutionAgrees (exact : Prop) : Resolution → Resolution → Prop
  | validator {v v' : Validator} : Agree exact v v' → ResolutionAgrees exact (.validator v) (.validator v')
  | inline (pointer : String) : ResolutionAgrees exact (.inline pointer) (.inline pointer)

theorem ResolutionAgrees.mono {exact' : Prop} (hexact : exact' → exact) {a a' : Resolution}
    (h : ResolutionAgrees exact a a') : ResolutionAgrees exact' a a' := by
  cases h with
  | validator hv => exact .validator (fun he => hv (hexact he))
  | inline pointer => exact .inline pointer

/-- **Sessions whose resolutions agree answer references alike.** -/
theorem answersAlike_of_resolve (hroot : s'.root = s.root) (hname : s'.rootName = s.rootName)
    (hresolve : ∀ {reference ctx ctx'}, SamePlace document document' ctx ctx' →
      C.rel (ResolutionAgrees exact) (s.resolve reference ctx) (s'.resolve reference ctx')) :
    AnswersAlike C exact document document' (fun _ => True) (fun _ => True) s s' := by
  intro compileAt compileAt' hat k active reference ctx ctx' _ _ _ hctx
  refine C.sequence (hresolve hctx) (fun a a' ha => ?_)
  cases ha with
  | validator hv => exact C.result hv
  | inline pointer =>
    have hpath : ctx'.path = ctx.path := by
      obtain ⟨_, rfl⟩ := hctx
      rfl
    simp only [recursion, hroot, hname, hpath]
    split
    · exact C.result (fun _ => rfl)
    · split
      · exact C.failure _ Error.noConfusion
      · exact hat trivial trivial hctx

end Session

/-! ## Computations with one result -/

/-- **A congruence as a coupling**: two computations are coupled if their results are corresponding images of the one
result of computations that are related. -/
def Congruence.coupling (R : Congruence ω ω') : Coupling ω ω' where
  rel {α α'} P m m' := ∃ (β : Type) (n : CompileM ω β) (n' : CompileM ω' β) (f : β → α) (f' : β → α'),
    m = f <$> n ∧ m' = f' <$> n' ∧ R.rel n n' ∧ ∀ b, P (f b) (f' b)
  result {_ _ _ a a'} ha :=
    ⟨Unit, pure (), pure (), fun _ => a, fun _ => a', rfl, rfl, R.result (), fun _ => ha⟩
  failure e he := ⟨Empty, throw e, throw e, Empty.elim, Empty.elim, rfl, rfl, R.failure e he, fun b => b.elim⟩
  sequence := by
    rintro α α' β β' P Q _ _ g g' ⟨γ, n, n', f, f', rfl, rfl, hn, hP⟩ hg
    choose δ l l' q q' hl hl' hrel hQ using fun c => hg (f c) (f' c) (hP c)
    refine ⟨(c : γ) × δ c, n >>= fun c => Sigma.mk c <$> l c, n' >>= fun c => Sigma.mk c <$> l' c,
      fun x => q x.1 x.2, fun x => q' x.1 x.2, ?_, ?_, ?_, fun x => hQ x.1 x.2⟩
    · simp [hl]
    · simp [hl']
    · refine R.sequence hn (fun c => ?_)
      rw [map_eq_pure_bind, map_eq_pure_bind]
      exact R.sequence (hrel c) (fun _ => R.result _)

/-- **What a coupling by equality says of computations with one result.** -/
theorem Congruence.rel_of_coupling {R : Congruence ω ω'} {α : Type} {P : α → α → Prop} {m : CompileM ω α}
    {m' : CompileM ω' α} (h : R.coupling.rel P m m') (hP : ∀ a a', P a a' → a' = a) : R.rel m m' := by
  obtain ⟨β, n, n', f, f', rfl, rfl, hn, hf⟩ := h
  obtain rfl : f' = f := funext (fun b => hP _ _ (hf b))
  rw [map_eq_pure_bind, map_eq_pure_bind]
  exact R.sequence hn (fun b => R.result _)

theorem Congruence.coupling_of_rel {R : Congruence ω ω'} {α : Type} {P : α → α → Prop} {m : CompileM ω α}
    {m' : CompileM ω' α} (h : R.rel m m') (hP : ∀ a, P a a) : R.coupling.rel P m m' :=
  ⟨α, m, m', id, id, (id_map m).symm, (id_map m').symm, h, hP⟩

/-- **The parts of a schema are compiled alike** in the places of one document. -/
structure SubRelated (R : Congruence ω ω') (document : Option String) (k : Keywords Node) (sub : Sub ω)
    (sub' : Sub ω') : Prop where
  setup : sub'.setup = sub.setup
  raw : ∀ node ctx, Part k node → ctx.document = document → R.rel (sub.raw node ctx) (sub'.raw node ctx)
  refer : ∀ reference ctx, Refers sub.setup.recipes k reference → ctx.document = document →
    R.rel (sub.refer reference ctx) (sub'.refer reference ctx)

theorem samePlace_self {document : Option String} {ctx ctx' : Context} (h : SamePlace document document ctx ctx') :
    ctx' = ctx ∧ ctx.document = document := by
  obtain ⟨hctx, rfl⟩ := h
  exact ⟨by rw [← hctx], hctx⟩

theorem Congruence.rules_coupled (R : Congruence ω ω') {setup setup' : Setup} (hsetup : setup' = setup)
    {document : Option String} {ctx ctx' : Context} {v v' : Validator} (hctx : SamePlace document document ctx ctx')
    (hv : Agree True v v') : R.coupling.rel (Agree True) (applyRules setup ctx v) (applyRules setup' ctx' v') := by
  obtain ⟨rfl, _⟩ := samePlace_self hctx
  rw [hsetup, hv trivial]
  exact R.coupling_of_rel (R.rules _ _ _) (fun _ _ => rfl)

/-- **A node is compiled alike if its parts are.** -/
theorem SubRelated.compileNode {R : Congruence ω ω'} {document : Option String} {sub : Sub ω} {sub' : Sub ω'}
    {node : Node} (hsetup : sub'.setup = sub.setup) (h : ∀ k, node = .object k → SubRelated R document k sub sub')
    (ctx : Context) (hctx : ctx.document = document) :
    R.rel (compileNode sub node ctx) (compileNode sub' node ctx) := by
  have hplace : SamePlace document document ctx ctx := ⟨hctx, by rw [← hctx]⟩
  have hhook : Option.Rel (Agree True) (sub.setup.hook node ctx) (sub'.setup.hook node ctx) :=
    rel_of_eq (fun _ _ => rfl) (by rw [hsetup])
  refine Congruence.rel_of_coupling (P := Agree True) ?_ (fun _ _ hv => hv trivial)
  cases node with
  | bool value =>
    let A := agreeing R.coupling True True document document (fun _ => True) (fun _ => congrArg Setup.style hsetup)
      (congrArg Setup.recipes hsetup) (R.rules_coupled hsetup)
    exact compileNode_bool A rfl rfl value hhook
  | object k =>
    let A := agreeing R.coupling True True document document k.Holds (fun _ => congrArg Setup.style hsetup)
      (congrArg Setup.recipes hsetup) (R.rules_coupled hsetup)
    have hsub : SubAligned A k k sub sub' := by
      refine ⟨rfl, rfl, Keywords.alike_self (fun c hc => ⟨rfl, hc⟩), fun _ => trivial,
        fun _ => .self (fun c hc => ⟨rfl, hc⟩) _, ?_, ?_⟩
      · intro c c' ctx₁ ctx₁' hparts hctx₁
        obtain ⟨rfl, hdocument⟩ := samePlace_self hctx₁
        have hpart := hparts.part (fun hn => hn.2)
        have hsame : c' = c := by
          cases hparts with
          | sub hc => exact hc.1
          | member _ hc => exact congrArg asObject hc.1
          | narrow | noItem => rfl
        rw [hsame]
        exact R.coupling_of_rel ((h k rfl).raw c ctx₁' hpart hdocument) (fun _ _ => rfl)
      · intro reference ctx₁ ctx₁' hrefers hctx₁
        obtain ⟨rfl, hdocument⟩ := samePlace_self hctx₁
        exact R.coupling_of_rel ((h k rfl).refer reference ctx₁' hrefers hdocument) (fun _ _ => rfl)
    exact hsub.compileNode hplace hhook (agree_annotate k hplace)

/-- **Two sessions on one document that differ in how they resolve references**, and resolve them alike. -/
structure SessionRelated (R : Simulation ω ω') (document : Option String) (s : Session ω) (s' : Session ω') : Prop where
  setup : s'.setup = s.setup
  root : s'.root = s.root
  rootName : s'.rootName = s.rootName
  resolve : ∀ reference ctx, ctx.document = document → R.rel (s.resolve reference ctx) (s'.resolve reference ctx)

namespace SessionRelated

variable {R : Simulation ω ω'} {document : Option String} {s : Session ω} {s' : Session ω'}

theorem aligned (h : SessionRelated R document s s') :
    SessionAligned R.congruence.coupling True document document (fun _ => True) s s' where
  style := congrArg Setup.style h.setup
  recipes := congrArg Setup.recipes h.setup
  hook node hctx := by rw [(samePlace_self hctx).1, h.setup]
  rules := R.congruence.rules_coupled h.setup
  root := h.root
  spent := by
    intro α α' P
    have hspent : R.congruence.rel (throw .budgetSpent : CompileM ω Empty) (throw .budgetSpent) := R.failure _
    exact ⟨Empty, _, _, Empty.elim, Empty.elim, rfl, rfl, hspent, fun b => b.elim⟩
  parts _ _ := trivial

theorem answersAlike (h : SessionRelated R document s s') :
    Session.AnswersAlike R.congruence.coupling True document document (fun _ => True) (fun _ => True) s s' := by
  refine Session.answersAlike_of_resolve h.root h.rootName (fun {reference ctx ctx'} hctx => ?_)
  obtain ⟨rfl, hdocument⟩ := samePlace_self hctx
  refine Congruence.coupling_of_rel (h.resolve reference ctx' hdocument) (fun a => ?_)
  cases a with
  | validator v => exact .validator (fun _ => rfl)
  | inline pointer => exact .inline pointer

end SessionRelated

namespace Session

variable {R : Simulation ω ω'} {document : Option String} {s : Session ω} {s' : Session ω'}

/-- **Sessions that resolve references alike compile nodes alike.** -/
theorem compile_related (h : SessionRelated R document s s') (active : List String) (node : Node) (ctx : Context)
    (hctx : ctx.document = document) : R.rel (s.compile active node ctx) (s'.compile active node ctx) := by
  have haligned : R.congruence.coupling.rel (Agree True) (s.compile active node ctx) (s'.compile active node ctx) :=
    compile_aligned h.aligned h.answersAlike trivial trivial ⟨hctx, by rw [← hctx]⟩
  exact Congruence.rel_of_coupling haligned (fun _ _ hv => hv trivial)

theorem compileRoot_related (h : SessionRelated R document s s') (ctx : Context) (hctx : ctx.document = document) :
    R.rel (s.compileRoot ctx) (s'.compileRoot ctx) := by
  unfold compileRoot
  rw [h.root]
  exact compile_related h [""] s.root ctx hctx

end Session
end Compile
end Valgen
