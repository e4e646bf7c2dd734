import Valgen.Proofs.Compile.Nesting
import Valgen.Proofs.Compile.Results
import Valgen.Proofs.Schema.Distinct
import Valgen.Proofs.Schema.Places
/-!
# Proofs.Compile.Failures — what makes a compilation fail, and where

`Fails m s e t` says that the computation `m` fails from the state `s`, with the error `e` in the state `t`.

The compilation of a schema asks for that of others: its subschemas, each at the place that the step to it leads to,
and copies of what stands at a place (`Asks`).  So whatever is compiled stands in the document at the path of its
context, or cannot fail (`CompiledAt`).  Without references, hooks and recipes the only cause of a failure is a branch
without a condition, and the path of the error leads to it (`failure_points_at_cause`).
-/
namespace Valgen
namespace Compile

open Schema (Keywords Node Step)

variable {ω : Type} {α β : Type}

/-! ## Failing runs -/

/-- **A computation fails**: from a state, with an error, in a state. -/
def Fails (m : CompileM ω α) (s : State ω) (e : Error) (t : State ω) : Prop := m.run.run s = (.error e, t)

theorem not_fails_pure {a : α} {s t : State ω} {e : Error} : ¬ Fails (pure a : CompileM ω α) s e t := by
  intro h
  have hrun : (pure a : CompileM ω α).run.run s = (.ok a, s) := rfl
  unfold Fails at h
  rw [hrun] at h
  cases h

theorem fails_throw {e e' : Error} {s t : State ω} : Fails (throw e : CompileM ω α) s e' t ↔ e = e' ∧ s = t := by
  have hrun : (throw e : CompileM ω α).run.run s = (.error e, s) := rfl
  unfold Fails
  rw [hrun, Prod.mk.injEq, Except.error.injEq]

theorem not_fails_applyRules {setup : Setup} {ctx : Context} {v : Validator} {s t : State ω} {e : Error} :
    ¬ Fails (applyRules setup ctx v) s e t := by
  intro h
  unfold Fails at h
  rw [run_applyRules] at h
  cases h

/-- **A sequence fails where its first part does, or its second after the first.** -/
theorem fails_bind {m : CompileM ω α} {f : α → CompileM ω β} {s t : State ω} {e : Error} :
    Fails (m >>= f) s e t ↔ Fails m s e t ∨ ∃ a u, Runs m s a u ∧ Fails (f a) u e t := by
  unfold Fails Runs
  rw [run_bind]
  rcases m.run.run s with ⟨e' | a, u⟩
  · constructor
    · intro h
      cases h
      exact .inl rfl
    · rintro (h | ⟨a, u', heq, _⟩)
      · cases h
        rfl
      · cases heq
  · constructor
    · exact fun h => .inr ⟨a, u, rfl, h⟩
    · rintro (h | ⟨a', u', heq, h⟩)
      · cases h
      · cases heq
        exact h

theorem runs_or_fails (m : CompileM ω α) (s : State ω) : (∃ a t, Runs m s a t) ∨ ∃ e t, Fails m s e t := by
  unfold Runs Fails
  rcases m.run.run s with ⟨e | a, t⟩
  · exact .inr ⟨e, t, rfl⟩
  · exact .inl ⟨a, t, rfl⟩

/-- **A computation fails with such errors only**, whatever state it starts from. -/
def FailsOnly (P : Error → Prop) (m : CompileM ω α) : Prop := ∀ s e t, Fails m s e t → P e

variable {P : Error → Prop}

theorem failsOnly_pure (a : α) : FailsOnly P (pure a : CompileM ω α) := fun _ _ _ h => absurd h not_fails_pure

theorem failsOnly_throw {e : Error} (he : P e) : FailsOnly P (throw e : CompileM ω α) :=
  fun _ _ _ h => (fails_throw.1 h).1 ▸ he

theorem failsOnly_applyRules (setup : Setup) (ctx : Context) (v : Validator) :
    FailsOnly P (applyRules setup ctx v : CompileM ω Validator) := fun _ _ _ h => absurd h not_fails_applyRules

theorem FailsOnly.bind {m : CompileM ω α} {f : α → CompileM ω β} (hm : FailsOnly P m) (hf : ∀ a, FailsOnly P (f a)) :
    FailsOnly P (m >>= f) := by
  intro s e t h
  rcases fails_bind.1 h with h | ⟨a, u, _, h⟩
  · exact hm s e t h
  · exact hf a u e t h

/-! ## What a compilation asks for -/

/-- **The place that a step leads to.** -/
def Context.along (ctx : Context) (step : Step) : Context := step.segments.foldl Context.child ctx

theorem Context.path_along (ctx : Context) (step : Step) : (ctx.along step).path = ctx.path ++ step.segments := by
  cases step <;> simp [along, Step.segments, Step.segment?, child]

/-- **A schema whose compilation that of another asks for, and the place at which it does.** -/
inductive Asks (k : Keywords Node) (ctx : Context) : Node → Context → Prop
  | step (step : Step) {c : Node} : k.child? step = some c → Asks k ctx c (ctx.along step)
  | member (index : Nat) {c : Node} : k.child? (.allOf index) = some c →
    Asks k ctx (asObject c) (ctx.along (.allOf index))
  | narrow (typeName : String) : select [] k = .multiType → Asks k ctx (.object (narrow k typeName)) ctx.withoutDefault

theorem bind_getElem?_of_getD {o : Option (List Node)} {index : Nat} {c : Node} (h : (o.getD [])[index]? = some c) :
    o.bind (fun l => l[index]?) = some c := by
  cases o with
  | none => cases h
  | some l => exact h

section Compilers

variable {sub : Sub ω} {k : Keywords Node} {ctx : Context}

theorem failsOnly_compile {node : Node} {here : Context} (h : FailsOnly P (sub.raw node here)) :
    FailsOnly P (sub.compile node here) := h.bind (fun v => failsOnly_applyRules sub.setup here v)

theorem failsOnly_compileOrAny {node : Option Node} {here : Context}
    (h : ∀ c, node = some c → FailsOnly P (sub.raw c here)) : FailsOnly P (sub.compileOrAny node here) := by
  cases node with
  | none => exact failsOnly_pure _
  | some c => exact failsOnly_compile (h c rfl)

theorem failsOnly_compileEach (keyword : String) : ∀ {nodes : List Node} {start : Nat},
    (∀ index c, nodes[index]? = some c → FailsOnly P (sub.raw c (ctx.descend keyword (.index (start + index))))) →
    FailsOnly P (sub.compileEach keyword ctx start nodes)
  | [], _, _ => failsOnly_pure _
  | c :: rest, start, h => by
    refine (failsOnly_compile (h 0 c rfl)).bind (fun v => ?_)
    refine (failsOnly_compileEach keyword (fun index d hd => ?_)).bind (fun vs => failsOnly_pure _)
    rw [Nat.add_right_comm start 1 index]
    exact h (index + 1) d hd

theorem failsOnly_compileAlternatives {keyword : String} {join : List Validator → Base} {nodes : List Node}
    (h : ∀ index c, nodes[index]? = some c → FailsOnly P (sub.raw c (ctx.descend keyword (.index index)))) :
    FailsOnly P (compileAlternatives sub keyword join nodes ctx) := by
  unfold compileAlternatives
  split
  · exact failsOnly_pure _
  · exact failsOnly_compile (h 0 _ rfl)
  · refine (failsOnly_compileEach keyword (fun index c hc => ?_)).bind (fun vs => failsOnly_pure _)
    rw [Nat.zero_add]
    exact h index c hc

theorem failsOnly_intersectIf {present : Bool} {v : Validator} {composition : CompileM ω Validator}
    (h : FailsOnly P composition) : FailsOnly P (intersectIf present v composition) := by
  unfold intersectIf
  split
  · exact h.bind (fun w => failsOnly_pure _)
  · exact failsOnly_pure _

variable (hraw : ∀ {c here}, Asks k ctx c here → FailsOnly P (sub.raw c here))
include hraw

theorem failsOnly_step (step : Step) {c : Node} (h : k.child? step = some c) :
    FailsOnly P (sub.compile c (ctx.along step)) := failsOnly_compile (hraw (.step step h))

theorem failsOnly_compileAllOf : FailsOnly P (compileAllOf sub k ctx) := by
  rw [compileAllOf_eq]
  refine (failsOnly_compileEach "allOf" (fun index c hc => ?_)).bind (fun vs => failsOnly_pure _)
  rw [Nat.zero_add]
  rw [List.getElem?_map] at hc
  obtain ⟨member, hmember, rfl⟩ := Option.map_eq_some_iff.1 hc
  exact hraw (.member index (bind_getElem?_of_getD hmember))

theorem failsOnly_compileAnyOf : FailsOnly P (compileAnyOf sub k ctx) := by
  refine failsOnly_compileAlternatives (fun index c hc => ?_)
  exact hraw (.step (.anyOf index) (bind_getElem?_of_getD hc))

theorem failsOnly_compileOneOf : FailsOnly P (compileOneOf sub k ctx) := by
  refine failsOnly_compileAlternatives (fun index c hc => ?_)
  exact hraw (.step (.oneOf index) (bind_getElem?_of_getD hc))

theorem failsOnly_compileNot : FailsOnly P (compileNot sub k ctx) := by
  unfold compileNot
  split
  · exact failsOnly_pure _
  · rename_i c hnot
    exact (failsOnly_step hraw .not hnot).bind (fun v => failsOnly_pure _)

theorem failsOnly_compileConditional
    (hlone : k.ifSchema = none → P (.malformed "if" "`then`/`else` without `if`" ctx.path)) :
    FailsOnly P (compileConditional sub k ctx) := by
  unfold compileConditional
  split
  · rename_i hif
    exact failsOnly_throw (hlone hif)
  · rename_i c hif
    refine (failsOnly_step hraw .ifSchema hif).bind (fun condition => ?_)
    refine (failsOnly_compileOrAny (fun c hc => hraw (.step .thenSchema hc))).bind (fun yes => ?_)
    exact (failsOnly_compileOrAny (fun c hc => hraw (.step .elseSchema hc))).bind (fun no => failsOnly_pure _)

theorem failsOnly_compileTypes (hseveral : select [] k = .multiType) :
    ∀ types : List String, FailsOnly P (compileTypes sub k ctx types)
  | [] => failsOnly_pure _
  | typeName :: rest => by
    refine (hraw (.narrow typeName hseveral)).bind (fun v => ?_)
    exact (failsOnly_compileTypes hseveral rest).bind (fun vs => failsOnly_pure _)

theorem failsOnly_compileMultiType (hseveral : select [] k = .multiType) :
    FailsOnly P (compileMultiType sub k ctx) := by
  refine (failsOnly_compileTypes hraw hseveral k.types).bind (fun vs => ?_)
  split <;> exact failsOnly_pure _

theorem failsOnly_compileProperties {entries : List (String × Node)} (hentries : k.properties = some entries)
    (hkeys : (Assoc.keys entries).Nodup) :
    ∀ {rest : List (String × Node)}, (∀ e ∈ rest, e ∈ entries) → FailsOnly P (compileProperties sub k ctx rest)
  | [], _ => failsOnly_pure _
  | (name, c) :: rest, hrest => by
    -- The step to a property finds the first entry of its name, so that the names must differ.
    have hc : k.child? (.property name) = some c :=
      Option.bind_eq_some_iff.2 ⟨entries, hentries, Assoc.get?_of_mem hkeys (hrest _ List.mem_cons_self)⟩
    refine (hraw (.step (.property name) hc)).bind (fun raw => ?_)
    refine (failsOnly_applyRules sub.setup _ _).bind (fun value => ?_)
    exact (failsOnly_compileProperties hentries hkeys (fun e he => hrest e (List.mem_cons_of_mem _ he))).bind
      (fun properties => failsOnly_pure _)

theorem failsOnly_compileUnlisted : FailsOnly P (compileUnlisted sub k ctx) := by
  unfold compileUnlisted
  split
  · exact failsOnly_pure _
  · exact failsOnly_pure _
  · exact failsOnly_pure _
  · rename_i c _ _ hadditional
    exact (failsOnly_step hraw .additionalProperties hadditional).bind (fun v => failsOnly_pure _)

theorem failsOnly_compileRecord : FailsOnly P (compileRecord sub k ctx) := by
  unfold compileRecord
  split
  · rename_i values hadditional
    exact (failsOnly_step hraw .additionalProperties hadditional).bind (fun v => failsOnly_pure _)
  · exact failsOnly_pure _

theorem failsOnly_compileObject (hkeys : (Assoc.keys (k.properties.getD [])).Nodup) :
    FailsOnly P (compileObject sub k ctx) := by
  have hbase : FailsOnly P (compileObjectBase sub k ctx) := by
    unfold compileObjectBase
    split
    · exact failsOnly_compileRecord hraw
    · rename_i entries hentries
      rw [hentries] at hkeys
      refine (failsOnly_compileProperties hraw hentries hkeys (fun e he => he)).bind (fun properties => ?_)
      exact (failsOnly_compileUnlisted hraw).bind (fun rest => failsOnly_pure _)
  refine hbase.bind (fun v => ?_)
  refine (failsOnly_intersectIf (failsOnly_compileAllOf hraw)).bind (fun v => ?_)
  refine (failsOnly_intersectIf (failsOnly_compileAnyOf hraw)).bind (fun v => ?_)
  exact failsOnly_intersectIf (failsOnly_compileOneOf hraw)

theorem failsOnly_compileRest : FailsOnly P (compileRest sub k ctx) := by
  unfold compileRest
  split
  · exact failsOnly_pure _
  · rename_i c _ hitems
    refine (failsOnly_step hraw .items ?_).bind (fun v => failsOnly_pure _)
    rw [Keywords.child?, hitems]
  · exact failsOnly_pure _

theorem failsOnly_compileArray : FailsOnly P (compileArray sub k ctx) := by
  unfold compileArray
  split
  · rename_i nodes hprefix
    refine (failsOnly_compileEach "prefixItems" (fun index c hc => ?_)).bind (fun items => ?_)
    · rw [Nat.zero_add]
      exact hraw (.step (.prefixItem index) (Option.bind_eq_some_iff.2 ⟨nodes, hprefix, hc⟩))
    · exact (failsOnly_compileRest hraw).bind (fun rest => failsOnly_pure _)
  · split
    · rename_i nodes hitems
      refine (failsOnly_compileEach "items" (fun index c hc => ?_)).bind (fun items => failsOnly_pure _)
      rw [Nat.zero_add]
      refine hraw (.step (.item index) ?_)
      rw [Keywords.child?, hitems]
      exact hc
    · rename_i c hitems
      refine (failsOnly_step hraw .items ?_).bind (fun item => failsOnly_pure _)
      rw [Keywords.child?, hitems]
    · exact failsOnly_pure _

/-- **A schema without references fails as what it asks for does**, or for want of a condition. -/
theorem failsOnly_compileKind (hkeys : (Assoc.keys (k.properties.getD [])).Nodup) (href : k.ref = none)
    (hlone : select [] k = .conditional → k.ifSchema = none →
      P (.malformed "if" "`then`/`else` without `if`" ctx.path)) :
    FailsOnly P (compileKind sub (select [] k) k ctx) := by
  cases hkind : select [] k with
  | custom typeName recipe => exact absurd (select_eq_custom hkind).2 List.not_mem_nil
  | object => exact failsOnly_compileObject hraw hkeys
  | array => exact failsOnly_compileArray hraw
  | string | number | integer | boolean | null | enum | const | any => exact failsOnly_pure _
  | allOf => exact failsOnly_compileAllOf hraw
  | anyOf => exact failsOnly_compileAnyOf hraw
  | oneOf => exact failsOnly_compileOneOf hraw
  | not => exact failsOnly_compileNot hraw
  | conditional => exact failsOnly_compileConditional hraw (hlone hkind)
  | multiType => exact failsOnly_compileMultiType hraw hkind
  | reference =>
    unfold compileKind
    rw [href]
    exact failsOnly_pure _

end Compilers

/-! ## What is compiled where -/

/-- **A schema that is compiled at a path of the document**: the one that stands there, a copy of it with one of its
types, or an object in place of a truth value. -/
inductive CompiledAt (root : Node) : Node → Path → Prop
  | own {steps : List Step} {node : Node} : root.walk? steps = some node →
    CompiledAt root node (steps.flatMap Step.segments)
  | narrowed {steps : List Step} {k : Keywords Node} (typeName : String) : root.walk? steps = some (.object k) →
    select [] k = .multiType → CompiledAt root (.object (narrow k typeName)) (steps.flatMap Step.segments)
  | empty (path : Path) : CompiledAt root Node.empty path
  | nothing (path : Path) : CompiledAt root Node.nothing path

theorem selectUntyped_of_select {k : Keywords Node} {kind : Kind} (h : select [] k = kind)
    (hkind : kind = .conditional ∨ kind = .multiType) : selectUntyped k = kind := by
  have hnone : customKind? [] k = none := by
    unfold customKind?
    cases k.singleType? <;> rfl
  have hprimitive : ∀ name, primitiveKind? name ≠ some kind := by
    intro name
    unfold primitiveKind?
    rcases hkind with rfl | rfl <;> split_ifs <;> simp
  unfold select at h
  rw [hnone] at h
  simp only at h
  split_ifs at h
  · rcases hkind with rfl | rfl <;> cases h
  · rcases hkind with rfl | rfl <;> cases h
  · cases hsingle : k.singleType?.bind primitiveKind? with
    | none =>
      rw [hsingle] at h
      exact h
    | some found =>
      rw [hsingle] at h
      obtain ⟨name, _, hname⟩ := Option.bind_eq_some_iff.1 hsingle
      exact absurd (hname.trans (congrArg some h)) (hprimitive name)

/-- **Whether a schema has a condition or a branch of one.** -/
def hasBranches (k : Keywords Node) : Bool := k.ifSchema.isSome || k.thenSchema.isSome || k.elseSchema.isSome

theorem hasBranches_of_conditional {k : Keywords Node} (h : select [] k = .conditional) : hasBranches k = true := by
  have huntyped := selectUntyped_of_select h (.inl rfl)
  by_contra hbranches
  refine absurd huntyped ?_
  unfold selectUntyped
  rw [if_neg (show ¬ (k.ifSchema.isSome || k.thenSchema.isSome || k.elseSchema.isSome) = true from hbranches)]
  repeat' apply ite_ne_of_ne
  all_goals exact Kind.noConfusion

theorem hasBranches_of_multiType {k : Keywords Node} (h : select [] k = .multiType) : hasBranches k = false := by
  have huntyped := selectUntyped_of_select h (.inr rfl)
  rw [Bool.eq_false_iff]
  intro hbranches
  refine absurd huntyped ?_
  unfold selectUntyped
  rw [if_pos (show (k.ifSchema.isSome || k.thenSchema.isSome || k.elseSchema.isSome) = true from hbranches)]
  repeat' apply ite_ne_of_ne
  all_goals exact Kind.noConfusion

/-- **A branch without a condition**, in a schema that is compiled as one. -/
structure LoneBranch (book : RecipeBook) (k : Keywords Node) : Prop where
  branch : k.thenSchema.isSome ∨ k.elseSchema.isSome
  noCondition : k.ifSchema = none
  selected : select book k = .conditional

theorem loneBranch_of_select {k : Keywords Node} (h : select [] k = .conditional) (hif : k.ifSchema = none) :
    LoneBranch [] k := by
  refine ⟨?_, hif, h⟩
  have hbranches := hasBranches_of_conditional h
  rw [hasBranches, hif] at hbranches
  simpa using hbranches

namespace CompiledAt

variable {root : Node} {k : Keywords Node} {path : Path}

theorem path_along {steps : List Step} {ctx : Context} (h : ctx.path = steps.flatMap Step.segments) (step : Step) :
    (ctx.along step).path = (steps ++ [step]).flatMap Step.segments := by
  rw [Context.path_along, h, List.flatMap_append, List.flatMap_singleton]

/-- **What a schema in its place asks for is in its place.** -/
theorem asks_own {steps : List Step} (hwalk : root.walk? steps = some (.object k)) {ctx : Context}
    (hpath : ctx.path = steps.flatMap Step.segments) {c : Node} {here : Context} (h : Asks k ctx c here) :
    CompiledAt root c here.path := by
  cases h with
  | step step hc =>
    rw [path_along hpath]
    exact .own (Node.walk?_snoc hwalk hc)
  | @member index c hc =>
    match c, hc with
    | .bool true, _ => exact .empty _
    | .bool false, _ => exact .nothing _
    | .object inner, hc =>
      rw [path_along hpath]
      exact .own (Node.walk?_snoc hwalk hc)
  | narrow typeName hseveral =>
    show CompiledAt root _ ctx.path
    rw [hpath]
    exact .narrowed typeName hwalk hseveral

/-- **One step**: what is compiled asks for what is compiled. -/
theorem asks (h : CompiledAt root (.object k) path) {ctx : Context} (hpath : ctx.path = path) {c : Node}
    {here : Context} (hasks : Asks k ctx c here) : CompiledAt root c here.path := by
  cases h with
  | own hwalk => exact asks_own hwalk hpath hasks
  | @narrowed steps whole typeName hwalk hseveral =>
    -- The copy has the subschemas of the whole, and only one type.
    cases hasks with
    | step step hc => exact asks_own hwalk hpath (.step step hc)
    | member index hc => exact asks_own hwalk hpath (.member index hc)
    | narrow other hnarrow => exact absurd (select_eq_multiType hnarrow) (by simp [narrow, Schema.Facts.types])
  | empty =>
    cases hasks with
    | step step hc => cases step <;> cases hc
    | member index hc => cases hc
    | narrow typeName hseveral => cases hseveral
  | nothing =>
    cases hasks with
    | step step hc =>
      cases step <;> cases hc
      exact .empty _
    | member index hc => cases hc
    | narrow typeName hseveral => cases hseveral

theorem nodup_keys (h : CompiledAt root (.object k) path) (hroot : root.DistinctProperties) :
    (Assoc.keys (k.properties.getD [])).Nodup := by
  cases h with
  | own hwalk => exact hroot _ (Node.inside_of_walk? _ .root hwalk)
  | narrowed typeName hwalk =>
    have hwhole := hroot _ (Node.inside_of_walk? _ .root hwalk)
    exact hwhole
  | empty => exact List.nodup_nil
  | nothing => exact List.nodup_nil

theorem ref_eq_none (h : CompiledAt root (.object k) path) (hroot : root.refs = []) : k.ref = none := by
  have hinside : ∀ {steps : List Step} {whole : Keywords Node}, root.walk? steps = some (.object whole) →
      whole.ref = none := by
    intro steps whole hwalk
    refine Option.eq_none_iff_forall_ne_some.2 (fun reference href => ?_)
    have hmem := (Node.inside_of_walk? steps .root hwalk).within.refs reference (Node.mem_refs_of_ref href)
    rw [hroot] at hmem
    cases hmem
  cases h with
  | own hwalk => exact hinside hwalk
  | narrowed typeName hwalk =>
    have hwhole := hinside hwalk
    exact hwhole
  | empty => rfl
  | nothing => rfl

/-- **A schema that is compiled as a condition stands in its place.** -/
theorem pointer?_of_conditional (h : CompiledAt root (.object k) path) (hkind : select [] k = .conditional) :
    root.pointer? (Schema.Pointer.ofPath path) = some (.object k) := by
  cases h with
  | own hwalk => rw [Node.pointer?_place, hwalk]
  | @narrowed steps whole typeName hwalk hseveral =>
    -- A schema with several types has no branches, and its copies have what it has.
    have hbranches := hasBranches_of_conditional hkind
    rw [show hasBranches (narrow whole typeName) = hasBranches whole from rfl,
      hasBranches_of_multiType hseveral] at hbranches
    cases hbranches
  | empty => cases hkind
  | nothing => cases hkind

end CompiledAt

/-! ## Documents without references -/

/-- **A failure for want of a condition**, at a path that leads to the branch. -/
def MissesCondition (root : Node) (e : Error) : Prop :=
  ∃ path k, e = .malformed "if" "`then`/`else` without `if`" path ∧
    root.pointer? (Schema.Pointer.ofPath path) = some (.object k) ∧ LoneBranch [] k

/-- **Only branches without conditions fail**, as long as the budget lasts. -/
theorem Session.failsOnly_compileRaw {s : Session ω} (hhook : ∀ node ctx, s.setup.hook node ctx = none)
    (hrecipes : s.setup.recipes = []) (hrefs : s.root.refs = []) (hkeys : s.root.DistinctProperties) :
    ∀ (budget : Nat) (active : List String) {node : Node} {ctx : Context}, CompiledAt s.root node ctx.path →
      FailsOnly (fun e => e = .budgetSpent ∨ MissesCondition s.root e) (s.compileRaw budget active node ctx)
  | 0, _, _, _, _ => failsOnly_throw (.inl rfl)
  | budget + 1, active, node, ctx, hnode => by
    unfold compileRaw compileNode
    simp only [hhook, hrecipes]
    cases node with
    | bool value =>
      cases value with
      | true => exact failsOnly_pure _
      | false => exact failsOnly_pure _
    | object k =>
      refine (failsOnly_compileKind ?_ (hnode.nodup_keys hkeys) (hnode.ref_eq_none hrefs) ?_).bind
        (fun v => failsOnly_pure _)
      · intro c here hasks
        exact failsOnly_compileRaw hhook hrecipes hrefs hkeys budget active (hnode.asks rfl hasks)
      · intro hkind hif
        exact .inr ⟨ctx.path, k, rfl, hnode.pointer?_of_conditional hkind, loneBranch_of_select hkind hif⟩

theorem runStandalone_fst {setup : Setup} {root : Node} (patterns : PatternCache)
    (hoptions : checkOptions setup.options = .ok ()) : (runStandalone setup root patterns).1 =
      (((standalone setup root).compileRoot (Context.root setup.options none)).run.run ⟨patterns, ()⟩).1 := by
  unfold runStandalone
  rw [hoptions]
  rfl

/-- **A failure points at its cause.**  Without references, hooks and recipes a document with valid options is compiled,
or the path of the error leads to a branch without a condition. -/
theorem failure_points_at_cause {setup : Setup} {root : Node} (patterns : PatternCache)
    (hhook : ∀ node ctx, setup.hook node ctx = none) (hrecipes : setup.recipes = [])
    (hoptions : checkOptions setup.options = .ok ()) (hrefs : root.refs = []) (hkeys : root.DistinctProperties) :
    (∃ v, (runStandalone setup root patterns).1 = .ok v) ∨
    ∃ path k, (runStandalone setup root patterns).1 = .error (.malformed "if" "`then`/`else` without `if`" path) ∧
      root.pointer? (Schema.Pointer.ofPath path) = some (.object k) ∧ LoneBranch setup.recipes k := by
  have hends := runStandalone_ends setup root patterns
  have hfails : FailsOnly (fun e => e = .budgetSpent ∨ MissesCondition root e)
      ((standalone setup root).compileRoot (Context.root setup.options none)) := by
    refine (Session.failsOnly_compileRaw (s := standalone setup root) hhook hrecipes hrefs hkeys _ _ ?_).bind
      (fun v => failsOnly_applyRules _ _ v)
    exact @CompiledAt.own root [] root rfl
  rw [hrecipes]
  rw [runStandalone_fst patterns hoptions] at hends ⊢
  rcases runs_or_fails ((standalone setup root).compileRoot (Context.root setup.options none)) ⟨patterns, ()⟩ with
    ⟨v, t, h⟩ | ⟨e, t, h⟩
  · exact .inl ⟨v, by rw [h]⟩
  · rw [h] at hends ⊢
    rcases hfails _ _ _ h with rfl | ⟨path, k, rfl, hpointer, hlone⟩
    · exact absurd rfl hends
    · exact .inr ⟨path, k, rfl, hpointer, hlone⟩

/-- **A document with a branch without a condition**, behind a truth value and below a key with a slash. -/
def branchAlone : Json := .object [("properties", .object [("a/b", .object [("allOf",
  .array [.bool true, .object [("then", .bool true)]])])])]

def branchAloneMembers : Keywords Node :=
  { allOf := some [.bool true, .object { thenSchema := some (.bool true) }] }

def branchAloneSchema : Node := .object { properties := some [("a/b", .object branchAloneMembers)] }

theorem refs_branchAloneSchema : branchAloneSchema.refs = [] := by
  simp [branchAloneSchema, branchAloneMembers, Node.refs_object, Keywords.children, Keywords.childrenOfMap,
    Keywords.childrenOfOne, Keywords.childrenOfList, Keywords.childrenOfItems, Node.refs.eq_def (.bool true),
    Node.keywords?, Node.children]

theorem fails_branchAlone : ∃ t, Fails ((standalone {} branchAloneSchema).compileRoot (Context.root {} none))
    ⟨PatternCache.empty, ()⟩ (.malformed "if" "`then`/`else` without `if`"
      [.key "properties", .key "a/b", .key "allOf", .index 1]) t := by
  let s := standalone {} branchAloneSchema
  obtain ⟨b, hb⟩ := s.exists_budget
  let here := (Context.root {} none).descend "properties" (.key "a/b")
  have hmembers : ∃ t, Fails (compileAllOf ⟨{}, s.compileRaw (b + 4) [""], s.refer (s.compileRaw (b + 4)) [""]⟩
      branchAloneMembers here) ⟨PatternCache.empty, ()⟩ (.malformed "if" "`then`/`else` without `if`"
        [.key "properties", .key "a/b", .key "allOf", .index 1]) t := by
    rw [compileAllOf_eq]
    exact ⟨_, rfl⟩
  obtain ⟨t, ht⟩ := hmembers
  have hproperty : Fails (s.compileRaw (b + 5) [""] (.object branchAloneMembers) here) ⟨PatternCache.empty, ()⟩ _ t :=
    fails_bind.2 (.inl ht)
  have hproperties : Fails (compileProperties ⟨{}, s.compileRaw (b + 5) [""], s.refer (s.compileRaw (b + 5)) [""]⟩ {}
      (Context.root {} none) [("a/b", .object branchAloneMembers)]) ⟨PatternCache.empty, ()⟩ _ t :=
    fails_bind.2 (.inl hproperty)
  have hroot : Fails (s.compileRaw (b + 6) [""] branchAloneSchema (Context.root {} none))
      ⟨PatternCache.empty, ()⟩ _ t :=
    fails_bind.2 (.inl (fails_bind.2 (.inl (fails_bind.2 (.inl hproperties)))))
  refine ⟨t, ?_⟩
  unfold Session.compileRoot Session.compile
  rw [hb]
  exact fails_bind.2 (.inl hroot)

theorem failure_points_at_cause_branchAlone : Node.ofJson? branchAlone = some branchAloneSchema ∧
    (runStandalone {} branchAloneSchema PatternCache.empty).1 = .error (.malformed "if" "`then`/`else` without `if`"
      [.key "properties", .key "a/b", .key "allOf", .index 1]) ∧
    ∃ k, branchAloneSchema.pointer? "/properties/a~1b/allOf/1" = some (.object k) ∧ LoneBranch [] k := by
  have hread : Node.ofJson? branchAlone = some branchAloneSchema := rfl
  have hfails : (runStandalone {} branchAloneSchema PatternCache.empty).1 =
      .error (.malformed "if" "`then`/`else` without `if`"
        [.key "properties", .key "a/b", .key "allOf", .index 1]) := by
    obtain ⟨t, ht⟩ := fails_branchAlone
    rw [runStandalone_fst PatternCache.empty rfl, ht]
  have hpointer : Schema.Pointer.ofPath [.key "properties", .key "a/b", .key "allOf", .index 1] =
      "/properties/a~1b/allOf/1" := by decide +kernel
  rcases @failure_points_at_cause {} _ PatternCache.empty (fun _ _ => rfl) rfl rfl refs_branchAloneSchema
    (Schema.distinctProperties_ofJson? hread) with ⟨v, hv⟩ | ⟨path, k, herror, hk⟩
  · rw [hfails] at hv
    cases hv
  · rw [hfails] at herror
    cases herror
    rw [hpointer] at hk
    exact ⟨hread, hfails, k, hk⟩

end Compile
end Valgen
