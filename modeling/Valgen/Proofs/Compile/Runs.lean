import Mathlib.Data.List.Forall2
import Valgen.Compile.Document
import Valgen.Proofs.Schema.Subschemas
/-!
# Proofs.Compile.Runs — successful runs, and relations between computations

`Runs m s a t` says that the computation `m` succeeds from the state `s`, with the result `a` and the state `t`.

A relation between computations may be kept by results, failures, sequences and rules (`Congruence`), and where a budget
is spent, too (`Simulation`).  The compilation of a node asks for that of its parts (`Part`) and resolves its references
(`Refers`).
-/
namespace Valgen
namespace Compile

open Schema (Facts Keywords Node)

variable {ω ω' : Type} {α β : Type}

/-! ## Successful runs -/

/-- **A computation succeeds**: from a state, with a result, in a state. -/
def Runs (m : CompileM ω α) (s : State ω) (a : α) (t : State ω) : Prop := m.run.run s = (.ok a, t)

theorem runs_pure {a b : α} {s t : State ω} : Runs (pure a : CompileM ω α) s b t ↔ a = b ∧ s = t := by
  have hrun : (pure a : CompileM ω α).run.run s = (.ok a, s) := rfl
  unfold Runs
  rw [hrun, Prod.mk.injEq, Except.ok.injEq]

theorem not_runs_throw {e : Error} {b : α} {s t : State ω} : ¬ Runs (throw e : CompileM ω α) s b t := by
  intro h
  have hrun : (throw e : CompileM ω α).run.run s = (.error e, s) := rfl
  unfold Runs at h
  rw [hrun] at h
  cases h

theorem run_bind (m : CompileM ω α) (f : α → CompileM ω β) (s : State ω) :
    (m >>= f).run.run s = match m.run.run s with
      | (.ok a, u) => (f a).run.run u
      | (.error e, u) => (.error e, u) := by
  show (ExceptT.bindCont f (m.run.run s).1).run (m.run.run s).2 = _
  cases m.run.run s with
  | mk outcome u => cases outcome <;> rfl

theorem run_applyRules (setup : Setup) (ctx : Context) (v : Validator) (s : State ω) :
    (applyRules setup ctx v : CompileM ω Validator).run.run s =
      (.ok (Pipeline.run setup.rules ctx.path v s.patterns).1,
        { s with patterns := (Pipeline.run setup.rules ctx.path v s.patterns).2 }) := rfl

/-- **A sequence succeeds where its two parts do, one after the other.** -/
theorem runs_bind {m : CompileM ω α} {f : α → CompileM ω β} {b : β} {s t : State ω} :
    Runs (m >>= f) s b t ↔ ∃ a u, Runs m s a u ∧ Runs (f a) u b t := by
  unfold Runs
  rw [run_bind]
  cases m.run.run s with
  | mk outcome u =>
    cases outcome with
    | ok a =>
      constructor
      · intro h
        exact ⟨a, u, rfl, h⟩
      · rintro ⟨a', u', heq, h⟩
        cases heq
        exact h
    | error e =>
      constructor
      · intro h
        cases h
      · rintro ⟨a', u', heq, _⟩
        cases heq

/-- **A sequence depends only on what follows the results that occur.** -/
theorem bind_congr_of_runs {m : CompileM ω α} {f f' : α → CompileM ω β}
    (h : ∀ s a t, Runs m s a t → f a = f' a) : m >>= f = m >>= f' := by
  funext s
  show (m >>= f).run.run s = (m >>= f').run.run s
  rw [run_bind, run_bind]
  cases hrun : m.run.run s with
  | mk outcome u =>
    cases outcome with
    | ok a => exact congrArg (fun g : CompileM ω β => g.run.run u) (h s a u hrun)
    | error e => rfl

theorem runs_get {s u t : State ω} : Runs (get : CompileM ω (State ω)) s u t ↔ s = u ∧ s = t := by
  have hrun : (get : CompileM ω (State ω)).run.run s = (.ok s, s) := rfl
  unfold Runs
  rw [hrun, Prod.mk.injEq, Except.ok.injEq]

theorem runs_modify {f : State ω → State ω} {a : Unit} {s t : State ω} :
    Runs (modify f : CompileM ω Unit) s a t ↔ t = f s := by
  have hrun : (modify f : CompileM ω Unit).run.run s = (.ok (), f s) := rfl
  unfold Runs
  rw [hrun, Prod.mk.injEq]
  constructor
  · rintro ⟨_, h⟩
    exact h.symm
  · intro h
    exact ⟨rfl, h.symm⟩

/-- **The rules touch nothing but the patterns.** -/
theorem world_of_runs_applyRules {setup : Setup} {ctx : Context} {v v' : Validator} {s t : State ω}
    (h : Runs (applyRules setup ctx v) s v' t) : t.world = s.world := by
  unfold Runs at h
  rw [run_applyRules] at h
  cases h
  rfl

/-! ## Lists side by side -/

theorem forall_iff_of_forall₂ {p : α → Prop} {q : β → Prop} {as : List α} {bs : List β}
    (h : List.Forall₂ (fun a b => p a ↔ q b) as bs) : (∀ a ∈ as, p a) ↔ ∀ b ∈ bs, q b := by
  induction h with
  | nil => simp
  | cons hab _ ih => simp [hab, ih]

theorem exists_iff_of_forall₂ {p : α → Prop} {q : β → Prop} {as : List α} {bs : List β}
    (h : List.Forall₂ (fun a b => p a ↔ q b) as bs) : (∃ a ∈ as, p a) ↔ ∃ b ∈ bs, q b := by
  induction h with
  | nil => simp
  | cons hab _ ih => simp [hab, ih]

/-! ## Relations between computations -/

/-- **A relation between computations that is kept by all that a session puts them together with.** -/
structure Simulation (ω ω' : Type) where
  rel : {α : Type} → CompileM ω α → CompileM ω' α → Prop
  result : ∀ {α : Type} (a : α), rel (pure a) (pure a)
  failure : ∀ {α : Type} (e : Error), rel (throw e : CompileM ω α) (throw e)
  sequence : ∀ {α β : Type} {m : CompileM ω α} {m' : CompileM ω' α} {f : α → CompileM ω β} {f' : α → CompileM ω' β},
    rel m m' → (∀ a, rel (f a) (f' a)) → rel (m >>= f) (m' >>= f')
  rules : ∀ (setup : Setup) (ctx : Context) (v : Validator), rel (applyRules setup ctx v) (applyRules setup ctx v)

/-- **A relation between computations that is kept by all that the compilation of a node puts them together with.**  It
need not hold where a budget is spent. -/
structure Congruence (ω ω' : Type) where
  rel : {α : Type} → CompileM ω α → CompileM ω' α → Prop
  result : ∀ {α : Type} (a : α), rel (pure a) (pure a)
  failure : ∀ {α : Type} (e : Error), e ≠ .budgetSpent → rel (throw e : CompileM ω α) (throw e)
  sequence : ∀ {α β : Type} {m : CompileM ω α} {m' : CompileM ω' α} {f : α → CompileM ω β} {f' : α → CompileM ω' β},
    rel m m' → (∀ a, rel (f a) (f' a)) → rel (m >>= f) (m' >>= f')
  rules : ∀ (setup : Setup) (ctx : Context) (v : Validator), rel (applyRules setup ctx v) (applyRules setup ctx v)

/-- **A simulation is kept by more.** -/
def Simulation.congruence (R : Simulation ω ω') : Congruence ω ω' where
  rel := R.rel
  result := R.result
  failure e _ := R.failure e
  sequence := R.sequence
  rules := R.rules

/-- **A computation keeps what holds of the world**, whether it succeeds or fails. -/
def Keeps (holds : ω → Prop) (m : CompileM ω α) : Prop := ∀ s, holds s.world → holds (m.run.run s).2.world

theorem Keeps.bind {holds : ω → Prop} {m : CompileM ω α} {f : α → CompileM ω β} (hm : Keeps holds m)
    (hf : ∀ a, Keeps holds (f a)) : Keeps holds (m >>= f) := by
  intro s hs
  have hfirst := hm s hs
  rw [run_bind]
  cases hrun : m.run.run s with
  | mk outcome u =>
    rw [hrun] at hfirst
    cases outcome with
    | ok a => exact hf a u hfirst
    | error e => exact hfirst

/-- **Keeping is kept by all that sessions do.** -/
def keeping (holds : ω → Prop) : Simulation ω ω where
  rel m _ := Keeps holds m
  result _ := fun _ hs => hs
  failure _ := fun _ hs => hs
  sequence := Keeps.bind
  rules setup ctx v := by
    intro s hs
    rw [run_applyRules]
    exact hs

/-! ## Parts -/

/-- **A schema whose compilation another one's may ask for**: a subschema, a member of `allOf` as an object, one of
several types, or the empty schema in place of absent items. -/
inductive Part (k : Keywords Node) : Node → Prop
  | sub {node : Node} : k.Holds node → Part k node
  | member {node : Node} : node ∈ k.allOf.getD [] → Part k (asObject node)
  | narrow (typeName : String) : 1 < k.types.length → Part k (.object (narrow k typeName))
  | noItem : k.type.isSome → Part k Node.empty

theorem holds_of_narrow {k : Keywords Node} {typeName : String} {node : Node} (h : (narrow k typeName).Holds node) :
    k.Holds node := by
  obtain ⟨step, hmem⟩ := Keywords.holds_iff.1 h
  exact Keywords.holds_iff.2 ⟨step, hmem⟩

/-- **A reference that the compilation of a schema may resolve**: its own, or one that a recipe lists. -/
inductive Refers (book : RecipeBook) (k : Keywords Node) : String → Prop
  | own {reference : String} : k.ref = some reference → Refers book k reference
  | recipe {target : String} : target ∈ book.references → Refers book k target

theorem ite_ne_of_ne {α : Type} {c : Prop} [Decidable c] {a b x : α} (ha : a ≠ x) (hb : b ≠ x) :
    (if c then a else b) ≠ x := by
  split
  · exact ha
  · exact hb

theorem selectUntyped_ne_custom (k : Keywords Node) (typeName : String) (recipe : Recipe) :
    selectUntyped k ≠ .custom typeName recipe := by
  unfold selectUntyped
  repeat' apply ite_ne_of_ne
  all_goals exact Kind.noConfusion

theorem selectUntyped_eq_multiType {k : Keywords Node} (h : selectUntyped k = .multiType) : 1 < k.types.length := by
  by_cases hseveral : 1 < k.types.length
  · exact hseveral
  · refine absurd h ?_
    unfold selectUntyped
    rw [if_neg hseveral]
    repeat' apply ite_ne_of_ne
    all_goals exact Kind.noConfusion

theorem primitiveKind?_ne_custom (name typeName : String) (recipe : Recipe) :
    primitiveKind? name ≠ some (.custom typeName recipe) := by
  unfold primitiveKind?
  split_ifs <;> simp

/-- **A recipe is used for a schema with the one type that it stands under.** -/
theorem select_eq_custom {book : RecipeBook} {k : Keywords Node} {typeName : String} {recipe : Recipe}
    (h : select book k = .custom typeName recipe) : k.type.isSome ∧ (typeName, recipe) ∈ book := by
  unfold select at h
  cases hcustom : customKind? book k with
  | none =>
    simp only [hcustom] at h
    split_ifs at h
    cases hprimitive : k.singleType?.bind primitiveKind? with
    | none =>
      rw [hprimitive] at h
      exact absurd h (selectUntyped_ne_custom k typeName recipe)
    | some kind =>
      rw [hprimitive] at h
      obtain ⟨name, _, hkind⟩ := Option.bind_eq_some_iff.1 hprimitive
      exact absurd (hkind.trans (congrArg some h)) (primitiveKind?_ne_custom name typeName recipe)
  | some kind =>
    simp only [hcustom] at h
    obtain ⟨name, hname, hkind⟩ := Option.bind_eq_some_iff.1 hcustom
    obtain ⟨found, hfound, rfl⟩ := Option.map_eq_some_iff.1 hkind
    cases h
    refine ⟨?_, Assoc.mem_of_get? hfound⟩
    unfold Facts.singleType? at hname
    cases htype : k.type with
    | none => rw [htype] at hname; cases hname
    | some types => rfl

/-- **A schema is taken apart by its types only if it has several.** -/
theorem select_eq_multiType {book : RecipeBook} {k : Keywords Node} (h : select book k = .multiType) :
    1 < k.types.length := by
  unfold select at h
  cases hcustom : customKind? book k with
  | some kind =>
    simp only [hcustom] at h
    obtain ⟨name, _, hkind⟩ := Option.bind_eq_some_iff.1 hcustom
    obtain ⟨found, _, rfl⟩ := Option.map_eq_some_iff.1 hkind
    cases h
  | none =>
    simp only [hcustom] at h
    split_ifs at h
    cases hprimitive : k.singleType?.bind primitiveKind? with
    | none =>
      rw [hprimitive] at h
      exact selectUntyped_eq_multiType h
    | some kind =>
      rw [hprimitive] at h
      obtain ⟨name, _, hkind⟩ := Option.bind_eq_some_iff.1 hprimitive
      obtain rfl : kind = .multiType := h
      unfold primitiveKind? at hkind
      split_ifs at hkind <;> cases hkind

end Compile
end Valgen
