import Mathlib.Data.List.Dedup
import Valgen.Proofs.Compile.Sessions
/-!
# Proofs.Compile.Nesting — the compilation of a document ends

A call of the compiler asks for a schema with fewer `levels`, or it expands a reference.  What is expanded is not
expanded again inside itself, so that the keys left (`Session.unexpanded`) become fewer; the expansions nest no deeper
than there are keys, and the calls no deeper than `Session.budget`.

`Session.compileNested` is the compiler with a bound on the calls and another on the expansions.  Where both suffice,
a relation that compilations keep holds of any two of them (`Session.compileNested_related`): so the bounds change
nothing (`Session.EndsWithin`), and no budget is spent (`ending`).
-/
namespace Valgen
namespace Compile

open Schema (Keywords Node Reference)

variable {ω ω' : Type} {α β : Type}

/-! ## Levels -/

/-- **How many calls are nested in the compilation of a schema**, at most, if no reference is expanded.  A schema with
several types is compiled anew for each of them; `false` may be rewritten as the negation of the empty schema. -/
def levels : Node → Nat
  | .bool _ => 2
  | .object k => 1 + (if 1 < k.types.length then 1 else 0) +
      max (if k.type.isSome then 1 else 0) ((k.children.attach.map (fun c => levels c.1.2)).foldl max 0)
termination_by n => n
decreasing_by exact @Node.sizeOf_lt_of_mem_children (.object k) _ _ c.2

theorem levels_object (k : Keywords Node) : levels (.object k) = 1 + (if 1 < k.types.length then 1 else 0) +
    max (if k.type.isSome then 1 else 0) ((k.children.attach.map (fun c => levels c.1.2)).foldl max 0) := by
  rw [levels.eq_def]

theorem levels_bool (value : Bool) : levels (.bool value) = 2 := by rw [levels.eq_def]

theorem one_le_levels (n : Node) : 1 ≤ levels n := by
  cases n with
  | bool value => simp [levels_bool]
  | object k =>
    rw [levels_object]
    omega

theorem levels_lt_of_holds {k : Keywords Node} {c : Node} (h : k.Holds c) : levels c < levels (.object k) := by
  obtain ⟨step, hmem⟩ := Keywords.holds_iff.1 h
  have hle := (Node.le_foldl_max (k.children.attach.map (fun c => levels c.1.2)) 0).2 (levels c)
    (List.mem_map.2 ⟨⟨(step, c), hmem⟩, List.mem_attach _ _, rfl⟩)
  rw [levels_object]
  omega

theorem levels_empty : levels Node.empty = 1 := by
  unfold Node.empty
  rw [levels_object]
  rfl

theorem levels_asObject_le (n : Node) : levels (asObject n) ≤ levels n := by
  match n with
  | .bool true =>
    rw [show asObject (.bool true) = Node.empty from rfl, levels_empty]
    exact one_le_levels _
  | .bool false =>
    have hnothing : levels Node.nothing = 1 + 0 + max 0 (max 0 (levels Node.empty)) := by
      unfold Node.nothing
      rw [levels_object]
      rfl
    rw [show asObject (.bool false) = Node.nothing from rfl, hnothing, levels_empty, levels_bool]
    exact Nat.le_refl 2
  | .object k => exact Nat.le_refl _

theorem levels_narrow_lt {k : Keywords Node} (h : 1 < k.types.length) (typeName : String) :
    levels (.object (narrow k typeName)) < levels (.object k) := by
  have htype : k.type.isSome := by
    unfold Schema.Facts.types at h
    cases htype : k.type with
    | none => simp [htype] at h
    | some types => rfl
  have hnarrow : levels (.object (narrow k typeName)) =
      1 + 0 + max 1 ((k.children.attach.map (fun c => levels c.1.2)).foldl max 0) := by
    rw [levels_object]
    rfl
  rw [hnarrow, levels_object, if_pos h, if_pos htype]
  omega

/-- **Each call asks for fewer levels.** -/
theorem levels_lt_of_part {k : Keywords Node} {node : Node} (h : Part k node) : levels node < levels (.object k) := by
  cases h with
  | sub hholds => exact levels_lt_of_holds hholds
  | member hmember => exact Nat.lt_of_le_of_lt (levels_asObject_le _) (levels_lt_of_holds (.allOf hmember))
  | narrow typeName hseveral => exact levels_narrow_lt hseveral typeName
  | noItem htype =>
    rw [levels_empty, levels_object, if_pos htype]
    omega

theorem levels_le (n : Node) : levels n ≤ 2 * n.height + 1 := by
  match n with
  | .bool value =>
    have := Node.one_le_height (.bool value)
    rw [levels_bool]
    omega
  | .object k =>
    have hchildren : (k.children.attach.map (fun c => levels c.1.2)).foldl max 0 ≤ 2 * (Node.object k).height - 1 := by
      refine Node.foldl_max_le (Nat.zero_le _) (fun x hx => ?_)
      obtain ⟨⟨⟨step, c⟩, hc⟩, _, rfl⟩ := List.mem_map.1 hx
      have hheight := Node.height_lt_of_holds (Keywords.holds_iff.2 ⟨step, hc⟩)
      have hlevels := levels_le c
      show levels c ≤ _
      omega
    have := Node.one_le_height (.object k)
    rw [levels_object]
    split_ifs <;> omega
termination_by n
decreasing_by exact @Node.sizeOf_lt_of_mem_children (.object k) _ _ hc

theorem mem_refs_of_part {k : Keywords Node} {node : Node} (h : Part k node) {reference : String}
    (hr : reference ∈ node.refs) : reference ∈ (Node.object k).refs := by
  have hempty : Node.empty.refs = [] := by
    rw [Node.refs.eq_def]
    rfl
  cases h with
  | sub hholds => exact Node.mem_refs_of_holds hholds hr
  | @member inner hmember =>
    match inner, hmember, hr with
    | .bool true, _, hr => exact absurd (hempty ▸ hr) List.not_mem_nil
    | .bool false, _, hr =>
      have hnothing : Node.nothing.refs = Node.empty.refs ++ [] := by
        rw [Node.refs.eq_def]
        rfl
      rw [show asObject (.bool false) = Node.nothing from rfl, hnothing, hempty] at hr
      exact absurd hr List.not_mem_nil
    | .object inner, hmember, hr => exact Node.mem_refs_of_holds (.allOf hmember) hr
  | narrow typeName hseveral =>
    have hnarrow : (Node.object (narrow k typeName)).refs = (Node.object k).refs := by
      rw [Node.refs.eq_def, Node.refs.eq_def (.object k)]
      rfl
    exact hnarrow ▸ hr
  | noItem htype => exact absurd (hempty ▸ hr) List.not_mem_nil

/-! ## Expansions -/

namespace Session

/-- **The texts of the references that a session may resolve.** -/
def references (s : Session ω) : List String := s.root.refs ++ s.setup.recipes.references

/-- **The keys of the references of a session**, each once. -/
def keys (s : Session ω) : List String :=
  (s.references.map (fun reference => Reference.keyOf (Reference.parse reference).fragment)).dedup

/-- **The keys that are not being expanded.** -/
def unexpanded (s : Session ω) (active : List String) : List String := s.keys.filter (fun key => !active.contains key)

theorem length_unexpanded_le (s : Session ω) (active : List String) :
    (s.unexpanded active).length ≤ s.keys.length := List.length_filter_le _ _

theorem length_keys_le (s : Session ω) : s.keys.length ≤ s.references.length :=
  Nat.le_trans (List.dedup_sublist _).length_le (Nat.le_of_eq (List.length_map _))

theorem length_unexpanded_lt {s : Session ω} {active : List String} {key : String} (hkey : key ∈ s.keys)
    (hnew : active.contains key = false) : (s.unexpanded (key :: active)).length < (s.unexpanded active).length := by
  have hfilter : s.unexpanded (key :: active) = (s.unexpanded active).filter (fun other => other != key) := by
    unfold unexpanded
    rw [List.filter_filter]
    refine List.filter_congr (fun other _ => ?_)
    rw [List.contains_cons, Bool.not_or]
    rfl
  rw [hfilter, List.length_filter_lt_length_iff_exists]
  exact ⟨key, List.mem_filter.2 ⟨hkey, by rw [hnew]; rfl⟩, by simp⟩

/-- **The compiler with a bound on the nesting of calls and another on that of expansions.** -/
def compileNested (s : Session ω) : Nat → Nat → List String → Node → Context → CompileM ω Validator
  | 0, _, _, _, _ => throw .budgetSpent
  | budget + 1, nesting, active, node, ctx =>
    let sub : Sub ω := {
      setup := s.setup
      raw := compileNested s budget nesting active
      refer := s.refer (fun active node ctx =>
        match nesting with
        | 0 => throw .budgetSpent
        | nesting + 1 => compileNested s budget nesting active node ctx) active }
    compileNode sub node ctx

/-- **An expansion is a call**, so a bound on calls bounds the expansions. -/
theorem compileNested_eq_compileRaw (s : Session ω) : ∀ (budget nesting : Nat), budget ≤ nesting →
    s.compileNested budget nesting = s.compileRaw budget
  | 0, _, _ => rfl
  | budget + 1, 0, h => absurd h (Nat.not_succ_le_zero _)
  | budget + 1, nesting + 1, h => by
    have hraw := compileNested_eq_compileRaw s budget (nesting + 1) (by omega)
    have hinner := compileNested_eq_compileRaw s budget nesting (by omega)
    funext active node ctx
    unfold compileNested compileRaw
    simp only [hraw, hinner]

/-- **A bound on the calls that compile a node**, given what is being expanded. -/
def need (s : Session ω) (active : List String) (node : Node) : Nat :=
  levels node + (s.unexpanded active).length * (2 * s.root.height + 1)

theorem length_unexpanded_le_need (s : Session ω) (active : List String) (node : Node) :
    (s.unexpanded active).length ≤ s.need active node :=
  Nat.le_trans (Nat.le_mul_of_pos_right _ (Nat.succ_pos _)) (Nat.le_add_left _ _)

theorem need_le_budget (s : Session ω) (active : List String) {node : Node} (h : s.root.Within node) :
    s.need active node ≤ s.budget := by
  have hlevels : levels node ≤ 2 * s.root.height + 1 := Nat.le_trans (levels_le node) (by have := h.height; omega)
  have hkeys : (s.unexpanded active).length ≤ s.references.length :=
    Nat.le_trans (s.length_unexpanded_le active) s.length_keys_le
  have hmul := Nat.mul_le_mul hkeys (show 2 * s.root.height + 1 ≤ 2 * s.root.height + 3 by omega)
  have hbudget : s.budget = (s.references.length + 1) * (2 * s.root.height + 3) + 1 := by
    unfold budget references
    rw [List.length_append]
  unfold need
  rw [hbudget, Nat.add_mul]
  omega

end Session

/-! ## Sufficient bounds -/

/-- **Two sessions on one document that resolve references alike**: they answer with a validator, or leave the reference
in the document. -/
structure SessionAgrees (R : Congruence ω ω') (document : Option String) (s : Session ω) (s' : Session ω') : Prop where
  setup : s'.setup = s.setup
  root : s'.root = s.root
  rootName : s'.rootName = s.rootName
  resolve : ∀ reference ctx, ctx.document = document →
    ∀ {f : Resolution → CompileM ω Validator} {f' : Resolution → CompileM ω' Validator},
      (∀ v, R.rel (f (.validator v)) (f' (.validator v))) →
      R.rel (f (.inline (Reference.parse reference).fragment)) (f' (.inline (Reference.parse reference).fragment)) →
      R.rel (s.resolve reference ctx >>= f) (s'.resolve reference ctx >>= f')

namespace Session

variable {R : Congruence ω ω'} {document : Option String} {s : Session ω} {s' : Session ω'}

theorem key_mem_keys {k : Keywords Node} (hnode : ∀ reference ∈ (Node.object k).refs, reference ∈ s.root.refs)
    {reference : String} (h : Refers s.setup.recipes k reference) :
    Reference.keyOf (Reference.parse reference).fragment ∈ s.keys := by
  refine List.mem_dedup.2 (List.mem_map_of_mem (List.mem_append.2 ?_))
  cases h with
  | own href => exact .inl (hnode reference (Node.mem_refs_of_ref href))
  | recipe hlisted => exact .inr hlisted

/-- **Bounds that suffice do not matter.** -/
theorem compileNested_related (h : SessionAgrees R document s s') :
    ∀ (budget budget' nesting nesting' : Nat) (active : List String) (node : Node) (ctx : Context),
      ctx.document = document → (∀ reference ∈ node.refs, reference ∈ s.root.refs) →
      s.need active node ≤ budget → s.need active node ≤ budget' →
      (s.unexpanded active).length ≤ nesting → (s.unexpanded active).length ≤ nesting' →
      R.rel (s.compileNested budget nesting active node ctx) (s'.compileNested budget' nesting' active node ctx)
  | 0, _, _, _, _, node, _, _, _, hneed, _, _, _ => by
    have := one_le_levels node
    unfold need at hneed
    omega
  | _ + 1, 0, _, _, _, node, _, _, _, _, hneed, _, _ => by
    have := one_le_levels node
    unfold need at hneed
    omega
  | budget + 1, budget' + 1, nesting, nesting', active, node, ctx, hctx, hrefs, hneed, hneed', hnest, hnest' => by
    unfold compileNested
    refine SubRelated.compileNode h.setup (fun k hk => ⟨h.setup, ?_, ?_⟩) ctx hctx
    · -- A part has fewer levels, and nothing more is being expanded.
      intro part ctx' hpart hctx'
      subst hk
      have hlevels := levels_lt_of_part hpart
      have hrefs' : ∀ reference ∈ part.refs, reference ∈ s.root.refs :=
        fun reference hr => hrefs reference (mem_refs_of_part hpart hr)
      unfold need at hneed hneed'
      exact compileNested_related h budget budget' nesting nesting' active part ctx' hctx' hrefs'
        (by unfold need; omega) (by unfold need; omega) hnest hnest'
    · intro reference ctx' hrefers hctx'
      subst hk
      have hkey := key_mem_keys hrefs hrefers
      unfold refer
      refine h.resolve reference ctx' hctx' (fun v => R.result _) ?_
      simp only [recursion, h.root, h.rootName]
      cases hactive : active.contains (Reference.keyOf (Reference.parse reference).fragment) with
      | true => exact R.result _
      | false =>
        simp only [Bool.false_eq_true, ↓reduceIte]
        cases htarget : s.root.pointer? (Reference.keyOf (Reference.parse reference).fragment) with
        | none => exact R.failure _ Error.noConfusion
        | some target =>
          -- The target may have all the levels of the root again, but one key less is left.
          have hwithin := Node.within_of_pointer? htarget
          have hless := length_unexpanded_lt hkey hactive
          have hlevels : levels target ≤ 2 * s.root.height + 1 :=
            Nat.le_trans (levels_le target) (by have := hwithin.height; omega)
          have hstep : s.need (Reference.keyOf (Reference.parse reference).fragment :: active) target ≤
              (s.unexpanded active).length * (2 * s.root.height + 1) := by
            have hmul := Nat.mul_le_mul_right (2 * s.root.height + 1) hless
            rw [Nat.succ_mul] at hmul
            unfold need
            omega
          have hpos := one_le_levels (.object ‹Keywords Node›)
          unfold need at hneed hneed'
          obtain ⟨nesting, rfl⟩ : ∃ n, nesting = n + 1 := ⟨nesting - 1, by omega⟩
          obtain ⟨nesting', rfl⟩ : ∃ n, nesting' = n + 1 := ⟨nesting' - 1, by omega⟩
          exact compileNested_related h budget budget' nesting nesting' _ target ctx' hctx' hwithin.refs
            (by omega) (by omega) (by omega) (by omega)

/-- **Sessions that resolve references alike compile alike**, and spend no budget on the way. -/
theorem compile_agrees (h : SessionAgrees R document s s') (active : List String) {node : Node}
    (hnode : s.root.Within node) (ctx : Context) (hctx : ctx.document = document) :
    R.rel (s.compile active node ctx) (s'.compile active node ctx) := by
  have hbudget : s'.budget = s.budget := by
    unfold budget
    rw [h.root, h.setup]
  have hneed := s.need_le_budget active hnode
  have hkeys := Nat.le_trans (s.length_unexpanded_le_need active node) hneed
  unfold Session.compile
  rw [hbudget, h.setup, ← compileNested_eq_compileRaw s _ _ (Nat.le_refl _),
    ← compileNested_eq_compileRaw s' _ _ (Nat.le_refl _)]
  refine R.sequence ?_ (fun v => R.rules s.setup ctx v)
  exact compileNested_related h _ _ _ _ active node ctx hctx hnode.refs hneed hneed hkeys hkeys

end Session

/-! ## The bounds change nothing -/

/-- **Equality is kept by all that the compilation of a node does.** -/
def equality (ω : Type) : Congruence ω ω where
  rel m m' := m = m'
  result _ := rfl
  failure _ _ := rfl
  sequence hm hf := by rw [hm, funext hf]
  rules _ _ _ := rfl

/-- **The references of a session that stay in the document keep their pointer.** -/
def Session.Faithful (s : Session ω) : Prop :=
  ∀ reference ctx st pointer t, Runs (s.resolve reference ctx) st (.inline pointer) t →
    pointer = (Reference.parse reference).fragment

theorem Session.Faithful.agrees {s : Session ω} (h : s.Faithful) (document : Option String) :
    SessionAgrees (equality ω) document s s := by
  refine ⟨rfl, rfl, rfl, fun reference ctx _ f f' hvalidator hinline => ?_⟩
  refine bind_congr_of_runs (fun st resolution t hrun => ?_)
  cases resolution with
  | validator v => exact hvalidator v
  | inline pointer =>
    rw [h reference ctx st pointer t hrun]
    exact hinline

/-- **More calls change nothing, and no more than so many expansions are nested in each other.** -/
def Session.EndsWithin (s : Session ω) (nesting : Nat) : Prop :=
  ∀ budget active node ctx, s.budget ≤ budget → s.root.Within node →
    s.compileNested budget nesting active node ctx = s.compileRaw s.budget active node ctx

/-- **No more expansions are nested than there are keys.** -/
theorem Session.Faithful.endsWithin {s : Session ω} (h : s.Faithful) : s.EndsWithin s.keys.length := by
  intro budget active node ctx hbudget hnode
  have hneed := s.need_le_budget active hnode
  have hkeys := Nat.le_trans (s.length_unexpanded_le_need active node) hneed
  rw [← compileNested_eq_compileRaw s s.budget s.budget (Nat.le_refl _)]
  exact compileNested_related (h.agrees ctx.document) _ _ _ _ active node ctx rfl hnode.refs
    (Nat.le_trans hneed hbudget) hneed (s.length_unexpanded_le active) hkeys

/-! ## No budget is spent -/

/-- **Two computations run alike, and spend no budget.** -/
def EndsAlike (m m' : CompileM ω α) (s : State ω) : Prop :=
  m.run.run s = m'.run.run s ∧ (m.run.run s).1 ≠ .error .budgetSpent

theorem endsAlike_pure (a : α) (s : State ω) : EndsAlike (pure a : CompileM ω α) (pure a) s :=
  ⟨rfl, fun h => nomatch h⟩

theorem endsAlike_throw {e : Error} (he : e ≠ .budgetSpent) (s : State ω) :
    EndsAlike (throw e : CompileM ω α) (throw e) s :=
  ⟨rfl, fun h => he (Except.error.inj h)⟩

theorem EndsAlike.bind {m m' : CompileM ω α} {f f' : α → CompileM ω β} {s : State ω} (hm : EndsAlike m m' s)
    (hf : ∀ a t, Runs m s a t → EndsAlike (f a) (f' a) t) : EndsAlike (m >>= f) (m' >>= f') s := by
  obtain ⟨hsame, hends⟩ := hm
  unfold EndsAlike
  rw [run_bind, run_bind, ← hsame]
  cases hrun : m.run.run s with
  | mk outcome u =>
    rw [hrun] at hends
    cases outcome with
    | ok a => exact hf a u hrun
    | error e => exact ⟨rfl, fun h => hends (congrArg Except.error (Except.error.inj h))⟩

/-- **Computations that run alike and spend no budget where something holds of the world**, and keep it. -/
def ending (holds : ω → Prop) : Congruence ω ω where
  rel m m' := ∀ s, holds s.world → EndsAlike m m' s ∧ ∀ a t, Runs m s a t → holds t.world
  result a s hs := ⟨endsAlike_pure a s, fun _ _ hrun => (runs_pure.1 hrun).2 ▸ hs⟩
  failure e he s hs := ⟨endsAlike_throw he s, fun _ _ hrun => absurd hrun not_runs_throw⟩
  sequence := by
    intro α β m m' f f' hm hf s hs
    obtain ⟨hends, hkeep⟩ := hm s hs
    refine ⟨hends.bind (fun a t hrun => (hf a t (hkeep a t hrun)).1), fun b t hrun => ?_⟩
    obtain ⟨a, u, hfirst, hrest⟩ := runs_bind.1 hrun
    exact (hf a u (hkeep a u hfirst)).2 b t hrest
  rules setup ctx v := by
    intro s hs
    refine ⟨⟨rfl, fun h => ?_⟩, fun _ t hrun => (world_of_runs_applyRules hrun) ▸ hs⟩
    rw [run_applyRules] at h
    cases h

/-! ## Documents that stand alone -/

theorem faithful_standalone (setup : Setup) (root : Node) : (standalone setup root).Faithful := by
  intro reference ctx st pointer t hrun
  unfold standalone resolveLocally at hrun
  simp only at hrun
  split at hrun
  · obtain ⟨hpointer, _⟩ := runs_pure.1 hrun
    cases hpointer
    rfl
  · exact absurd hrun not_runs_throw

/-- **The compilation of a document that stands alone spends no budget.** -/
theorem runStandalone_ends (setup : Setup) (root : Node) (patterns : PatternCache) :
    (runStandalone setup root patterns).1 ≠ .error .budgetSpent := by
  have hagrees : SessionAgrees (ending (fun _ : Unit => True)) none (standalone setup root)
      (standalone setup root) := by
    refine ⟨rfl, rfl, rfl, fun reference ctx _ f f' _ hinline s _ => ?_⟩
    refine ⟨?_, fun _ _ _ => trivial⟩
    refine EndsAlike.bind ?_ (fun resolution t hrun => ?_)
    · show EndsAlike (resolveLocally reference ctx) (resolveLocally reference ctx) s
      unfold resolveLocally
      simp only
      split
      · exact endsAlike_pure _ s
      · exact endsAlike_throw Error.noConfusion s
    · cases resolution with
      | inline pointer =>
        rw [faithful_standalone setup root reference ctx s pointer t hrun]
        exact (hinline t trivial).1
      | validator v =>
        unfold standalone resolveLocally at hrun
        simp only at hrun
        split at hrun
        · exact Resolution.noConfusion (runs_pure.1 hrun).1
        · exact absurd hrun not_runs_throw
  unfold runStandalone
  cases hoptions : checkOptions setup.options with
  | error e =>
    unfold checkOptions at hoptions
    split_ifs at hoptions <;> cases hoptions <;> simp
  | ok _ =>
    have hroot := Session.compile_agrees hagrees [""] (Node.Within.refl root) (Context.root setup.options none) rfl
    exact (hroot ⟨patterns, ()⟩ trivial).1.2

end Compile
end Valgen
