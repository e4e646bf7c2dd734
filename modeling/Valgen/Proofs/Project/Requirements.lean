import Valgen.Proofs.Compile.Forcing
import Valgen.Proofs.Project.Runs
/-!
# Proofs.Project.Requirements — which required names are enforced

Where nothing else marks a validator as optional, only the compiler's reading of `required` does: whatever a schema is
compiled to is mandatory (`Session.Unforced.mandatory`), until a property that is not required is marked.  So a
required name that is listed among the properties is enforced; one that is not listed is dropped
(`required_enforced_iff_listed`).
-/
namespace Valgen
namespace Compile

open Schema (Keywords Node)

variable {ω : Type}

/-- **A session in which neither hooks, recipes or rules nor answers to references make anything optional.** -/
structure Session.Unforced (s : Session ω) : Prop where
  hook : ∀ node ctx, s.setup.hook node ctx = none
  recipes : s.setup.recipes = []
  rules : ∀ rule ∈ s.setup.rules, rule.forces = false
  answers : ∀ {reference ctx v}, Gives (s.resolve reference ctx) (.validator v) → v.isOptional = false

namespace Session.Unforced

variable {s : Session ω}

theorem isOptional_result (h : s.Unforced) (path : Path) (v : Validator) :
    (s.setup.rules.result path v).isOptional = v.isOptional := Pipeline.hasSlot_result h.rules path v (.inl rfl)

/-- **What a schema is compiled to is mandatory**: by induction on the nesting of calls. -/
theorem mandatory (h : s.Unforced) : ∀ (budget : Nat) {active : List String} {node : Node} {ctx : Context}
    {v : Validator}, Gives (s.compileRaw budget active node ctx) v → v.isOptional = false
  | 0, _, _, _, _, hv => absurd hv not_gives_throw
  | budget + 1, active, node, ctx, v, hv => by
    rcases gives_compileNode (h.hook node ctx) hv with ⟨rfl, rfl⟩ | ⟨rfl, rfl⟩ | ⟨k, w, rfl, hw, rfl⟩
    · rfl
    · rfl
    · rw [show s.setup.recipes = [] from h.recipes] at hw
      rw [isOptional_annotate]
      -- Only a composition of one member and a reference take over the markers of what they lead to.
      cases markersOf_compileKind hw with
      | unmarked _ _ hmarks => exact hmarks.mandatory
      | member _ _ hraw => exact (h.isOptional_result _ _).trans (mandatory h budget hraw)
      | reference _ _ hrefer =>
        rcases gives_refer hrefer with hresolve | ⟨pointer, _, ⟨_, rfl⟩ | ⟨_, target, _, hgives⟩⟩
        · exact h.answers hresolve
        · unfold recursion
          split
          · split <;> rfl
          · rfl
        · exact mandatory h budget hgives

/-- **A property that is required is mandatory.** -/
theorem mandatory_of_required (h : s.Unforced) {budget : Nat} {active : List String}
    {refer : String → Context → CompileM ω Validator} {k : Keywords Node} {ctx : Context}
    {entries : List (String × Node)} {properties : List Property}
    (hproperties : List.Forall₂ (PropertyOf ⟨s.setup, s.compileRaw budget active, refer⟩ k ctx) entries properties) :
    ∀ p ∈ properties, p.key ∈ k.required → p.value.isOptional = false := by
  induction hproperties with
  | nil => exact fun p hp => absurd hp List.not_mem_nil
  | cons hp _ ih =>
    intro q hq hrequired
    rcases List.mem_cons.1 hq with rfl | hq
    · obtain ⟨raw, hraw, hvalue⟩ := hp.value
      rw [hp.key] at hrequired
      have hmarked : k.isRequired _ = true := List.contains_iff_mem.2 hrequired
      rw [hvalue, h.isOptional_result, isOptional_marked, hmarked, h.mandatory budget hraw]
      rfl
    · exact ih q hq hrequired

end Session.Unforced

theorem unforced_standalone {setup : Setup} {root : Node} (hhook : ∀ node ctx, setup.hook node ctx = none)
    (hrecipes : setup.recipes = []) (hrules : ∀ rule ∈ setup.rules, rule.forces = false) :
    (standalone setup root).Unforced where
  hook := hhook
  recipes := hrecipes
  rules := hrules
  answers h := Resolution.noConfusion (gives_resolve_standalone h).2

end Compile

namespace Project

open Compile (Gives Resolution Runs Setup State not_runs_throw runs_pure)

/-- **In a project a reference is answered with a name or its place.** -/
theorem unforced_exportSession {setup : Setup} (hhook : ∀ node ctx, setup.hook node ctx = none)
    (hrecipes : setup.recipes = []) (hrules : ∀ rule ∈ setup.rules, rule.forces = false) (left : Nat) (d : Document) :
    (exportSession setup (resolve setup left) d).Unforced where
  hook := hhook
  recipes := hrecipes
  rules := hrules
  answers := by
    rintro reference ctx v ⟨s, t, h⟩
    cases left with
    | zero => exact absurd h not_runs_throw
    | succ left =>
      change Runs (resolveWith setup (resolve setup left) reference ctx) s (.validator v) t at h
      unfold resolveWith at h
      rw [runs_getWork_bind] at h
      simp only at h
      split at h
      · exact absurd h not_runs_throw
      · split at h
        · split_ifs at h
          · cases (runs_pure.1 h).1
          · exact absurd h not_runs_throw
        · split_ifs at h
          · rcases runs_resolveOwn.1 h with ⟨_, heq, _⟩ | ⟨_, _, heq, _⟩ | ⟨_, _, heq, _⟩ <;> cases heq <;> rfl
          · obtain ⟨_, _, _, heq⟩ := runs_resolveOther.1 h
            cases heq
            split <;> rfl

end Project

namespace Compile

open Schema (Keywords Node)

variable {ω : Type}

/-- **A required name is enforced if and only if it is listed.**  The shape of an object has a mandatory property for
each required name among its properties, and no property for any other. -/
theorem required_enforced_iff_listed {s : Session ω} (h : s.Unforced) {budget : Nat} {active : List String}
    {k : Keywords Node} {ctx : Context} {entries : List (String × Node)} {start stop : State ω} {v : Validator}
    (hselect : select s.setup.recipes k = .object) (hentries : k.properties = some entries)
    (hruns : Runs (s.compileRaw (budget + 1) active (.object k) ctx) start v stop) :
    ∃ properties, v.shape? = some properties ∧ ∀ name ∈ k.required,
      ((∃ p ∈ properties, p.key = name ∧ p.value.isOptional = false) ↔ name ∈ entries.map Prod.fst) := by
  obtain ⟨properties, u, hshape, hproperties⟩ := runs_compileNode_shape (h.hook _ _) hselect hentries hruns
  have hentry := gives_compileProperties (.of_runs hproperties)
  refine ⟨properties, hshape, fun name hname => ?_⟩
  rw [← map_key_of_properties hentry, List.mem_map]
  constructor
  · rintro ⟨p, hp, hkey, _⟩
    exact ⟨p, hp, hkey⟩
  · rintro ⟨p, hp, rfl⟩
    exact ⟨p, hp, rfl, h.mandatory_of_required hentry p hp hname⟩

/-- **A schema that refers to itself by one of its properties**, and requires it and a name that it does not list. -/
def chain : Keywords Node := {
  type := some (.single "object")
  required := ["next", "owner"]
  properties := some [("next", .object { ref := some "#" })] }

def chainDocument : Project.Document := { id := "chain", node := .object chain, wishes := {}, importName := "chain" }

def chainSession : Session Project.Work :=
  Project.exportSession {} (Project.resolve {} 1) chainDocument

/-- **The root of the document is under way.** -/
def chainState : State Project.Work where
  world := { registry := [chainDocument], cache := Project.Cache.begin [] "chain" .root }

/-- **The first requirement is enforced, and the second is not.** -/
def EnforcesNext (v : Validator) : Prop :=
  ∃ properties, v.shape? = some properties ∧ (∃ p ∈ properties, p.key = "next" ∧ p.value.isOptional = false) ∧
    ¬ ∃ p ∈ properties, p.key = "owner" ∧ p.value.isOptional = false

theorem required_enforced_iff_listed_chain :
    (∃ v stop, Runs ((standalone {} (.object chain)).compileRaw 2 [""] (.object chain) (Context.root {} none))
      ⟨PatternCache.empty, ()⟩ v stop ∧ EnforcesNext v) ∧
    ∃ v stop, Runs (chainSession.compileRaw 2 [""] (.object chain) (Context.root {} (some "chain"))) chainState v stop ∧
      EnforcesNext v := by
  have hrules : ∀ rule ∈ ({} : Setup).rules, rule.forces = false := fun _ h => absurd h List.not_mem_nil
  constructor
  · have hruns : ∃ v stop, Runs ((standalone {} (.object chain)).compileRaw 2 [""] (.object chain)
        (Context.root {} none)) ⟨PatternCache.empty, ()⟩ v stop := ⟨_, _, rfl⟩
    obtain ⟨v, stop, hruns⟩ := hruns
    obtain ⟨properties, hshape, hiff⟩ :=
      required_enforced_iff_listed (unforced_standalone (fun _ _ => rfl) rfl hrules) rfl rfl hruns
    exact ⟨v, stop, hruns, properties, hshape, (hiff "next" (by decide)).2 (by decide),
      fun h => absurd ((hiff "owner" (by decide)).1 h) (by decide)⟩
  · have hruns : ∃ v stop, Runs (chainSession.compileRaw 2 [""] (.object chain) (Context.root {} (some "chain")))
        chainState v stop := ⟨_, _, rfl⟩
    obtain ⟨v, stop, hruns⟩ := hruns
    obtain ⟨properties, hshape, hiff⟩ := required_enforced_iff_listed
      (Project.unforced_exportSession (fun _ _ => rfl) rfl hrules 1 chainDocument) rfl rfl hruns
    exact ⟨v, stop, hruns, properties, hshape, (hiff "next" (by decide)).2 (by decide),
      fun h => absurd ((hiff "owner" (by decide)).1 h) (by decide)⟩

/-- **A schema that requires a name it does not list.** -/
def unlisted : Node := .object {
  type := some (.single "object")
  required := ["b"]
  properties := some [("a", Node.empty)] }

/-- **The requirement is dropped**: the object has no property of that name. -/
theorem not_enforced_unlisted : ∃ v properties, compileValidator {} unlisted = .ok v ∧ v.shape? = some properties ∧
    ¬ ∃ p ∈ properties, p.key = "b" := by
  obtain ⟨b, hb⟩ := (standalone {} unlisted).exists_budget
  have hcompile : compileValidator {} unlisted =
      .ok (.ofBase (.object [⟨"a", Validator.any.optional, none⟩] .strip)) := by
    unfold compileValidator runStandalone Session.compileRoot Session.compile
    rw [hb]
    rfl
  refine ⟨_, _, hcompile, rfl, ?_⟩
  rintro ⟨p, hp, hkey⟩
  obtain rfl := List.mem_singleton.1 hp
  exact absurd hkey (by decide)

end Compile
end Valgen
