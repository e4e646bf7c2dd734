import Valgen.Proofs.Compile.Defaults
import Valgen.Proofs.Validator.Verdicts
/-!
# Proofs.Compile.Forcing — which properties are optional in the end

The compiler marks a property as optional unless it is required or has a default, and then runs the rules on it.  So the
last rule that forces the property at its path decides, and where none does the compiler's own mark stays
(`optional_as_last_forced`).
-/
namespace Valgen
namespace Compile

open Schema (Keywords Node)

variable {ω : Type}

section
variable {sub : Sub ω} {k : Keywords Node} {ctx : Context}

theorem runs_compileProperties_cons {key : String} {node : Node} {rest : List (String × Node)} {s t : State ω}
    {properties : List Property} : Runs (compileProperties sub k ctx ((key, node) :: rest)) s properties t ↔
      ∃ raw u value w others, Runs (sub.raw node (ctx.descend "properties" (.key key))) s raw u ∧
        Runs (applyRules sub.setup (ctx.descend "properties" (.key key)) (marked (k.isRequired key) raw)) u value w ∧
        Runs (compileProperties sub k ctx rest) w others t ∧
        properties = ⟨key, value, node.keywords?.bind (fun c => c.description)⟩ :: others := by
  rw [compileProperties]
  simp only [runs_bind, runs_pure]
  constructor
  · rintro ⟨raw, u, hraw, value, w, hvalue, others, t', hothers, rfl, rfl⟩
    exact ⟨raw, u, value, w, others, hraw, hvalue, hothers, rfl⟩
  · rintro ⟨raw, u, value, w, others, hraw, hvalue, hothers, rfl⟩
    exact ⟨raw, u, hraw, value, w, hvalue, others, t, hothers, rfl, rfl⟩

/-- **A property is compiled where those before it have left the state.** -/
theorem runs_compileProperties_append {key : String} {node : Node} {after : List (String × Node)} {t : State ω} :
    ∀ {before : List (String × Node)} {s : State ω} {properties : List Property},
      Runs (compileProperties sub k ctx (before ++ (key, node) :: after)) s properties t →
      ∃ done p more u raw w, properties = done ++ p :: more ∧ Runs (compileProperties sub k ctx before) s done u ∧
        Runs (sub.raw node (ctx.descend "properties" (.key key))) u raw w ∧ p.key = key ∧
        p.value = sub.setup.rules.result (ctx.descend "properties" (.key key)).path (marked (k.isRequired key) raw)
  | [], s, properties, h => by
    obtain ⟨raw, u, value, w, others, hraw, hvalue, _, rfl⟩ := runs_compileProperties_cons.1 h
    exact ⟨[], _, others, s, raw, u, rfl, runs_pure.2 ⟨rfl, rfl⟩, hraw, rfl, gives_applyRules (.of_runs hvalue)⟩
  | (first, child) :: before, s, properties, h => by
    obtain ⟨raw, u, value, w, others, hraw, hvalue, hothers, rfl⟩ := runs_compileProperties_cons.1 h
    obtain ⟨done, p, more, u', raw', w', rfl, hdone, hp⟩ := runs_compileProperties_append hothers
    refine ⟨_ :: done, p, more, u', raw', w', rfl, ?_, hp⟩
    exact runs_compileProperties_cons.2 ⟨raw, u, value, w, done, hraw, hvalue, hdone, rfl⟩

/-- **An object shows the properties that its schema lists**, which are compiled first. -/
theorem runs_compileNode_shape {entries : List (String × Node)} {s t : State ω} {v : Validator}
    (hhook : sub.setup.hook (.object k) ctx = none) (hselect : select sub.setup.recipes k = .object)
    (hentries : k.properties = some entries) (h : Runs (compileNode sub (.object k) ctx) s v t) :
    ∃ properties u, v.shape? = some properties ∧ Runs (compileProperties sub k ctx entries) s properties u := by
  unfold compileNode at h
  rw [hhook] at h
  obtain ⟨w, u, hw, hreturn⟩ := runs_bind.1 h
  obtain ⟨rfl, rfl⟩ := runs_pure.1 hreturn
  rw [hselect] at hw
  obtain ⟨base, u₁, hbase, hw⟩ := runs_bind.1 hw
  obtain ⟨first, u₂, hfirst, hw⟩ := runs_bind.1 hw
  obtain ⟨second, u₃, hsecond, hlast⟩ := runs_bind.1 hw
  unfold compileObjectBase at hbase
  rw [hentries] at hbase
  obtain ⟨properties, u₄, hproperties, hbase⟩ := runs_bind.1 hbase
  obtain ⟨rest, u₅, _, hreturn⟩ := runs_bind.1 hbase
  obtain ⟨rfl, rfl⟩ := runs_pure.1 hreturn
  refine ⟨properties, u₄, ?_, hproperties⟩
  rw [shape?_annotate, shape?_intersectIf (.of_runs hlast), shape?_intersectIf (.of_runs hsecond),
    shape?_intersectIf (.of_runs hfirst)]
  rfl

end

/-- **The last rule that forces a property decides whether it is optional**; if none does, it is if its schema made it
so, or if it is neither required nor has a default. -/
theorem optional_as_last_forced {s : Session ω} {budget : Nat} {active : List String} {k : Keywords Node}
    {ctx : Context} {entries before after : List (String × Node)} {key : String} {node : Node} {start stop : State ω}
    {v : Validator}
    (hhook : s.setup.hook (.object k) ctx = none) (hrules : ∀ rule ∈ s.setup.rules, rule.isUser = false)
    (hselect : select s.setup.recipes k = .object) (hentries : k.properties = some entries)
    (hentry : entries = before ++ (key, node) :: after)
    (hruns : Runs (s.compileRaw (budget + 1) active (.object k) ctx) start v stop) :
    ∃ done p more here raw there, v.shape? = some (done ++ p :: more) ∧
      (s.setup.rules.result ctx.path v).shape? = some (done ++ p :: more) ∧
      Runs (compileProperties ⟨s.setup, s.compileRaw budget active, s.refer (s.compileRaw budget) active⟩ k ctx before)
        start done here ∧
      Runs (s.compileRaw budget active node (ctx.descend "properties" (.key key))) here raw there ∧ p.key = key ∧
      p.value.isOptional = (s.setup.rules.forced? (ctx.descend "properties" (.key key)).path).getD
        (raw.isOptional || (!k.isRequired key && !raw.hasDefault)) := by
  obtain ⟨properties, u, hshape, hproperties⟩ := runs_compileNode_shape hhook hselect hentries hruns
  rw [hentry] at hproperties
  obtain ⟨done, p, more, here, raw, there, rfl, hdone, hraw, hkey, hvalue⟩ := runs_compileProperties_append hproperties
  refine ⟨done, p, more, here, raw, there, hshape, (shape?_result hrules _ v).trans hshape, hdone, hraw, hkey, ?_⟩
  rw [hvalue, Pipeline.isOptional_result hrules, isOptional_marked]

/-- **An object with a property that rules force in both ways.** -/
def contact : Keywords Node := {
  type := some (.single "object")
  required := ["name", "email"]
  properties := some [
    ("name", .object { type := some (.single "string") }),
    ("email", .object { type := some (.single "string"), default := some (.string "") })] }

def forcing : Setup := {
  rules := [.forceRequired "$..email", .strictObjects, .forceOptional "$.properties.*", .brandField "email" "Email",
    .forceRequired "$..name"] }

theorem runs_contact : ∃ v stop, Runs ((standalone forcing (.object contact)).compileRaw 2 [""] (.object contact)
    (Context.root {} none)) ⟨PatternCache.empty, ()⟩ v stop := ⟨_, _, rfl⟩

theorem optional_as_last_forced_contact : ∃ v stop done p more,
    Runs ((standalone forcing (.object contact)).compileRaw 2 [""] (.object contact) (Context.root {} none))
      ⟨PatternCache.empty, ()⟩ v stop ∧
    v.shape? = some (done ++ p :: more) ∧ p.key = "email" ∧ p.value.isOptional = true := by
  obtain ⟨v, stop, hruns⟩ := runs_contact
  have hentries : contact.properties = some ([("name", .object { type := some (.single "string") })] ++
      ("email", .object { type := some (.single "string"), default := some (.string "") }) :: []) := rfl
  have hrules : ∀ rule ∈ forcing.rules, rule.isUser = false := by decide
  have hforced : (standalone forcing (.object contact)).setup.rules.forced?
      ((Context.root {} none).descend "properties" (.key "email")).path = some true := by
    decide +kernel
  obtain ⟨done, p, more, here, raw, there, hshape, _, _, _, hkey, hoptional⟩ :=
    optional_as_last_forced rfl hrules rfl hentries rfl hruns
  refine ⟨v, stop, done, p, more, hruns, hshape, hkey, hoptional.trans ?_⟩
  rw [hforced, Option.getD_some]

end Compile
end Valgen
