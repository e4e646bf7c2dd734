import Valgen.Proofs.Compile.Defaults
import Valgen.Proofs.Project.Arrangement
import Valgen.Proofs.Project.Definitions
import Valgen.Proofs.Project.Outcome
import Valgen.Proofs.Project.Single
/-!
# Proofs.Project.HiddenDefaults — a default behind an export

A property is optional unless it is required or its validator has a default.  Alone, a document replaces a reference by
what it names, so the default of a definition is seen through the reference; as the one document of a project it answers
a reference to a definition with the name of the export, and the default is hidden (`optional_agrees_iff`).

The way a reference is answered depends on the work at that moment, but not whether it names an export, since
documents stay what they are.  So a resolver that is watched for this (`watched`) runs alike, and what it gives can be
said without the work.
-/
namespace Valgen
namespace Project

open Compile (Compiled Context Defaulted Gives Resolution Runs Session Setup Shown State
  compileValidator followedBy_standalone forall_iff_of_forall₂ gives_compileRoot gives_of_compileValidator
  map_key_of_properties not_runs_throw runs_bind runs_pure select standalone)
open Schema (Keywords Leads Node Reference)

/-! ## References to exports -/

/-- **The schema that a reference of a document is replaced by**, in a project: only if it names no export. -/
def Document.inlined? (d : Document) (reference : String) : Option Node :=
  if (exportOf? d (Reference.parse reference).fragment).isSome then none else d.node.target? reference

theorem Document.target?_of_inlined? (d : Document) {reference : String} {target : Node}
    (h : d.inlined? reference = some target) : d.node.target? reference = some target := by
  unfold inlined? at h
  split_ifs at h
  exact h

/-- **A reference to a definition is never replaced**, if all definitions are exported. -/
theorem inlined?_of_defines {d : Document} (hwishes : d.wishes = {}) {reference : String} {token : List Char}
    (h : Reference.Defines (Reference.parse reference).fragment "$defs" token) : d.inlined? reference = none := by
  unfold Document.inlined?
  split_ifs with hexport
  · rfl
  · rw [Option.eq_none_iff_forall_ne_some]
    intro target htarget
    have hpointer := (Schema.target?_eq_some_iff.1 htarget).2
    rw [h.keyOf] at hpointer
    exact hexport (isSome_exportOf? hwishes h hpointer)

/-- **A schema with a default that is seen only where references to exports are replaced as well.** -/
def Document.HidesDefault (d : Document) (node : Node) : Prop :=
  Defaulted d.node.target? node ∧ ¬ Defaulted d.inlined? node

/-- **A reference that stays in the document is answered with a name if it is to an export, else with its place.** -/
def Fair (d : Document) (reference : String) (a : Resolution) : Prop :=
  (Reference.parse reference).document.isEmpty = true →
    match a with
    | .validator v => (exportOf? d (Reference.parse reference).fragment).isSome ∧ v.Marks False
    | .inline pointer => exportOf? d (Reference.parse reference).fragment = none ∧
      pointer = (Reference.parse reference).fragment

open scoped Classical in
/-- **A resolver that fails where an answer does not pass a check.** -/
noncomputable def watched (check : String → Resolution → Prop) (r : Resolver) : Resolver := fun reference ctx => do
  let answer ← r reference ctx
  if check reference answer then return answer else throw .budgetSpent

theorem runs_watched {check : String → Resolution → Prop} {r : Resolver} {reference : String} {ctx : Context}
    {s t : State Work} {a : Resolution} :
    Runs (watched check r reference ctx) s a t ↔ Runs (r reference ctx) s a t ∧ check reference a := by
  unfold watched
  rw [runs_bind]
  constructor
  · rintro ⟨answer, u, hrun, hrest⟩
    by_cases hcheck : check reference answer
    · rw [if_pos hcheck] at hrest
      obtain ⟨rfl, rfl⟩ := runs_pure.1 hrest
      exact ⟨hrun, hcheck⟩
    · rw [if_neg hcheck] at hrest
      exact absurd hrest not_runs_throw
  · rintro ⟨hrun, hcheck⟩
    refine ⟨a, t, hrun, ?_⟩
    rw [if_pos hcheck]
    exact runs_pure.2 ⟨rfl, rfl⟩

section
variable {setup : Setup} {d : Document} {final : Work}

/-- **Only a reference that names no export stays in the document.** -/
theorem runs_resolveWith_inline {r : Resolver} {reference pointer : String} {ctx : Context} {s t : State Work}
    (h : Runs (resolveWith setup r reference ctx) s (.inline pointer) t) :
    pointer = (Reference.parse reference).fragment ∧ ∃ d,
      s.world.registry.get? (targetOf reference (ctx.document.getD "")) = some d ∧
      exportOf? d (Reference.parse reference).fragment = none := by
  unfold resolveWith at h
  rw [runs_getWork_bind] at h
  simp only at h
  rw [← targetOf] at h
  cases hd : s.world.registry.get? (targetOf reference (ctx.document.getD "")) with
  | none =>
    simp only [hd] at h
    exact absurd h not_runs_throw
  | some d =>
    simp only [hd] at h
    cases hexport : exportOf? d (Reference.parse reference).fragment with
    | none =>
      simp only [hexport] at h
      split_ifs at h
      · obtain ⟨heq, _⟩ := runs_pure.1 h
        cases heq
        exact ⟨rfl, d, rfl, hexport⟩
      · exact absurd h not_runs_throw
    | some e =>
      simp only [hexport] at h
      split_ifs at h
      · rcases runs_resolveOwn.1 h with ⟨_, heq, _⟩ | ⟨_, _, heq, _⟩ | ⟨_, _, heq, _⟩ <;> cases heq
      · obtain ⟨_, _, _, heq⟩ := runs_resolveOther.1 h
        cases heq

theorem exportOf?_reset (d : Document) (fragment : String) : exportOf? d.reset fragment = exportOf? d fragment := by
  have hexport : ∀ name, d.reset.hasExport name = d.hasExport name := fun _ => rfl
  unfold exportOf?
  simp only [hexport]

/-- **Every answer to a reference in the document itself is fair.** -/
theorem watched_follows (hfinal : final.document? d.id = some d.reset) (left : Nat) (reference : String) (ctx : Context)
    (hctx : ctx.document = some d.id) : Follows setup d.id final (resolve setup left reference ctx)
      (watched (Fair d) (resolve setup left) reference ctx) := by
  intro s a t hready hrun
  cases left with
  | zero => exact absurd hrun not_runs_throw
  | succ left =>
    have hpass : Passes setup final (fun _ _ _ _ => True) := fun _ _ _ _ _ _ _ _ _ _ _ _ _ => trivial
    obtain ⟨hev, hanswer, _⟩ := resolveWith_follows (resolve_follows hpass left) hctx hready hrun
    refine ⟨hev, fun hgrows => runs_watched.2 ⟨hrun, fun hlocal => ?_⟩⟩
    have htarget : targetOf reference d.id = d.id := if_pos hlocal
    have hsame : ∀ {d'}, t.world.document? (targetOf reference d.id) = some d' → d' = d.reset := by
      intro d' hd'
      rw [htarget, ← hgrows.documents, hfinal] at hd'
      exact (Option.some.inj hd').symm
    cases a with
    | validator v =>
      obtain ⟨d', e, hd', hexport, hanswered⟩ := hanswer v rfl
      obtain rfl := hsame hd'
      rw [exportOf?_reset] at hexport
      refine ⟨Option.isSome_of_mem hexport, ?_⟩
      cases hanswered with
      | compiled => exact Validator.marks_ofBase _
      | underWay => exact Validator.marks_ofBase _
      | other deferred => cases deferred <;> exact Validator.marks_ofBase _
    | inline pointer =>
      obtain ⟨hpointer, d', hd', hexport⟩ := runs_resolveWith_inline hrun
      rw [hctx, Option.getD_some] at hd'
      have hreset : d'.reset = d.reset := by
        refine hsame ?_
        rw [hev.document?_eq]
        exact Work.document?_of_get? hd'
      rw [← exportOf?_reset, hreset, exportOf?_reset] at hexport
      exact ⟨hexport, hpointer⟩

/-- **The session of a watched document replaces the references that name no export.** -/
theorem followedBy_watched {r : Resolver} (hhook : ∀ node ctx, setup.hook node ctx = none)
    (hrecipes : setup.recipes = []) (hrules : ∀ rule ∈ setup.rules, rule.forces = false)
    (hacyclic : ∀ reference ∈ d.node.refs, ¬ Relation.TransGen (Leads d.node) reference reference) :
    (exportSession setup (watched (Fair d) r) d).FollowedBy d.inlined? (some d.id) (Compiled setup d.node) where
  hook := hhook
  recipes := hrecipes
  rules := hrules
  member hcompiled hsole := hcompiled.member hhook hrecipes hsole
  answer := by
    intro active k reference ctx a hcompiled hselect href _ hgives
    obtain ⟨s, t, hrun⟩ := hgives
    obtain ⟨hlocal, target, htarget, hnext⟩ := hcompiled.target hhook hrecipes hacyclic hselect href
    have hrun : Runs (watched (Fair d) r reference ctx) s a t := hrun
    have hfair := (runs_watched.1 hrun).2 hlocal
    show Shown d.node d.inlined? (Compiled setup d.node) active reference a
    cases a with
    | validator v =>
      obtain ⟨hexport, hv⟩ := hfair
      have hnone : d.inlined? reference = none := by rw [Document.inlined?, if_pos hexport]
      exact .named hv hnone
    | inline pointer =>
      obtain ⟨hexport, rfl⟩ := hfair
      have hinlined : d.inlined? reference = d.node.target? reference := by simp [Document.inlined?, hexport]
      refine .inline (hcompiled.trail.fresh hacyclic (Node.mem_refs_of_ref href) hlocal) ?_ ?_
      · rw [hinlined, Node.target?, if_pos hlocal]
      · intro target' htarget'
        rw [hinlined, htarget] at htarget'
        cases htarget'
        exact hnext

end

/-! ## The one document of a project -/

/-- **What the root of a document is compiled to stays in the cache**, and a watched session gives it as well. -/
theorem gives_root_of_compileDocument {setup : Setup} {d : Document} {final : Work} {left : Nat} {s t : State Work}
    (hcons : Consistent setup s.world) (hd : s.world.document? d.id = some d.reset)
    (hreg : s.world.phase? d.id = some .registered) (hgrows : Grows t.world final)
    (hrun : Runs (compileDocument setup (resolve setup left) d) s () t) : ∃ v, t.world.cache.get? d.id .root = some v ∧
      Gives ((exportSession setup (watched (Fair d) (resolve setup left)) d).compileRoot
        (exportContext setup d .root)) v := by
  have hpass : Passes setup final (fun _ _ _ _ => True) := fun _ _ _ _ _ _ _ _ _ _ _ _ _ => trivial
  have hfollows := resolve_follows hpass left d.id
  have hready : Ready setup d.id (s.world.openDocument d) :=
    ⟨phase?_openDocument_self hreg, Consistent.openDocument (d := d.reset) hcons hd hreg⟩
  have hopened : (s.world.openDocument d).document? d.id = some d.reset := by rw [Work.document?_openDocument, hd]
  have hidle : (s.world.openDocument d).cache.progress? d.id .root = none := (hcons.waiting d.id hreg).2 .root
  obtain ⟨u, hexports, rfl⟩ := runs_compileDocument.1 hrun
  have hexports : Runs (compileExports setup (resolve setup left) d (.root :: d.exportNames.map .named))
    { s with world := s.world.openDocument d } () u := hexports
  obtain ⟨u₁, hfirst, hrest⟩ := runs_compileExports_cons.1 hexports
  rcases runs_compileExport.1 hfirst with ⟨hsome, _⟩ | ⟨_, hfresh⟩
  · -- The root comes first, and nothing of a document that waits is compiled.
    have hnone : (s.world.openDocument d).cache.get? d.id .root = none := by
      unfold Cache.get?
      rw [hidle]
    simp [hnone] at hsome
  · obtain ⟨hev₁, _, _⟩ := compileFresh_follows (s := { s with world := s.world.openDocument d }) hfollows hready
      hopened List.mem_cons_self hidle hfresh
    obtain ⟨hev₂, _, _⟩ := compileExports_follows hfollows _ (hev₁.ready hready)
      (by rw [hev₁.document?_eq, hopened]) (fun e he => List.mem_cons_of_mem _ he)
      (fun e => by rw [hev₁.isCompiling_eq]; exact hcons.idle_openDocument hreg e) hrest
    have hfinal : final.document? d.id = some d.reset := by
      rw [hgrows.documents, Work.document?_closeDocument, hev₂.document?_eq, hev₁.document?_eq, hopened]
    obtain ⟨target, v, u₂, _, hbody, rfl⟩ := runs_compileFresh.1 hfresh
    refine ⟨v, hev₂.get?_of_get? ?_, ?_⟩
    · rw [Consistent.get?_finishExport, if_pos rfl]
    · have hbegun : Ready setup d.id ((s.world.openDocument d).beginExport d .root) := ⟨hready.compiling,
        Consistent.beginExport (d := d.reset) hready.consistent hopened hready.compiling List.mem_cons_self hidle⟩
      have hgrown : Grows u₂.world final := (Grows.finishExport _ _ _ _ v).trans
        (hev₂.grows.trans ((Grows.closeDocument _ _).trans hgrows))
      have hbodies := exportBody_follows (e := .root) target (watched_follows hfinal left) _ v u₂ hbegun hbody
      exact .of_runs (hbodies.2 hgrown)

theorem exists_of_register {p p' : Project} (hempty : p.registry = []) {id : String} {node : Node}
    (h : p.register id node {} = (.ok (), p')) :
    ∃ d : Document, d.id = id ∧ d.node = node ∧ d.wishes = {} ∧ d.reset = d ∧ p' = { p with registry := [d] } := by
  have hfree : Entry.Free ⟨id, node, {}⟩ p.registry := by simp [Entry.Free, hempty]
  obtain ⟨_, rfl⟩ := (register_eq_ok_iff hfree).1 h
  exact ⟨Entry.document ⟨id, node, {}⟩, rfl, rfl, rfl, rfl, by rw [hempty, List.nil_append]⟩

theorem gives_root_of_compile {p : Project} {d : Document} {out : Output} (hregistry : p.registry = [d])
    (hreset : d.reset = d) (h : p.compile.1 = .ok out) : ∃ left v, p.compile.2.cache.get? d.id .root = some v ∧
      Gives ((exportSession p.setup (watched (Fair d) (resolve p.setup left)) d).compileRoot
        (exportContext p.setup d .root)) v := by
  obtain ⟨t, hworld, _, hrun⟩ := runs_compileWaiting_of_compile h
  have hcache : p.compile.2.cache = t.world.cache := congrArg Work.cache hworld.symm
  simp only [hregistry, List.map_cons, List.map_nil] at hrun
  obtain ⟨u, hturn, hrest⟩ := runs_compileWaiting_cons.1 hrun
  obtain rfl := runs_compileWaiting_nil.1 hrest
  have hget := get?_start_single d
  rw [hreset] at hget
  have hphase : d.phase = .registered := by rw [← hreset]; rfl
  simp only [RunsTurn, hget, if_pos hphase] at hturn
  obtain ⟨v, hv, hgives⟩ := gives_root_of_compileDocument (consistent_start p.setup [d])
    (Work.document?_of_get? hget) (hphase ▸ Work.phase?_of_get? hget) (Grows.refl _) hturn
  exact ⟨_, v, hcache ▸ hv, hgives⟩

theorem agree_iff {free applied alone joined : Prop} (h : joined → alone) :
    ((free ∧ ¬ (applied ∧ joined)) ↔ (free ∧ ¬ (applied ∧ alone))) ↔ ¬ (free ∧ applied ∧ alone ∧ ¬ joined) := by
  tauto

/-- **When a property is optional both in the project and alone, or neither.**  The document is compiled in two ways: as
the one document of a project, and alone.  The properties of its root have the same keys in the same order, and one of
them agrees unless it is not required and has a default that only a reference to an export leads to.  In particular a
default behind a reference such as `#/$defs/Name` is seen alone and hidden in the project. -/
theorem optional_agrees_iff {p p' : Project} (hempty : p.registry = [])
    (hhook : ∀ node ctx, p.setup.hook node ctx = none)
    (hrecipes : p.setup.recipes = []) (hrules : ∀ rule ∈ p.setup.rules, rule.forces = false) {id : String}
    {k : Keywords Node} {entries : List (String × Node)} (hselect : select [] k = .object)
    (hproperties : k.properties = some entries)
    (hacyclic : ∀ reference ∈ (Node.object k).refs, ¬ Relation.TransGen (Leads (.object k)) reference reference)
    (hregister : p.register id (.object k) {} = (.ok (), p')) {out : Output} (hcompile : p'.compile.1 = .ok out)
    {alone : Validator} (halone : compileValidator p.setup (.object k) = .ok alone) :
    ∃ (d : Document) (joined separate : List Property), p'.registry = [d] ∧
      (p'.compile.2.cache.get? id .root).bind Validator.shape? = some joined ∧ alone.shape? = some separate ∧
      joined.map Property.key = entries.map Prod.fst ∧ separate.map Property.key = entries.map Prod.fst ∧
      (∀ (i : Nat) (name : String) (node : Node) (a b : Property), entries[i]? = some (name, node) →
        joined[i]? = some a → separate[i]? = some b →
        (a.value.isOptional = b.value.isOptional ↔
          ¬ (k.isRequired name = false ∧ p.setup.options.applyDefaults = true ∧ d.HidesDefault node))) ∧
      ∀ reference token, Reference.Defines (Reference.parse reference).fragment "$defs" token →
        d.inlined? reference = none := by
  obtain ⟨d, rfl, hnode, hwishes, hreset, rfl⟩ := exists_of_register hempty hregister
  obtain ⟨left, v, hv, hgives⟩ := gives_root_of_compile rfl hreset hcompile
  have hlisted : ∀ rule ∈ p.setup.rules, rule.isUser = false := fun rule hr => Rule.isUser_of_forces (hrules rule hr)
  obtain ⟨_, separate, hseparate, hps⟩ :=
    gives_compileRoot hhook hrecipes hlisted rfl hselect hproperties (gives_of_compileValidator halone)
  obtain ⟨_, joined, hjoined, hqs⟩ := gives_compileRoot hhook hrecipes hlisted hnode hselect hproperties hgives
  -- The references that the project meets were met alone as well, where all of them stayed in the document.
  have hcompiled : ∀ e ∈ entries, Compiled p.setup (.object k) [""] e.2 := by
    have hgave : ∀ e ∈ entries, ∃ budget ctx raw,
        Gives ((standalone p.setup (.object k)).compileRaw budget [""] e.2 ctx) raw := by
      refine (forall_iff_of_forall₂ (q := fun _ => True) (hps.imp (fun e _ hq => ?_))).2 (fun _ _ => trivial)
      obtain ⟨raw, hraw, _⟩ := hq.value
      exact iff_of_true ⟨_, _, raw, hraw⟩ trivial
    exact fun e he => ⟨.of_property hproperties he, hgave e he⟩
  have hseparates := (followedBy_standalone hhook hrecipes hrules hacyclic).isOptional_properties
    (fun e he => (hcompiled e he).trail) rfl hps
  rw [← hnode] at hcompiled hacyclic
  have hjoins := (followedBy_watched hhook hrecipes hrules hacyclic).isOptional_properties hcompiled rfl hqs
  refine ⟨d, joined, separate, rfl, ?_, hseparate, map_key_of_properties hqs, map_key_of_properties hps, ?_, ?_⟩
  · rw [hv, Option.bind_some, hjoined]
  · intro i name node a b hentry ha hb
    have hseen : Defaulted d.inlined? node → Defaulted d.node.target? node := Defaulted.mono d.target?_of_inlined?
    have hjoin := List.forall₂_zip hjoins (List.mem_of_getElem? (List.getElem?_zip_eq_some.2 ⟨hentry, ha⟩))
    have hseparate := List.forall₂_zip hseparates (List.mem_of_getElem? (List.getElem?_zip_eq_some.2 ⟨hentry, hb⟩))
    rw [Bool.eq_iff_iff, hjoin, hseparate, ← hnode, Document.HidesDefault]
    exact agree_iff hseen
  · exact fun reference token hdefines => inlined?_of_defines hwishes hdefines

/-- **A document with a default behind a reference**, and one that is not. -/
def form : Document where
  id := "form"
  node := .object {
    type := some (.single "object")
    properties := some [
      ("name", .object { ref := some "#/$defs/Name" }),
      ("note", .object { type := some (.single "string"), default := some (.string "") })]
    defs := some [("Name", .object { type := some (.single "string"), default := some (.string "x") })] }
  wishes := {}
  importName := "form"

theorem register_form : Project.register {} "form" form.node {} = (.ok (), { registry := [form] }) := by
  have hregister : Registry.register [] "form" form.node {} = (.ok (), [form]) :=
    register_first (d := form) rfl (by decide +kernel) (by decide +kernel)
  unfold register
  rw [hregister]

theorem compile_form : ∃ out, (Project.compile { registry := [form] }).1 = .ok out := by
  have hsome : (Project.compile { registry := [form] }).1.toOption.isSome = true := by decide +kernel
  cases hcompile : (Project.compile { registry := [form] }).1 with
  | ok out => exact ⟨out, rfl⟩
  | error e => simp [hcompile, Except.toOption] at hsome

theorem budget_form : (standalone {} form.node).budget = 15 := by
  simp [Session.budget, standalone, Compile.RecipeBook.references, form, Node.refs_object, Node.height_object,
    Keywords.children, Keywords.childrenOfMap, Keywords.childrenOfOne, Keywords.childrenOfList,
    Keywords.childrenOfItems]

theorem refs_form : form.node.refs = ["#/$defs/Name"] := by
  simp [form, Node.refs_object, Keywords.children, Keywords.childrenOfMap, Keywords.childrenOfOne,
    Keywords.childrenOfList, Keywords.childrenOfItems]

theorem defines_form : Reference.Defines (Reference.parse "#/$defs/Name").fragment "$defs" "Name".toList :=
  ⟨.inl rfl, by decide +kernel, by decide, by decide⟩

theorem target?_form : form.node.target? "#/$defs/Name" =
    some (.object { type := some (.single "string"), default := some (.string "x") }) := by
  refine Schema.target?_eq_some_iff.2 ⟨by decide +kernel, ?_⟩
  rw [defines_form.keyOf, defines_form.pointer?]
  rfl

theorem acyclic_form : ∀ reference ∈ form.node.refs, ¬ Relation.TransGen (Leads form.node) reference reference := by
  intro reference hr hcycle
  rw [refs_form, List.mem_singleton] at hr
  subst hr
  obtain ⟨inner, ⟨target, htarget, hinner⟩, _⟩ := Relation.TransGen.head'_iff.1 hcycle
  rw [target?_form] at htarget
  cases htarget
  simp [Node.refs_object, Keywords.children, Keywords.childrenOfMap, Keywords.childrenOfOne, Keywords.childrenOfList,
    Keywords.childrenOfItems] at hinner

/-- **The properties of a validator that are optional.** -/
def optionals? (v : Validator) : Option (List (String × Bool)) :=
  v.shape?.map (fun properties => properties.map (fun q => (q.key, q.value.isOptional)))

theorem optionals?_alone_form :
    (compileValidator {} form.node).toOption.bind optionals? = some [("name", false), ("note", false)] := by
  unfold compileValidator Compile.runStandalone Session.compileRoot Session.compile
  rw [budget_form]
  decide +kernel

theorem alone_form : ∃ alone, compileValidator {} form.node = .ok alone := by
  obtain ⟨alone, halone, _⟩ := Option.bind_eq_some_iff.1 optionals?_alone_form
  cases hcompile : compileValidator {} form.node with
  | ok alone => exact ⟨alone, rfl⟩
  | error e => simp [hcompile, Except.toOption] at halone

theorem optional_agrees_iff_form : ∃ joined separate : List Property,
    ((Project.compile { registry := [form] }).2.cache.get? "form" .root).bind Validator.shape? = some joined ∧
    (compileValidator {} form.node).toOption.bind Validator.shape? = some separate ∧
    joined.map Property.key = ["name", "note"] ∧ separate.map Property.key = ["name", "note"] ∧
    (∀ a b, joined[0]? = some a → separate[0]? = some b → a.value.isOptional ≠ b.value.isOptional) ∧
    ∀ a b, joined[1]? = some a → separate[1]? = some b → a.value.isOptional = b.value.isOptional := by
  obtain ⟨out, hcompile⟩ := compile_form
  obtain ⟨alone, halone⟩ := alone_form
  have hkind : select [] { ref := some "#/$defs/Name" } = .reference := rfl
  obtain ⟨d, joined, separate, hd, hjoined, hseparate, hkeys, hkeys', hagree, hinlined⟩ :=
    optional_agrees_iff (p := {}) rfl (fun _ _ => rfl) rfl (by simp) rfl rfl acyclic_form register_form hcompile halone
  obtain rfl : form = d := List.singleton_inj.1 hd
  refine ⟨joined, separate, hjoined, by rw [halone]; exact hseparate, hkeys, hkeys', ?_, ?_⟩
  · intro a b ha hb hsame
    refine (hagree 0 "name" _ a b rfl ha hb).1 hsame ⟨by decide, rfl, ?_, ?_⟩
    · exact .reference hkind rfl target?_form (.own rfl)
    · intro hdefaulted
      cases hdefaulted with
      | own hdefault => cases hdefault
      | member hsole => cases hsole <;> simp_all
      | reference _ href htarget =>
        cases href
        rw [hinlined _ _ defines_form] at htarget
        cases htarget
  · intro a b ha hb
    exact (hagree 1 "note" _ a b rfl ha hb).2 (fun hhidden => hhidden.2.2.2 (.own rfl))

/-- **The same document has an optional property in the project that is not optional alone.** -/
theorem not_optional_alike_form : Project.register {} "form" form.node {} = (.ok (), { registry := [form] }) ∧
    (∀ reference ∈ form.node.refs, (Reference.parse reference).document = "" ∧
      ∃ token, Reference.Defines (Reference.parse reference).fragment "$defs" token) ∧
    (∀ reference ∈ form.node.refs, ¬ Relation.TransGen (Leads form.node) reference reference) ∧
    ((Project.compile { registry := [form] }).2.cache.get? "form" .root).bind optionals? =
      some [("name", true), ("note", false)] ∧
    (compileValidator {} form.node).toOption.bind optionals? = some [("name", false), ("note", false)] := by
  refine ⟨register_form, ?_, acyclic_form, by decide +kernel, optionals?_alone_form⟩
  rw [refs_form]
  intro reference hr
  rw [List.mem_singleton.1 hr]
  exact ⟨by decide +kernel, _, defines_form⟩

end Project
end Valgen
