import Valgen.Proofs.Compile.Nesting
import Valgen.Proofs.Name
import Valgen.Proofs.Project.Runs
/-!
# Proofs.Project.Single — a project of one document compiles as the document alone

A document may be compiled as the only one of a project, or alone under the name that the project would give its root.
Both ways lead to the same text or the same error (`single_document_as_standalone`), for a document without definitions
whose references stay in it.

The two ways meet a reference to the root differently.  In the project the root is an export under way, and the
reference is answered with its name for later; alone the key of the root is being expanded, and the reference ends with
the configured name.  Every other reference is expanded in place by both (`answersAlike_single`).
-/
namespace Valgen
namespace Project

open Compile (Agree Context Coupling EndsSideBySide Resolution SamePlace Session SessionAligned Setup State checkOptions
  compileText compileValidator mem_refs_of_part resolveLocally run_bind runStandalone standalone)
open Schema (Keywords Node Reference)

/-! ## The one export -/

def NoDefinitions (node : Node) : Prop := ∀ k, node = .object k → k.defs = none ∧ k.definitions = none

theorem Document.exportNames_eq_nil {d : Document} (hwishes : d.wishes = {}) (hnode : NoDefinitions d.node) :
    d.exportNames = [] := by
  have hempty : d.wishes.exports.isEmpty = true := by rw [hwishes]; rfl
  unfold exportNames
  rw [if_pos hempty]
  cases hd : d.node with
  | bool value => rfl
  | object k =>
    obtain ⟨hdefs, hdefinitions⟩ := hnode k hd
    simp [Node.keywords?, Keywords.definitionNames, hdefs, hdefinitions, Assoc.keys]

theorem exportOf?_single {d : Document} (h : d.exportNames = []) (fragment : String) :
    exportOf? d fragment = if fragment = "" ∨ fragment = "/" then some .root else none := by
  unfold exportOf? Document.hasExport
  rw [h]
  split
  · rfl
  · split <;> rfl

/-! ## Runs -/

section
variable {s : State Work}

/-- **A reference of the one document, while its root is under way**: the root is named for later, anything else stays
in the document. -/
theorem run_resolve_single (setup : Setup) (left : Nat) {d : Document} {reference : String} {ctx : Context}
    (hctx : ctx.document = some d.id) (hreference : (Reference.parse reference).document = "")
    (hget : s.world.registry.get? d.id = some d) (hnames : d.exportNames = [])
    (hroot : s.world.cache.progress? d.id .root = some .compiling) :
    (resolve setup (left + 1) reference ctx).run.run s =
      (.ok (if (Reference.parse reference).fragment = "" ∨ (Reference.parse reference).fragment = "/" then
        .validator (Validator.lazy d.rootBinding) else .inline (Reference.parse reference).fragment), s) := by
  have hnone : s.world.cache.get? d.id .root = none := by
    unfold Cache.get?
    rw [hroot]
  have hcompiling : s.world.cache.isCompiling d.id .root = true := Cache.isCompiling_iff.2 hroot
  have hempty : (Reference.parse reference).document.isEmpty = true := by rw [hreference]; rfl
  unfold resolve resolveWith
  rw [run_getWork_bind]
  simp only [hctx, Option.getD_some, hempty, ↓reduceIte, hget, exportOf?_single hnames]
  by_cases hfragment : (Reference.parse reference).fragment = "" ∨ (Reference.parse reference).fragment = "/"
  · simp only [if_pos hfragment]
    unfold resolveOwn
    rw [run_getWork_bind]
    simp only [hnone, Option.isSome_none, Bool.false_eq_true, ↓reduceIte, hcompiling]
    rfl
  · simp only [if_neg hfragment]
    rfl

theorem run_resolveLocally {reference : String} (ctx : Context) (hreference : (Reference.parse reference).document = "")
    (s : State Unit) :
    (resolveLocally reference ctx).run.run s = (.ok (.inline (Reference.parse reference).fragment), s) := by
  have hempty : (Reference.parse reference).document.isEmpty = true := by rw [hreference]; rfl
  unfold resolveLocally
  simp only [hempty, ↓reduceIte]
  rfl

end

/-! ## Two sessions -/

/-- **A setup that names the root.** -/
def named (setup : Setup) (name : String) : Setup := { setup with options := { setup.options with name := some name } }

/-- **The references of a schema stay in its document.** -/
def Local (node : Node) : Prop := ∀ reference ∈ node.refs, (Reference.parse reference).document = ""

/-- **Runs from one work on the one side that end alike.** -/
abbrev beside (w : Work) : Coupling Work Unit :=
  Coupling.ofStates (fun s _ => s.world = w) (fun _ => False) (fun _ => False)

section
variable {setup : Setup} {d : Document} {w : Work}

theorem sessionAligned_single (hhook : ∀ node ctx, setup.hook node ctx = none) (resolver : Resolver) :
    SessionAligned (beside w) True (some d.id) none Local (exportSession setup resolver d)
      (standalone (named setup d.rootBinding) d.node) where
  style := rfl
  recipes := rfl
  hook node _ := (hhook node _).trans (hhook node _).symm
  rules := by
    rintro ctx _ v v' ⟨_, rfl⟩ hv
    refine Coupling.ofStates_applyRules (fun _ _ hs => hs) (fun _ => ?_)
    rw [hv trivial]
    rfl
  root := rfl
  spent s s' _ := .error _ s s'
  parts hk hpart reference hr := hk reference (mem_refs_of_part hpart hr)

/-- **References are answered alike**: where the root is under way in the project, its key is being expanded alone. -/
theorem answersAlike_single (hrecipes : setup.recipes = []) (hroot : Local d.node) (hnames : d.exportNames = [])
    (hget : w.registry.get? d.id = some { d with phase := .compiling })
    (hcompiling : w.cache.progress? d.id .root = some .compiling) (left : Nat) :
    Session.AnswersAlike (beside w) True (some d.id) none Local (fun active => "" ∈ active)
      (exportSession setup (resolve setup (left + 1)) d) (standalone (named setup d.rootBinding) d.node) := by
  rintro compileAt compileAt' hat k active reference ctx _ hactive hk hrefers ⟨hctx, rfl⟩
  have hreference : (Reference.parse reference).document = "" := by
    cases hrefers with
    | own href => exact hk reference (Node.mem_refs_of_ref href)
    | recipe hlisted =>
      have hmem : reference ∈ setup.recipes.references := hlisted
      rw [hrecipes] at hmem
      exact absurd hmem List.not_mem_nil
  have hresolve : (beside w).rel (fun a a' => a' = .inline (Reference.parse reference).fragment ∧
      a = if (Reference.parse reference).fragment = "" ∨ (Reference.parse reference).fragment = "/" then
        .validator (Validator.lazy d.rootBinding) else .inline (Reference.parse reference).fragment)
      ((exportSession setup (resolve setup (left + 1)) d).resolve reference ctx)
      ((standalone (named setup d.rootBinding) d.node).resolve reference { ctx with document := none }) := by
    intro s s' hs
    have hproject := @run_resolve_single s setup left { d with phase := .compiling } reference ctx hctx hreference
      (hs ▸ hget) hnames (hs ▸ hcompiling)
    simp only [exportSession, standalone]
    rw [hproject, run_resolveLocally _ hreference]
    exact .ok ⟨rfl, rfl⟩ hs
  have hname : (standalone (named setup d.rootBinding) d.node).rootName = some d.rootBinding :=
    congrArg some (Name.safeIdentifier_safeIdentifier _)
  refine (beside w).sequence hresolve ?_
  rintro _ _ ⟨rfl, rfl⟩
  have hrecursion : ∀ key, (standalone (named setup d.rootBinding) d.node).recursion key =
      (exportSession setup (resolve setup (left + 1)) d).recursion key := by
    intro key
    unfold Session.recursion
    rw [hname]
    rfl
  by_cases hfragment : (Reference.parse reference).fragment = "" ∨ (Reference.parse reference).fragment = "/"
  · have hkey : Reference.keyOf (Reference.parse reference).fragment = "" := by
      rcases hfragment with hf | hf <;> rw [hf] <;> rfl
    have hlazy : (exportSession setup (resolve setup (left + 1)) d).recursion "" = Validator.lazy d.rootBinding := rfl
    simp only [if_pos hfragment, hkey, List.contains_iff_mem.2 hactive, ↓reduceIte, hrecursion, hlazy]
    exact (beside w).result (fun _ => rfl)
  · simp only [if_neg hfragment, hrecursion]
    split
    · exact (beside w).result (fun _ => rfl)
    · simp only [exportSession, standalone]
      cases htarget : d.node.pointer? (Reference.keyOf (Reference.parse reference).fragment) with
      | none => exact (beside w).failure _ Error.noConfusion
      | some target =>
        have hlocal : Local target := fun r hr => hroot r ((Node.within_of_pointer? htarget).refs r hr)
        exact hat (List.mem_cons_of_mem _ hactive) hlocal ⟨hctx, rfl⟩

/-- **The root is compiled alike by both sessions.** -/
theorem compileRoot_single (hhook : ∀ node ctx, setup.hook node ctx = none) (hrecipes : setup.recipes = [])
    (hroot : Local d.node) (hnames : d.exportNames = [])
    (hget : w.registry.get? d.id = some { d with phase := .compiling })
    (hcompiling : w.cache.progress? d.id .root = some .compiling) (left : Nat) :
    (beside w).rel (Agree True)
      ((exportSession setup (resolve setup (left + 1)) d).compileRoot (exportContext setup d .root))
      ((standalone (named setup d.rootBinding) d.node).compileRoot
        (Context.root (named setup d.rootBinding).options none)) :=
  Session.compileRoot_aligned (sessionAligned_single hhook _)
    (answersAlike_single hrecipes hroot hnames hget hcompiling left) List.mem_cons_self hroot ⟨rfl, rfl⟩

end

/-! ## The compilation of the project -/

def Output.defaultExpression? (out : Output) (id : String) : Option String :=
  (out.documents.find? (fun o => o.id == id)).bind (fun o => o.default?.map ExportOutput.expression)

theorem run_compileFresh_root (setup : Setup) (resolver : Resolver) (d : Document) (s : State Work) :
    (compileFresh setup resolver d .root).run.run s =
      match ((exportSession setup resolver d).compileRoot (exportContext setup d .root)).run.run
        { s with world := s.world.beginExport d .root } with
      | (.ok v, u) => (.ok (), { u with world := u.world.finishExport setup d .root v })
      | (.error e, u) => (.error e, u) := by
  have hfresh : compileFresh setup resolver d .root = (do
      modifyWork (fun w => w.beginExport d .root)
      let v ← (exportSession setup resolver d).compileRoot (exportContext setup d .root)
      modifyWork (fun w => w.finishExport setup d .root v)) := rfl
  rw [hfresh, run_modifyWork_bind, run_bind]
  cases ((exportSession setup resolver d).compileRoot (exportContext setup d .root)).run.run
      { s with world := s.world.beginExport d .root } with
  | mk outcome u => cases outcome <;> rfl

/-- **A document with one export is compiled by compiling its root.** -/
theorem run_compileDocument_single (setup : Setup) (resolver : Resolver) {d : Document} {s : State Work}
    (hnames : d.exportNames = []) (hget : s.world.cache.get? d.id .root = none) :
    (compileDocument setup resolver d).run.run s =
      match ((exportSession setup resolver d).compileRoot (exportContext setup d .root)).run.run
        { s with world := (s.world.openDocument d).beginExport d .root } with
      | (.ok v, u) => (.ok (), { u with world := (u.world.finishExport setup d .root v).closeDocument d })
      | (.error e, u) => (.error e, u) := by
  have hexports : d.exports = [.root] := by
    unfold Document.exports
    rw [hnames]
    rfl
  have hdocument : compileDocument setup resolver d = (do
      modifyWork (fun w => w.openDocument d)
      compileExports setup resolver d d.exports
      modifyWork (fun w => w.closeDocument d)) := rfl
  have hopened : (s.world.openDocument d).cache.get? d.id .root = none := hget
  rw [hdocument, run_modifyWork_bind, hexports, run_bind]
  unfold compileExports compileExport
  rw [run_bind, run_getWork_bind]
  simp only [hopened]
  rw [run_compileFresh_root]
  cases ((exportSession setup resolver d).compileRoot (exportContext setup d .root)).run.run
      { s with world := (s.world.openDocument d).beginExport d .root } with
  | mk outcome u => cases outcome <;> rfl

/-- **The work in which the root of the one document is compiled.** -/
def rootWork (d : Document) : Work := ((Work.start [d]).openDocument d).beginExport d .root

theorem get?_start_single (d : Document) : (Work.start [d]).registry.get? d.id = some d.reset := by
  unfold Work.start
  rw [Registry.get?_resetPhases]
  simp [Registry.get?]

theorem get?_rootWork (d : Document) : (rootWork d).registry.get? d.id = some { d with phase := .compiling } := by
  show ((Work.start [d]).registry.setPhase d.id .compiling).get? d.id = _
  rw [Registry.get?_setPhase, get?_start_single]
  have hid : (d.reset.id == d.id) = true := beq_self_eq_true d.id
  simp only [Option.map_some, hid, ↓reduceIte]
  rfl

theorem progress?_rootWork (d : Document) : (rootWork d).cache.progress? d.id .root = some .compiling := by
  unfold rootWork
  rw [Work.progress?_beginExport, if_pos rfl]

/-- **The output that lists the root of the one document.** -/
theorem defaultExpression?_single (setup : Setup) (d : Document) (v : Validator) :
    (((rootWork d).finishExport setup d .root v).closeDocument d).output.defaultExpression? d.id =
      some (setup.render v) := by
  have hwf : (rootWork d).graph.WellFormed := Graph.wellFormed_grown [.node d.id]
  have hnodes : (rootWork d).graph.nodes = [d.id] := rfl
  have horder : (rootWork d).graph.order = [d.id] := List.perm_singleton.1 (hnodes ▸ hwf.order_perm)
  have houtput : (((rootWork d).finishExport setup d .root v).closeDocument d).output? d.id = some
      { id := d.id, importName := d.importName, module := d.module,
        exports := [Work.exportOutput setup d .root v] } := by
    rw [Work.output?_closeDocument, Work.output?_finishExport, if_pos rfl]
    unfold rootWork
    rw [Work.output?_beginExport, Work.output?_openDocument, if_pos rfl]
    rfl
  have hdocuments : (((rootWork d).finishExport setup d .root v).closeDocument d).output.documents =
      (rootWork d).graph.order.filterMap (((rootWork d).finishExport setup d .root v).closeDocument d).output? := rfl
  unfold Output.defaultExpression?
  rw [hdocuments, horder, List.filterMap_cons_some houtput]
  simp [DocumentOutput.default?, Work.exportOutput]

theorem compile_single {p : Project} {d : Document} (hregistry : p.registry = [d]) (hphase : d.reset = d)
    (hnames : d.exportNames = []) : p.compile.1 =
      match ((exportSession p.setup (resolve p.setup 2) d).compileRoot (exportContext p.setup d .root)).run.run
        { patterns := PatternCache.empty, world := rootWork d } with
      | (.ok v, u) => .ok ((u.world.finishExport p.setup d .root v).closeDocument d).output
      | (.error e, _) => .error e := by
  have hcount : exportCount [d] + 1 = 2 := by
    unfold exportCount Document.exports
    rw [List.foldr_cons, hnames]
    rfl
  have hget := get?_start_single d
  rw [hphase] at hget
  have hregistered : (d.phase == .registered) = true := by rw [← hphase]; rfl
  unfold compile compileAll
  rw [hregistry, hcount, run_bind]
  unfold compileWaiting
  simp only [List.map_cons, List.map_nil]
  unfold compileWaiting
  rw [run_getWork_bind]
  simp only [hget, hregistered, ↓reduceIte]
  rw [run_bind, run_compileDocument_single _ _ hnames rfl]
  unfold rootWork
  cases ((exportSession p.setup (resolve p.setup 2) d).compileRoot (exportContext p.setup d .root)).run.run
        { patterns := PatternCache.empty, world := ((Work.start [d]).openDocument d).beginExport d .root } with
  | mk outcome u => cases outcome <;> rfl

/-- **Compiled as the only document of a project or alone under the name of its root, a document gives the same text or
the same error**, if it has no definitions, its references stay in it, and neither a hook nor a recipe decides
anything. -/
theorem single_document_as_standalone {p : Project} (hempty : p.registry = [])
    (hhook : ∀ node ctx, p.setup.hook node ctx = none) (hrecipes : p.setup.recipes = []) (id : String) {root : Node}
    (hdefinitions : NoDefinitions root) (hlocal : Local root) :
    ∃ d, p.register id root {} = (.ok (), { p with registry := [d] }) ∧
      (checkOptions (named p.setup d.rootBinding).options = .ok () →
        (Project.compile { p with registry := [d] }).1.map (fun out => out.defaultExpression? id) =
          (compileText (named p.setup d.rootBinding) root).map some) := by
  let d : Document := { id := id, node := root, wishes := {}, importName := Registry.freshAlias [] id }
  have hnames : d.exportNames = [] := Document.exportNames_eq_nil rfl hdefinitions
  refine ⟨d, ?_, fun hoptions => ?_⟩
  · have hcheck : d.checkBindings = .ok () := by
      unfold Document.checkBindings Document.exports
      rw [hnames]
      rfl
    unfold register Registry.register
    rw [hempty]
    have hnone : Registry.contains [] id = false := rfl
    simp only [hnone, Bool.false_eq_true, ↓reduceIte]
    rw [show Document.checkBindings { id := id, node := root, wishes := {}, importName := Registry.freshAlias [] id } =
      .ok () from hcheck]
    rfl
  · have hends := compileRoot_single hhook hrecipes hlocal hnames (get?_rootWork d) (progress?_rootWork d) 1
      { patterns := PatternCache.empty, world := rootWork d } { patterns := PatternCache.empty, world := () } rfl
    unfold compileText compileValidator runStandalone
    rw [compile_single (p := { p with registry := [d] }) rfl rfl hnames, hoptions]
    match ((exportSession p.setup (resolve p.setup 2) d).compileRoot (exportContext p.setup d .root)).run.run
        { patterns := PatternCache.empty, world := rootWork d },
      ((standalone (named p.setup d.rootBinding) d.node).compileRoot
        (Context.root (named p.setup d.rootBinding).options none)).run.run
        { patterns := PatternCache.empty, world := () }, hends with
    | _, _, .ok hv hworld =>
      rw [hv trivial]
      simp only [Except.map]
      rw [hworld]
      exact congrArg Except.ok (defaultExpression?_single p.setup d _)
    | _, _, .error e _ _ => rfl
    | _, _, .left _ _ hfalse => exact hfalse.elim
    | _, _, .right _ _ hfalse => exact hfalse.elim

/-- **A schema that refers to itself**, written in two ways, and to a part of it. -/
def selfReferring : Node := .object {
  type := some (.single "object")
  properties := some [
    ("label", .object { type := some (.single "string") }),
    ("left", .object { ref := some "#" }),
    ("right", .object { ref := some "#/" }),
    ("other", .object { ref := some "#/properties/label" })] }

/-- **A setup with a rule given as a function**, which brands what lies at an even depth. -/
def brandingEven : Setup := {
  rules := [.strictObjects,
    .user "brand-even" (fun path v => .answer (if path.length % 2 = 0 then some (v.brand "Even") else none))] }

theorem single_document_as_standalone_selfReferring :
    ∃ d, Project.register { setup := brandingEven } "tree-node" selfReferring {} =
        (.ok (), { setup := brandingEven, registry := [d] }) ∧
      (Project.compile { setup := brandingEven, registry := [d] }).1.map
        (fun out => out.defaultExpression? "tree-node") =
        (compileText (named brandingEven d.rootBinding) selfReferring).map some := by
  have hdefinitions : NoDefinitions selfReferring := by
    intro k hk
    cases hk
    exact ⟨rfl, rfl⟩
  have hrefs : selfReferring.refs = ["#", "#/", "#/properties/label"] := by
    simp [selfReferring, Node.refs_object, Keywords.children, Keywords.childrenOfMap, Keywords.childrenOfOne,
      Keywords.childrenOfList, Keywords.childrenOfItems]
  have hlocal : Local selfReferring := by
    unfold Local
    rw [hrefs]
    decide
  obtain ⟨d, hregister, hcompile⟩ :=
    single_document_as_standalone (p := { setup := brandingEven }) rfl (fun _ _ => rfl) rfl "tree-node" hdefinitions
      hlocal
  exact ⟨d, hregister, hcompile rfl⟩

end Project
end Valgen
