import Valgen.Proofs.Project.Deferral
import Valgen.Proofs.Project.Isolation
import Valgen.Proofs.Project.Reached
/-!
# Proofs.Project.Arrangement — the order in which documents are registered

Two projects with the same documents in another order record of each document what it records by itself, so they record
the same of it (`SameDocuments.sameRecord`).  Hence both are compiled or none, and the outputs differ at most in which
references are deferred, and in what follows from that: the texts, and the order of the documents.  Without cycles
nothing is deferred, and the documents of the outputs are equal (`SameDocuments.compile`).

Documents whose aliases are distinct get these aliases in whatever order they are registered (`registerAll_eq_ok_iff`).
-/
namespace Valgen
namespace Project

open Compile (Setup)
open Schema (Node)

/-! ## Outputs -/

def Output.document? (out : Output) (id : String) : Option DocumentOutput := out.documents.find? (fun o => o.id == id)

/-- **Two outputs are the same but for deferral**: the cycles are the same, the edges up to their being deferred, and
the documents up to their order and the texts of the exports; without cycles all documents are equal. -/
structure SameButForDeferral (out out' : Output) : Prop where
  cycles : out'.cycles = out.cycles
  edges : ∀ source target export?, (∃ deferred, (⟨source, target, export?, deferred⟩ : Edge) ∈ out'.edges) ↔
    ∃ deferred, (⟨source, target, export?, deferred⟩ : Edge) ∈ out.edges
  outlines : ∀ id, (out'.document? id).map DocumentOutput.withoutTexts =
    (out.document? id).map DocumentOutput.withoutTexts
  documents : out.cycles = [] → out'.documents = out.documents

section
variable {p : Project} {w : Work}

/-- **The output has what was recorded of each document.** -/
theorem Completes.document?_output (h : Completes p w) (x : String) :
    w.output.document? x = (p.registry.get? x).bind (fun _ => w.output? x) := by
  unfold Output.document?
  cases hfind : w.output.documents.find? (fun o => o.id == x) with
  | some o =>
    obtain rfl : o.id = x := by simpa using List.find?_some hfind
    obtain ⟨d, _, hd, hout, _⟩ := h.lists_of_mem (List.mem_of_find?_eq_some hfind)
    rw [hd, Option.bind_some, hout]
  | none =>
    cases hd : p.registry.get? x with
    | none => rfl
    | some d =>
      have hdoc : w.document? x = some d.reset := by rw [h.document?_eq, hd, Option.map_some]
      obtain ⟨o, _, ho, _⟩ := h.exists_output hdoc
      have hid := List.find?_eq_none.1 hfind o (h.mem_documents (by rw [hdoc]; rfl) ho)
      exact absurd (beq_iff_eq.2 (Work.id_of_output? ho)) hid

/-- **Without cycles nothing is deferred.** -/
theorem Completes.direct_of_cycles_eq_nil (h : Completes p w) (hnone : w.graph.cycles = []) :
    ∀ edge ∈ w.graph.edges, edge.deferred = false := by
  intro edge he
  by_contra hdeferred
  rw [Bool.not_eq_false] at hdeferred
  obtain ⟨c, hc, _⟩ := (Graph.exists_mem_cycles_iff h.charted.wellFormed).2
    ⟨.single ⟨edge, he, rfl, rfl⟩, h.returns he hdeferred⟩
  rw [hnone] at hc
  exact absurd hc List.not_mem_nil

end

theorem Work.linked_iff {w : Work} {a b : String} : w.graph.Linked a b ↔ ∃ export?, w.RefersTo a b export? := by
  constructor
  · rintro ⟨edge, he, rfl, rfl⟩
    exact ⟨edge.export?, edge.deferred, he⟩
  · rintro ⟨export?, deferred, he⟩
    exact ⟨_, he, rfl, rfl⟩

theorem Graph.direct_iff_linked {g : Graph} (h : ∀ edge ∈ g.edges, edge.deferred = false) {a b : String} :
    g.Direct a b ↔ g.Linked a b := by
  constructor
  · rintro ⟨edge, he, _, hends⟩
    exact ⟨edge, he, hends⟩
  · rintro ⟨edge, he, hends⟩
    exact ⟨edge, he, h edge he, hends⟩

/-! ## Projects with the same documents -/

/-- **Two projects have the same documents**, in whatever order. -/
structure SameDocuments (p p' : Project) : Prop where
  setup : p'.setup = p.setup
  documents : ∀ x, p'.registry.get? x = p.registry.get? x

theorem Comparison.Alone.unique {c : Comparison} {d : Document} {u u' : Work} (h : c.Alone d u) (h' : c.Alone d u') :
    u' = u := by
  obtain ⟨t, rfl, hrun⟩ := h
  obtain ⟨t', rfl, hrun'⟩ := h'
  rw [(Prod.mk.inj (hrun.symm.trans hrun')).2]

namespace SameDocuments

variable {p p' : Project} {out out' : Output}

/-- **What both projects are compared with**: the documents by themselves, to a depth that is enough for both. -/
def comparison (p p' : Project) (exact : Prop) : Comparison where
  setup := p.setup
  documents := p.registry
  depth := max (exportCount p.registry + 1) (exportCount p'.registry + 1)
  exact := exact

/-- **Both projects can be compiled, or none.** -/
theorem exists_compile_iff (h : SameDocuments p p') :
    (∃ out, p.compile.1 = .ok out) ↔ ∃ out', p'.compile.1 = .ok out' := by
  have hsound : (∃ out, p.compile.1 = .ok out) ↔ (comparison p p' False).Sound :=
    Comparison.exists_compile_iff_sound rfl (fun _ => rfl) (le_max_left _ _)
  have hsound' : (∃ out', p'.compile.1 = .ok out') ↔ (comparison p p' False).Sound :=
    Comparison.exists_compile_iff_sound h.setup (fun x => by rw [h.documents x]; rfl) (le_max_right _ _)
  exact hsound.trans hsound'.symm

section
variable (h : SameDocuments p p') (hout : p.compile.1 = .ok out) (hout' : p'.compile.1 = .ok out')
include h hout hout'

/-- **Both compilations record the same of a document**, with the same texts where neither defers. -/
theorem sameRecord {exact : Prop} (hexact : exact → ∀ edge ∈ p.finalWork.graph.edges, edge.deferred = false)
    (hexact' : exact → ∀ edge ∈ p'.finalWork.graph.edges, edge.deferred = false) {x : String}
    (hx : (p.finalWork.document? x).isSome) : SameRecord exact x p.finalWork p'.finalWork := by
  have hchronicle : (comparison p p' exact).Chronicle p.finalWork :=
    Comparison.chronicle_of_compile rfl (fun _ => rfl) (le_max_left _ _) hout hexact
  have hchronicle' : (comparison p p' exact).Chronicle p'.finalWork :=
    Comparison.chronicle_of_compile h.setup (fun x => by rw [h.documents x]; rfl) (le_max_right _ _) hout' hexact'
  obtain ⟨d, hd⟩ := Option.isSome_iff_exists.1 hx
  have hd' : p'.finalWork.document? x = some d := by rw [hchronicle'.documents, ← hchronicle.documents, hd]
  obtain ⟨u, halone, hrecord⟩ := hchronicle.compiled x d hd ((completes_of_compile hout).compiled x hx)
  obtain ⟨u', halone', hrecord'⟩ := hchronicle'.compiled x d hd'
    ((completes_of_compile hout').compiled x (by rw [hd']; rfl))
  rw [halone.unique halone'] at hrecord'
  exact hrecord.trans hrecord'.symm

theorem isSome_document?_iff (x : String) :
    (p'.finalWork.document? x).isSome ↔ (p.finalWork.document? x).isSome := by
  rw [(completes_of_compile hout).document?_eq, (completes_of_compile hout').document?_eq, h.documents]

theorem refersTo_iff (source target : String) (export? : Option String) :
    p'.finalWork.RefersTo source target export? ↔ p.finalWork.RefersTo source target export? := by
  have hknown : ∀ {p : Project} {out : Output}, p.compile.1 = .ok out →
      p.finalWork.RefersTo source target export? → (p.finalWork.document? source).isSome := by
    rintro p out hout ⟨deferred, he⟩
    have hcharted := (completes_of_compile hout).charted
    exact (hcharted.nodes source).1 (hcharted.wellFormed.ends _ he).1
  have hrecord : (p.finalWork.document? source).isSome → SameRecord False source p.finalWork p'.finalWork :=
    fun hsource => h.sameRecord hout hout' False.elim False.elim hsource
  constructor
  · intro hrefers
    exact ((hrecord ((h.isSome_document?_iff hout hout' source).1 (hknown hout' hrefers))).refersTo _ _).1 hrefers
  · intro hrefers
    exact ((hrecord (hknown hout hrefers)).refersTo _ _).2 hrefers

theorem linked_iff (a b : String) : p'.finalWork.graph.Linked a b ↔ p.finalWork.graph.Linked a b := by
  rw [Work.linked_iff, Work.linked_iff]
  exact exists_congr (h.refersTo_iff hout hout' a b)

theorem nodes_eq : p'.finalWork.graph.nodes = p.finalWork.graph.nodes := by
  have hcharted := (completes_of_compile hout).charted
  have hcharted' := (completes_of_compile hout').charted
  refine hcharted.wellFormed.nodes_eq hcharted'.wellFormed (fun x => ?_)
  rw [hcharted.nodes, hcharted'.nodes, h.isSome_document?_iff hout hout']

theorem cycles_eq : p'.finalWork.graph.cycles = p.finalWork.graph.cycles :=
  Graph.cycles_congr (completes_of_compile hout).charted.wellFormed (completes_of_compile hout').charted.wellFormed
    (h.linked_iff hout hout')

/-- **Without cycles both outputs have equal documents**, in the same order. -/
theorem documents_eq (hnone : p.finalWork.graph.cycles = []) :
    p'.finalWork.output.documents = p.finalWork.output.documents := by
  have hcharted := (completes_of_compile hout).charted
  have hdirect := (completes_of_compile hout).direct_of_cycles_eq_nil hnone
  have hdirect' := (completes_of_compile hout').direct_of_cycles_eq_nil ((h.cycles_eq hout hout').trans hnone)
  have horder : p'.finalWork.graph.order = p.finalWork.graph.order := by
    refine Graph.order_congr (h.nodes_eq hout hout') (fun a b => ?_)
    rw [Graph.mem_dependencies, Graph.mem_dependencies, Graph.direct_iff_linked hdirect,
      Graph.direct_iff_linked hdirect', h.linked_iff hout hout']
  have houtput : ∀ x ∈ p.finalWork.graph.order, p'.finalWork.output? x = p.finalWork.output? x := by
    intro x hx
    have hnode := (hcharted.nodes x).1 (hcharted.wellFormed.order_perm.mem_iff.1 hx)
    exact (h.sameRecord hout hout' (fun _ : True => hdirect) (fun _ => hdirect') hnode).output trivial
  show p'.finalWork.graph.order.filterMap p'.finalWork.output? = p.finalWork.graph.order.filterMap p.finalWork.output?
  rw [horder]
  exact List.filterMap_congr houtput

theorem outline_eq (x : String) : (p'.finalWork.output.document? x).map DocumentOutput.withoutTexts =
    (p.finalWork.output.document? x).map DocumentOutput.withoutTexts := by
  rw [(completes_of_compile hout).document?_output, (completes_of_compile hout').document?_output, h.documents]
  cases hd : p.registry.get? x with
  | none => rw [Option.bind_none, Option.bind_none]
  | some d =>
    have hx : (p.finalWork.document? x).isSome := by
      rw [(completes_of_compile hout).document?_eq, hd, Option.map_some, Option.isSome_some]
    rw [Option.bind_some, Option.bind_some]
    exact (h.sameRecord hout hout' False.elim False.elim hx).outline

/-- **The outputs of projects with the same documents are the same but for deferral.** -/
theorem compile : SameButForDeferral out out' := by
  obtain rfl := output_of_compile hout
  obtain rfl := output_of_compile hout'
  exact ⟨h.cycles_eq hout hout', h.refersTo_iff hout hout', h.outline_eq hout hout', h.documents_eq hout hout'⟩

end
end SameDocuments

/-! ## Registering -/

theorem Registry.get?_eq_some_iff {r : Registry} (hids : (r.map Document.id).Nodup) {x : String} {d : Document} :
    r.get? x = some d ↔ d ∈ r ∧ d.id = x := by
  constructor
  · intro hd
    exact ⟨List.mem_of_find?_eq_some hd, Registry.id_of_get? hd⟩
  · rintro ⟨hmem, rfl⟩
    obtain ⟨d', hd'⟩ := Option.isSome_iff_exists.1 (Registry.isSome_get?_iff.2 (List.mem_map_of_mem hmem))
    rw [hd', List.inj_on_of_nodup_map hids (List.mem_of_find?_eq_some hd') hmem (Registry.id_of_get? hd')]

/-- **The order of documents does not matter where they are looked up.** -/
theorem Registry.get?_of_perm {r r' : Registry} (hperm : r.Perm r') (hids : (r.map Document.id).Nodup) (x : String) :
    r'.get? x = r.get? x := by
  refine Option.ext (fun d => ?_)
  rw [Registry.get?_eq_some_iff hids, Registry.get?_eq_some_iff ((hperm.map Document.id).nodup_iff.1 hids),
    hperm.mem_iff]

theorem Registry.freshAlias_of_free {r : Registry} {id : String}
    (hfree : Name.safeIdentifier (Name.camelCase id) ∉ r.map Document.importName) :
    r.freshAlias id = Name.safeIdentifier (Name.camelCase id) := by
  have htaken : r.aliasTaken (Name.safeIdentifier (Name.camelCase id)) = false := by
    rw [← Bool.not_eq_true, Registry.aliasTaken_iff]
    exact hfree
  unfold Registry.freshAlias Registry.aliasCandidates
  rw [List.find?_cons_of_pos (by rw [htaken]; rfl), Option.getD_some]

structure Entry where
  id : String
  node : Node
  wishes : Meta := {}

namespace Entry

/-- **The alias of a document, if it is free.** -/
def baseAlias (e : Entry) : String := Name.safeIdentifier (Name.camelCase e.id)

/-- **The document that is registered if its alias is free.** -/
def document (e : Entry) : Document := { id := e.id, node := e.node, wishes := e.wishes, importName := e.baseAlias }

/-- **Neither the id nor the alias is there.** -/
def Free (e : Entry) (r : Registry) : Prop := e.id ∉ r.map Document.id ∧ e.baseAlias ∉ r.map Document.importName

theorem Free.snoc {e other : Entry} {r : Registry} (h : e.Free r) (hne : e.baseAlias ≠ other.baseAlias) :
    e.Free (r ++ [other.document]) := by
  have hid : e.id ≠ other.id := fun heq => hne (congrArg (fun id => Name.safeIdentifier (Name.camelCase id)) heq)
  unfold Free
  rw [List.map_append, List.map_append, List.mem_append, List.mem_append, not_or, not_or]
  exact ⟨⟨h.1, fun hmem => hid (List.mem_singleton.1 hmem)⟩, ⟨h.2, fun hmem => hne (List.mem_singleton.1 hmem)⟩⟩

theorem nodup_map_id {entries : List Entry} (h : (entries.map baseAlias).Nodup) :
    ((entries.map document).map Document.id).Nodup := by
  have hmap : (((entries.map document).map Document.id).map
      (fun id => Name.safeIdentifier (Name.camelCase id))).Nodup := by
    rw [List.map_map, List.map_map]
    exact h
  exact hmap.of_map

end Entry

/-- **An entry that is free is registered with its own alias**, if its exports do not clash. -/
theorem register_eq_ok_iff {p p' : Project} {e : Entry} (hfree : e.Free p.registry) :
    p.register e.id e.node e.wishes = (.ok (), p') ↔
      e.document.checkBindings = .ok () ∧ p' = { p with registry := p.registry ++ [e.document] } := by
  have hcontains : p.registry.contains e.id = false := by
    rw [← Bool.not_eq_true, Registry.contains, List.any_eq_true]
    rintro ⟨d, hd, heq⟩
    exact hfree.1 (List.mem_map.2 ⟨d, hd, beq_iff_eq.1 heq⟩)
  unfold register Registry.register
  rw [hcontains, if_neg Bool.false_ne_true, Registry.freshAlias_of_free hfree.2]
  cases hcheck : e.document.checkBindings with
  | error err =>
    unfold Entry.document Entry.baseAlias at hcheck
    simp only [hcheck]
    constructor
    · intro h
      cases h
    · rintro ⟨h, _⟩
      cases h
  | ok _ =>
    unfold Entry.document Entry.baseAlias at hcheck
    simp only [hcheck]
    constructor
    · intro h
      cases h
      exact ⟨trivial, rfl⟩
    · rintro ⟨_, rfl⟩
      rfl

/-- **Entries are registered one after another**, until one is refused. -/
def registerAll (p : Project) : List Entry → Except Error Unit × Project
  | [] => (.ok (), p)
  | e :: rest =>
    match p.register e.id e.node e.wishes with
    | (.error err, p') => (.error err, p')
    | (.ok (), p') => registerAll p' rest

/-- **Entries with distinct aliases are registered with these**, if in none of them exports clash. -/
theorem registerAll_eq_ok_iff : ∀ (entries : List Entry) {p p' : Project}, (entries.map Entry.baseAlias).Nodup →
    (∀ e ∈ entries, e.Free p.registry) → (p.registerAll entries = (.ok (), p') ↔
      (∀ e ∈ entries, e.document.checkBindings = .ok ()) ∧
        p' = { p with registry := p.registry ++ entries.map Entry.document })
  | [], p, p', _, _ => by
    rw [registerAll, List.map_nil, List.append_nil]
    constructor
    · intro h
      cases h
      exact ⟨fun e he => absurd he List.not_mem_nil, rfl⟩
    · rintro ⟨_, rfl⟩
      rfl
  | e :: rest, p, p', hdistinct, hfree => by
    rw [List.map_cons, List.nodup_cons] at hdistinct
    have hstep := fun q => @register_eq_ok_iff p q e (hfree e List.mem_cons_self)
    have hrest : ∀ e' ∈ rest, e'.Free (p.registry ++ [e.document]) := by
      intro e' he'
      refine (hfree e' (List.mem_cons_of_mem _ he')).snoc (fun heq => hdistinct.1 ?_)
      exact List.mem_map.2 ⟨e', he', heq⟩
    rw [registerAll, List.forall_mem_cons]
    split
    · rename_i err q hregister
      constructor
      · intro h
        cases h
      · rintro ⟨⟨hcheck, _⟩, _⟩
        cases hregister.symm.trans ((hstep _).2 ⟨hcheck, rfl⟩)
    · rename_i q hregister
      obtain ⟨hcheck, rfl⟩ := (hstep q).1 hregister
      have ih := @registerAll_eq_ok_iff rest { p with registry := p.registry ++ [e.document] } p' hdistinct.2 hrest
      rw [List.append_assoc, List.singleton_append] at ih
      exact ih.trans ⟨fun h => ⟨⟨hcheck, h.1⟩, h.2⟩, fun h => ⟨h.1.2, h.2⟩⟩

def compileEntries (setup : Setup) (entries : List Entry) : Except Error Output :=
  match registerAll { setup := setup } entries with
  | (.error e, _) => .error e
  | (.ok (), p) => p.compile.1

theorem compileEntries_eq_ok_iff {setup : Setup} {entries : List Entry}
    (hdistinct : (entries.map Entry.baseAlias).Nodup) {out : Output} : compileEntries setup entries = .ok out ↔
      (∀ e ∈ entries, e.document.checkBindings = .ok ()) ∧
        (compile { setup := setup, registry := entries.map Entry.document }).1 = .ok out := by
  have hregister := fun p => @registerAll_eq_ok_iff entries { setup := setup } p hdistinct
    (fun _ _ => ⟨List.not_mem_nil, List.not_mem_nil⟩)
  unfold compileEntries
  split
  · rename_i err q hall
    constructor
    · intro h
      cases h
    · rintro ⟨hcheck, _⟩
      cases hall.symm.trans ((hregister _).2 ⟨hcheck, rfl⟩)
  · rename_i q hall
    obtain ⟨hcheck, rfl⟩ := (hregister q).1 hall
    exact ⟨fun h => ⟨hcheck, h⟩, fun h => h.2⟩

/-- **The order in which documents are registered matters only for where references are deferred.** -/
theorem registration_order_immaterial (setup : Setup) {entries entries' : List Entry} (hperm : entries.Perm entries')
    (hdistinct : (entries.map Entry.baseAlias).Nodup) :
    ((∃ out, compileEntries setup entries = .ok out) ↔ ∃ out', compileEntries setup entries' = .ok out') ∧
      ∀ out out', compileEntries setup entries = .ok out → compileEntries setup entries' = .ok out' →
        SameButForDeferral out out' := by
  have hdistinct' : (entries'.map Entry.baseAlias).Nodup := (hperm.map Entry.baseAlias).nodup_iff.1 hdistinct
  have hsame : SameDocuments { setup := setup, registry := entries.map Entry.document }
      { setup := setup, registry := entries'.map Entry.document } :=
    ⟨rfl, Registry.get?_of_perm (hperm.map Entry.document) (Entry.nodup_map_id hdistinct)⟩
  constructor
  · have hcheck : (∀ e ∈ entries, e.document.checkBindings = .ok ()) ↔
        ∀ e ∈ entries', e.document.checkBindings = .ok () := by
      simp only [hperm.mem_iff]
    simp only [compileEntries_eq_ok_iff hdistinct, compileEntries_eq_ok_iff hdistinct', exists_and_left]
    exact and_congr hcheck hsame.exists_compile_iff
  · intro out out' hout hout'
    exact hsame.compile ((compileEntries_eq_ok_iff hdistinct).1 hout).2
      ((compileEntries_eq_ok_iff hdistinct').1 hout').2

/-- **Two documents that refer to each other**, to be registered. -/
def mutualEntries : List Entry := [⟨"a", mutualFirst.node, {}⟩, ⟨"b", mutualSecond.node, {}⟩]

/-- **What is deferred changes with the order**, and nothing else does. -/
theorem registration_order_immaterial_mutualEntries : ∃ out out', compileEntries {} mutualEntries = .ok out ∧
    compileEntries {} mutualEntries.reverse = .ok out' ∧ (⟨"b", "a", some "Item", true⟩ : Edge) ∈ out.edges ∧
    (⟨"b", "a", some "Item", false⟩ : Edge) ∈ out'.edges ∧ SameButForDeferral out out' := by
  have hdistinct : (mutualEntries.map Entry.baseAlias).Nodup := by decide +kernel
  obtain ⟨hsuccess, hsame⟩ := registration_order_immaterial {} mutualEntries.reverse_perm.symm hdistinct
  have hedge : ((compileEntries {} mutualEntries).toOption.map (fun out =>
      out.edges.contains ⟨"b", "a", some "Item", true⟩)) = some true := by decide +kernel
  have hedge' : ((compileEntries {} mutualEntries.reverse).toOption.map (fun out =>
      out.edges.contains ⟨"b", "a", some "Item", false⟩)) = some true := by decide +kernel
  have hok : ∃ out, compileEntries {} mutualEntries = .ok out := by
    cases hout : compileEntries {} mutualEntries with
    | ok out => exact ⟨out, rfl⟩
    | error err =>
      rw [hout] at hedge
      cases hedge
  obtain ⟨out, hout⟩ := hok
  obtain ⟨out', hout'⟩ := hsuccess.1 ⟨out, hout⟩
  rw [hout] at hedge
  rw [hout'] at hedge'
  refine ⟨out, out', hout, hout', ?_, ?_, hsame out out' hout hout'⟩
  · exact List.contains_iff_mem.1 (Option.some.inj hedge)
  · exact List.contains_iff_mem.1 (Option.some.inj hedge')

end Project
end Valgen
