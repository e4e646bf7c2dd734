import Valgen.Code.Emit
import Valgen.Proofs.Compile.Closed
/-!
# Proofs.Code.Standalone — the module of a document that stands alone

A module is written line by line, twice: once each statement and once the body.  A line leaves out a carriage return
right before its line feed, so that a statement comes out with those left out (`Text.unreturned`) and otherwise as it
stands (`text_moduleOf`).  The module of a document under a name declares the constant that its references name; the
value is the text of its validator exactly if no line of that ends in a carriage return (`generate_closed`), which only
a comment can cause.
-/
namespace Valgen

/-! ## Carriage returns at the ends of lines -/

namespace Text

/-- **A text without the carriage returns right before its line feeds.** -/
def unreturned : List Char → List Char
  | [] => []
  | '\r' :: '\n' :: rest => '\n' :: unreturned rest
  | c :: rest => c :: unreturned rest

/-- **The line feed that a text needs at its end**, unless it has no line or has it already. -/
def lastFeed (cs : List Char) : List Char := if cs.getLast?.getD '\n' = '\n' then [] else ['\n']

theorem lastFeed_append (cs : List Char) {ds : List Char} (h : ds ≠ []) : lastFeed (cs ++ ds) = lastFeed ds := by
  rw [lastFeed, lastFeed, List.getLast?_append_of_ne_nil _ h]

theorem lastFeed_cons (c d : Char) (rest : List Char) : lastFeed (c :: d :: rest) = lastFeed (d :: rest) :=
  lastFeed_append [c] (List.cons_ne_nil d rest)

theorem unreturned_cons {c : Char} {rest : List Char} (h : ∀ more, c = '\r' → rest = '\n' :: more → False) :
    unreturned (c :: rest) = c :: unreturned rest := by
  rw [unreturned]
  exact fun more hc hrest => h more hc hrest

/-- **The lines of a text, each ended by a line feed**, are the text without the carriage returns that end them. -/
theorem flatMap_lines (cs : List Char) :
    (lines cs).flatMap (fun line => line ++ ['\n']) = unreturned cs ++ lastFeed cs := by
  fun_induction lines cs with
  | case1 => rfl
  | case2 rest ih =>
    rw [List.flatMap_cons, ih, unreturned]
    cases rest with
    | nil => rfl
    | cons d rest => rw [lastFeed_cons, lastFeed_cons]; rfl
  | case3 rest ih =>
    rw [List.flatMap_cons, ih, unreturned_cons (fun _ h => by cases h)]
    cases rest with
    | nil => rfl
    | cons d rest => rw [lastFeed_cons]; rfl
  | case4 c rest _ hfeed hlines ih =>
    rw [Lexer.lines_eq_nil_iff] at hlines
    have hc : c ≠ '\n' := hfeed
    rw [hlines, unreturned_cons (fun _ _ h => by cases h)]
    simp [unreturned, lastFeed, hc]
  | case5 c rest hreturn _ line more hlines ih =>
    -- The character belongs to the first line of what follows, which is there.
    rw [unreturned_cons hreturn, List.cons_append, List.flatMap_cons, List.cons_append, List.cons_append]
    rw [hlines, List.flatMap_cons] at ih
    rw [ih]
    cases rest with
    | nil => cases hlines
    | cons d rest => rw [lastFeed_cons]

theorem unreturned_append_of_not_mem {a : List Char} (h : '\r' ∉ a) (b : List Char) :
    unreturned (a ++ b) = a ++ unreturned b := by
  induction a with
  | nil => rfl
  | cons c a ih =>
    rw [List.cons_append, unreturned_cons, ih (fun hmem => h (List.mem_cons_of_mem _ hmem)), List.cons_append]
    rintro _ rfl _
    exact h List.mem_cons_self

theorem unreturned_of_not_mem {cs : List Char} (h : '\r' ∉ cs) : unreturned cs = cs := by
  have hkept := unreturned_append_of_not_mem h []
  rwa [List.append_nil, unreturned, List.append_nil] at hkept

theorem unreturned_append_of_head {a b : List Char} (hb : b.head? ≠ some '\n') :
    unreturned (a ++ b) = unreturned a ++ unreturned b := by
  fun_induction unreturned a with
  | case1 => rfl
  | case2 rest ih => rw [List.cons_append, List.cons_append, unreturned, ih, List.cons_append]
  | case3 c rest hreturn ih =>
    rw [List.cons_append, unreturned_cons, ih, List.cons_append]
    intro more hc hrest
    cases rest with
    | nil =>
      rw [List.nil_append] at hrest
      exact hb (by rw [hrest, List.head?_cons])
    | cons d rest =>
      rw [List.cons_append, List.cons.injEq] at hrest
      exact hreturn rest hc (by rw [hrest.1])

theorem unreturned_eq_self {cs : List Char} (h : ¬ ['\r', '\n'] <:+: cs) : unreturned cs = cs := by
  fun_induction unreturned cs with
  | case1 => rfl
  | case2 rest ih => exact absurd ⟨[], rest, rfl⟩ h
  | case3 c rest hreturn ih => rw [ih (fun hbroken => h (hbroken.trans (List.suffix_cons c rest).isInfix))]

theorem count_unreturned_le (cs : List Char) : (unreturned cs).count '\r' ≤ cs.count '\r' := by
  fun_induction unreturned cs with
  | case1 => exact Nat.le_refl _
  | case2 rest ih =>
    simp only [List.count_cons]
    omega
  | case3 c rest hreturn ih =>
    simp only [List.count_cons]
    omega

/-- **A line that ends in a carriage return loses it.** -/
theorem count_unreturned_lt {cs : List Char} (h : ['\r', '\n'] <:+: cs) :
    (unreturned cs).count '\r' < cs.count '\r' := by
  fun_induction unreturned cs with
  | case1 => exact absurd h (by decide)
  | case2 rest ih =>
    have hle := count_unreturned_le rest
    rw [List.count_cons_of_ne (by decide), List.count_cons_self, List.count_cons_of_ne (by decide)]
    omega
  | case3 c rest hreturn ih =>
    have hrest : ['\r', '\n'] <:+: rest := by
      rcases List.infix_cons_iff.1 h with hstarts | hbroken
      · obtain ⟨more, hmore⟩ := hstarts
        cases hmore
        exact (hreturn more rfl rfl).elim
      · exact hbroken
    have hfewer := ih hrest
    simp only [List.count_cons]
    omega

end Text

namespace Code

open Schema (Node)

def unreturned (s : String) : String := String.ofList (Text.unreturned s.toList)

theorem toList_lines (s : String) : (lines s).toList = Text.unreturned s.toList ++ Text.lastFeed s.toList := by
  unfold lines Text.linesOf
  rw [String.toList_join, ← Text.flatMap_lines, List.flatMap_map, List.flatMap_map]
  simp only [line, String.toList_append, String.toList_ofList]
  rfl

theorem lines_of_not_mem {s : String} (h : '\r' ∉ s.toList) :
    lines s = s ++ String.ofList (Text.lastFeed s.toList) := by
  rw [← String.toList_inj, toList_lines, Text.unreturned_of_not_mem h, String.toList_append, String.toList_ofList]

/-- **A text of whose characters only those in the middle may be carriage returns.** -/
theorem lines_around {before after : String} (hbefore : '\r' ∉ before.toList) (hafter : '\r' ∉ after.toList)
    (hne : after.toList ≠ []) (hhead : after.toList.head? ≠ some '\n') (value : String) :
    lines (before ++ value ++ after) =
      before ++ unreturned value ++ (after ++ String.ofList (Text.lastFeed after.toList)) := by
  rw [← String.toList_inj, toList_lines]
  simp only [String.toList_append, unreturned, String.toList_ofList]
  rw [Text.lastFeed_append _ hne, List.append_assoc, Text.unreturned_append_of_not_mem hbefore,
    Text.unreturned_append_of_head hhead, Text.unreturned_of_not_mem hafter]
  simp only [List.append_assoc]

/-- **A line without carriage returns.** -/
theorem lines_line {s : String} (h : '\r' ∉ s.toList) : lines (line s) = line s := by
  rw [lines_of_not_mem (by simp [line, h]), line, String.toList_append, Text.lastFeed_append _ (by decide)]
  exact String.append_empty

/-! ## Modules -/

/-- **A constant, as a mode declares it.** -/
def declaration (wrap : Wrap) (name value : String) : String :=
  (if wrap = .esm then "export " else "") ++ "const " ++ name ++ " = " ++ value ++ ";\n"

/-- **A text declares a constant with a value.** -/
def Declares (wrap : Wrap) (name value text : String) : Prop :=
  ∃ above below, text = above ++ declaration wrap name value ++ below

/-- **What stands above the declaration**: the import of the library. -/
def above (options : Options) : String :=
  String.join ((hostImports options).map Import.text) ++ Module.blankIf options.withImport

/-- **What stands below the declaration**: the type, or the export. -/
def below (options : Options) (name : String) : String :=
  match options.wrap, options.typeAlias with
  | .esm, some a => blank ++ (Statement.typeAlias (Name.safeIdentifier a) name).text
  | .cjs, _ => blank ++ line ("Object.assign(module.exports, " ++ braces [name] ++ ");")
  | _, _ => ""

/-- **A constant comes out as it is declared**, but for carriage returns in its value. -/
theorem lines_constant {name : String} (hname : '\r' ∉ name.toList) (value : String) (wrap : Wrap) (exported : Bool)
    (hexported : (wrap == .esm) = exported) :
    lines (Statement.constant name value exported).text = declaration wrap name (unreturned (unreturned value)) := by
  have hbefore : '\r' ∉ ((if wrap == .esm then "export " else "") ++ "const " ++ name ++ " = ").toList := by
    split_ifs <;> simp [hname]
  unfold Statement.text declaration
  simp only [← hexported, beq_iff_eq] at hbefore ⊢
  generalize (if wrap = .esm then "export " else "") ++ "const " ++ name ++ " = " = before at hbefore ⊢
  have honce : ";" ++ String.ofList (Text.lastFeed ";".toList) = ";\n" := by decide
  have htwice : ";\n" ++ String.ofList (Text.lastFeed ";\n".toList) = ";\n" := by decide
  rw [lines_around hbefore (by decide) (by decide) (by decide), honce,
    lines_around hbefore (by decide) (by decide) (by decide), htwice]

/-- **The text of a module by its first statement.** -/
theorem text_of_body (imports : List Import) (first : Statement) (exports : List Exports) :
    ∀ more : List Statement, Module.text ⟨imports, first :: more, exports⟩ =
      String.join (imports.map Import.text) ++ Module.blankIf (!imports.isEmpty) ++ lines first.text ++
        (String.join (more.map (fun s => blank ++ lines s.text)) ++ Module.blankIf (!exports.isEmpty) ++
          String.join (exports.map Exports.text)) := by
  have hbody : ∀ (more : List Statement) (s : Statement),
      blank.intercalate (lines s.text :: more.map (fun s => lines s.text)) =
        lines s.text ++ String.join (more.map (fun s => blank ++ lines s.text)) := by
    intro more
    induction more with
    | nil => exact fun s => by simp [String.join_nil]
    | cons next rest ih =>
      intro s
      rw [List.map_cons, String.intercalate_cons_cons, ih, List.map_cons, String.join_cons]
      simp only [String.append_assoc]
  intro more
  unfold Module.text
  rw [List.map_cons, hbody]
  simp [String.append_assoc]

theorem text_exports {name : String} (hname : '\r' ∉ name.toList) :
    Exports.text { names := [name], form := .commonJs } =
      line ("Object.assign(module.exports, " ++ braces [name] ++ ");") := by
  have hlines : lines ("Object.assign(module.exports, " ++ braces [name] ++ ");") =
      line ("Object.assign(module.exports, " ++ braces [name] ++ ");") := by
    rw [lines_of_not_mem (by simp [braces, hname]), String.toList_append, Text.lastFeed_append _ (by decide)]
    rfl
  simp [Exports.text, Exports.statements, hlines]

/-- **The module of an expression under a name.** -/
theorem text_moduleOf (options : Options) {name : String} (hname : '\r' ∉ name.toList) (value : String) :
    (moduleOf options (some name) value).text =
      above options ++ declaration options.wrap name (unreturned (unreturned value)) ++ below options name := by
  have habove : above options = String.join ((hostImports options).map Import.text) ++
      Module.blankIf (!(hostImports options).isEmpty) := by
    unfold above hostImports
    cases options.withImport <;> rfl
  rw [habove]
  unfold below moduleOf
  cases hwrap : options.wrap with
  | none =>
    rw [text_of_body, lines_constant hname value .none false rfl]
    simp [Module.blankIf]
  | const =>
    rw [text_of_body, lines_constant hname value .const false rfl]
    simp [Module.blankIf]
  | cjs =>
    rw [text_of_body, lines_constant hname value .cjs false rfl, List.map_cons, text_exports hname]
    simp [Module.blankIf]
  | esm =>
    cases options.typeAlias with
    | none =>
      rw [text_of_body, lines_constant hname value .esm true rfl]
      simp [Module.blankIf]
    | some a =>
      have halias : '\r' ∉ (Name.safeIdentifier a).toList := Compile.not_mem_return_safeIdentifier a
      have htype : lines (Statement.typeAlias (Name.safeIdentifier a) name).text =
          (Statement.typeAlias (Name.safeIdentifier a) name).text := lines_line (by simp [halias, hname])
      rw [text_of_body, lines_constant hname value .esm true rfl]
      simp [Module.blankIf, htype]

theorem not_mem_return_above (options : Options) : '\r' ∉ (above options).toList := by
  have hevery : ∀ dialect form, '\r' ∉ (hostImport dialect form).text.toList := by
    intro dialect form
    cases dialect <;> cases form <;> decide +kernel
  unfold above hostImports
  cases options.withImport with
  | false => simp [Module.blankIf]
  | true => simpa [Module.blankIf, blank] using hevery _ _

theorem not_mem_return_below (options : Options) {name : String} (hname : '\r' ∉ name.toList) :
    '\r' ∉ (below options name).toList := by
  unfold below
  split
  · rename_i a _ _
    simp [blank, Statement.text, line, hname, Compile.not_mem_return_safeIdentifier a]
  · simp [blank, line, braces, hname]
  · decide

/-- **The module declares the constant with a value exactly if no line of the value ends in a carriage return.** -/
theorem declares_text_iff (options : Options) {name : String} (hname : '\r' ∉ name.toList) (value : String) :
    Declares options.wrap name value (moduleOf options (some name) value).text ↔ ¬ ['\r', '\n'] <:+: value.toList := by
  rw [text_moduleOf options hname]
  constructor
  · -- The module has as many carriage returns as the value has left; the declaration would have all of them.
    rintro ⟨before, after, htext⟩ hbroken
    have hcounts := congrArg (fun s => s.toList.count '\r') htext
    have habove := List.count_eq_zero.2 (not_mem_return_above options)
    have hbelow := List.count_eq_zero.2 (not_mem_return_below options hname)
    have honce := Text.count_unreturned_lt hbroken
    have htwice := Text.count_unreturned_le (Text.unreturned value.toList)
    simp only [declaration, String.toList_append, List.count_append, unreturned, String.toList_ofList] at hcounts
    omega
  · intro hfree
    refine ⟨above options, below options name, ?_⟩
    have hkept : unreturned value = value := by
      rw [unreturned, Text.unreturned_eq_self hfree, String.ofList_toList]
    rw [hkept, hkept]

/-- **Nothing but the compilation can fail**: the options are checked before it. -/
theorem generate_eq (setup : Compile.Setup) (root : Node) : generate setup root =
    (Compile.compileValidator setup root).map (fun v =>
      (moduleOf setup.options (setup.options.name.map Name.safeIdentifier) (setup.render v)).text) := by
  unfold generate Compile.compileText emit
  cases hv : Compile.compileValidator setup root with
  | error e => rfl
  | ok v =>
    have hoptions : Compile.checkOptions setup.options = .ok () := by
      unfold Compile.compileValidator Compile.runStandalone at hv
      split at hv
      · cases hv
      · assumption
    rw [hoptions]
    rfl

theorem eq_of_generate {setup : Compile.Setup} {root : Node} {text : String} (h : generate setup root = .ok text) :
    ∃ v, Compile.compileValidator setup root = .ok v ∧
      text = (moduleOf setup.options (setup.options.name.map Name.safeIdentifier) (setup.render v)).text := by
  rw [generate_eq] at h
  cases hv : Compile.compileValidator setup root with
  | error e =>
    rw [hv] at h
    cases h
  | ok v =>
    rw [hv] at h
    cases h
    exact ⟨v, rfl, rfl⟩

/-- **A document that stands alone becomes a closed module.**  Its validator refers to nothing but the constant of the
module, lazily, and to nothing at all if there is no name, unless a rule given as a function adds a reference.  Under
a name the module is an import, the declaration of the constant and what is derived from it; the value is the text of
the validator without the carriage returns that end its lines.  So it is the text of the validator exactly if no line
of that ends in one, and always if no comments are written and the rules add no such text. -/
theorem generate_closed {setup : Compile.Setup} (hhook : ∀ node ctx, setup.hook node ctx = none)
    (hrecipes : setup.recipes = []) {root : Node} {text : String} (h : generate setup root = .ok text) :
    ∃ v, Compile.compileValidator setup root = .ok v ∧
      ((∀ rule ∈ setup.rules, rule.isUser = true → rule.AddsNoReference) →
        ∀ w, v.Inside w → ∀ expression deferred, w.base = .reference expression deferred →
          deferred = true ∧ ∃ name, setup.options.name = some name ∧ expression = Name.safeIdentifier name) ∧
      ∀ name, setup.options.name = some name →
        text = above setup.options ++ declaration setup.options.wrap (Name.safeIdentifier name)
          (unreturned (unreturned (setup.render v))) ++ below setup.options (Name.safeIdentifier name) ∧
        (Declares setup.options.wrap (Name.safeIdentifier name) (setup.render v) text ↔
          ¬ ['\r', '\n'] <:+: (setup.render v).toList) ∧
        (setup.options.jsdocs = false → (∀ rule ∈ setup.rules, rule.Returnless) →
          Declares setup.options.wrap (Name.safeIdentifier name) (setup.render v) text) := by
  obtain ⟨v, hv, htext⟩ := eq_of_generate h
  refine ⟨v, hv, fun hrules w hw expression deferred hbase => ?_, fun name hname => ?_⟩
  · have hadds : ∀ rule ∈ setup.rules, rule.AddsNoReference := fun rule hmem => .of_user (hrules rule hmem)
    obtain ⟨hdeferred, hnamed⟩ := Compile.refersOnlyTo_compileValidator hhook hrecipes hadds hv w hw _ _ hbase
    obtain ⟨name, hname, rfl⟩ := Option.map_eq_some_iff.1 hnamed
    exact ⟨hdeferred, name, hname, rfl⟩
  · have hidentifier := Compile.not_mem_return_safeIdentifier name
    rw [hname, Option.map_some] at htext
    have hdeclares := declares_text_iff setup.options hidentifier (setup.render v)
    rw [← htext] at hdeclares
    refine ⟨by rw [htext, text_moduleOf _ hidentifier], hdeclares, fun hjsdocs hrules => hdeclares.2 ?_⟩
    rintro ⟨before, after, hbroken⟩
    refine Compile.not_mem_return_compileValidator hhook hrecipes hjsdocs hrules hv ?_
    rw [← hbroken]
    simp

/-- **A setup with a name that is not an identifier.** -/
def hyphenated : Compile.Setup := { options := { name := some "list-item" } }

/-- **A list by its items**, each of which refers to the whole. -/
def linked : Node := .object {
  type := some (.single "object")
  properties := some [("next", .object { ref := some "#" })] }

theorem compile_linked : Compile.compileValidator hyphenated linked =
    .ok (.ofBase (.object [⟨"next", (Validator.lazy "list_item").optional, none⟩] .strip)) := by
  obtain ⟨b, hb⟩ := (Compile.standalone hyphenated linked).exists_budget
  unfold Compile.compileValidator Compile.runStandalone Compile.Session.compileRoot Compile.Session.compile
  rw [hb]
  rfl

theorem generate_closed_linked : ∃ text v, generate hyphenated linked = .ok text ∧
    Compile.compileValidator hyphenated linked = .ok v ∧
    (∃ w, v.Inside w ∧ w.base = .reference "list_item" true) ∧
    Declares .esm "list_item" (hyphenated.render v) text := by
  have hgenerate := generate_eq hyphenated linked
  rw [compile_linked] at hgenerate
  have hhook : ∀ node ctx, hyphenated.hook node ctx = none := fun _ _ => rfl
  have hname : Name.safeIdentifier "list-item" = "list_item" := by decide +kernel
  obtain ⟨v, hv, _, hmodule⟩ := generate_closed hhook rfl hgenerate
  have hdeclares := (hmodule "list-item" rfl).2.2 rfl (fun _ hrule => absurd hrule List.not_mem_nil)
  rw [hname] at hdeclares
  refine ⟨_, v, hgenerate, hv, ?_, hdeclares⟩
  rw [compile_linked] at hv
  cases hv
  exact ⟨_, .part .root List.mem_cons_self, rfl⟩

def commented : Compile.Setup := { options := { name := some "item", jsdocs := true } }

/-- **A property whose description has two lines**, of which the first ends in a carriage return. -/
def described : Node := .object {
  type := some (.single "object")
  properties := some [("x", .object { type := some (.single "string"), description := some "a\r\nb" })] }

def describedValidator : Validator :=
  let value := ((Validator.ofBase (.string none none [])).describe "a\r\nb").optional
  .ofBase (.object [⟨"x", value, some "a\r\nb"⟩] .strip)

/-- **The comment of a description loses its carriage return**, so that the value is not the text of the validator. -/
theorem not_declares_described : ∃ text, generate commented described = .ok text ∧
    Compile.compileValidator commented described = .ok describedValidator ∧
    ¬ Declares .esm "item" (commented.render describedValidator) text := by
  have hcompile : Compile.compileValidator commented described = .ok describedValidator := by
    obtain ⟨b, hb⟩ := (Compile.standalone commented described).exists_budget
    unfold Compile.compileValidator Compile.runStandalone Compile.Session.compileRoot Compile.Session.compile
    rw [hb]
    rfl
  have hgenerate := generate_eq commented described
  rw [hcompile] at hgenerate
  have hname : commented.options.name.map Name.safeIdentifier = some "item" := by decide +kernel
  have hbroken : ['\r', '\n'] <:+: (commented.render describedValidator).toList := by decide +kernel
  rw [hname] at hgenerate
  refine ⟨_, hgenerate, hcompile, fun hdeclares => ?_⟩
  exact (declares_text_iff commented.options (by decide) _).1 hdeclares hbroken

end Code
end Valgen
