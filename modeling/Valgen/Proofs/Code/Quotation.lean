import Valgen.Proofs.Code.Specifiers
import Valgen.Proofs.Text.Values
/-!
# Proofs.Code.Quotation — specifiers between quotes

A document is imported by a statement with its specifier between quotes, as it is: nothing is escaped.  So the literal
of the statement stands for the specifier exactly if every character of the specifier stands for itself in a literal,
which quotes, backslashes and line breaks do not (`specifier_literal_iff`).  Neither the id of a document nor the
module that is wished for it is kept from having them.
-/
namespace Valgen
namespace Code

open Lexer (isLiteral)
open Project (Document DocumentImport DocumentOutput Output Reached)
open Text (FirstLiteral units)

/-- **The text of a module has the text of each of its imports in it.** -/
theorem exists_text_eq {m : Module} {i : Import} (hi : i ∈ m.imports) :
    ∃ before behind, m.text = before ++ i.text ++ behind := by
  obtain ⟨first, last, hsplit⟩ := List.append_of_mem hi
  unfold Module.text
  rw [hsplit, List.map_append, List.map_cons, String.join_append, String.join_cons]
  simp only [String.append_assoc]
  exact ⟨_, _, rfl⟩

/-- **An import under an alias has its specifier between quotes**, and no other quotes. -/
theorem exists_statement_eq {i : Import} {name : String} (hname : i.wholeAs = some name) (hquote : '"' ∉ name.toList) :
    ∃ head tail, '"' ∉ head ∧ '"' ∉ tail ∧
      i.statement.toList = head ++ '"' :: (i.specifier.toList ++ '"' :: tail) := by
  unfold Import.statement
  cases i.form with
  | esm =>
    refine ⟨("import * as " ++ name ++ " from ").toList, [';'], ?_, by decide, ?_⟩
    · simp [hquote]
    · simp [hname]
  | commonJs =>
    refine ⟨("const " ++ name ++ " = require(").toList, [')', ';'], ?_, by decide, ?_⟩
    · simp [hquote]
    · simp [hname]

/-- **The literal of an import under an alias** stands for the specifier, and for nothing else, exactly if every
character of the specifier stands for itself. -/
theorem firstLiteral_statement_iff {i : Import} {name : String} (hname : i.wholeAs = some name)
    (hquote : '"' ∉ name.toList) :
    (∀ value, FirstLiteral i.statement.toList value ↔ value = units i.specifier.toList) ↔
      ∀ c ∈ i.specifier.toList, isLiteral c = true := by
  obtain ⟨head, tail, hhead, htail, hstatement⟩ := exists_statement_eq hname hquote
  rw [hstatement]
  exact Text.firstLiteral_iff hhead htail

/-- **What the statement that imports a document names.**  It is written in the file, in the form the options ask for;
the specifier is the module that is wished for the document, or `./` and its id; and the literal of the statement stands
for the specifier exactly if there is no quote, no backslash and no line break in it. -/
theorem specifier_literal_iff {p : Project} (hp : Reached p) {out : Output} (h : p.compile.1 = .ok out)
    (options : Options) {source : DocumentOutput} (hsource : source ∈ out.documents) {i : DocumentImport}
    (hi : i ∈ source.imports) :
    ∃ d ∈ p.registry, d.id = i.id ∧ ∃ imported ∈ (projectModule options source).imports,
      imported.wholeAs = some d.importName ∧ imported.form = formOf options.wrap ∧
      imported.specifier = d.wishes.module.getD ("./" ++ d.id) ∧
      (∃ before behind, (projectFile options source).text = before ++ imported.text ++ behind) ∧
      ((∀ value, FirstLiteral imported.statement.toList value ↔ value = units imported.specifier.toList) ↔
        ∀ c ∈ imported.specifier.toList, c ≠ '"' ∧ c ≠ '\\' ∧ c ≠ '\n' ∧ c ≠ '\r') := by
  obtain ⟨d, hd, _, _, _, rfl⟩ := exists_import_target hp h hsource hi
  have himported : ⟨d.toImport.module, some d.importName, [], formOf options.wrap⟩ ∈
      (projectModule options source).imports := List.mem_append_right _ (List.mem_map.2 ⟨_, hi, rfl⟩)
  have hquote : '"' ∉ d.importName.toList := by
    intro hmem
    cases Name.isContinue_of_mem (hp.usable d hd).1 hmem
  refine ⟨d, hd, rfl, _, himported, rfl, rfl, rfl, exists_text_eq himported, ?_⟩
  rw [firstLiteral_statement_iff rfl hquote]
  simp [isLiteral, Lexer.isBreak, and_assoc]

theorem specifier_literal_iff_mutualPair : ∃ source ∈ Project.mutualPairOutput.documents, ∃ i ∈ source.imports,
    ∃ imported ∈ (projectModule {} source).imports, imported.wholeAs = some "a" ∧
      ∀ value, FirstLiteral imported.statement.toList value ↔ value = units "./a".toList := by
  let source := Project.mutualPairOutput.documents[0]
  have hsource : source ∈ Project.mutualPairOutput.documents := List.mem_cons_self
  have hi : ⟨"a", "a", "./a"⟩ ∈ source.imports := List.mem_cons_self
  obtain ⟨d, hd, hid, imported, himported, hname, _, hspecifier, _, hliteral⟩ :=
    specifier_literal_iff Project.reached_mutualPair Project.compile_mutualPair {} hsource hi
  obtain rfl : d = Project.mutualFirst := by
    rcases List.mem_cons.1 hd with rfl | hd
    · rfl
    · rw [List.mem_singleton.1 hd] at hid
      exact absurd hid (by decide)
  have hspecifier' : imported.specifier = "./a" := hspecifier
  rw [hspecifier'] at hliteral
  exact ⟨source, hsource, _, hi, imported, himported, hname, hliteral.2 (by simp)⟩

/-! ## An id with a quote in it -/

def quotingDocument : Document where
  id := "a"
  node := .object { ref := some "b\"c#" }
  wishes := {}
  importName := "a"

def quotedDocument : Document where
  id := "b\"c"
  node := .object { type := some (.single "string") }
  wishes := {}
  importName := "bC"

/-- **A document that refers to one with a quote in its id.** -/
def quoting : Project where
  registry := [quotingDocument, quotedDocument]

def quotingOutput : DocumentOutput where
  id := "a"
  importName := "a"
  module := "./a"
  imports := [{ id := "b\"c", importName := "bC", module := "./b\"c" }]
  exports := [{ name? := none, binding := "a", expression := "bC.bC", isDefault := true }]

theorem reached_quoting : Reached quoting := by
  have hregistered :
      ((({} : Project).register "a" quotingDocument.node {}).2.register "b\"c" quotedDocument.node {}).2 = quoting :=
    rfl
  exact hregistered ▸ .register _ _ _ (.register _ _ _ (.new {}))

/-- **Its import breaks off at the quote**: the literal stands for the first part of the specifier only. -/
theorem not_firstLiteral_quoting : Reached quoting ∧ ∃ out, quoting.compile.1 = .ok out ∧
    quotingOutput ∈ out.documents ∧ ∃ imported ∈ (projectModule quoting.setup.options quotingOutput).imports,
      imported.specifier = "./" ++ quotedDocument.id ∧ FirstLiteral imported.statement.toList (units "./b".toList) ∧
      ¬ FirstLiteral imported.statement.toList (units imported.specifier.toList) := by
  have hmem : quoting.compile.1.toOption.any (fun out => quotingOutput ∈ out.documents) = true := by decide +kernel
  refine ⟨reached_quoting, ?_⟩
  cases hcompile : quoting.compile.1 with
  | error e =>
    rw [hcompile] at hmem
    cases hmem
  | ok out =>
    rw [hcompile] at hmem
    let imported : Import := ⟨"./b\"c", some "bC", [], formOf quoting.setup.options.wrap⟩
    refine ⟨out, rfl, of_decide_eq_true hmem, imported, List.mem_append_right _ List.mem_cons_self, by decide, ?_, ?_⟩
    · have hplain : "./b".toList.all isLiteral = true := by decide +kernel
      exact ⟨"./b".toList, "c\";".toList, by decide +kernel, Text.denotes_units (List.all_eq_true.1 hplain)⟩
    · obtain ⟨head, tail, hhead, htail, hstatement⟩ := exists_statement_eq (i := imported) rfl (by decide)
      rw [hstatement]
      intro hliteral
      cases hliteral.forall_isLiteral hhead htail '"' (by decide)

end Code
end Valgen
