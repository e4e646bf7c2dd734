import Valgen.Proofs.Code.Scope
import Valgen.Proofs.Files.Walks
/-!
# Proofs.Code.Specifiers — where the imports of a module lead

A document of a project that no wish places elsewhere is imported from `./` and its id, whoever imports it, and its file
is at its id.  A specifier is read from the folder of the file it stands in, so that it leads to the file of the
document from the output folder itself, and from no other folder unless the id climbs out of it
(`specifier_leads_iff`).
-/
namespace Valgen
namespace Code

open Files (Place isAbsolute)
open Project (Completes Document DocumentImport DocumentOutput Output Reached Work completes_of_compile
  output_of_compile)

/-- **The folder of a file**, seen from the output folder. -/
def OutputFile.folder (file : OutputFile) : Place := (Place.ofPath file.path).parent

/-- **The path of a file without its extension**: the text before the last dot. -/
def OutputFile.stem (file : OutputFile) : String :=
  String.ofList ((file.path.toList.reverse.dropWhile (fun c => c != '.')).drop 1).reverse

/-- **A specifier leads from the file of one document to the file of another**, but for the extension. -/
def LeadsTo (options : Options) (source target : DocumentOutput) (specifier : String) : Prop :=
  (projectFile options source).folder.follow specifier = Place.ofPath (projectFile options target).stem

instance (options : Options) (source target : DocumentOutput) (specifier : String) :
    Decidable (LeadsTo options source target specifier) := inferInstanceAs (Decidable (_ = _))

theorem stem_projectFile (options : Options) (d : DocumentOutput) : (projectFile options d).stem = d.id := by
  have hplain : ∀ c ∈ options.wrap.extension.toList.reverse, (c != '.') = true := by
    refine List.all_eq_true.1 ?_
    cases options.wrap <;> decide
  have hpath : (projectFile options d).path.toList.reverse =
      options.wrap.extension.toList.reverse ++ '.' :: d.id.toList.reverse := by
    simp [projectFile]
  unfold OutputFile.stem
  rw [hpath, List.dropWhile_append_of_pos hplain, List.dropWhile_cons_of_neg (by decide), List.drop_one, List.tail_cons,
    List.reverse_reverse, String.ofList_toList]

/-- **A specifier of the usual form leads to the file** exactly when the id climbs out of the importing file's folder to
where it is read from. -/
theorem leadsTo_iff (options : Options) (source target : DocumentOutput) :
    LeadsTo options source target ("./" ++ target.id) ↔
      (projectFile options source).folder.isRooted = isAbsolute target.id ∧
        (projectFile options source).folder.depth ≤ (Place.follow [] target.id).climbs ∧
        (isAbsolute target.id = false →
          (projectFile options source).folder.climbs = (projectFile options source).folder.depth) := by
  unfold LeadsTo
  rw [stem_projectFile]
  exact Place.follow_eq_ofPath_iff (Place.led_ofPath _).parent target.id

/-- **An id that stays below the output folder** is reached from that folder only. -/
theorem leadsTo_iff_of_below {options : Options} {source target : DocumentOutput}
    (hrelative : isAbsolute target.id = false) (hbelow : (Place.follow [] target.id).climbs = 0) :
    LeadsTo options source target ("./" ++ target.id) ↔ (projectFile options source).folder = [] := by
  rw [leadsTo_iff, hrelative, hbelow]
  constructor
  · rintro ⟨hrooted, hdepth, hsame⟩
    have hclimbs := hsame rfl
    refine List.eq_nil_iff_forall_not_mem.2 (fun name hname => ?_)
    have hname' : name ≠ ".." ∧ name ≠ "/" := by
      constructor
      · rintro rfl
        have := List.count_pos_iff.2 hname
        unfold Place.climbs at hclimbs
        omega
      · rintro rfl
        rw [Place.isRooted, List.contains_iff_mem.2 hname] at hrooted
        cases hrooted
    have hpos : 0 < (projectFile options source).folder.depth :=
      List.countP_pos_iff.2 ⟨name, hname, by simp [hname']⟩
    omega
  · intro hnil
    rw [hnil]
    exact ⟨rfl, Nat.le_refl 0, fun _ => rfl⟩

theorem exists_import_of_mem (options : Options) {source : DocumentOutput} {i : DocumentImport}
    (hi : i ∈ source.imports) :
    ∃ imported ∈ (projectModule options source).imports,
      imported.wholeAs = some i.importName ∧ imported.specifier = i.module := by
  refine ⟨⟨i.module, some i.importName, [], formOf options.wrap⟩, List.mem_append_right _ ?_, rfl, rfl⟩
  exact List.mem_map.2 ⟨i, hi, rfl⟩

/-- **What a compiled document imports is a compiled document**, under its alias and from where it is placed. -/
theorem exists_import_target {p : Project} (hp : Reached p) {out : Output} (h : p.compile.1 = .ok out)
    {source : DocumentOutput} (hsource : source ∈ out.documents) {i : DocumentImport} (hi : i ∈ source.imports) :
    ∃ d ∈ p.registry, ∃ target ∈ out.documents, target.id = d.id ∧ i = d.toImport := by
  have hcompletes := completes_of_compile h
  obtain rfl := output_of_compile h
  obtain ⟨_, _, _, hout, _⟩ := hcompletes.lists_of_mem hsource
  rw [← Work.imports_of_output? hout] at hi
  obtain ⟨d, hd, rfl⟩ := (hcompletes.traced hp.distinct).known source.id i hi
  obtain ⟨target, _, htarget, _⟩ := hcompletes.exists_output hd
  have hmem := hcompletes.mem_documents (by rw [hd]; rfl) htarget
  rw [hcompletes.document?_eq] at hd
  obtain ⟨c, hc, hreset⟩ := Option.map_eq_some_iff.1 hd
  exact ⟨c, List.mem_of_find?_eq_some hc, target, hmem, (Work.id_of_output? htarget).trans (by rw [← hreset]; rfl),
    by rw [← hreset]; rfl⟩

/-- **An import leads to the file of the document it imports** exactly when the id of that document climbs out of the
folder of the importing file to where the id is read from; for an id that stays below the output folder, exactly when
the importing file is in the output folder itself. -/
theorem specifier_leads_iff {p : Project} (hp : Reached p) (hdefault : ∀ d ∈ p.registry, d.wishes.module = none)
    {out : Output} (h : p.compile.1 = .ok out) (options : Options) {source : DocumentOutput}
    (hsource : source ∈ out.documents) {i : DocumentImport} (hi : i ∈ source.imports) :
    ∃ target ∈ out.documents, target.id = i.id ∧ ∃ imported ∈ (projectModule options source).imports,
      imported.wholeAs = some i.importName ∧ imported.specifier = "./" ++ target.id ∧
      (LeadsTo options source target imported.specifier ↔
        (projectFile options source).folder.isRooted = isAbsolute target.id ∧
          (projectFile options source).folder.depth ≤ (Place.follow [] target.id).climbs ∧
          (isAbsolute target.id = false →
            (projectFile options source).folder.climbs = (projectFile options source).folder.depth)) ∧
      (isAbsolute target.id = false → (Place.follow [] target.id).climbs = 0 →
        (LeadsTo options source target imported.specifier ↔ (projectFile options source).folder = [])) := by
  obtain ⟨d, hd, target, htarget, hid, rfl⟩ := exists_import_target hp h hsource hi
  have hspecifier : d.toImport.module = "./" ++ target.id := by
    show d.wishes.module.getD ("./" ++ d.id) = _
    rw [hdefault d hd, hid]
    rfl
  obtain ⟨imported, himported, hname, hmodule⟩ := exists_import_of_mem options hi
  rw [hspecifier] at hmodule
  refine ⟨target, htarget, hid, imported, himported, hname, hmodule, ?_, ?_⟩
  · rw [hmodule]
    exact leadsTo_iff options source target
  · intro hrelative hbelow
    rw [hmodule]
    exact leadsTo_iff_of_below hrelative hbelow

theorem specifier_leads_iff_mutualPair : ∃ source ∈ Project.mutualPairOutput.documents, ∃ i ∈ source.imports,
    ∃ target ∈ Project.mutualPairOutput.documents, target.id = i.id ∧
      ∃ imported ∈ (projectModule {} source).imports, LeadsTo {} source target imported.specifier := by
  let source := Project.mutualPairOutput.documents[0]
  have hsource : source ∈ Project.mutualPairOutput.documents := List.mem_cons_self
  have hi : ⟨"a", "a", "./a"⟩ ∈ source.imports := List.mem_cons_self
  have hdefault : ∀ d ∈ Project.mutualPair.registry, d.wishes.module = none := by
    simp [Project.mutualPair, Project.mutualFirst, Project.mutualSecond]
  obtain ⟨target, htarget, hid, imported, himported, _, _, _, hbelow⟩ :=
    specifier_leads_iff Project.reached_mutualPair hdefault Project.compile_mutualPair {} hsource hi
  refine ⟨source, hsource, _, hi, target, htarget, hid, imported, himported, (hbelow ?_ ?_).2 ?_⟩
  · rw [hid]
    decide +kernel
  · rw [hid]
    decide +kernel
  · decide +kernel

/-! ## A document in a folder -/

def nestedPost : Document where
  id := "blog/post"
  node := .object { ref := some "user#" }
  wishes := {}
  importName := "blogPost"

def nestedUser : Document where
  id := "user"
  node := .object { type := some (.single "string") }
  wishes := {}
  importName := "user"

/-- **A document in a folder that refers to one outside of it.** -/
def nested : Project where
  registry := [nestedPost, nestedUser]

def nestedPostOutput : DocumentOutput where
  id := "blog/post"
  importName := "blogPost"
  module := "./blog/post"
  imports := [{ id := "user", importName := "user", module := "./user" }]
  exports := [{ name? := none, binding := "blogPost", expression := "user.user", isDefault := true }]

def nestedUserOutput : DocumentOutput where
  id := "user"
  importName := "user"
  module := "./user"
  exports := [{ name? := none, binding := "user", expression := "z.string()", isDefault := true }]

theorem reached_nested : Reached nested := by
  have hregistered :
      ((({} : Project).register "blog/post" nestedPost.node {}).2.register "user" nestedUser.node {}).2 = nested := rfl
  exact hregistered ▸ .register _ _ _ (.register _ _ _ (.new {}))

/-- **Its import leads into the folder**, where there is no such file. -/
theorem not_leadsTo_nested : Reached nested ∧ (∀ d ∈ nested.registry, d.wishes.module = none) ∧
    ∃ out, nested.compile.1 = .ok out ∧ nestedPostOutput ∈ out.documents ∧ nestedUserOutput ∈ out.documents ∧
      (⟨"user", "user", "./user"⟩ ∈ nestedPostOutput.imports) ∧
      ¬ LeadsTo nested.setup.options nestedPostOutput nestedUserOutput "./user" ∧
      LeadsTo nested.setup.options nestedPostOutput nestedUserOutput "../user" := by
  refine ⟨reached_nested, by simp [nested, nestedPost, nestedUser], ?_⟩
  have hmem : nested.compile.1.toOption.any
      (fun out => nestedPostOutput ∈ out.documents ∧ nestedUserOutput ∈ out.documents) = true := by decide +kernel
  cases hcompile : nested.compile.1 with
  | error e =>
    rw [hcompile] at hmem
    cases hmem
  | ok out =>
    rw [hcompile] at hmem
    obtain ⟨hpost, huser⟩ := of_decide_eq_true hmem
    exact ⟨out, rfl, hpost, huser, List.mem_cons_self, by decide +kernel, by decide +kernel⟩

end Code
end Valgen
