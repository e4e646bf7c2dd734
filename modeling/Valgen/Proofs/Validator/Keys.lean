import Valgen.Proofs.Text.ObjectLiteral
import Valgen.Proofs.Validator.WellFormed
/-!
# Proofs.Validator.Keys — the own keys of the shape of an object

The shape of an object is written as an object literal, with a member for each property.  A member is a name, bare or
quoted, and a value that no comma divides (`isSure_validator`), so that the members are read back with the keys of the
properties as their names (`read_shape`).  Each of them defines an own key, but one: a member `__proto__` sets the
prototype of the shape, and its property is lost (`ownKeys_eq_keys_iff`).
-/
namespace Valgen
namespace Render

open Lexer

/-! ## Values -/

theorem readsComments_sureStep (single : Bool) (awaited : List Char) :
    ReadsComments (sureStep single) ⟨.comment, awaited⟩ ⟨.star, awaited⟩ ⟨.code, awaited⟩ where
  star_of_inside := rfl
  inside_of_inside hc := (@readsComments_step true awaited).inside_of_inside hc
  star_of_star := rfl
  inside_of_star hstar hslash := (@readsComments_step true awaited).inside_of_star hstar hslash
  ends := rfl

theorem isSure_comment (text : String) :
    isSure false ("/** " ++ (String.ofList (uncommented text.toList) ++ " */")) = true := by
  rw [isSure_iff, toList_comment]
  exact (readsComments_sureStep false []).foldlM_comment text.toList

theorem isSure_exactlyOne {members : String} (h : isSure false members = true) :
    isSure false (exactlyOne members) = true := by
  have hmembers : Text.readBy (sureStep false) ⟨.code, ['\x7d']⟩ members.toList = some ⟨.code, ['\x7d']⟩ :=
    sureRead_frame [] (isSure_iff.1 h)
  rw [isSure_iff]
  unfold exactlyOne
  simp only [String.append_assoc]
  rw [String.toList_append, String.toList_append]
  refine (Text.readBy_append (t := ⟨.code, ['\x7d']⟩) ?_ _).trans ((Text.readBy_append hmembers _).trans ?_)
  · simp only [String.reduceToList]
    decide +kernel
  · simp only [String.toList_append, String.reduceToList, Text.quote, String.toList_ofList]
    decide +kernel

/-- **The surely well-formed texts.** -/
def sure (jsdocs : Bool) : TextKind jsdocs where
  Whole text := isSure false text = true
  Part text := isSure false text = true
  empty := rfl
  whole_of_part h := h
  part_append := isSure_append
  separated ha hbetween hb := isSure_append (isSure_append ha hbetween) hb
  plain _ h := isSure_iff.2 (sureRead_plain (List.all_eq_true.1 h) (fun hsingle => by cases hsingle) [])
  bracketed h hpair htext := isSure_bracketed h _ htext hpair
  quote := isSure_quote
  jsonQuote := isSure_jsonQuote
  comment text _ := isSure_comment text
  reindent depth h := isSure_reindent h depth
  exactlyOne := isSure_exactlyOne

variable {jsdocs : Bool}

theorem isSure_name {name : String} (h : isName name = true) : isSure true name = true := by
  simp only [isName, Bool.and_eq_true, List.all_eq_true, isInline, bne_iff_ne] at h
  refine isSure_iff.2 (sureRead_plain (fun c hc => (h.2 c hc).1.2) (fun _ hcomma => ?_) [])
  exact (h.2 ',' hcomma).2 rfl

theorem isSure_argsText {args args' : List String} (h : List.Forall₂ (sure jsdocs).pair.Whole args args') :
    isSure true (Call.argsText args) = true :=
  isSure_bracketed (whole_list h).2 '(' (by simp [Call.argsText]) rfl

theorem isSure_call {call call' : Call} (h : CallPair (sure jsdocs).pair call call') :
    isSure true call.text = true := by
  have hdot : isSure true "." = true := by decide
  cases h with
  | method hmethod hargs => exact isSure_append (isSure_append hdot (isSure_name hmethod)) (isSure_argsText hargs)
  | brand name =>
    have hname : isSure true ("brand<" ++ Text.quote name ++ ">") = true :=
      isSure_append (isSure_append (by decide) (isSure_quote name)) (by decide)
    have hargs : isSure true (Call.argsText []) = true := by decide
    exact isSure_append (isSure_append hdot hname) hargs

theorem isSure_chain {chain chain' : CallChain} (h : ChainPair (sure jsdocs).pair chain chain') :
    isSure true chain.build = true := by
  induction h with
  | function hname hargs => exact isSure_append (isSure_name hname) (isSure_argsText hargs)
  | add _ hcall ih =>
    rw [CallChain.build_add]
    exact isSure_append ih (isSure_call hcall)

theorem isSure_join {texts : List String} (h : ∀ text ∈ texts, isSure true text = true) :
    isSure true (String.join texts) = true := by
  induction texts with
  | nil => rfl
  | cons text rest ih =>
    rw [String.join_cons]
    obtain ⟨htext, hrest⟩ := List.forall_mem_cons.1 h
    exact isSure_append htext (ih hrest)

section
variable (style : Style) (depth : Nat) {v : Validator}

theorem isSure_base {b : Base} (h : ∀ text ∈ b.fragments, isSure true text = true)
    (hfits : (sure style.jsdocs).pair.FitsBase b)
    (hparts : ∀ c ∈ b.parts, (sure style.jsdocs).pair.Agrees style.dialect c) :
    isSure true (base style depth b).build = true := by
  cases hown : b.isForeign with
  | false => exact isSure_chain (TextPair.chain_base depth hown hfits hparts)
  | true =>
    cases b with
    | reference expression deferred =>
      have hexpression := h expression (by rw [Base.fragments]; exact List.mem_cons_self)
      cases deferred with
      | true =>
        have harrow : isSure false ("() => " ++ expression) = true :=
          isSure_append (by decide) (isSure_of_single hexpression)
        have hlazy : isSure true "z.lazy" = true := by decide
        rw [base]
        exact isSure_append hlazy (@isSure_argsText style.jsdocs _ _ (whole_one ⟨rfl, harrow⟩))
      | false =>
        rw [base]
        exact hexpression
    | custom text =>
      rw [base]
      exact isSure_reindent (h text (by rw [Base.fragments]; exact List.mem_cons_self)) depth
    | _ => cases hown

/-- **No comma divides the text of a validator** if none divides the texts that it takes over. -/
theorem isSure_validator (h : ∀ text ∈ v.fragments, isSure true text = true) :
    isSure true (validator style depth v) = true := by
  have hfits : ∀ w, v.Inside w → (sure style.jsdocs).pair.Fits w := fun w hw =>
    fits_of_fragments (fun text htext => isSure_of_single (h text (hw.fragments_subset htext)))
  obtain ⟨hroot, hparts⟩ := Validator.forall_inside_iff.1 hfits
  have hagrees : ∀ c ∈ v.parts, (sure style.jsdocs).pair.Agrees style.dialect c := fun c hc depth =>
    TextPair.whole_validator style.dialect depth (hparts c hc)
  -- The parts stand in brackets, where commas do not matter; only the base and the calls must have none.
  have hbase : isSure true (base style depth v.base).build = true :=
    isSure_base style depth (fun text htext =>
      h text (by rw [Validator.fragments_eq]; exact List.mem_append_left _ htext))
      hroot.base (fun c hc => hagrees c (List.mem_append_left _ hc))
  rw [validator_eq]
  refine isSure_append hbase (isSure_join (fun text htext => ?_))
  obtain ⟨m, hm, rfl⟩ := List.mem_map.1 htext
  obtain ⟨slot, _, hslot⟩ := List.mem_flatMap.1 hm
  have hm : m ∈ v.modifiers := List.mem_of_mem_filter hslot
  exact isSure_call (TextPair.call_modifier depth (hroot.modifiers m hm)
    (fun c hc => hagrees c (List.mem_append_right _ (List.mem_flatMap.2 ⟨m, hm, hc⟩))))

end

/-! ## Members -/

section
variable (names : List String)

theorem readsComments_objectStep : ReadsComments ObjectLiteral.step ⟨.comment, names⟩ ⟨.star, names⟩ ⟨.gap, names⟩ where
  star_of_inside := rfl
  inside_of_inside hc := by simp [ObjectLiteral.step, hc]
  star_of_star := rfl
  inside_of_star hstar hslash := by simp [ObjectLiteral.step, hstar, hslash]
  ends := rfl

theorem read_margin (depth : Nat) :
    Text.readBy ObjectLiteral.step ⟨.gap, names⟩ ("\n" ++ Text.indent depth).toList = some ⟨.gap, names⟩ := by
  refine ObjectLiteral.read_toList_append rfl (ObjectLiteral.read_blanks names (List.all_eq_true.2 ?_))
  intro c hc
  rw [Text.indent, String.toList_ofList] at hc
  rw [List.eq_of_mem_replicate hc]
  rfl

/-- **A comment above a member is passed over.** -/
theorem read_comment (jsdocs : Bool) (depth : Nat) (description : Option String) :
    Text.readBy ObjectLiteral.step ⟨.gap, names⟩ (linesText (comment jsdocs depth description)).toList =
      some ⟨.gap, names⟩ := by
  have hnone : Text.readBy ObjectLiteral.step ⟨.gap, names⟩ (linesText []).toList = some ⟨.gap, names⟩ := rfl
  cases jsdocs with
  | false => exact hnone
  | true =>
    cases description with
    | none => exact hnone
    | some text =>
      have htext : linesText (comment true depth (some text)) =
          "\n" ++ Text.indent depth ++ ("/** " ++ (String.ofList (uncommented text.toList) ++ " */")) := by
        rw [comment, linesText_singleton]
        simp only [String.append_assoc]
      rw [htext]
      refine ObjectLiteral.read_toList_append (read_margin names depth) ?_
      rw [toList_comment]
      exact (readsComments_objectStep names).foldlM_comment text.toList

theorem read_key (name : String) :
    Text.readBy ObjectLiteral.step ⟨.gap, names⟩ (key name ++ ":").toList = some ⟨.value {}, names ++ [name]⟩ := by
  rw [String.toList_append]
  unfold key
  split
  · rename_i hidentifier
    exact ObjectLiteral.read_bare names hidentifier
  · exact ObjectLiteral.read_quoted names name

variable (style : Style) (depth : Nat)

/-- **The name of a member is the key of its property**, and its value ends where it should. -/
theorem read_member {p : Property} (h : ∀ text ∈ p.value.fragments, isSure true text = true) :
    Text.readBy ObjectLiteral.step ⟨.gap, names⟩
      (linesText ((member style depth p).1 ++ [(member style depth p).2])).toList =
        some ⟨.value {}, names ++ [p.key]⟩ := by
  have hvalue : isSure true (" " ++ validator style depth p.value) = true :=
    isSure_append (by decide) (isSure_validator style depth h)
  have htext : linesText ((member style depth p).1 ++ [(member style depth p).2]) =
      linesText (comment style.jsdocs depth p.description) ++ ("\n" ++ Text.indent depth ++
        (key p.key ++ ":" ++ (" " ++ validator style depth p.value))) := by
    rw [linesText_member, entry, show ": " = ":" ++ " " from rfl]
    simp only [String.append_assoc]
  rw [htext]
  exact ObjectLiteral.read_toList_append (read_comment names style.jsdocs depth p.description)
    (ObjectLiteral.read_toList_append (read_margin names depth)
      (ObjectLiteral.read_toList_append (read_key names p.key) (ObjectLiteral.read_value _ hvalue)))

end

section
variable (style : Style) (depth : Nat)

-- The names are those before the members and then their own, so that the members behind a comma are read from there.
theorem read_memberLines : ∀ {properties : List Property} (names : List String), properties ≠ [] →
    (∀ p ∈ properties, ∀ text ∈ p.value.fragments, isSure true text = true) →
    Text.readBy ObjectLiteral.step ⟨.gap, names⟩
      (linesText (memberLines (properties.map (member style depth)))).toList =
      some ⟨.value {}, names ++ properties.map Property.key⟩
  | [], _, hne, _ => absurd rfl hne
  | [p], names, _, h => read_member names style depth (h p List.mem_cons_self)
  | p :: next :: rest, names, _, h => by
    have hmember := read_member names style depth (h p List.mem_cons_self)
    have hcomma : Text.readBy ObjectLiteral.step ⟨.value {}, names ++ [p.key]⟩ ",".toList =
        some ⟨.gap, names ++ [p.key]⟩ := rfl
    have hrest := read_memberLines (names ++ [p.key]) (List.cons_ne_nil next rest)
      (fun q hq => h q (List.mem_cons_of_mem _ hq))
    rw [List.append_assoc] at hrest
    simp only [List.map_cons] at hrest ⊢
    rw [linesText_memberLines]
    exact ObjectLiteral.read_toList_append (ObjectLiteral.read_toList_append hmember hcomma) hrest

/-- **The names of a shape are the keys of its properties.** -/
theorem read_shape {properties : List Property}
    (h : ∀ p ∈ properties, ∀ text ∈ p.value.fragments, isSure true text = true) :
    Text.readBy ObjectLiteral.step {} (shape depth (members style (depth + 1) properties)).toList =
      some ⟨.closed, properties.map Property.key⟩ := by
  rw [members_eq_map]
  cases properties with
  | nil =>
    have hempty : shape depth [] = "\x7b\x7d" := rfl
    rw [List.map_nil, hempty]
    rfl
  | cons p rest =>
    have hlines := read_memberLines style (depth + 1) [] (List.cons_ne_nil p rest) h
    have hmargin : isSure true ("\n" ++ Text.indent depth) = true := by
      have hspaces : ∀ c ∈ List.replicate (2 * depth) ' ', c = ' ' := fun _ => List.eq_of_mem_replicate
      refine isSure_append (by decide) (isSure_iff.2 ?_)
      rw [Text.indent, String.toList_ofList]
      exact sureRead_plain (fun c hc => by rw [hspaces c hc]; rfl) (fun _ hc => by cases hspaces ',' hc) []
    have hopens : Text.readBy ObjectLiteral.step {} "\x7b".toList = some ⟨.gap, []⟩ := rfl
    rw [List.nil_append] at hlines
    rw [shape_eq depth (by simp)]
    exact ObjectLiteral.read_toList_append (ObjectLiteral.read_toList_append hopens hlines)
      (ObjectLiteral.read_toList_append (ObjectLiteral.read_value _ hmargin) rfl)

theorem ownKeys?_shape {properties : List Property} (hkeys : (properties.map Property.key).Nodup)
    (h : ∀ p ∈ properties, ∀ text ∈ p.value.fragments, isSure true text = true) :
    ObjectLiteral.ownKeys? (shape depth (members style (depth + 1) properties)) =
      some ((properties.map Property.key).filter (fun name => name ≠ "__proto__")) := by
  unfold ObjectLiteral.ownKeys?
  rw [read_shape style depth h]
  exact congrArg some (ObjectLiteral.foldl_define hkeys)

/-- **The text of an object is a call on its shape**, and what calls and modifiers add behind it. -/
theorem exists_validator_object {v : Validator} {properties : List Property} {rest : Unlisted}
    (hbase : v.base = .object properties rest) : ∃ behind, validator style depth v =
      "z.object(" ++ shape depth (members style (depth + 1) properties) ++ ")" ++ behind := by
  have hcall : ∀ text, (CallChain.ofFunction "z.object" [text]).build = "z.object(" ++ text ++ ")" := by
    intro text
    show "z.object" ++ ("(" ++ ", ".intercalate [text] ++ ")") = _
    rw [String.intercalate_singleton, ← String.append_assoc, ← String.append_assoc]
    rfl
  rw [validator_eq, hbase, base, CallChain.build_foldl_add, hcall, String.append_assoc]
  exact ⟨_, rfl⟩

/-- **The shape of an object has the keys of its properties as own keys, but for `__proto__`**: it has all of them if
and only if none of them is `__proto__`, whatever they hold, in every style and at every depth. -/
theorem ownKeys_eq_keys_iff {v : Validator} {properties : List Property} {rest : Unlisted}
    (hbase : v.base = .object properties rest) (hkeys : (properties.map Property.key).Nodup)
    (hfragments : ∀ p ∈ properties, ∀ text ∈ p.value.fragments, isSure true text = true) :
    ∃ literal behind, validator style depth v = "z.object(" ++ literal ++ ")" ++ behind ∧
      ObjectLiteral.ownKeys? literal = some ((properties.map Property.key).filter (fun name => name ≠ "__proto__")) ∧
      (ObjectLiteral.ownKeys? literal = some (properties.map Property.key) ↔
        "__proto__" ∉ properties.map Property.key) := by
  have hown := ownKeys?_shape style depth hkeys hfragments
  obtain ⟨behind, hbehind⟩ := exists_validator_object style depth hbase
  refine ⟨_, behind, hbehind, hown, ?_⟩
  rw [hown, Option.some.injEq, List.filter_eq_self]
  constructor
  · intro hall hproto
    exact of_decide_eq_true (hall "__proto__" hproto) rfl
  · intro hproto name hname
    exact decide_eq_true (fun heq => hproto (heq ▸ hname))

/-- **Properties whose keys and values could be taken for other members.** -/
def hardProperties : List Property :=
  let expression := Validator.custom "f(\"a, b: \", \x7b c: 1, d: [2, 3] \x7d) /* , e: */"
  [⟨"a\": 1, \\", expression.refine "(v) =>\n  g(v, \",\")" none, some "*/ b: 2, /*"⟩,
    ⟨"class", .ofBase (.literal (.string ", c: ")), none⟩, ⟨"\n\u2028\u0000", Validator.lazy "d", some "/"⟩,
    ⟨"", .ofBase (.enum ["\x7d", "\x27"]), none⟩]

theorem ownKeys_eq_keys_iff_hardProperties : (hardProperties.map Property.key).Nodup ∧
    (∀ p ∈ hardProperties, ∀ text ∈ p.value.fragments, isSure true text = true) ∧
      ∃ literal behind, validator ⟨.v4, true⟩ 1 (Validator.ofBase (.object hardProperties .strict)).optional =
          "z.object(" ++ literal ++ ")" ++ behind ∧
        ObjectLiteral.ownKeys? literal = some ["a\": 1, \\", "class", "\n\u2028\u0000", ""] := by
  have hkeys : (hardProperties.map Property.key).Nodup := by decide +kernel
  have hfragments : ∀ p ∈ hardProperties, ∀ text ∈ p.value.fragments, isSure true text = true := by decide +kernel
  obtain ⟨literal, behind, htext, _, hiff⟩ := ownKeys_eq_keys_iff ⟨.v4, true⟩ 1
    (v := (Validator.ofBase (.object hardProperties .strict)).optional) rfl hkeys hfragments
  exact ⟨hkeys, hfragments, literal, behind, htext, hiff.2 (by decide +kernel)⟩

/-- **An object with a property `__proto__`.** -/
def prototyped : Validator := .ofBase (.object [⟨"__proto__", .ofBase (.string none none []), none⟩] .strip)

/-- **The property is lost**: in both dialects the shape has no key of its own. -/
theorem not_own_prototype :
    validator ⟨.v3, false⟩ 0 prototyped = "z.object(" ++ "\x7b\n  __proto__: z.string()\n\x7d" ++ ")" ∧
      validator ⟨.v4, false⟩ 0 prototyped = "z.object(" ++ "\x7b\n  __proto__: z.string()\n\x7d" ++ ")" ∧
      ObjectLiteral.ownKeys? "\x7b\n  __proto__: z.string()\n\x7d" = some [] := by decide +kernel

end

end Render
end Valgen
