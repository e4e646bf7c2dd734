import Mathlib.Data.List.Forall2
import Valgen.Proofs.Text.Lexer
import Valgen.Proofs.Validator.Calls
/-!
# Proofs.Validator.Pairs — a validator written twice

A validator may be written at two depths, or with comments and without them.  Both texts are put together from the same
literals, JSON and plain text, with the same brackets around and the same separators between them; they differ in the
margins and comments of their members.  A relation of texts that is kept when both are put together in the same way
(`TextPair`) therefore holds between the two texts of every validator (`TextPair.whole_validator`), if it holds between
the texts that are taken over (`TextPair.Fits`).  What is said of one text alone is the case in which both are the same
(`TextKind`).
-/
namespace Valgen

open Lexer

/-- **A plain character that does not end the line.** -/
def Lexer.isInline (c : Char) : Bool := c != '\n' && isPlain c

/-- **A text that names a function or a method**: of plain characters, and none of them a comma. -/
def Lexer.isName (text : String) : Bool := text.toList != [] && text.toList.all (fun c => isInline c && c != ',')

namespace Render

/-- **Lines, each behind a line feed.** -/
def linesText (lines : List String) : String := String.join (lines.map (fun line => "\n" ++ line))

/-- **A line of a shape at a depth, below its comment.** -/
def entry (jsdocs : Bool) (depth : Nat) (description : Option String) (line : String) : String :=
  linesText (comment jsdocs depth description) ++ ("\n" ++ Text.indent depth ++ line)

theorem linesText_append (a b : List String) : linesText (a ++ b) = linesText a ++ linesText b := by
  simp [linesText]

theorem linesText_singleton (line : String) : linesText [line] = "\n" ++ line := by
  simp [linesText]

theorem mem_uncommented {c : Char} {cs : List Char} (h : c ∈ uncommented cs) : c = '\\' ∨ c ∈ cs := by
  fun_induction uncommented cs with
  | case1 => cases h
  | case2 rest ih =>
    simp only [List.mem_cons] at h ⊢
    grind
  | case3 d rest _ ih =>
    simp only [List.mem_cons] at h ⊢
    grind

theorem entry_of_comment_eq_nil {jsdocs : Bool} {depth : Nat} {description : Option String}
    (h : comment jsdocs depth description = []) (line : String) :
    entry jsdocs depth description line = "\n" ++ Text.indent depth ++ line := by
  rw [entry, h]
  exact String.empty_append

theorem entry_described (depth : Nat) (text line : String) : entry true depth (some text) line =
    "\n" ++ Text.indent depth ++ ("/** " ++ (String.ofList (uncommented text.toList) ++ " */")) ++
      ("\n" ++ Text.indent depth ++ line) := by
  rw [entry, comment, linesText_singleton]
  simp only [String.append_assoc]

end Render

/-! ## Relations of texts -/

/-- **A relation between the texts of a validator at two depths that are `lag` apart**, with comments or not.  `Whole`
texts may stand alone; `Part`s may also stand behind whole ones and before others.  A description must be of the kind
that the relation allows. -/
structure TextPair (jsdocs jsdocs' : Bool) (lag : Nat) where
  Whole : String → String → Prop
  Part : String → String → Prop
  Describes : String → Prop
  empty : Whole "" ""
  whole_of_part {a a' : String} : Part a a' → Whole a a'
  part_append {a a' b b' : String} : Part a a' → Part b b' → Part (a ++ b) (a' ++ b')
  /-- Two whole texts may stand beside each other with a part between them. -/
  separated {a a' between between' b b' : String} : Whole a a' → Part between between' → Whole b b' →
    Whole (a ++ between ++ b) (a' ++ between' ++ b')
  plain {text : String} : text.toList ≠ [] → text.toList.all isInline = true → Part text text
  bracketed {inner inner' text text' : String} {opening close : Char} : Whole inner inner' →
    closer? opening = some close → text.toList = opening :: (inner.toList ++ [close]) →
    text'.toList = opening :: (inner'.toList ++ [close]) → Part text text'
  quote (s : String) : Part (Text.quote s) (Text.quote s)
  jsonQuote (s : String) : Part (Json.quote s) (Json.quote s)
  /-- A whole text goes on with a line of its own, below a comment. -/
  entry {a a' line line' : String} (depth : Nat) (description : Option String) :
    (∀ text ∈ description, Describes text) → Whole a a' → Part line line' →
    Whole (a ++ Render.entry jsdocs depth description line) (a' ++ Render.entry jsdocs' (depth + lag) description line')
  /-- Lines between braces. -/
  block {body body' : String} (depth : Nat) : Whole body body' →
    Part ("\x7b" ++ body ++ ("\n" ++ Text.indent depth ++ "\x7d"))
      ("\x7b" ++ body' ++ ("\n" ++ Text.indent (depth + lag) ++ "\x7d"))
  /-- The predicate that exactly one of several validators accepts. -/
  exactlyOne {members members' : String} : Whole members members' →
    Whole (Render.exactlyOne members) (Render.exactlyOne members')

variable {jsdocs jsdocs' : Bool} {lag : Nat} {R : TextPair jsdocs jsdocs' lag}

namespace TextPair

variable {a a' b b' inner inner' text text' : String}

theorem Part.whole (h : R.Part text text') : R.Whole text text' := R.whole_of_part h

theorem Part.append (ha : R.Part a a') (hb : R.Part b b') : R.Part (a ++ b) (a' ++ b') := R.part_append ha hb

theorem Part.append_whole (ha : R.Part a a') (hb : R.Whole b b') : R.Whole (a ++ b) (a' ++ b') := by
  have h := R.separated R.empty ha hb
  rwa [String.empty_append, String.empty_append] at h

theorem Whole.append (ha : R.Whole a a') (hb : R.Part b b') : R.Whole (a ++ b) (a' ++ b') := by
  have h := R.separated ha hb R.empty
  rwa [String.append_empty, String.append_empty] at h

theorem Whole.bracketed (h : R.Whole inner inner') (opening : Char) {close : Char}
    (htext : text.toList = opening :: (inner.toList ++ [close]))
    (htext' : text'.toList = opening :: (inner'.toList ++ [close])) (hpair : closer? opening = some close) :
    R.Part text text' := R.bracketed h hpair htext htext'

/-- **Texts with a separator between them.** -/
theorem whole_intercalate {separator : String} (hseparator : R.Part separator separator) {texts texts' : List String}
    (h : List.Forall₂ R.Whole texts texts') : R.Whole (separator.intercalate texts) (separator.intercalate texts') := by
  induction h with
  | nil =>
    rw [String.intercalate_nil]
    exact R.empty
  | cons hfirst hrest ih =>
    cases hrest with
    | nil =>
      rw [String.intercalate_singleton, String.intercalate_singleton]
      exact hfirst
    | cons hnext hmore =>
      rw [String.intercalate_cons_cons, String.intercalate_cons_cons]
      exact R.separated hfirst hseparator ih

/-- **Parts one behind another.** -/
theorem whole_join {α : Type} {f f' : α → String} : ∀ {xs : List α} {a a' : String}, R.Whole a a' →
    (∀ x ∈ xs, R.Part (f x) (f' x)) → R.Whole (a ++ String.join (xs.map f)) (a' ++ String.join (xs.map f'))
  | [], _, _, ha, _ => by
    simpa using ha
  | x :: xs, _, _, ha, h => by
    rw [List.map_cons, List.map_cons, String.join_cons, String.join_cons, ← String.append_assoc, ← String.append_assoc]
    exact whole_join (ha.append (h x List.mem_cons_self)) (fun y hy => h y (List.mem_cons_of_mem _ hy))

end TextPair

/-! ## Numbers and JSON -/

open TextPair

theorem isInline_of_all {p : Char → Bool} (h : ('\n' :: marks).all (fun c => !p c) = true) {c : Char}
    (hc : p c = true) :
    isInline c = true := by
  rw [List.all_cons, Bool.and_eq_true] at h
  have hfeed : c ≠ '\n' := by
    rintro rfl
    simp [hc] at h
  simp [isInline, hfeed, isPlain_of_all h.2 hc]

theorem part_ofList {cs : List Char} (hne : cs ≠ []) (h : ∀ c ∈ cs, isInline c = true) :
    R.Part (String.ofList cs) (String.ofList cs) :=
  R.plain (by rwa [String.toList_ofList]) (by rw [String.toList_ofList]; exact List.all_eq_true.2 h)

theorem part_plain (text : String) (h : text.toList ≠ [] ∧ text.toList.all isInline = true) : R.Part text text :=
  R.plain h.1 h.2

/-- **Brackets around nothing.** -/
theorem part_parens : R.Part "()" "()" := R.empty.bracketed '(' rfl rfl rfl

theorem isInline_toDigits {n : Nat} {c : Char} (h : c ∈ Nat.toDigits 10 n) : isInline c = true :=
  isInline_of_all (p := Char.isDigit) (by decide) (Nat.isDigit_of_mem_toDigits (by decide) (by decide) h)

theorem part_toString (n : Nat) : R.Part (toString n) (toString n) := by
  rw [Nat.toString_eq_ofList_toDigits]
  exact part_ofList Nat.toDigits_ne_nil (fun _ hc => isInline_toDigits hc)

theorem isInline_layout {ds : List Char} (h : ∀ c ∈ ds, isInline c = true) (lead : Int) :
    Binary64.layout ds lead ≠ [] ∧ ∀ c ∈ Binary64.layout ds lead, isInline c = true := by
  have hzeros : ∀ n, ∀ c ∈ List.replicate n '0', isInline c = true := fun n c hc => by
    rw [List.eq_of_mem_replicate hc]
    rfl
  have hsign : isInline (if lead < 0 then '-' else '+') = true := by split_ifs <;> rfl
  unfold Binary64.layout
  split
  · refine ⟨by simp, ?_⟩
    simp only [List.mem_append, List.mem_cons]
    rintro c ((hc | hc) | rfl | rfl | hc)
    · exact h c (List.mem_of_mem_take hc)
    · split at hc
      · cases hc
      · rcases List.mem_cons.1 hc with rfl | hc
        · rfl
        · exact h c (List.mem_of_mem_tail hc)
    · rfl
    · exact hsign
    · exact isInline_toDigits hc
  · split
    · refine ⟨by simp, ?_⟩
      simp only [List.mem_append, List.mem_cons]
      rintro c (rfl | rfl | hc | hc)
      · rfl
      · rfl
      · exact hzeros _ c hc
      · exact h c hc
    · dsimp only
      split
      · refine ⟨by simp, ?_⟩
        simp only [List.mem_append, List.mem_cons, List.not_mem_nil, or_false]
        rintro c ((hc | hc) | rfl | rfl)
        · exact h c hc
        · exact hzeros _ c hc
        · rfl
        · rfl
      · refine ⟨by simp, ?_⟩
        simp only [List.mem_append, List.mem_cons]
        rintro c (hc | rfl | hc)
        · exact h c (List.mem_of_mem_take hc)
        · rfl
        · exact h c (List.mem_of_mem_drop hc)

theorem part_numberText (n : Number) : R.Part n.text n.text := by
  cases n with
  | whole value =>
    cases value with
    | ofNat m => exact part_toString m
    | negSucc m => exact (part_plain "-" (by decide)).append (part_toString (m + 1))
  | float x =>
    have hmagnitude : ∀ cs : List Char, cs ≠ [] → (∀ c ∈ cs, isInline c = true) →
        R.Part (String.ofList (if x.negative then '-' :: cs else cs))
          (String.ofList (if x.negative then '-' :: cs else cs)) := by
      intro cs hne hinline
      split_ifs
      · refine part_ofList (List.cons_ne_nil _ _) (fun c hc => ?_)
        rcases List.mem_cons.1 hc with rfl | hc
        · rfl
        · exact hinline c hc
      · exact part_ofList hne hinline
    refine hmagnitude _ ?_ ?_
    · split
      · decide
      · exact (isInline_layout (fun _ hc => isInline_toDigits hc) _).1
    · split
      · exact List.all_eq_true.1 (by decide)
      · exact (isInline_layout (fun _ hc => isInline_toDigits hc) _).2

mutual

/-- **The JSON text of a value.** -/
theorem part_compact : ∀ value : Json, R.Part value.compact value.compact
  | .null => part_plain "null" (by decide)
  | .bool true => part_plain "true" (by decide)
  | .bool false => part_plain "false" (by decide)
  | .number value => part_numberText value
  | .string value => R.jsonQuote value
  | .array items => by
    have hitems := whole_intercalate (part_plain "," (by decide)) (whole_compactItems items)
    exact hitems.bracketed '[' (by simp [Json.compact]) (by simp [Json.compact]) rfl
  | .object members => by
    have hmembers := whole_intercalate (part_plain "," (by decide)) (whole_compactMembers members)
    exact hmembers.bracketed '\x7b' (by simp [Json.compact]) (by simp [Json.compact]) rfl

theorem whole_compactItems : ∀ items : List Json,
    List.Forall₂ R.Whole (Json.compactItems items) (Json.compactItems items)
  | [] => .nil
  | item :: rest => .cons (part_compact item).whole (whole_compactItems rest)

theorem whole_compactMembers : ∀ members : List (String × Json),
    List.Forall₂ R.Whole (Json.compactMembers members) (Json.compactMembers members)
  | [] => .nil
  | (key, value) :: rest =>
    .cons (((R.jsonQuote key).append (part_plain ":" (by decide))).append (part_compact value)).whole
      (whole_compactMembers rest)

end

/-! ## Chains of calls -/

theorem whole_list {texts texts' : List String} (h : List.Forall₂ R.Whole texts texts') :
    R.Whole (", ".intercalate texts) (", ".intercalate texts') := whole_intercalate (part_plain ", " (by decide)) h

theorem part_argsText {args args' : List String} (h : List.Forall₂ R.Whole args args') :
    R.Part (Call.argsText args) (Call.argsText args') :=
  (whole_list h).bracketed '(' (by simp [Call.argsText]) (by simp [Call.argsText]) rfl

theorem whole_one {text text' : String} (h : R.Whole text text') : List.Forall₂ R.Whole [text] [text'] := .cons h .nil

theorem part_name {name : String} (h : isName name = true) : R.Part name name := by
  simp only [isName, Bool.and_eq_true, bne_iff_ne, List.all_eq_true] at h
  exact R.plain h.1 (List.all_eq_true.2 (fun c hc => (h.2 c hc).1))

variable (R) in
/-- **A call that is written twice.** -/
inductive CallPair : Call → Call → Prop
  | method {method : String} {args args' : List String} : isName method = true → List.Forall₂ R.Whole args args' →
    CallPair ⟨method, args⟩ ⟨method, args'⟩
  | brand (name : String) :
    CallPair ⟨"brand<" ++ Text.quote name ++ ">", []⟩ ⟨"brand<" ++ Text.quote name ++ ">", []⟩

variable (R) in
/-- **A chain of calls that is written twice.** -/
inductive ChainPair : CallChain → CallChain → Prop
  | function {name : String} {args args' : List String} : isName name = true → List.Forall₂ R.Whole args args' →
    ChainPair (.ofFunction name args) (.ofFunction name args')
  | add {chain chain' : CallChain} {call call' : Call} : ChainPair chain chain' → CallPair R call call' →
    ChainPair (chain.add call) (chain'.add call')

theorem CallPair.part {call call' : Call} (h : CallPair R call call') : R.Part call.text call'.text := by
  have hdot : R.Part "." "." := part_plain "." (by decide)
  cases h with
  | method hmethod hargs => exact (hdot.append (part_name hmethod)).append (part_argsText hargs)
  | brand name =>
    have hname : R.Part ("brand<" ++ Text.quote name ++ ">") ("brand<" ++ Text.quote name ++ ">") :=
      ((part_plain "brand<" (by decide)).append (R.quote name)).append (part_plain ">" (by decide))
    exact (hdot.append hname).append (part_argsText .nil)

theorem ChainPair.whole {chain chain' : CallChain} (h : ChainPair R chain chain') :
    R.Whole chain.build chain'.build := by
  induction h with
  | function hname hargs => exact ((part_name hname).append (part_argsText hargs)).whole
  | add _ hcall ih =>
    rw [CallChain.build_add, CallChain.build_add]
    exact ih.append hcall.part

namespace Render

/-! ## Arguments -/

theorem part_braced {text : String} (h : R.Whole text text) : R.Part (braced text) (braced text) := by
  have hspace : R.Part " " " " := part_plain " " (by decide)
  exact ((hspace.append_whole h).append hspace).bracketed '\x7b' (by simp [braced]) (by simp [braced]) rfl

theorem part_literal (value : Json) : R.Part (literal value) (literal value) := by
  cases value with
  | string s => exact R.quote s
  | null | bool | number | array | object => exact part_compact _

theorem part_message (dialect : Dialect) (text : String) : R.Part (message dialect text) (message dialect text) := by
  cases dialect with
  | v3 => exact R.quote text
  | v4 => exact part_braced ((part_plain "error: " (by decide)).append (R.quote text)).whole

theorem whole_messages (dialect : Dialect) : ∀ text : Option String,
    List.Forall₂ R.Whole (text.map (message dialect)).toList (text.map (message dialect)).toList
  | none => .nil
  | some text => whole_one (part_message dialect text).whole

theorem whole_withMessage (dialect : Dialect) {arg arg' : String} (h : R.Whole arg arg') (text : Option String) :
    List.Forall₂ R.Whole (withMessage dialect arg text) (withMessage dialect arg' text) :=
  .cons h (whole_messages dialect text)

/-! ## Strings and numbers -/

theorem isName_formatMethod (format : StringFormat) : isName (formatMethod format) = true := by
  cases format <;> decide

/-- **An option, and the message behind it**, if there is one. -/
theorem part_option {option label : String} (hoption : R.Part option option) (hlabel : R.Part label label)
    (text : Option String) : R.Part (braced (option ++ text.elim "" (fun m => label ++ Text.quote m)))
      (braced (option ++ text.elim "" (fun m => label ++ Text.quote m))) := by
  cases text with
  | none =>
    show R.Part (braced (option ++ "")) (braced (option ++ ""))
    rw [String.append_empty]
    exact part_braced hoption.whole
  | some m => exact part_braced (hoption.append (hlabel.append (R.quote m))).whole

theorem part_formatOption {format : StringFormat} {option : String} (h : formatOption format = some option) :
    R.Part option option := by
  have hversion : ∀ v : String, R.Part ("version: " ++ Text.quote v) ("version: " ++ Text.quote v) := fun v =>
    (part_plain "version: " (by decide)).append (R.quote v)
  cases format <;> cases h
  · exact part_plain "offset: true" (by decide)
  · exact hversion "v4"
  · exact hversion "v6"

theorem chain_stringOfFormat (dialect : Dialect) (format : StringFormat) (text : Option String) :
    ChainPair R (stringOfFormat dialect format text) (stringOfFormat dialect format text) := by
  cases dialect with
  | v3 =>
    refine .add (.function (by decide) .nil) (.method (isName_formatMethod format) ?_)
    split
    · rename_i option hoption
      have hquoted : (text.map Text.quote).elim "" (fun m => ", message: " ++ m) =
          text.elim "" (fun m => ", message: " ++ Text.quote m) := by cases text <;> rfl
      rw [hquoted]
      exact whole_one (part_option (part_formatOption hoption) (part_plain ", message: " (by decide)) text).whole
    · cases text with
      | none => exact .nil
      | some s => exact whole_one (R.quote s).whole
  | v4 =>
    have hfunction : isName (formatFunction format) = true := by cases format <;> decide
    refine .function hfunction ?_
    split
    · exact whole_one (part_option (part_plain "offset: true" (by decide)) (part_plain ", error: " (by decide))
          text).whole
    · exact whole_messages .v4 text

theorem chain_number (dialect : Dialect) (integer : Bool) (text : Option String) :
    ChainPair R (number dialect integer text) (number dialect integer text) := by
  have hnone : ChainPair R (CallChain.ofFunction "z.number" []) (CallChain.ofFunction "z.number" []) :=
    .function (by decide) .nil
  match dialect, integer with
  | .v3, true => exact .add hnone (.method (by decide) (whole_messages .v3 text))
  | .v4, true => exact .function (by decide) (whole_messages .v4 text)
  | .v3, false | .v4, false => exact hnone

theorem isName_check (c : Check) : isName (check c).1 = true := by
  cases c <;> simp only [check] <;> decide

theorem whole_check (c : Check) : R.Whole (check c).2 (check c).2 := by
  cases c with
  | min count => exact (part_toString count).whole
  | max count => exact (part_toString count).whole
  | regex source =>
    have hargument : R.Part ("(" ++ Text.quote source ++ ")") ("(" ++ Text.quote source ++ ")") :=
      (R.quote source).whole.bracketed '(' (by simp) (by simp) rfl
    have htext : (check (.regex source)).2 = "new RegExp" ++ ("(" ++ Text.quote source ++ ")") := by
      simp only [check]
      rw [← String.append_assoc, ← String.append_assoc]
      rfl
    rw [htext]
    exact ((part_plain "new RegExp" (by decide)).append hargument).whole
  | multipleOf n | gte n | gt n | lte n | lt n => exact (part_numberText n).whole

theorem chain_checked (dialect : Dialect) : ∀ {checks : List Constraint} {chain chain' : CallChain},
    ChainPair R chain chain' → ChainPair R (checked dialect chain checks) (checked dialect chain' checks)
  | [], _, _, h => h
  | c :: rest, chain, chain', h => by
    have hargs := whole_withMessage dialect (whole_check (R := R) c.check) c.message
    unfold checked
    rw [List.foldl_cons, List.foldl_cons]
    exact chain_checked dialect (.add h (.method (isName_check c.check) hargs))

/-! ## Shapes -/

theorem part_key (name : String) : R.Part (key name) (key name) := by
  unfold key
  split
  · rename_i hidentifier
    unfold Name.isIdentifier at hidentifier
    split at hidentifier
    · cases hidentifier
    · rename_i c cs hlist
      obtain ⟨hstart, hcontinue⟩ := Bool.and_eq_true_iff.1 hidentifier
      refine R.plain (by rw [hlist]; exact List.cons_ne_nil _ _) ?_
      rw [hlist, List.all_cons, isInline_of_all (p := Name.isStart) (by decide) hstart, Bool.true_and]
      exact List.all_eq_true.2 (fun d hd =>
        isInline_of_all (p := Name.isContinue) (by decide) (List.all_eq_true.1 hcontinue d hd))
  · exact R.quote name

theorem intercalate_feed (first : String) : ∀ rest : List String,
    "\n".intercalate (first :: rest) = first ++ linesText rest
  | [] => by simp [linesText]
  | next :: rest => by
    rw [String.intercalate_cons_cons, intercalate_feed next rest, String.append_assoc]
    simp [linesText, String.append_assoc]

/-- **A shape with members is its lines between braces.** -/
theorem shape_eq (depth : Nat) {members : List (List String × String)} (h : members ≠ []) : shape depth members =
    "\x7b" ++ linesText (memberLines members) ++ ("\n" ++ Text.indent depth ++ "\x7d") := by
  unfold shape
  rw [if_neg (by simpa using h), intercalate_feed, linesText_append, linesText_singleton]
  simp only [String.append_assoc]

/-- **The lines of a member, a comma, and the lines of the members behind it.** -/
theorem linesText_memberLines (m next : List String × String) (rest : List (List String × String)) :
    linesText (memberLines (m :: next :: rest)) =
      linesText (m.1 ++ [m.2]) ++ "," ++ linesText (memberLines (next :: rest)) := by
  simp [memberLines, linesText, String.append_assoc]

/-! ## Validators -/

section
variable (style : Style) (depth : Nat)

theorem validators_eq_map (vs : List Validator) : validators style depth vs = vs.map (validator style depth) := by
  induction vs with
  | nil => rw [validators, List.map_nil]
  | cons v rest ih => rw [validators, ih, List.map_cons]

def member (p : Property) : List String × String :=
  (comment style.jsdocs depth p.description, Text.indent depth ++ key p.key ++ ": " ++ validator style depth p.value)

theorem members_eq_map (properties : List Property) :
    members style depth properties = properties.map (member style depth) := by
  induction properties with
  | nil => rw [members, List.map_nil]
  | cons p rest ih =>
    obtain ⟨name, value, description⟩ := p
    rw [members, ih, List.map_cons]
    rfl

theorem linesText_member (p : Property) : linesText ((member style depth p).1 ++ [(member style depth p).2]) =
    entry style.jsdocs depth p.description (key p.key) ++ ": " ++ validator style depth p.value := by
  rw [linesText_append, linesText_singleton]
  simp only [member, entry, String.append_assoc]

end
end Render

namespace TextPair

open Render

variable (R)

/-- **A text that is taken over as a block**, at every depth. -/
def Block (text : String) : Prop := ∀ depth, R.Whole (Text.reindent text depth) (Text.reindent text (depth + lag))

/-- **The texts that a base takes over are related**, and the descriptions of its members are allowed. -/
def FitsBase : Base → Prop
  | .object properties _ => ∀ p ∈ properties, ∀ text ∈ p.description, R.Describes text
  | .reference expression true =>
    R.Part (Call.argsText ["() => " ++ expression]) (Call.argsText ["() => " ++ expression])
  | .reference expression false => R.Whole expression expression
  | .custom text => R.Block text
  | _ => True

/-- **The text that a modifier takes over is related.** -/
def FitsModifier : Modifier → Prop
  | .refine predicate _ => R.Block predicate
  | .superRefine body => R.Block body
  | _ => True

/-- **The texts that a validator takes over itself are related.** -/
structure Fits (v : Validator) : Prop where
  base : R.FitsBase v.base
  modifiers : ∀ m ∈ v.modifiers, R.FitsModifier m

/-- **The two texts of a validator are related**, at every depth. -/
def Agrees (dialect : Dialect) (v : Validator) : Prop := ∀ depth,
  R.Whole (validator ⟨dialect, jsdocs⟩ depth v) (validator ⟨dialect, jsdocs'⟩ (depth + lag) v)

variable {R} {dialect : Dialect} (depth : Nat)

theorem whole_validators {vs : List Validator} (h : ∀ v ∈ vs, R.Agrees dialect v) : List.Forall₂ R.Whole
    (validators ⟨dialect, jsdocs⟩ depth vs) (validators ⟨dialect, jsdocs'⟩ (depth + lag) vs) := by
  rw [validators_eq_map, validators_eq_map, List.forall₂_map_left_iff, List.forall₂_map_right_iff, List.forall₂_same]
  exact fun v hv => h v hv depth

theorem part_list {texts texts' : List String} (h : List.Forall₂ R.Whole texts texts') :
    R.Part (list texts) (list texts') := (whole_list h).bracketed '[' (by simp [list]) (by simp [list]) rfl

theorem whole_member {p : Property} (hvalue : R.Agrees dialect p.value)
    (hdescription : ∀ text ∈ p.description, R.Describes text) {a a' : String} (ha : R.Whole a a') :
    R.Whole (a ++ linesText ((member ⟨dialect, jsdocs⟩ depth p).1 ++ [(member ⟨dialect, jsdocs⟩ depth p).2]))
      (a' ++ linesText ((member ⟨dialect, jsdocs'⟩ (depth + lag) p).1 ++
        [(member ⟨dialect, jsdocs'⟩ (depth + lag) p).2])) := by
  have hentry := R.entry depth p.description hdescription ha (part_key p.key)
  rw [linesText_member, linesText_member, ← String.append_assoc, ← String.append_assoc, ← String.append_assoc,
    ← String.append_assoc]
  exact R.separated hentry (part_plain ": " (by decide)) (hvalue depth)

-- A member begins with a line feed, so that no part of the text begins with it: the members are added to a whole text.
theorem whole_memberLines : ∀ {properties : List Property} {a a' : String}, R.Whole a a' →
    (∀ p ∈ properties, R.Agrees dialect p.value) → (∀ p ∈ properties, ∀ text ∈ p.description, R.Describes text) →
    R.Whole (a ++ linesText (memberLines (properties.map (member ⟨dialect, jsdocs⟩ depth))))
      (a' ++ linesText (memberLines (properties.map (member ⟨dialect, jsdocs'⟩ (depth + lag)))))
  | [], _, _, ha, _, _ => by
    simpa [memberLines, linesText] using ha
  | [p], _, _, ha, hvalues, hdescriptions =>
    whole_member depth (hvalues p List.mem_cons_self) (hdescriptions p List.mem_cons_self) ha
  | p :: next :: rest, _, _, ha, hvalues, hdescriptions => by
    have hmember := whole_member depth (hvalues p List.mem_cons_self) (hdescriptions p List.mem_cons_self) ha
    have hrest := whole_memberLines (hmember.append (part_plain "," (by decide)))
      (fun q hq => hvalues q (List.mem_cons_of_mem _ hq)) (fun q hq => hdescriptions q (List.mem_cons_of_mem _ hq))
    simp only [List.map_cons] at hrest ⊢
    rw [linesText_memberLines, linesText_memberLines, ← String.append_assoc, ← String.append_assoc,
      ← String.append_assoc, ← String.append_assoc]
    exact hrest

theorem part_shape {properties : List Property} (hvalues : ∀ p ∈ properties, R.Agrees dialect p.value)
    (hdescriptions : ∀ p ∈ properties, ∀ text ∈ p.description, R.Describes text) :
    R.Part (shape depth (members ⟨dialect, jsdocs⟩ (depth + 1) properties))
      (shape (depth + lag) (members ⟨dialect, jsdocs'⟩ (depth + lag + 1) properties)) := by
  rw [members_eq_map, members_eq_map, Nat.add_right_comm]
  cases properties with
  | nil =>
    have hempty : ∀ depth, shape depth [] = "\x7b\x7d" := fun _ => rfl
    rw [List.map_nil, List.map_nil, hempty, hempty]
    exact R.empty.bracketed '\x7b' rfl rfl rfl
  | cons p rest =>
    have hlines := whole_memberLines (depth + 1) R.empty hvalues hdescriptions
    rw [String.empty_append, String.empty_append] at hlines
    rw [List.map_cons, List.map_cons] at hlines ⊢
    rw [shape_eq depth (List.cons_ne_nil _ _), shape_eq (depth + lag) (List.cons_ne_nil _ _)]
    exact R.block depth hlines

theorem chain_unlisted {rest : Unlisted} (h : ∀ c ∈ rest.parts, R.Agrees dialect c) {chain chain' : CallChain}
    (hchain : ChainPair R chain chain') :
    ChainPair R ((unlisted ⟨dialect, jsdocs⟩ depth rest).toList.foldl CallChain.add chain)
      ((unlisted ⟨dialect, jsdocs'⟩ (depth + lag) rest).toList.foldl CallChain.add chain') := by
  cases rest with
  | strip =>
    rw [unlisted, unlisted]
    exact hchain
  | strict =>
    rw [unlisted, unlisted]
    exact .add hchain (.method (by decide) .nil)
  | passthrough =>
    rw [unlisted, unlisted]
    cases dialect with
    | v3 => exact .add hchain (.method (by decide) .nil)
    | v4 => exact .add hchain (.method (by decide) .nil)
  | catchall values =>
    rw [unlisted, unlisted]
    exact .add hchain (.method (by decide) (whole_one (h values List.mem_cons_self depth)))

/-- **The two chains of a base**, if the texts of its parts are related, unless its own comes from elsewhere. -/
theorem chain_base {b : Base} (hown : b.isForeign = false) (hfits : R.FitsBase b)
    (h : ∀ c ∈ b.parts, R.Agrees dialect c) :
    ChainPair R (base ⟨dialect, jsdocs⟩ depth b) (base ⟨dialect, jsdocs'⟩ (depth + lag) b) := by
  cases b with
  | any | unknown | never | boolean | null =>
    rw [base, base]
    exact .function (by decide) .nil
  | string format formatMessage checks =>
    cases format with
    | none =>
      rw [base, base]
      exact chain_checked dialect (.function (by decide) .nil)
    | some format =>
      rw [base, base]
      exact chain_checked dialect (chain_stringOfFormat dialect format formatMessage)
  | number integer integerMessage checks =>
    rw [base, base]
    exact chain_checked dialect (chain_number dialect integer integerMessage)
  | literal value =>
    rw [base, base]
    exact .function (by decide) (whole_one (part_literal value).whole)
  | enum values =>
    have hvalues : List.Forall₂ R.Whole (values.map Text.quote) (values.map Text.quote) := by
      rw [List.forall₂_same]
      intro text htext
      obtain ⟨value, _, rfl⟩ := List.mem_map.1 htext
      exact (R.quote value).whole
    rw [base, base]
    exact .function (by decide) (whole_one (part_list hvalues).whole)
  | object properties rest =>
    have hvalues : ∀ p ∈ properties, R.Agrees dialect p.value := fun p hp =>
      h p.value (List.mem_append_left _ (List.mem_map_of_mem hp))
    rw [base, base]
    exact chain_unlisted depth (fun c hc => h c (List.mem_append_right _ hc))
      (.function (by decide) (whole_one (part_shape depth hvalues hfits).whole))
  | array items checks =>
    rw [base, base]
    exact chain_checked dialect (.function (by decide) (whole_one (h items List.mem_cons_self depth)))
  | tuple items rest =>
    have hitems := whole_validators depth (fun c hc => h c (List.mem_append_left _ hc))
    have hchain : ChainPair R (CallChain.ofFunction "z.tuple" [list (validators ⟨dialect, jsdocs⟩ depth items)])
        (CallChain.ofFunction "z.tuple" [list (validators ⟨dialect, jsdocs'⟩ (depth + lag) items)]) :=
      .function (by decide) (whole_one (part_list hitems).whole)
    rw [base, base]
    cases rest with
    | none =>
      rw [validator?, validator?]
      exact hchain
    | some rest =>
      have hrest := h rest (List.mem_append_right _ List.mem_cons_self) depth
      rw [validator?, validator?]
      exact .add hchain (.method (by decide) (whole_one hrest))
  | record values =>
    have hkeys : R.Part "z.string()" "z.string()" := (part_plain "z.string" (by decide)).append part_parens
    rw [base, base]
    exact .function (by decide) (.cons hkeys.whole (whole_one (h values List.mem_cons_self depth)))
  | union items =>
    rw [base, base]
    exact .function (by decide) (whole_one (part_list (whole_validators depth h)).whole)
  | xor items =>
    have hlist := (part_list (whole_validators depth h)).whole
    rw [base, base]
    exact .add (.function (by decide) (whole_one hlist)) (.method (by decide) (whole_one (R.exactlyOne hlist)))
  | intersection left right =>
    have hright := h right (List.mem_cons_of_mem _ List.mem_cons_self) depth
    rw [base, base]
    exact .function (by decide) (.cons (h left List.mem_cons_self depth) (whole_one hright))
  | reference | custom => cases hown

/-- **The two texts of a base**, if those of its parts are related. -/
theorem whole_base {b : Base} (hfits : R.FitsBase b) (h : ∀ c ∈ b.parts, R.Agrees dialect c) :
    R.Whole (base ⟨dialect, jsdocs⟩ depth b).build (base ⟨dialect, jsdocs'⟩ (depth + lag) b).build := by
  cases hown : b.isForeign with
  | false => exact (chain_base depth hown hfits h).whole
  | true =>
    cases b with
    | reference expression deferred =>
      cases deferred with
      | true =>
        rw [base, base]
        exact ((part_plain "z.lazy" (by decide)).append hfits).whole
      | false =>
        rw [base, base]
        exact hfits
    | custom text =>
      rw [base, base]
      exact hfits depth
    | _ => cases hown

/-- **The two calls of a modifier**, if the texts of its parts are related. -/
theorem call_modifier {m : Modifier} (hfits : R.FitsModifier m) (h : ∀ c ∈ m.parts, R.Agrees dialect c) :
    CallPair R (modifierCall ⟨dialect, jsdocs⟩ depth m) (modifierCall ⟨dialect, jsdocs'⟩ (depth + lag) m) := by
  cases m with
  | optional | nullable | readonly =>
    rw [modifierCall, modifierCall]
    exact .method (by decide) .nil
  | default value =>
    rw [modifierCall, modifierCall]
    exact .method (by decide) (whole_one (part_literal value).whole)
  | describe text =>
    rw [modifierCall, modifierCall]
    exact .method (by decide) (whole_one (R.quote text).whole)
  | brand name =>
    rw [modifierCall, modifierCall]
    exact .brand name
  | refine predicate text =>
    rw [modifierCall, modifierCall]
    exact .method (by decide) (whole_withMessage dialect (hfits depth) text)
  | superRefine body =>
    rw [modifierCall, modifierCall]
    exact .method (by decide) (whole_one (hfits depth))
  | pipe target =>
    rw [modifierCall, modifierCall]
    exact .method (by decide) (whole_one (h target List.mem_cons_self depth))

theorem agrees_of_parts {v : Validator} (hfits : R.Fits v) (h : ∀ c ∈ v.parts, R.Agrees dialect c) :
    R.Agrees dialect v := by
  intro depth
  have hbase := whole_base depth hfits.base (fun c hc => h c (List.mem_append_left _ hc))
  rw [validator_eq, validator_eq]
  refine whole_join hbase (fun m hm => ?_)
  obtain ⟨slot, _, hslot⟩ := List.mem_flatMap.1 hm
  have hm : m ∈ v.modifiers := List.mem_of_mem_filter hslot
  exact (call_modifier depth (hfits.modifiers m hm)
    (fun c hc => h c (List.mem_append_right _ (List.mem_flatMap.2 ⟨m, hm, hc⟩)))).part

/-- **The two texts of a validator are related** if those are that it takes over. -/
theorem whole_validator (dialect : Dialect) (depth : Nat) {v : Validator} (h : ∀ w, v.Inside w → R.Fits w) : R.Whole
    (validator ⟨dialect, jsdocs⟩ depth v) (validator ⟨dialect, jsdocs'⟩ (depth + lag) v) := by
  -- The members of a shape stand one level deeper, so that the induction needs all depths.
  have hagrees : R.Agrees dialect v := by
    induction v using Validator.induction_on_parts with
    | h v ih =>
      obtain ⟨hroot, hparts⟩ := Validator.forall_inside_iff.1 h
      exact agrees_of_parts hroot (fun c hc => ih c hc (hparts c hc))
  exact hagrees depth

end TextPair
end Valgen
