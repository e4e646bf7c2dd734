import Valgen.Name
import Valgen.Proofs.Text.Lexer
import Valgen.Proofs.Text.Literals
/-!
# Proofs.Text.ObjectLiteral — the own keys of an object literal

A reader of object literals (`ObjectLiteral.step`) takes the names of the members, bare or quoted, and passes over their
values up to the comma or the brace outside of brackets that ends them; that a value is an expression is taken for
granted.  It refuses every name of another form and every member without a colon.  A member defines an own key of its
name, but `__proto__` sets the prototype and defines none (`ObjectLiteral.ownKeys?`).

The lexer knows one kind of literals and one kind of comments, and others may mislead it.  So the reader passes over a
value only where none of them can begin (`Lexer.sureStep`, `Lexer.isSure`).
-/
namespace Valgen

open Text (readBy readBy_cons readBy_append readBy_of_step)

/-! ## Readings that other literals and comments cannot mislead -/

namespace Lexer

/-- **What a sure reading does not pass over**, outside of literals and comments: the quotes of other literals, a slash
that opens no comment, and, if the text must be `single`, a comma outside of brackets. -/
def refuses (single : Bool) (s : State) (c : Char) : Bool :=
  decide (Outside s.mode) &&
    (c == '\x27' || c == '\x60' || (s.mode == .slash && c != '*') || (c == ',' && single && s.awaited.isEmpty))

def sureStep (single : Bool) (s : State) (c : Char) : Option State :=
  if refuses single s c then none else step true s c

/-- **A text is surely well formed**; if it is `single`, no comma outside of brackets divides it. -/
def isSure (single : Bool) (text : String) : Bool := readBy (sureStep single) {} text.toList == some {}

example : isSure true "f(a, \"b,\") /* , */" = true ∧ isSure true "a, b" = false ∧ isSure false "a, b" = true := by
  decide
example : isSure false "f(\x27(\x27)" = false ∧ isSure false "a // \"" = false ∧ isSure false "f(a" = false := by decide

variable {single : Bool}

theorem isSure_iff {text : String} : isSure single text = true ↔ readBy (sureStep single) {} text.toList = some {} :=
  beq_iff_eq

theorem isSure_append {a b : String} (ha : isSure single a = true) (hb : isSure single b = true) :
    isSure single (a ++ b) = true := by
  rw [isSure_iff] at *
  rw [String.toList_append, readBy_append ha, hb]

theorem sureStep_of_isPlain {c : Char} (h : isPlain c = true) (hcomma : single = true → c ≠ ',') (awaited : List Char) :
    sureStep single ⟨.code, awaited⟩ c = some ⟨.code, awaited⟩ := by
  obtain ⟨mode, hmode, hread⟩ := @takes_of_isPlain true c h .code awaited (.inl rfl)
  cases hmode
  have hrefuses : refuses single ⟨.code, awaited⟩ c = false := by
    have hquote : c ≠ '\x27' := by
      rintro rfl
      cases h
    have htemplate : c ≠ '\x60' := by
      rintro rfl
      cases h
    cases single <;> simp_all [refuses]
  rw [sureStep, hrefuses]
  simpa [readBy] using hread

/-- **Plain text**, without commas if it must be single. -/
theorem sureRead_plain {cs : List Char} (h : ∀ c ∈ cs, isPlain c = true) (hcomma : single = true → ',' ∉ cs)
    (awaited : List Char) : readBy (sureStep single) ⟨.code, awaited⟩ cs = some ⟨.code, awaited⟩ := by
  induction cs with
  | nil => rfl
  | cons c rest ih =>
    obtain ⟨hc, hrest⟩ := List.forall_mem_cons.1 h
    have hstep := sureStep_of_isPlain hc (fun hs heq => hcomma hs (heq ▸ List.mem_cons_self)) awaited
    rw [readBy_cons hstep]
    exact ih hrest (fun hs hmem => hcomma hs (List.mem_cons_of_mem _ hmem))

/-- **What is read alone is read in brackets**, where commas are passed over. -/
theorem sureRead_frame {close : Char} (below : List Char) {cs : List Char} {s t : State}
    (h : readBy (sureStep false) s cs = some t) :
    readBy (sureStep single) ⟨s.mode, s.awaited ++ close :: below⟩ cs = some ⟨t.mode, t.awaited ++ close :: below⟩ := by
  refine readBy_of_step (fun s => State.mk s.mode (s.awaited ++ close :: below)) ?_ h
  intro s t c hstep
  unfold sureStep at hstep ⊢
  split at hstep
  · cases hstep
  · rename_i hread
    rw [if_neg (by simpa [refuses] using hread)]
    exact step_frame _ hstep

theorem isSure_bracketed {inner text : String} (h : isSure false inner = true) (opening : Char) {close : Char}
    (htext : text.toList = opening :: (inner.toList ++ [close])) (hpair : closer? opening = some close) :
    isSure single text = true := by
  have hopens : sureStep single {} opening = some ⟨.code, [close]⟩ := by
    rcases eq_of_closer? hpair with ⟨rfl, rfl⟩ | ⟨rfl, rfl⟩ | ⟨rfl, rfl⟩ <;> cases single <;> rfl
  have hcloses : sureStep single ⟨.code, [close]⟩ close = some {} := by
    rcases eq_of_closer? hpair with ⟨rfl, rfl⟩ | ⟨rfl, rfl⟩ | ⟨rfl, rfl⟩ <;> cases single <;> rfl
  have hinner : readBy (sureStep single) ⟨.code, [close]⟩ inner.toList = some ⟨.code, [close]⟩ :=
    sureRead_frame [] (isSure_iff.1 h)
  rw [isSure_iff, htext, readBy_cons hopens]
  exact (readBy_append hinner _).trans (readBy_cons hcloses [])

theorem sureRead_quoted {body : List Char} (h : LiteralBody body) :
    readBy (sureStep single) {} ('"' :: (body ++ ['"'])) = some {} := by
  have hopens : readBy (sureStep single) {} ['"'] = some ⟨.string, []⟩ := by cases single <;> rfl
  have hbody : readBy (sureStep single) ⟨.string, []⟩ body = some ⟨.string, []⟩ :=
    h.foldlM (fun hc => step_of_isLiteral hc []) rfl (fun _ => rfl)
  have hcloses : readBy (sureStep single) ⟨.string, []⟩ ['"'] = some {} := rfl
  show readBy (sureStep single) {} (['"'] ++ (body ++ ['"'])) = some {}
  rw [readBy_append hopens, readBy_append hbody, hcloses]

theorem isSure_quote (s : String) : isSure single (Text.quote s) = true := by
  rw [isSure_iff, toList_quote]
  exact sureRead_quoted (.flatMap literalBody_escapeChar s.toList)

theorem isSure_jsonQuote (s : String) : isSure single (Json.quote s) = true := by
  rw [isSure_iff, toList_jsonQuote]
  exact sureRead_quoted (.flatMap literalBody_jsonEscapeChar s.toList)

theorem ignoresMargins_sureStep : IgnoresMargins (sureStep single) where
  feed_of_return := by
    rintro ⟨mode, awaited⟩ t u hreturn hfeed
    cases mode <;> cases hreturn <;> cases hfeed <;> rfl
  space_of_feed := by
    rintro ⟨mode, awaited⟩ t hfeed
    cases mode <;> cases hfeed <;> rfl

theorem eq_of_sureStep_feed {s : State} (h : sureStep single s '\n' = some {}) : s = {} := by
  obtain ⟨mode, awaited⟩ := s
  cases mode <;> cases h
  rfl

/-- **A surely well-formed text stays one when it is moved to the right.** -/
theorem isSure_reindent {text : String} (h : isSure single text = true) (depth : Nat) :
    isSure single (Text.reindent text depth) = true := by
  rcases reindent_eq_or_joined text depth with hsame | hjoined
  · rwa [hsame]
  · rw [isSure_iff] at h ⊢
    rw [hjoined]
    obtain ⟨u, hlines, rfl | hfeed⟩ := ignoresMargins_sureStep.foldlM_joined_lines (2 * depth) _ h
    · exact hlines
    · rw [eq_of_sureStep_feed hfeed] at hlines
      exact hlines

theorem isSure_of_single {text : String} (h : isSure true text = true) : isSure false text = true := by
  have hstep : ∀ {s t c}, sureStep true s c = some t → sureStep false s c = some t := by
    intro s t c hs
    unfold sureStep refuses at hs ⊢
    split at hs
    · cases hs
    · rename_i hread
      rw [if_neg (by grind)]
      exact hs
  rw [isSure_iff] at h ⊢
  exact readBy_of_step id hstep h

end Lexer

/-! ## Object literals -/

namespace ObjectLiteral

/-- **What the reader is at.** -/
inductive Stage where
  | opening
  /-- Before a member or the end. -/
  | gap
  | slash
  | comment
  /-- Behind a star in a comment. -/
  | star
  | bare (name : List Char)
  | quoted (body : List Char)
  /-- Behind a backslash in a quoted name. -/
  | escape (body : List Char)
  | named (name : List Char)
  | value (s : Lexer.State)
  | closed
deriving DecidableEq, Repr

/-- **The stage, and the names of the members so far.** -/
structure State where
  stage : Stage := .opening
  names : List String := []
deriving DecidableEq, Repr

def isBlank (c : Char) : Bool := c == ' ' || c == '\t' || Lexer.isBreak c

/-- **A character behind a name**, which a colon must follow. -/
def stepNamed (name : List Char) (names : List String) (c : Char) : Option State :=
  if isBlank c then some ⟨.named name, names⟩
  else if c = ':' then some ⟨.value {}, names ++ [String.ofList name]⟩
  else none

/-- **One character.**  A value ends with a comma or a closing brace outside of its literals, comments and brackets. -/
def step (s : State) (c : Char) : Option State :=
  match s.stage with
  | .opening => if c = '\x7b' then some ⟨.gap, s.names⟩ else none
  | .gap =>
    if isBlank c then some s
    else if c = '/' then some ⟨.slash, s.names⟩
    else if c = '"' then some ⟨.quoted [], s.names⟩
    else if c = '\x7d' then some ⟨.closed, s.names⟩
    else if Name.isStart c then some ⟨.bare [c], s.names⟩
    else none
  | .slash => if c = '*' then some ⟨.comment, s.names⟩ else none
  | .comment => some ⟨if c = '*' then .star else .comment, s.names⟩
  | .star => some ⟨if c = '/' then .gap else if c = '*' then .star else .comment, s.names⟩
  | .bare name => if Name.isContinue c then some ⟨.bare (name ++ [c]), s.names⟩ else stepNamed name s.names c
  | .quoted body =>
    if c = '"' then (Text.unescape? body).map (fun name => ⟨.named name, s.names⟩)
    else some ⟨if c = '\\' then .escape (body ++ [c]) else .quoted (body ++ [c]), s.names⟩
  | .escape body => some ⟨.quoted (body ++ [c]), s.names⟩
  | .named name => stepNamed name s.names c
  | .value inner =>
    if inner = {} ∧ c = ',' then some ⟨.gap, s.names⟩
    else if inner = {} ∧ c = '\x7d' then some ⟨.closed, s.names⟩
    else (Lexer.sureStep true inner c).map (fun inner' => ⟨.value inner', s.names⟩)
  | .closed => none

/-- **The own keys behind a member**: `__proto__` sets the prototype, and a name that is there already changes its
value. -/
def define (own : List String) (name : String) : List String :=
  if name = "__proto__" ∨ name ∈ own then own else own ++ [name]

/-- **The own keys of the object that a literal stands for**, in the order in which they are defined. -/
def ownKeys? (text : String) : Option (List String) :=
  match readBy step {} text.toList with
  | some ⟨.closed, names⟩ => some (names.foldl define [])
  | _ => none

example : ownKeys? "\x7b a: f(\x7b b: 1 \x7d, 2), \"c\\n\": \"d, e: \", __proto__: g, a: 0 \x7d" =
    some ["a", "c\n"] := by
  decide
example : ownKeys? "\x7b [a]: 1 \x7d" = none ∧ ownKeys? "\x7b a \x7d" = none ∧ ownKeys? "\x7b a: 1" = none := by decide

theorem read_toList_append {s t u : State} {a b : String} (ha : readBy step s a.toList = some t)
    (hb : readBy step t b.toList = some u) : readBy step s (a ++ b).toList = some u := by
  rw [String.toList_append, readBy_append ha, hb]

/-- **Of names that differ, all become own keys but `__proto__`.** -/
theorem foldl_define : ∀ {names own : List String}, (own ++ names).Nodup →
    names.foldl define own = own ++ names.filter (fun name => name ≠ "__proto__")
  | [], own, _ => by simp
  | name :: rest, own, h => by
    have hnew : name ∉ own := fun hmem => (List.nodup_append.1 h).2.2 name hmem name List.mem_cons_self rfl
    rw [List.foldl_cons, define]
    by_cases hproto : name = "__proto__"
    · have hrest : (own ++ rest).Nodup := h.sublist (List.Sublist.append_left (List.sublist_cons_self name rest) own)
      rw [if_pos (.inl hproto), foldl_define hrest, List.filter_cons_of_neg (by simpa using hproto)]
    · have hrest : (own ++ [name] ++ rest).Nodup := by rwa [List.append_assoc]
      rw [if_neg (by simp [hproto, hnew]), foldl_define hrest, List.filter_cons_of_pos (by simpa using hproto),
        List.append_assoc]
      rfl

/-! ## Members -/

variable (names : List String)

theorem read_blanks : ∀ {cs : List Char}, cs.all isBlank = true → readBy step ⟨.gap, names⟩ cs = some ⟨.gap, names⟩
  | [], _ => rfl
  | c :: rest, h => by
    rw [List.all_cons, Bool.and_eq_true] at h
    have hstep : step ⟨.gap, names⟩ c = some ⟨.gap, names⟩ := by simp [step, h.1]
    rw [readBy_cons hstep]
    exact read_blanks h.2

theorem read_continue {name : List Char} : ∀ {cs : List Char}, cs.all Name.isContinue = true →
    readBy step ⟨.bare name, names⟩ cs = some ⟨.bare (name ++ cs), names⟩
  | [], _ => by rw [List.append_nil]; rfl
  | c :: rest, h => by
    rw [List.all_cons, Bool.and_eq_true] at h
    have hstep : step ⟨.bare name, names⟩ c = some ⟨.bare (name ++ [c]), names⟩ := by simp [step, h.1]
    rw [readBy_cons hstep, List.append_cons name c rest]
    exact read_continue h.2

/-- **A bare name and a colon.** -/
theorem read_bare {key : String} (h : Name.isIdentifier key = true) :
    readBy step ⟨.gap, names⟩ (key.toList ++ [':']) = some ⟨.value {}, names ++ [key]⟩ := by
  unfold Name.isIdentifier at h
  split at h
  · cases h
  · rename_i c cs hkey
    obtain ⟨hstart, hcontinue⟩ := Bool.and_eq_true_iff.1 h
    have hother : ∀ d, Name.isStart d = false → c ≠ d := by
      rintro d hd rfl
      rw [hstart] at hd
      cases hd
    have hfirst : step ⟨.gap, names⟩ c = some ⟨.bare [c], names⟩ := by
      simp [step, isBlank, Lexer.isBreak, hother ' ' rfl, hother '\t' rfl, hother '\n' rfl, hother '\r' rfl,
        hother '/' rfl, hother '"' rfl, hother '\x7d' rfl, hstart]
    have hcolon : readBy step ⟨.bare ([c] ++ cs), names⟩ [':'] =
        some ⟨.value {}, names ++ [String.ofList ([c] ++ cs)]⟩ := rfl
    have hname : String.ofList ([c] ++ cs) = key := by rw [List.singleton_append, ← hkey, String.ofList_toList]
    rw [hname] at hcolon
    rw [hkey, List.cons_append, readBy_cons hfirst, readBy_append (read_continue names hcontinue), hcolon]

theorem read_literalBody {body cs : List Char} (h : Lexer.LiteralBody cs) :
    readBy step ⟨.quoted body, names⟩ cs = some ⟨.quoted (body ++ cs), names⟩ := by
  induction h generalizing body with
  | nil => rw [List.append_nil]; rfl
  | @literal c rest hc _ ih =>
    simp only [Lexer.isLiteral, Bool.and_eq_true, bne_iff_ne] at hc
    have hstep : step ⟨.quoted body, names⟩ c = some ⟨.quoted (body ++ [c]), names⟩ := by
      simp [step, hc.1.1, hc.1.2]
    rw [readBy_cons hstep, List.append_cons body c rest]
    exact ih
  | @escape c rest _ _ ih =>
    rw [List.append_cons body, List.append_cons _ c rest]
    exact ih

/-- **A quoted name and a colon.** -/
theorem read_quoted (key : String) :
    readBy step ⟨.gap, names⟩ ((Text.quote key).toList ++ [':']) = some ⟨.value {}, names ++ [key]⟩ := by
  have hopens : readBy step ⟨.gap, names⟩ ['"'] = some ⟨.quoted [], names⟩ := rfl
  have hbody : readBy step ⟨.quoted [], names⟩ (Text.escape key.toList) =
      some ⟨.quoted (Text.escape key.toList), names⟩ :=
    read_literalBody names (.flatMap Lexer.literalBody_escapeChar key.toList)
  have hcloses : readBy step ⟨.quoted (Text.escape key.toList), names⟩ ['"', ':'] =
      some ⟨.value {}, names ++ [key]⟩ := by
    have hname : step ⟨.quoted (Text.escape key.toList), names⟩ '"' = some ⟨.named key.toList, names⟩ := by
      simp [step, Text.unescape?_escape]
    have hcolon : readBy step ⟨.named key.toList, names⟩ [':'] =
        some ⟨.value {}, names ++ [String.ofList key.toList]⟩ := rfl
    rw [readBy_cons hname, hcolon, String.ofList_toList]
  rw [Lexer.toList_quote]
  show readBy step _ (['"'] ++ (Text.escape key.toList ++ ['"']) ++ [':']) = _
  rw [List.append_assoc, List.append_assoc, readBy_append hopens, readBy_append hbody]
  exact hcloses

/-- **A value that no comma divides is passed over.** -/
theorem read_value {text : String} (h : Lexer.isSure true text = true) :
    readBy step ⟨.value {}, names⟩ text.toList = some ⟨.value {}, names⟩ := by
  have hstep : ∀ {s t : Lexer.State} {c : Char}, Lexer.sureStep true s c = some t →
      step ⟨.value s, names⟩ c = some ⟨.value t, names⟩ := by
    intro s t c hs
    -- What would end the value is refused by the lexer as well.
    have hcomma : ¬ (s = {} ∧ c = ',') := by
      rintro ⟨rfl, rfl⟩
      cases hs
    have hbrace : ¬ (s = {} ∧ c = '\x7d') := by
      rintro ⟨rfl, rfl⟩
      cases hs
    simp only [step, if_neg hcomma, if_neg hbrace, hs, Option.map_some]
  exact readBy_of_step (fun s => State.mk (.value s) names) hstep (Lexer.isSure_iff.1 h)

end ObjectLiteral
end Valgen
