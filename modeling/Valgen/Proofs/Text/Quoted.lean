import Valgen.Proofs.Text.Lexer
import Valgen.Proofs.Text.Literals
/-!
# Proofs.Text.Quoted — a string as one literal

What `quote` writes is one literal: it has only characters that may stand in one as they are (`isRaw_of_mem_quote`),
and the first quote behind the opening one that no backslash escapes is its last character
(`escapesNext_eq_false_iff`).  Read by the rules for escapes it stands for the string (`unquote?_quote`), so that no two
strings have the same literal.
-/
namespace Valgen
namespace Text

open Lexer (LiteralBody isLiteral toList_quote)

/-- **A character that may stand in a literal as it is**: no control character and no line separator. -/
def IsRaw (c : Char) : Prop := 0x20 ≤ c.toNat ∧ c.toNat ≠ 0x2028 ∧ c.toNat ≠ 0x2029

instance : DecidablePred IsRaw := fun _ => inferInstanceAs (Decidable (_ ∧ _))

/-- **Whether a text escapes the character behind it**: it ends in a backslash that is not escaped itself. -/
def escapesNext (cs : List Char) : Bool := cs.foldl (fun escaped c => c == '\\' && !escaped) false

/-- **The string that a literal in double quotes stands for**, if the text is one. -/
def unquote? (text : String) : Option String :=
  match text.toList with
  | '"' :: rest => if rest.getLast? = some '"' then (unescape? rest.dropLast).map String.ofList else none
  | _ => none

example : unquote? "\"a\\\\\\u0022\"" = some "a\\\"" := by decide
example : unquote? "\"a\\\"" = none ∧ unquote? "\"a\"b\"" = none := by decide

/-! ## Characters -/

theorem isRaw_of_mem_hex4 {n : Nat} (h : n < 0x20 ∨ n = 0x2028 ∨ n = 0x2029) {d : Char} (hd : d ∈ hex4 n) :
    IsRaw d := by
  have hsmall : ∀ m < 0x20, (hex4 m).all (fun d => decide (IsRaw d)) = true := by decide
  have hall : (hex4 n).all (fun d => decide (IsRaw d)) = true := by
    rcases h with h | rfl | rfl
    · exact hsmall n h
    · decide
    · decide
  exact of_decide_eq_true (List.all_eq_true.1 hall d hd)

theorem isRaw_of_mem_escapeChar {c d : Char} (hd : d ∈ escapeChar c) : IsRaw d := by
  have hletter : ∀ {e : Char}, IsRaw e → d ∈ ['\\', e] → IsRaw d := by
    intro e he hd
    rcases List.mem_cons.1 hd with rfl | hd
    · decide
    · exact List.mem_singleton.1 hd ▸ he
  unfold escapeChar at hd
  split_ifs at hd with _ _ _ _ _ hother
  · exact hletter (by decide) hd
  · exact hletter (by decide) hd
  · exact hletter (by decide) hd
  · exact hletter (by decide) hd
  · exact hletter (by decide) hd
  · rcases List.mem_cons.1 hd with rfl | hd
    · decide
    · rcases List.mem_cons.1 hd with rfl | hd
      · decide
      · exact isRaw_of_mem_hex4 hother hd
  · obtain rfl := List.mem_singleton.1 hd
    obtain ⟨hcontrol, hseparators⟩ := not_or.1 hother
    exact ⟨Nat.le_of_not_lt hcontrol, not_or.1 hseparators⟩

theorem isRaw_of_mem_quote {s : String} {c : Char} (hc : c ∈ (quote s).toList) : IsRaw c := by
  rw [toList_quote] at hc
  rcases List.mem_cons.1 hc with rfl | hc
  · decide
  · rcases List.mem_append.1 hc with hc | hc
    · obtain ⟨d, _, hc⟩ := List.mem_flatMap.1 hc
      exact isRaw_of_mem_escapeChar hc
    · obtain rfl := List.mem_singleton.1 hc
      decide

/-! ## The end of a literal -/

theorem escapesNext_cons {c : Char} (h : c ≠ '\\') (cs : List Char) : escapesNext (c :: cs) = escapesNext cs := by
  rw [escapesNext, List.foldl_cons, beq_eq_false_iff_ne.2 h, Bool.false_and, escapesNext]

theorem escapesNext_escape (c : Char) (cs : List Char) : escapesNext ('\\' :: c :: cs) = escapesNext cs := by
  simp [escapesNext]

/-- **The quotes behind a body that no backslash escapes**: of those in it and the one behind it, only the last. -/
theorem escapesNext_eq_false_iff {body : List Char} (h : LiteralBody body) {before after : List Char}
    (heq : body ++ ['"'] = before ++ '"' :: after) : escapesNext before = false ↔ after = [] := by
  induction h generalizing before with
  | nil =>
    obtain _ | ⟨c, before⟩ := before
    · exact iff_of_true rfl (List.cons.inj heq).2.symm
    · cases before <;> cases heq
  | @literal c body hc _ ih =>
    obtain ⟨⟨hquote, hslash⟩, _⟩ : (c ≠ '"' ∧ c ≠ '\\') ∧ _ := by simpa [isLiteral] using hc
    obtain _ | ⟨d, before⟩ := before
    · exact absurd (List.cons.inj heq).1 hquote
    · obtain ⟨rfl, hrest⟩ := List.cons.inj heq
      rw [escapesNext_cons hslash, ih hrest]
  | @escape c body _ _ ih =>
    obtain _ | ⟨d, _ | ⟨e, before⟩⟩ := before
    · cases heq
    · -- The quote is the escaped character itself, and the body goes on behind it.
      obtain ⟨rfl, hrest⟩ := List.cons.inj heq
      refine iff_of_false (by decide) (fun hnil => ?_)
      rw [hnil] at hrest
      simpa using congrArg List.length hrest
    · obtain ⟨hslash, htail⟩ := List.cons.inj heq
      obtain ⟨-, hrest⟩ := List.cons.inj htail
      rw [← hslash, escapesNext_escape, ih hrest]

theorem literalBody_escape (cs : List Char) : LiteralBody (escape cs) :=
  .flatMap Lexer.literalBody_escapeChar cs

/-! ## The value of a literal -/

/-- **A literal that was written for a string stands for it.** -/
theorem unquote?_quote (s : String) : unquote? (quote s) = some s := by
  unfold unquote?
  rw [toList_quote]
  show (if (escape s.toList ++ ['"']).getLast? = some '"' then
    (unescape? (escape s.toList ++ ['"']).dropLast).map String.ofList else none) = some s
  rw [if_pos List.getLast?_concat, List.dropLast_concat, unescape?_escape, Option.map_some, String.ofList_toList]

theorem quote_injective : Function.Injective quote := by
  intro s t h
  have hvalue := (unquote?_quote s).symm.trans ((congrArg unquote? h).trans (unquote?_quote t))
  exact Option.some.inj hvalue

/-- **Every string is written as one literal, which stands for it.**  The literal has no control character and no line
separator as it is; of the quotes behind the opening one the last is the only one that is not escaped; what it stands
for is the string.  So different strings have different literals. -/
theorem quote_one_literal :
    (∀ s : String, (∀ c ∈ (quote s).toList, IsRaw c) ∧
      (∃ body, (quote s).toList = '"' :: (body ++ ['"']) ∧
        ∀ before after, body ++ ['"'] = before ++ '"' :: after → (escapesNext before = false ↔ after = [])) ∧
      unquote? (quote s) = some s) ∧
    Function.Injective quote :=
  ⟨fun s => ⟨fun _ => isRaw_of_mem_quote,
    ⟨escape s.toList, toList_quote s, fun _ _ => escapesNext_eq_false_iff (literalBody_escape s.toList)⟩,
    unquote?_quote s⟩, quote_injective⟩

/-- **A string that looks like escapes**: backslashes before a quote and before `u0041`, a control character before a
digit, and a line separator. -/
theorem quote_one_literal_lookalikes :
    let s := "\\\\\"\\u0041\x014\u2028"
    quote s = "\"\\\\\\\\\\\"\\\\u0041\\u00014\\u2028\"" ∧ IsRaw '"' ∧
      (escapesNext "\\\\\\\\\\".toList = false ↔ "\\\\u0041\\u00014\\u2028\"".toList = []) ∧
      unquote? (quote s) = some s := by
  intro s
  have hquote : quote s = "\"\\\\\\\\\\\"\\\\u0041\\u00014\\u2028\"" := by decide
  obtain ⟨hraw, ⟨body, hbody, hend⟩, hvalue⟩ := quote_one_literal.1 s
  have htail : body ++ ['"'] = "\\\\\\\\\\\"\\\\u0041\\u00014\\u2028\"".toList :=
    (List.cons.inj (hbody.symm.trans (congrArg String.toList hquote))).2
  refine ⟨hquote, hraw '"' ?_, hend _ _ (htail.trans (by decide)), hvalue⟩
  rw [hbody]
  exact List.mem_cons_self

end Text
end Valgen
