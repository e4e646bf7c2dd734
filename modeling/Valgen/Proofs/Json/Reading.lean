import Valgen.Proofs.Json.Scalars
/-!
# Proofs.Json.Reading — every text of the grammar is read

The reader gives for a text the value that the text stands for, unless more arrays and objects are nested in it than may
be (`readFirst_of_denotes`).  There is one lemma for each rule of the grammar; they are put together by induction on how
the text is written (`Written.reads`).
-/
namespace Valgen
namespace Json

variable {float : Rounding}

/-! ## Blanks -/

theorem skipBlanks_append {blanks : List Char} (h : Blank blanks) (rest : List Char) (seen : Nat) :
    Cursor.skipBlanks (blanks ++ rest) seen = Cursor.skipBlanks rest (seen + blanks.length) := by
  induction blanks generalizing seen with
  | nil => rfl
  | cons c blanks ih =>
    obtain ⟨hc, hblanks⟩ := List.forall_mem_cons.1 h
    rw [List.cons_append, Cursor.skipBlanks, if_pos (show c = ' ' ∨ _ from hc), ih hblanks, List.length_cons,
      Nat.add_assoc, Nat.add_comm 1]

theorem next_append {blanks : List Char} (h : Blank blanks) (rest : List Char) (seen : Nat) :
    (Cursor.mk (blanks ++ rest) seen).next = (Cursor.mk rest (seen + blanks.length)).next :=
  skipBlanks_append h rest seen

theorem next_cons {c : Char} (h : ¬ IsBlank c) (rest : List Char) (seen : Nat) :
    (Cursor.mk (c :: rest) seen).next = ⟨c :: rest, seen⟩ := by
  show Cursor.skipBlanks (c :: rest) seen = _
  rw [Cursor.skipBlanks, if_neg (show ¬ (c = ' ' ∨ _) from h)]

theorem skipBlanks_next (rest : List Char) (seen : Nat) :
    (Cursor.skipBlanks rest seen).next = Cursor.skipBlanks rest seen := by
  induction rest generalizing seen with
  | nil => rfl
  | cons c rest ih =>
    rw [Cursor.skipBlanks]
    split_ifs with hc
    · exact ih (seen + 1)
    · exact next_cons hc rest seen

theorem next_next (c : Cursor) : c.next.next = c.next := skipBlanks_next c.rest c.seen

theorem readValue_next (fuel depth : Nat) (c : Cursor) :
    readValue float (fuel + 1) depth c.next = readValue float (fuel + 1) depth c := by
  rw [readValue, readValue, next_next]

theorem readItems_next (fuel depth : Nat) (done : List Json) (c : Cursor) :
    readItems float (fuel + 2) depth done c.next = readItems float (fuel + 2) depth done c := by
  rw [readItems, readItems, readValue_next]

theorem readMembers_next (fuel depth : Nat) (done : List (String × Json)) (c : Cursor) :
    readMembers float (fuel + 1) depth done c.next = readMembers float (fuel + 1) depth done c := by
  have hkey : readKey c.next = readKey c := by
    unfold readKey
    rw [next_next]
  rw [readMembers, readMembers, hkey]

/-! ## Where a part begins -/

theorem ne_of_isDigit {c d : Char} (hd : d.isDigit = true) (hc : c.isDigit = false) : d ≠ c := by
  rintro rfl
  cases hc.symm.trans hd

theorem not_isBlank_of_isDigit {d : Char} (hd : d.isDigit = true) : ¬ IsBlank d := by
  rintro (rfl | rfl | rfl | rfl) <;> cases hd

/-- **A text with a character that is not blank**, the first of which closes nothing. -/
def Opens (text : List Char) : Prop :=
  ∃ blanks c more, Blank blanks ∧ text = blanks ++ c :: more ∧ ¬ IsBlank c ∧ c ≠ ']' ∧ c ≠ '\x7d'

namespace Opens

variable {text : List Char}

theorem cons {c : Char} (hc : ¬ IsBlank c ∧ c ≠ ']' ∧ c ≠ '\x7d') (more : List Char) : Opens (c :: more) :=
  ⟨[], c, more, fun _ h => absurd h List.not_mem_nil, rfl, hc⟩

theorem append (h : Opens text) (rest : List Char) : Opens (text ++ rest) := by
  obtain ⟨blanks, c, more, hblanks, rfl, hc⟩ := h
  exact ⟨blanks, c, more ++ rest, hblanks, by rw [List.append_assoc, List.cons_append], hc⟩

theorem behind {before : List Char} (hbefore : Blank before) (h : Opens text) : Opens (before ++ text) := by
  obtain ⟨blanks, c, more, hblanks, rfl, hc⟩ := h
  exact ⟨before ++ blanks, c, more, List.forall_mem_append.2 ⟨hbefore, hblanks⟩, (List.append_assoc _ _ _).symm, hc⟩

theorem numeral (n : Numeral) : Opens n.text := by
  obtain ⟨d, more, hchars, hd⟩ := n.whole.exists_cons
  rw [Numeral.text]
  split_ifs
  · exact cons (by decide) _
  · rw [Numeral.unsigned, hchars, List.cons_append]
    exact cons ⟨not_isBlank_of_isDigit hd, ne_of_isDigit hd rfl, ne_of_isDigit hd rfl⟩ _

end Opens

theorem Key.opens {key : String} {text : List Char} (h : Key key text) : Opens text := by
  cases h with
  | mk hbefore _ _ => exact .behind hbefore (.cons (by decide) _)

theorem Written.opens {part : Part} {text : List Char} (h : Written float part text) : Opens text := by
  induction h with
  | null => exact .cons (by decide) _
  | truth value => cases value <;> exact .cons (by decide) _
  | number n _ => exact .numeral n
  | string _ => exact .cons (by decide) _
  | emptyArray _ => exact .cons (by decide) _
  | array _ _ => exact .cons (by decide) _
  | emptyObject _ => exact .cons (by decide) _
  | object _ _ => exact .cons (by decide) _
  | element hbefore _ _ ih => exact .behind hbefore (ih.append _)
  | lastItem _ ih => exact ih
  | item _ _ ih _ => exact ih.append _
  | lastMember hkey _ _ => exact hkey.opens.append _
  | member hkey _ _ _ _ => exact hkey.opens.append _

/-- **The next character of a text that opens closes nothing.** -/
theorem Opens.next {text : List Char} (h : Opens text) (seen : Nat) : ∃ c more seen',
    (Cursor.mk text seen).next = ⟨c :: more, seen'⟩ ∧ c ≠ ']' ∧ c ≠ '\x7d' := by
  obtain ⟨blanks, c, more, hblanks, rfl, hc, hbracket, hbrace⟩ := h
  exact ⟨c, more, _, (next_append hblanks _ seen).trans (next_cons hc more _), hbracket, hbrace⟩

/-! ## Values -/

/-- **A part is read, whatever stands before and behind it.**  Two calls for each character are enough: one for the
value that begins there, and one for the list that it is an item of. -/
def Reads (float : Rounding) : Part → List Char → Prop
  | .value value, text => ∀ fuel depth rest seen, 2 * text.length ≤ fuel → depth + value.nesting ≤ nestingLimit →
    ends rest = true → ∃ seen', readValue float fuel depth ⟨text ++ rest, seen⟩ = .ok (value, ⟨rest, seen'⟩)
  | .element value, text => ∀ fuel depth rest seen, 2 * text.length ≤ fuel → depth + value.nesting ≤ nestingLimit →
    ends rest = true → ∃ blanks seen', Blank blanks ∧
      readValue float fuel depth ⟨text ++ rest, seen⟩ = .ok (value, ⟨blanks ++ rest, seen'⟩)
  | .items items, text => ∀ fuel depth done rest seen, 2 * text.length + 2 ≤ fuel →
    depth + itemsNesting items ≤ nestingLimit → ∃ seen', readItems float fuel depth done ⟨text ++ ']' :: rest, seen⟩ =
      .ok (.array (done.reverse ++ items), ⟨rest, seen'⟩)
  | .members members, text => ∀ fuel depth done rest seen, 2 * text.length + 2 ≤ fuel →
    depth + membersNesting members ≤ nestingLimit → ∃ seen',
      readMembers float fuel depth done ⟨text ++ '\x7d' :: rest, seen⟩ =
        .ok (.object (done.reverse ++ members), ⟨rest, seen'⟩)

/-- **A value that is not empty needs one call**, and leaves the others to its parts. -/
theorem reads_cons {value : Json} {c : Char} {text : List Char}
    (h : ∀ fuel depth rest seen, 2 * text.length + 1 ≤ fuel → depth + value.nesting ≤ nestingLimit → ends rest = true →
      ∃ seen', readValue float (fuel + 1) depth ⟨c :: (text ++ rest), seen⟩ = .ok (value, ⟨rest, seen'⟩)) :
    Reads float (.value value) (c :: text) := by
  intro fuel depth rest seen hfuel hdepth hrest
  rw [List.length_cons] at hfuel
  obtain _ | fuel := fuel
  · cases hfuel
  · exact h fuel depth rest seen (by omega) hdepth hrest

theorem reads_null : Reads float (.value .null) "null".toList := by
  refine reads_cons (fun fuel depth rest seen _ _ _ => ⟨seen + 4, ?_⟩)
  rw [readValue, next_cons (by decide)]
  rfl

theorem reads_truth (value : Bool) : Reads float (.value (.bool value)) (if value then "true" else "false").toList := by
  cases value with
  | true =>
    refine reads_cons (fun fuel depth rest seen _ _ _ => ⟨seen + 4, ?_⟩)
    rw [readValue, next_cons (by decide)]
    rfl
  | false =>
    refine reads_cons (fun fuel depth rest seen _ _ _ => ⟨seen + 5, ?_⟩)
    rw [readValue, next_cons (by decide)]
    rfl

theorem readValue_digit {d : Char} (hd : d.isDigit = true) (fuel depth : Nat) (rest : List Char) (seen : Nat) :
    readValue float (fuel + 1) depth ⟨d :: rest, seen⟩ = readNumber float false ⟨d :: rest, seen⟩ := by
  rw [readValue, next_cons (not_isBlank_of_isDigit hd)]
  simp only [ne_of_isDigit (c := 'n') hd rfl, ne_of_isDigit (c := 't') hd rfl, ne_of_isDigit (c := 'f') hd rfl,
    ne_of_isDigit (c := '-') hd rfl, hd, if_true, if_false]

theorem reads_number (n : Numeral) {number : Number} (h : n.value? float = some number) :
    Reads float (.value (.number number)) n.text := by
  have hread : ∀ {rest}, ends rest = true → ∀ seen, _ := fun hrest seen => readNumber_text n h hrest seen
  rw [Numeral.text]
  split_ifs with hnegative
  · rw [hnegative] at hread
    refine reads_cons (fun fuel depth rest seen _ _ hrest => ?_)
    rw [readValue, next_cons (by decide)]
    exact hread hrest (seen + 1)
  · obtain ⟨d, more, hchars, hd⟩ := n.whole.exists_cons
    rw [eq_false_of_ne_true hnegative, Numeral.unsigned, hchars, List.cons_append] at hread
    rw [Numeral.unsigned, hchars, List.cons_append]
    refine reads_cons (fun fuel depth rest seen _ _ hrest => ?_)
    rw [readValue_digit hd]
    exact hread hrest seen

theorem reads_string {text value : List Char} (h : Body text value) :
    Reads float (.value (.string (String.ofList value))) ('"' :: (text ++ ['"'])) := by
  refine reads_cons (fun fuel depth rest seen _ _ _ => ?_)
  obtain ⟨seen', hread⟩ := readBody_text h [] rest (seen + 1)
  refine ⟨seen', ?_⟩
  rw [readValue, next_cons (by decide), List.append_assoc]
  simp [hread, Except.map]

theorem reads_emptyArray {blanks : List Char} (h : Blank blanks) :
    Reads float (.value (.array [])) ('[' :: (blanks ++ [']'])) := by
  refine reads_cons (fun fuel depth rest seen _ hdepth _ => ⟨seen + 1 + blanks.length + 1, ?_⟩)
  have hlimit : ¬ nestingLimit ≤ depth := by
    simp only [nesting, itemsNesting] at hdepth
    omega
  rw [readValue, next_cons (by decide), List.append_assoc]
  simp [hlimit, next_append h, next_cons (c := ']') (by decide)]

theorem reads_array {text : List Char} {items : List Json} (htext : Written float (.items items) text)
    (h : Reads float (.items items) text) : Reads float (.value (.array items)) ('[' :: (text ++ [']'])) := by
  refine reads_cons (fun fuel depth rest seen hfuel hdepth _ => ?_)
  rw [nesting] at hdepth
  have hlimit : ¬ nestingLimit ≤ depth := by omega
  -- The items do not begin with the bracket that would close the array at once.
  obtain ⟨c, more, behind, hnext, hbracket, _⟩ := (htext.opens.append (']' :: rest)).next (seen + 1)
  rw [List.length_append, List.length_singleton] at hfuel
  obtain _ | _ | fuel := fuel
  · cases hfuel
  · omega
  · obtain ⟨seen', hread⟩ := h (fuel + 2) (depth + 1) [] rest (seen + 1) (by omega) (by omega)
    rw [← readItems_next, hnext] at hread
    refine ⟨seen', ?_⟩
    rw [readValue, next_cons (by decide), List.append_assoc, List.singleton_append]
    simp only [hlimit, hnext, Char.reduceEq, if_false, if_true]
    rw [if_neg (by decide)]
    split
    · rename_i heq
      exact absurd (List.cons.inj heq).1 hbracket
    · exact hread

theorem reads_emptyObject {blanks : List Char} (h : Blank blanks) :
    Reads float (.value (.object [])) ('\x7b' :: (blanks ++ ['\x7d'])) := by
  refine reads_cons (fun fuel depth rest seen _ hdepth _ => ⟨seen + 1 + blanks.length + 1, ?_⟩)
  have hlimit : ¬ nestingLimit ≤ depth := by
    simp only [nesting, membersNesting] at hdepth
    omega
  rw [readValue, next_cons (by decide), List.append_assoc]
  simp [hlimit, next_append h, next_cons (c := '\x7d') (by decide)]

theorem reads_object {text : List Char} {members : List (String × Json)} (htext : Written float (.members members) text)
    (h : Reads float (.members members) text) :
      Reads float (.value (.object members)) ('\x7b' :: (text ++ ['\x7d'])) := by
  refine reads_cons (fun fuel depth rest seen hfuel hdepth _ => ?_)
  rw [nesting] at hdepth
  have hlimit : ¬ nestingLimit ≤ depth := by omega
  obtain ⟨c, more, behind, hnext, _, hbrace⟩ := (htext.opens.append ('\x7d' :: rest)).next (seen + 1)
  rw [List.length_append, List.length_singleton] at hfuel
  obtain _ | fuel := fuel
  · cases hfuel
  · obtain ⟨seen', hread⟩ := h (fuel + 1) (depth + 1) [] rest (seen + 1) (by omega) (by omega)
    rw [← readMembers_next, hnext] at hread
    refine ⟨seen', ?_⟩
    rw [readValue, next_cons (by decide), List.append_assoc, List.singleton_append]
    simp only [hlimit, hnext, Char.reduceEq, if_false, if_true]
    rw [if_neg (by decide)]
    split
    · rename_i heq
      exact absurd (List.cons.inj heq).1 hbrace
    · exact hread

theorem reads_element {before text after : List Char} {value : Json} (hbefore : Blank before)
    (h : Reads float (.value value) text) (hafter : Blank after) :
      Reads float (.element value) (before ++ (text ++ after)) := by
  intro fuel depth rest seen hfuel hdepth hrest
  simp only [List.length_append] at hfuel
  obtain ⟨seen', hread⟩ :=
    h fuel depth (after ++ rest) (seen + before.length) (by omega) hdepth (ends_append hafter hrest)
  refine ⟨after, seen', hafter, ?_⟩
  obtain _ | fuel := fuel
  · rw [readValue] at hread
    cases hread
  · rw [← hread, ← readValue_next, List.append_assoc, next_append hbefore, readValue_next, List.append_assoc]

theorem reads_lastItem {text : List Char} {item : Json} (h : Reads float (.element item) text) :
    Reads float (.items [item]) text := by
  intro fuel depth done rest seen hfuel hdepth
  rw [itemsNesting, itemsNesting, Nat.max_zero] at hdepth
  obtain _ | fuel := fuel
  · cases hfuel
  · obtain ⟨blanks, between, hblanks, hread⟩ := h fuel depth (']' :: rest) seen (by omega) hdepth rfl
    refine ⟨between + blanks.length + 1, ?_⟩
    rw [readItems, hread]
    simp [next_append hblanks, next_cons (c := ']') (by decide)]

theorem reads_item {text more : List Char} {item : Json} {rest : List Json} (h : Reads float (.element item) text)
    (hmore : Reads float (.items rest) more) : Reads float (.items (item :: rest)) (text ++ ',' :: more) := by
  intro fuel depth done behind seen hfuel hdepth
  rw [itemsNesting] at hdepth
  rw [List.length_append, List.length_cons] at hfuel
  obtain _ | fuel := fuel
  · cases hfuel
  · obtain ⟨blanks, between, hblanks, hread⟩ :=
      h fuel depth (',' :: (more ++ ']' :: behind)) seen (by omega) (by omega) rfl
    obtain ⟨seen', hrest⟩ := hmore fuel depth (item :: done) behind (between + blanks.length + 1) (by omega) (by omega)
    refine ⟨seen', ?_⟩
    rw [List.append_assoc, List.cons_append, readItems, hread]
    simp only [next_append hblanks, next_cons (c := ',') (by decide), hrest]
    simp

theorem readKey_text {key : String} {text : List Char} (h : Key key text) (rest : List Char) (seen : Nat) :
    ∃ seen', readKey ⟨text ++ rest, seen⟩ = .ok (key, ⟨rest, seen'⟩) := by
  cases h with
  | @mk before text after value hbefore hbody hafter =>
    obtain ⟨between, hread⟩ := readBody_text hbody [] (after ++ ':' :: rest) (seen + before.length + 1)
    refine ⟨between + after.length + 1, ?_⟩
    simp only [List.append_assoc, List.cons_append, List.nil_append]
    unfold readKey
    rw [next_append hbefore, next_cons (by decide)]
    simp [hread, next_append hafter, next_cons (c := ':') (by decide)]

theorem reads_lastMember {key : String} {keyText text : List Char} {value : Json} (hkey : Key key keyText)
    (h : Reads float (.element value) text) : Reads float (.members [(key, value)]) (keyText ++ text) := by
  intro fuel depth done rest seen hfuel hdepth
  rw [membersNesting, membersNesting, Nat.max_zero] at hdepth
  rw [List.length_append] at hfuel
  obtain _ | fuel := fuel
  · cases hfuel
  · obtain ⟨colon, hreadKey⟩ := readKey_text hkey (text ++ '\x7d' :: rest) seen
    obtain ⟨blanks, between, hblanks, hread⟩ := h fuel depth ('\x7d' :: rest) colon (by omega) hdepth rfl
    refine ⟨between + blanks.length + 1, ?_⟩
    rw [List.append_assoc, readMembers, hreadKey]
    simp [hread, next_append hblanks, next_cons (c := '\x7d') (by decide)]

theorem reads_member {key : String} {keyText text more : List Char} {value : Json} {rest : List (String × Json)}
    (hkey : Key key keyText) (h : Reads float (.element value) text) (hmore : Reads float (.members rest) more) :
    Reads float (.members ((key, value) :: rest)) (keyText ++ (text ++ ',' :: more)) := by
  intro fuel depth done behind seen hfuel hdepth
  rw [membersNesting] at hdepth
  rw [List.length_append, List.length_append, List.length_cons] at hfuel
  obtain _ | fuel := fuel
  · cases hfuel
  · obtain ⟨colon, hreadKey⟩ := readKey_text hkey (text ++ ',' :: (more ++ '\x7d' :: behind)) seen
    obtain ⟨blanks, between, hblanks, hread⟩ :=
      h fuel depth (',' :: (more ++ '\x7d' :: behind)) colon (by omega) (by omega) rfl
    obtain ⟨seen', hrest⟩ :=
      hmore fuel depth ((key, value) :: done) behind (between + blanks.length + 1) (by omega) (by omega)
    refine ⟨seen', ?_⟩
    rw [List.append_assoc, List.append_assoc, List.cons_append, readMembers, hreadKey]
    simp only [hread, next_append hblanks, next_cons (c := ',') (by decide), hrest]
    simp

/-- **Every part of a text is read.** -/
theorem Written.reads {part : Part} {text : List Char} (h : Written float part text) : Reads float part text := by
  induction h with
  | null => exact reads_null
  | truth value => exact reads_truth value
  | number n hvalue => exact reads_number n hvalue
  | string hbody => exact reads_string hbody
  | emptyArray hblanks => exact reads_emptyArray hblanks
  | array hitems ih => exact reads_array hitems ih
  | emptyObject hblanks => exact reads_emptyObject hblanks
  | object hmembers ih => exact reads_object hmembers ih
  | element hbefore _ hafter ih => exact reads_element hbefore ih hafter
  | lastItem _ ih => exact reads_lastItem ih
  | item _ _ ih ihRest => exact reads_item ih ihRest
  | lastMember hkey _ ih => exact reads_lastMember hkey ih
  | member hkey _ _ ih ihRest => exact reads_member hkey ih ihRest

/-- **A text is read as the value that it stands for**, unless too much is nested in it; nothing but blanks is left. -/
theorem readFirst_of_denotes {text : String} {value : Json} (h : Denotes float text value)
    (hnesting : value.nesting ≤ nestingLimit) : ∃ c, readFirst float text = .ok (value, c) ∧ readEnd c = .ok () := by
  have hlength : text.toList.length = text.length := String.length_toList
  obtain ⟨blanks, seen', hblanks, hread⟩ :=
    h.reads (2 * text.length + 2) 0 [] 0 (by omega) (by rwa [Nat.zero_add]) rfl
  rw [List.append_nil] at hread
  refine ⟨_, hread, ?_⟩
  rw [readEnd, next_append hblanks]
  rfl

end Json
end Valgen
