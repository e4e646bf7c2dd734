import Mathlib.Data.List.TakeWhile
import Mathlib.Tactic.SplitIfs
import Valgen.Schema.Source
/-!
# Proofs.Text.Offsets — lines, columns and bytes

The line and the column of a byte are counted over the bytes before it: one line for each line feed, one column for each
byte behind the last of them (`Source.lineAt`, `Source.columnAt`).  `offsetOf?` adds up the sizes of the lines instead.
It leads from the line and the column of a byte back to the byte (`Source.offset_exact`), also where a character has
several bytes, because none of these is a line feed (`Source.feed_not_mem_utf8EncodeChar`).
-/
namespace Valgen
namespace Source

def bytes (text : String) : List UInt8 := text.toByteArray.data.toList

def feed : UInt8 := 10

/-- **How many bytes stand behind the last line feed.** -/
def lastLine (bs : List UInt8) : Nat := (bs.reverse.takeWhile (fun b => b != feed)).length

/-- **The line of a byte**, from one. -/
def lineAt (text : String) (p : Nat) : Nat := 1 + ((bytes text).take p).count feed

/-- **The column of a byte**, from one and in bytes. -/
def columnAt (text : String) (p : Nat) : Nat := 1 + lastLine ((bytes text).take p)

/-! ## Bytes of characters -/

theorem bytes_eq_flatMap (text : String) : bytes text = text.toList.flatMap String.utf8EncodeChar := by
  have hencode : text.toByteArray = text.toList.utf8Encode := by
    rw [← String.toByteArray_ofList, String.ofList_toList]
  rw [bytes, hencode, List.utf8Encode, List.toList_data_toByteArray]

theorem utf8EncodeChar_feed : String.utf8EncodeChar '\n' = [feed] := by decide

/-- **No other character has the byte of a line feed in it.** -/
theorem feed_not_mem_utf8EncodeChar {c : Char} (h : c ≠ '\n') : feed ∉ String.utf8EncodeChar c := by
  have hbyte : ∀ {n : Nat}, n < 256 → n ≠ 10 → feed ≠ UInt8.ofNat n := by
    intro n hn hne heq
    have := congrArg UInt8.toNat heq
    rw [UInt8.toNat_ofNat', Nat.mod_eq_of_lt hn] at this
    exact hne this.symm
  have hcode : c.val.toNat ≠ 10 := fun heq => h (Char.toNat_inj.1 heq)
  simp only [String.utf8EncodeChar]
  split_ifs
  · simpa using hbyte (by omega) hcode
  -- Where a character has several bytes, each of them is at least 128.
  all_goals
    simp only [List.mem_cons, List.not_mem_nil, or_false, not_or]
    repeat' apply And.intro
    all_goals exact hbyte (by omega) (by omega)

/-! ## Sizes of lines -/

/-- **The sizes of lines with bytes put before the first of them.** -/
def prolong (size : Nat) : List Nat → List Nat
  | [] => [size]
  | first :: more => (size + first) :: more

/-- **The sizes of the lines of bytes**, line feeds included. -/
def byteLines : List UInt8 → List Nat
  | [] => []
  | b :: bs => if b = feed then 1 :: byteLines bs else prolong 1 (byteLines bs)

theorem prolong_prolong (m n : Nat) (sizes : List Nat) : prolong m (prolong n sizes) = prolong (m + n) sizes := by
  cases sizes with
  | nil => rfl
  | cons first more => simp only [prolong, Nat.add_assoc]

theorem byteLines_append {bs : List UInt8} (hne : bs ≠ []) (h : feed ∉ bs) (rest : List UInt8) :
    byteLines (bs ++ rest) = prolong bs.length (byteLines rest) := by
  induction bs with
  | nil => exact absurd rfl hne
  | cons b bs ih =>
    obtain ⟨hb, hbs⟩ := List.ne_and_not_mem_of_not_mem_cons h
    rw [List.cons_append, byteLines, if_neg hb.symm]
    cases bs with
    | nil => rfl
    | cons _ _ =>
      rw [ih (List.cons_ne_nil _ _) hbs, prolong_prolong, Nat.add_comm]
      rfl

theorem lineSizes_cons {c : Char} (h : c ≠ '\n') (rest : List Char) :
    lineSizes (c :: rest) = prolong c.utf8Size (lineSizes rest) := by
  rw [lineSizes, if_neg h]
  cases lineSizes rest <;> rfl

/-- **The lines of a text have the sizes of the lines of its bytes.** -/
theorem lineSizes_eq_byteLines (cs : List Char) : lineSizes cs = byteLines (cs.flatMap String.utf8EncodeChar) := by
  induction cs with
  | nil => rfl
  | cons c rest ih =>
    rw [List.flatMap_cons]
    by_cases hc : c = '\n'
    · rw [hc, utf8EncodeChar_feed, List.singleton_append, byteLines, if_pos rfl, ← ih, lineSizes, if_pos rfl]
    · have hne : String.utf8EncodeChar c ≠ [] := by
        rw [← List.length_pos_iff, String.length_utf8EncodeChar]
        exact c.utf8Size_pos
      rw [byteLines_append hne (feed_not_mem_utf8EncodeChar hc), String.length_utf8EncodeChar, ← ih,
        lineSizes_cons hc]

/-! ## From lines and columns back to bytes -/

def total (sizes : List Nat) : Nat := sizes.foldr (fun size total => size + total) 0

theorem total_take_prolong (size count : Nat) (sizes : List Nat) :
    total ((prolong size sizes).take (count + 1)) = size + total (sizes.take (count + 1)) := by
  cases sizes with
  | nil => simp [prolong, total]
  | cons first more => exact Nat.add_assoc _ _ _

theorem lastLine_of_not_mem {bs : List UInt8} (h : feed ∉ bs) : lastLine bs = bs.length := by
  rw [lastLine, List.takeWhile_eq_self_iff.2, List.length_reverse]
  intro b hb
  exact bne_iff_ne.2 (fun heq => h (heq ▸ List.mem_reverse.1 hb))

theorem lastLine_feed (bs : List UInt8) : lastLine (feed :: bs) = lastLine bs := by
  rw [lastLine, List.reverse_cons, List.takeWhile_append]
  split_ifs with hall
  · simp [lastLine, hall]
  · rfl

theorem lastLine_cons_of_mem {b : UInt8} {bs : List UInt8} (h : feed ∈ bs) : lastLine (b :: bs) = lastLine bs := by
  rw [lastLine, List.reverse_cons, List.takeWhile_append, if_neg, lastLine]
  intro hall
  have hself := (List.takeWhile_prefix (l := bs.reverse) (p := fun b => b != feed)).eq_of_length hall
  have hfeed := List.takeWhile_eq_self_iff.1 hself feed (List.mem_reverse.2 h)
  exact absurd hfeed (by decide)

/-- **The lines that end before a byte, and the bytes between them and it, are all bytes before it.** -/
theorem total_take_add_lastLine {bs : List UInt8} {p : Nat} (h : p ≤ bs.length) :
    total ((byteLines bs).take ((bs.take p).count feed)) + lastLine (bs.take p) = p := by
  induction bs generalizing p with
  | nil =>
    obtain rfl := Nat.le_zero.1 h
    rfl
  | cons b bs ih =>
    obtain _ | q := p
    · rfl
    · have hq : q ≤ bs.length := Nat.le_of_succ_le_succ h
      have hrest := ih hq
      rw [List.take_succ_cons, byteLines]
      by_cases hb : b = feed
      · rw [hb, if_pos rfl, List.count_cons_self, List.take_succ_cons, lastLine_feed]
        show 1 + total _ + _ = _
        omega
      · rw [if_neg hb, List.count_cons_of_ne hb]
        -- The byte belongs to the last line only if no line feed follows before `q`.
        by_cases hmem : feed ∈ bs.take q
        · obtain ⟨n, hn⟩ := Nat.exists_eq_add_one.2 (List.count_pos_iff.2 hmem)
          rw [hn] at hrest ⊢
          rw [total_take_prolong, lastLine_cons_of_mem hmem]
          omega
        · have hnone : feed ∉ b :: bs.take q := List.not_mem_cons_of_ne_of_not_mem (Ne.symm hb) hmem
          rw [List.count_eq_zero_of_not_mem hmem, List.take_zero, lastLine_of_not_mem hnone, List.length_cons,
            List.length_take_of_le hq]
          exact Nat.zero_add _

theorem offsetOf?_of_ne_zero (text : String) {line : Nat} (hline : line ≠ 0) (column : Nat) :
    offsetOf? text line column =
      if total ((byteLines (bytes text)).take (line - 1)) + (column - 1) ≤ text.utf8ByteSize then
        some (total ((byteLines (bytes text)).take (line - 1)) + (column - 1))
      else none := by
  rw [offsetOf?, if_neg hline, lineSizes_eq_byteLines, ← bytes_eq_flatMap]
  rfl

/-- **Lines and columns lead back to the byte.**  For every byte of a text, and for its end, the offset of its line and
its column is the byte; and no line and column have an offset behind the end of the text. -/
theorem offset_exact (text : String) :
    (∀ p ≤ text.utf8ByteSize, offsetOf? text (lineAt text p) (columnAt text p) = some p) ∧
      ∀ line column offset, offsetOf? text line column = some offset → offset ≤ text.utf8ByteSize := by
  refine ⟨fun p hp => ?_, fun line column offset h => ?_⟩
  · have hline : lineAt text p ≠ 0 := Nat.pos_iff_ne_zero.1 (Nat.add_pos_left Nat.one_pos _)
    have hplace : total ((byteLines (bytes text)).take (lineAt text p - 1)) + (columnAt text p - 1) = p := by
      rw [lineAt, columnAt, Nat.add_sub_cancel_left, Nat.add_sub_cancel_left]
      exact total_take_add_lastLine hp
    rw [offsetOf?_of_ne_zero text hline, hplace, if_pos hp]
  · by_cases hline : line = 0
    · rw [offsetOf?, if_pos hline] at h
      cases h
    · rw [offsetOf?_of_ne_zero text hline] at h
      split_ifs at h with hle
      cases h
      exact hle

/-- **The second byte of a character** behind an empty line. -/
theorem offset_exact_second_byte :
    let text := "a\n\n€b"
    4 ≤ text.utf8ByteSize ∧ lineAt text 4 = 3 ∧ columnAt text 4 = 2 ∧ offsetOf? text 3 2 = some 4 ∧
      4 ≤ text.utf8ByteSize := by
  intro text
  have hplace := (offset_exact text).1 4 (by decide)
  exact ⟨by decide, by decide, by decide, hplace, (offset_exact text).2 _ _ _ hplace⟩

end Source
end Valgen
