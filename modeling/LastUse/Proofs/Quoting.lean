import Mathlib.Data.Set.Operations
import LastUse.Export.Dot

/-!
# Quoted labels

A label in the DOT language stands between quotation marks, and a backslash in it escapes the
character that follows. Inside the marks a character of a label is either escaped, or it is one
that needs no escape (`dotChar_cases`). So whatever the label is, the text ends where its closing
mark stands, and the label can be read off it, up to line breaks (`labels_confined`).
-/

namespace LastUse

/-! ## Reading quoted labels -/

/-- The number of characters before the mark that closes a quoted text, behind its opening mark.
`escaped` tells whether a backslash stands before the text that escapes its first character. -/
def closingMark : (escaped : Bool) → List Char → Option Nat
  | _, [] => none
  | true, _ :: rest => (closingMark false rest).map (· + 1)
  | false, c :: rest =>
    if c = Text.doubleMark then some 0 else (closingMark (c = '\\') rest).map (· + 1)

/-- The text with its escaped backslashes and escaped marks put back. -/
def unescaped : List Char → List Char
  | '\\' :: '\\' :: rest => '\\' :: unescaped rest
  | '\\' :: '\x22' :: rest => Text.doubleMark :: unescaped rest
  | c :: rest => c :: unescaped rest
  | [] => []

/-- A line break as a space, and any other character as it is. -/
def spaced (c : Char) : Char := if c = '\n' || c = '\r' then ' ' else c

/-- The text with each occurrence of a character replaced. -/
def replaced (c : Char) (new : List Char) (text : List Char) : List Char :=
  text.flatMap fun d => if d = c then new else [d]

/-! ## Characters inside the marks -/

/-- A backslash or a mark is escaped. Any other character stands for itself or for a line break,
and is neither a backslash, a mark nor a line break. -/
theorem dotChar_cases (c : Char) :
    ((c = '\\' ∨ c = Text.doubleMark) ∧ dotChar c = ['\\', c] ∧ spaced c = c) ∨
    (dotChar c = [spaced c] ∧ spaced c ≠ '\\' ∧ spaced c ≠ Text.doubleMark ∧ spaced c ≠ '\n' ∧
      spaced c ≠ '\r') := by
  by_cases hback : c = '\\'
  · subst hback
    exact .inl ⟨.inl rfl, rfl, rfl⟩
  by_cases hmark : c = Text.doubleMark
  · subst hmark
    exact .inl ⟨.inr rfl, rfl, rfl⟩
  refine .inr ?_
  by_cases hbreak : (c = '\n' || c = '\r') = true
  · have hspace : spaced c = ' ' := if_pos hbreak
    rw [hspace, dotChar, if_neg hback, if_neg hmark, if_pos hbreak]
    decide
  · have hsame : spaced c = c := if_neg hbreak
    rw [hsame, dotChar, if_neg hback, if_neg hmark, if_neg hbreak]
    rw [Bool.or_eq_true, decide_eq_true_eq, decide_eq_true_eq, not_or] at hbreak
    exact ⟨rfl, hback, hmark, hbreak⟩

/-- No line break stands inside the marks. -/
theorem not_mem_flatMap_dotChar {c : Char} (hc : c = '\n' ∨ c = '\r') (label : List Char) :
    c ∉ label.flatMap dotChar := by
  intro hm
  obtain ⟨d, -, hd⟩ := List.mem_flatMap.1 hm
  rcases dotChar_cases d with ⟨hspecial, hchar, -⟩ | ⟨hchar, -, -, hlf, hcr⟩
  · rw [hchar] at hd
    rcases hspecial with rfl | rfl <;> rcases hc with rfl | rfl <;> revert hd <;> decide
  · rw [hchar, List.mem_singleton] at hd
    rcases hc with rfl | rfl
    · exact hlf hd.symm
    · exact hcr hd.symm

/-- A mark behind a label inside the marks is the first one that is not escaped. -/
theorem closingMark_flatMap_dotChar (label rest : List Char) :
    closingMark false (label.flatMap dotChar ++ Text.doubleMark :: rest)
      = some (label.flatMap dotChar).length := by
  induction label with
  | nil => rfl
  | cons c label ih =>
    rw [List.flatMap_cons, List.append_assoc, List.length_append]
    rcases dotChar_cases c with ⟨-, hchar, -⟩ | ⟨hchar, hback, hmark, -⟩
    · -- The backslash escapes the character behind it, so the scan goes on behind both.
      have hstep :
          closingMark false ('\\' :: c :: (label.flatMap dotChar ++ Text.doubleMark :: rest))
          = (closingMark false (label.flatMap dotChar ++ Text.doubleMark :: rest)).map
            (· + 2) := by
        simp [closingMark, show '\\' ≠ Text.doubleMark by decide, Function.comp_def]
      rw [hchar, List.cons_append, List.cons_append, List.nil_append, hstep, ih]
      simp [Nat.add_comm]
    · have hstep :
          closingMark false (spaced c :: (label.flatMap dotChar ++ Text.doubleMark :: rest))
          = (closingMark false (label.flatMap dotChar ++ Text.doubleMark :: rest)).map
            (· + 1) := by
        simp [closingMark, hmark, hback]
      rw [hchar, List.cons_append, List.nil_append, hstep, ih]
      simp [Nat.add_comm]

/-- Undoing the escapes inside the marks gives the label with its line breaks as spaces. -/
theorem unescaped_flatMap_dotChar (label : List Char) :
    unescaped (label.flatMap dotChar) = label.map spaced := by
  induction label with
  | nil => rfl
  | cons c label ih =>
    rw [List.flatMap_cons, List.map_cons, ← ih]
    rcases dotChar_cases c with ⟨hspecial, hchar, hsame⟩ | ⟨hchar, hback, -⟩
    · rw [hchar, hsame]
      rcases hspecial with rfl | rfl
      · rfl
      · rfl
    · rw [hchar, List.cons_append, List.nil_append, unescaped.eq_def]
      split
      · next h => exact absurd (List.cons.inj h).1 hback
      · next h => exact absurd (List.cons.inj h).1 hback
      · next h =>
        cases h
        rfl
      · next h => cases h

/-- Escaping goes character by character, but it is the same as replacing backslashes in the whole
text first, then marks, and then line breaks. -/
theorem flatMap_dotChar_eq_replaced (label : List Char) :
    label.flatMap dotChar =
      replaced '\r' [' '] (replaced '\n' [' '] (replaced Text.doubleMark ['\\', Text.doubleMark]
        (replaced '\\' ['\\', '\\'] label))) := by
  simp only [replaced, List.flatMap_assoc]
  refine congrArg (label.flatMap ·) (funext fun c => ?_)
  by_cases hback : c = '\\'
  · subst hback
    decide
  by_cases hmark : c = Text.doubleMark
  · subst hmark
    decide
  by_cases hlf : c = '\n'
  · subst hlf
    decide
  by_cases hcr : c = '\r'
  · subst hcr
    decide
  · simp [dotChar, hback, hmark, hlf, hcr]

/-! ## Labels -/

/-- What stands between the outer marks. -/
theorem dropLast_tail_dotLabel (label : List Char) :
    (dotLabel label).tail.dropLast = label.flatMap dotChar := by
  rw [dotLabel, List.cons_append, List.tail_cons, List.dropLast_concat]

/-- The label can be read off the quoted one, with its line breaks as spaces. -/
theorem unescaped_dotLabel (label : List Char) :
    unescaped (dotLabel label).tail.dropLast = label.map spaced := by
  rw [dropLast_tail_dotLabel, unescaped_flatMap_dotChar]

/-- A label without line breaks is kept as it is. -/
theorem map_spaced_of_no_breaks {label : List Char} (hlf : '\n' ∉ label) (hcr : '\r' ∉ label) :
    label.map spaced = label := by
  have hsame : ∀ c ∈ label, spaced c = id c := by
    intro c hc
    refine if_neg fun hbreak => ?_
    rcases (Bool.or_eq_true_iff.1 hbreak) with h | h
    · exact hlf (of_decide_eq_true h ▸ hc)
    · exact hcr (of_decide_eq_true h ▸ hc)
  rw [List.map_congr_left hsame, List.map_id]

/-- The closing mark of a quoted label is its last character. -/
theorem closingMark_dotLabel (label : List Char) :
    closingMark false (dotLabel label).tail = some ((dotLabel label).tail.length - 1) := by
  rw [dotLabel, List.cons_append, List.tail_cons, closingMark_flatMap_dotChar, List.length_append,
    List.length_singleton, Nat.add_sub_cancel]

/-- No line break stands in a quoted label. -/
theorem not_mem_dotLabel {c : Char} (hc : c = '\n' ∨ c = '\r') (label : List Char) :
    c ∉ dotLabel label := by
  have hmark : c ≠ Text.doubleMark := by
    rcases hc with rfl | rfl <;> decide
  simp only [dotLabel, List.cons_append, List.mem_cons, List.mem_append, List.not_mem_nil,
    or_false, not_or]
  exact ⟨hmark, not_mem_flatMap_dotChar hc label, hmark⟩

/-- Labels without line breaks that are quoted alike are alike. -/
theorem injOn_dotLabel : Set.InjOn dotLabel {label | '\n' ∉ label ∧ '\r' ∉ label} := by
  intro a ha b hb hab
  calc a = a.map spaced := (map_spaced_of_no_breaks ha.1 ha.2).symm
    _ = unescaped (dotLabel a).tail.dropLast := (unescaped_dotLabel a).symm
    _ = unescaped (dotLabel b).tail.dropLast := by rw [hab]
    _ = b.map spaced := unescaped_dotLabel b
    _ = b := map_spaced_of_no_breaks hb.1 hb.2

/-- No label breaks out of its quotation marks. Whatever the label is, the quoted text begins and
ends with a mark, no line break stands in it, and behind the opening mark the first mark that is
not escaped is the last character. Undoing the escapes between the outer marks gives the label with
its line breaks as spaces, so labels without line breaks are told apart. The text is the one that
whole replacements in a row give. The labels of links stand between marks in the same way, though
nothing in them is escaped. -/
theorem labels_confined :
    (∀ label : List Char,
      (dotLabel label).head? = some Text.doubleMark ∧
        (dotLabel label).getLast? = some Text.doubleMark ∧
      '\n' ∉ dotLabel label ∧ '\r' ∉ dotLabel label ∧
      closingMark false (dotLabel label).tail = some ((dotLabel label).tail.length - 1) ∧
      unescaped (dotLabel label).tail.dropLast = label.map spaced ∧
      (dotLabel label).tail.dropLast =
        replaced '\r' [' '] (replaced '\n' [' '] (replaced Text.doubleMark ['\\', Text.doubleMark]
          (replaced '\\' ['\\', '\\'] label)))) ∧
    Set.InjOn dotLabel {label | '\n' ∉ label ∧ '\r' ∉ label} ∧
    ∀ l : EdgeLabel, ("\"" ++ l.text ++ "\"").toList = dotLabel l.text.toList := by
  refine ⟨fun label => ⟨rfl, ?_, not_mem_dotLabel (.inl rfl) label,
    not_mem_dotLabel (.inr rfl) label, closingMark_dotLabel label, unescaped_dotLabel label, ?_⟩,
    injOn_dotLabel, fun l => ?_⟩
  · rw [dotLabel, List.getLast?_concat]
  · rw [dropLast_tail_dotLabel, flatMap_dotChar_eq_replaced]
  · cases l <;> decide

example : dotLabel ['a', Text.doubleMark, '\\'] =
    [Text.doubleMark, 'a', '\\', Text.doubleMark, '\\', '\\', Text.doubleMark] := by decide

end LastUse
