import Mathlib.Data.List.Find
import Mathlib.Tactic.SplitIfs
import FormulaCalculus.Token.Lexeme

/-!
Parentheses and commas in the text of a formula. They are tokens by themselves and occur in no other
token, as long as no name contains one; so the text up to the next of them is read the same whatever
stands behind it.
-/

namespace FormulaCalculus

/-- The characters that are tokens by themselves. -/
def isDelimiter (c : Char) : Bool := c == '(' || c == ')' || c == ','

/-- Whether a text has no delimiter. -/
def IsPlain (cs : List Char) : Prop := ∀ c ∈ cs, isDelimiter c = false

/-- The number of open parentheses behind a text with `depth` open ones in front; nothing if one
closes that was not open. -/
def parenDepth (depth : Nat) : List Char → Option Nat
  | [] => some depth
  | c :: cs =>
    if c = '(' then parenDepth (depth + 1) cs
    else if c = ')' then if depth = 0 then none else parenDepth (depth - 1) cs
    else parenDepth depth cs

/-- Whether a comma stands outside parentheses, with `depth` open ones in front of the text. -/
def hasOuterComma (depth : Nat) : List Char → Bool
  | [] => false
  | c :: cs =>
    if c = '(' then hasOuterComma (depth + 1) cs
    else if c = ')' then hasOuterComma (depth - 1) cs
    else (c == ',' && depth == 0) || hasOuterComma depth cs

theorem isDelimiter_iff {c : Char} : isDelimiter c = true ↔ c = '(' ∨ c = ')' ∨ c = ',' := by
  simp [isDelimiter, or_assoc]

theorem isDelimiter_eq_false {c : Char} :
    isDelimiter c = false ↔ c ≠ '(' ∧ c ≠ ')' ∧ c ≠ ',' := by
  simp [isDelimiter, and_assoc]

theorem isPlain_cons {c : Char} {cs : List Char} :
    IsPlain (c :: cs) ↔ isDelimiter c = false ∧ IsPlain cs := List.forall_mem_cons

theorem isPlain_append {cs ds : List Char} : IsPlain (cs ++ ds) ↔ IsPlain cs ∧ IsPlain ds :=
  List.forall_mem_append

theorem isPlain_iff_all {cs : List Char} :
    IsPlain cs ↔ cs.all (fun c => !isDelimiter c) = true := by
  simp [IsPlain]

theorem IsPlain.filter_eq_nil {cs : List Char} (h : IsPlain cs) : cs.filter isDelimiter = [] :=
  List.filter_eq_nil_iff.mpr fun c hc => by simp [h c hc]

theorem parenDepth_filter (depth : Nat) (cs : List Char) :
    parenDepth depth (cs.filter isDelimiter) = parenDepth depth cs := by
  induction cs generalizing depth with
  | nil => rfl
  | cons c cs ih =>
    by_cases hc : isDelimiter c = true
    · rw [List.filter_cons_of_pos hc]
      simp only [parenDepth, ih]
    · have hplain := isDelimiter_eq_false.mp (Bool.eq_false_iff.mpr hc)
      rw [List.filter_cons_of_neg hc, ih, parenDepth, if_neg hplain.1, if_neg hplain.2.1]

theorem parenDepth_append (depth : Nat) (cs ds : List Char) :
    parenDepth depth (cs ++ ds) =
      (parenDepth depth cs).bind fun depth' => parenDepth depth' ds := by
  induction cs generalizing depth with
  | nil => rfl
  | cons c cs ih =>
    simp only [List.cons_append, parenDepth]
    split_ifs <;> first | exact ih _ | rfl

/-- One more open parenthesis in front stays open. -/
theorem parenDepth_succ {depth depth' : Nat} {cs : List Char}
    (h : parenDepth depth cs = some depth') : parenDepth (depth + 1) cs = some (depth' + 1) := by
  induction cs generalizing depth with
  | nil => rw [parenDepth, Option.some.inj h]
  | cons c cs ih =>
    simp only [parenDepth] at h ⊢
    split_ifs at h with hopen hclose hzero
    · rw [if_pos hopen]
      exact ih h
    · have hpred : depth + 1 - 1 = depth - 1 + 1 := by omega
      rw [if_neg hopen, if_pos hclose, if_neg (Nat.succ_ne_zero depth), hpred]
      exact ih h
    · rw [if_neg hopen, if_neg hclose]
      exact ih h

/-- Inside a parenthesis no comma is outer. -/
theorem hasOuterComma_succ {depth depth' : Nat} {cs : List Char}
    (h : parenDepth depth cs = some depth') : hasOuterComma (depth + 1) cs = false := by
  induction cs generalizing depth with
  | nil => rfl
  | cons c cs ih =>
    simp only [parenDepth] at h
    simp only [hasOuterComma]
    split_ifs at h with hopen hclose hzero
    · rw [if_pos hopen]
      exact ih h
    · have hpred : depth + 1 - 1 = depth - 1 + 1 := by omega
      rw [if_neg hopen, if_pos hclose, hpred]
      exact ih h
    · rw [if_neg hopen, if_neg hclose, ih h]
      simp

theorem hasOuterComma_append {depth depth' : Nat} {cs : List Char}
    (h : parenDepth depth cs = some depth') (ds : List Char) :
    hasOuterComma depth (cs ++ ds) = (hasOuterComma depth cs || hasOuterComma depth' ds) := by
  induction cs generalizing depth with
  | nil => simp [hasOuterComma, Option.some.inj h]
  | cons c cs ih =>
    simp only [parenDepth] at h
    simp only [List.cons_append, hasOuterComma]
    split_ifs at h with hopen hclose hzero
    · rw [if_pos hopen, if_pos hopen]
      exact ih h
    · rw [if_neg hopen, if_neg hopen, if_pos hclose, if_pos hclose]
      exact ih h
    · rw [if_neg hopen, if_neg hopen, if_neg hclose, if_neg hclose, ih h, Bool.or_assoc]

theorem callCommas_cons (depth : Nat) (c : Char) (cs : List Char) :
    callCommas depth (c :: cs) =
      if c = '(' then callCommas (depth + 1) cs
      else if c = ')' then if depth = 0 then some 0 else callCommas (depth - 1) cs
      else if c = ',' ∧ depth = 0 then (callCommas 0 cs).map (· + 1)
      else callCommas depth cs := by
  by_cases hopen : c = '('
  · subst hopen
    rfl
  by_cases hclose : c = ')'
  · subst hclose
    cases depth <;> rfl
  by_cases hcomma : c = ','
  · subst hcomma
    cases depth <;> rfl
  · rw [if_neg hopen, if_neg hclose, if_neg fun h => hcomma h.1]
    cases depth <;> simp [callCommas, hclose, hcomma]

/-- Only delimiters are looked at where the commas of a call are counted. -/
theorem callCommas_filter (depth : Nat) (cs : List Char) :
    callCommas depth (cs.filter isDelimiter) = callCommas depth cs := by
  induction cs generalizing depth with
  | nil => rfl
  | cons c cs ih =>
    by_cases hc : isDelimiter c = true
    · rw [List.filter_cons_of_pos hc, callCommas_cons, callCommas_cons]
      simp only [ih]
    · have hplain := isDelimiter_eq_false.mp (Bool.eq_false_iff.mpr hc)
      rw [List.filter_cons_of_neg hc, ih, callCommas_cons, if_neg hplain.1, if_neg hplain.2.1,
        if_neg fun h => hplain.2.2 h.1]

/-- What closes a call is not changed by what stands behind it. -/
theorem callCommas_append_of_some {depth n : Nat} {cs : List Char}
    (h : callCommas depth cs = some n) (rest : List Char) :
    callCommas depth (cs ++ rest) = some n := by
  induction cs generalizing depth n with
  | nil => cases depth <;> simp [callCommas] at h
  | cons c cs ih =>
    rw [callCommas_cons] at h
    rw [List.cons_append, callCommas_cons]
    split_ifs at h ⊢ with hopen hclose hzero hcomma
    · exact ih h
    · exact h
    · exact ih h
    · obtain ⟨m, hm, rfl⟩ := Option.map_eq_some_iff.mp h
      rw [ih hm]
      rfl
    · exact ih h

/-- A text without outer commas adds none to the commas of the call it stands in. -/
theorem callCommas_append {depth depth' : Nat} {cs : List Char}
    (hdepth : parenDepth depth cs = some depth') (hcomma : hasOuterComma depth cs = false)
    (rest : List Char) : callCommas depth (cs ++ rest) = callCommas depth' rest := by
  induction cs generalizing depth with
  | nil =>
    rw [Option.some.inj hdepth]
    rfl
  | cons c cs ih =>
    rw [List.cons_append, callCommas_cons]
    simp only [parenDepth] at hdepth
    simp only [hasOuterComma] at hcomma
    split_ifs at hdepth hcomma ⊢ with hopen hclose hzero hbare
    · exact ih hdepth hcomma
    · exact ih hdepth hcomma
    · simp [hbare.1, hbare.2] at hcomma
    · exact ih hdepth (by simpa using (Bool.or_eq_false_iff.mp hcomma).2)

end FormulaCalculus
