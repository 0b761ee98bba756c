import Mathlib.Data.List.Chain
import FormulaCalculus.Proofs.Grammar.Basic

/-!
Infix formulas as lists of tokens, whatever tree they are read as. A list is derivable exactly if an
automaton accepts it that reads the tokens one by one, knows whether an operand or an operator comes
next, and counts for every open parenthesis the commas that are still to come.
-/

namespace FormulaCalculus

open Lexicon

variable {α : Type}

/-- Arguments with commas between them. -/
def separated : List (List (Token α)) → List (Token α)
  | [] => []
  | [ts] => ts
  | ts :: us :: rest => ts ++ .comma :: separated (us :: rest)

/-- The infix formulas over the standard operators and functions. -/
inductive Derives : List (Token α) → Prop
  | operand {t : Token α} (ht : t.isOperand = true) : Derives [t]
  | parens {ts : List (Token α)} (h : Derives ts) : Derives (parenTokens ts)
  | negated {ts : List (Token α)} (h : Derives ts) : Derives (.unaryOperator minus :: ts)
  | joined {ts us : List (Token α)} {o : Spelled BinaryOperator} (ho : o ∈ standardBinaryOperators)
      (hts : Derives ts) (hus : Derives us) : Derives (ts ++ .binaryOperator o.token :: us)
  | call {s : Spelled Function} {args : List (List (Token α))} (hs : s ∈ standardFunctions)
      (hlength : args.length = s.token.arity) (hargs : ∀ ts ∈ args, Derives ts) :
      Derives (.function s.token :: parenTokens (separated args))

namespace Token

/-- Whether an operand ends with the token. -/
def endsOperand : Token α → Bool
  | constant _ | variableName _ | rightParen => true
  | _ => false

/-- Whether an operand starts with the token; an operand may also start with a minus. -/
def startsOperand : Token α → Bool
  | constant _ | variableName _ | leftParen | function _ => true
  | _ => false

/-- Whether two tokens can follow each other without an operator between them. -/
def Apart (t u : Token α) : Prop := t.endsOperand = true → u.startsOperand = false

instance (t u : Token α) : Decidable (t.Apart u) := by
  unfold Apart
  infer_instance

end Token

/-- Whether the commas stand where arguments are separated: `commas` holds, for every open
parenthesis, the number of commas still to come in it. -/
def commasFit (commas : List Nat) : List (Token α) → Bool
  | [] => commas.isEmpty
  | .function f :: .leftParen :: ts => commasFit ((f.arity - 1) :: commas) ts
  | .leftParen :: ts => commasFit (0 :: commas) ts
  | .rightParen :: ts =>
    match commas with
    | 0 :: commas => commasFit commas ts
    | _ => false
  | .comma :: ts =>
    match commas with
    | (n + 1) :: commas => commasFit (n :: commas) ts
    | _ => false
  | _ :: ts => commasFit commas ts

/-- The automaton of infix formulas. The flag says whether an operand has just ended. -/
inductive Accepts : Bool → List Nat → List (Token α) → Prop
  | done : Accepts true [] []
  | operand {commas : List Nat} {t : Token α} {ts : List (Token α)} (ht : t.isOperand = true)
      (h : Accepts true commas ts) : Accepts false commas (t :: ts)
  | opening {commas : List Nat} {ts : List (Token α)} (h : Accepts false (0 :: commas) ts) :
      Accepts false commas (.leftParen :: ts)
  | call {commas : List Nat} {s : Spelled Function} {ts : List (Token α)}
      (hs : s ∈ standardFunctions) (h : Accepts false ((s.token.arity - 1) :: commas) ts) :
      Accepts false commas (.function s.token :: .leftParen :: ts)
  | minus {commas : List Nat} {ts : List (Token α)} (h : Accepts false commas ts) :
      Accepts false commas (.unaryOperator minus :: ts)
  | binary {commas : List Nat} {o : Spelled BinaryOperator} {ts : List (Token α)}
      (ho : o ∈ standardBinaryOperators) (h : Accepts false commas ts) :
      Accepts true commas (.binaryOperator o.token :: ts)
  | comma {n : Nat} {commas : List Nat} {ts : List (Token α)} (h : Accepts false (n :: commas) ts) :
      Accepts true ((n + 1) :: commas) (.comma :: ts)
  | closing {commas : List Nat} {ts : List (Token α)} (h : Accepts true commas ts) :
      Accepts true (0 :: commas) (.rightParen :: ts)

theorem separated_cons {ts : List (Token α)} {args : List (List (Token α))} (hargs : args ≠ []) :
    separated (ts :: args) = ts ++ .comma :: separated args := by
  cases args with
  | nil => exact absurd rfl hargs
  | cons us args => rfl

theorem one_le_arity_of_mem {s : Spelled Function} (hs : s ∈ standardFunctions) :
    1 ≤ s.token.arity := by
  revert s
  decide

/-- Whether an accepted text starts with a derivable part that ends where the automaton has read an
operand and no binary operator follows. -/
def StartsDerivable (commas : List Nat) (ts : List (Token α)) : Prop :=
  ∃ us rest, ts = us ++ rest ∧ Derives us ∧ Accepts true commas rest ∧
    ∀ op more, rest ≠ .binaryOperator op :: more

section Splitting

variable {commas : List Nat} {ts us : List (Token α)} {bound : Nat}

/-- Behind an operand either the derivable part ends, or an operator and another part follow. -/
theorem Derives.startsDerivable
    (ih : ∀ vs : List (Token α), vs.length < bound → Accepts false commas vs →
      StartsDerivable commas vs)
    (hus : Derives us) (hts : Accepts true commas ts) (hlength : ts.length < bound) :
    StartsDerivable commas (us ++ ts) := by
  cases hts with
  | done => exact ⟨us, [], rfl, hus, .done, by simp⟩
  | @binary _ o ts ho h =>
    have hshorter : ts.length < bound := by
      simp only [List.length_cons] at hlength
      omega
    obtain ⟨vs, rest, rfl, hvs, hrest, hstop⟩ := ih ts hshorter h
    exact ⟨us ++ .binaryOperator o.token :: vs, rest, by simp, .joined ho hus hvs, hrest, hstop⟩
  | comma h => exact ⟨us, _, rfl, hus, .comma h, by simp⟩
  | closing h => exact ⟨us, _, rfl, hus, .closing h, by simp⟩

/-- Up to the closing parenthesis as many arguments stand as commas are to come, and one more. -/
theorem Accepts.exists_separated
    (ih : ∀ vs : List (Token α), vs.length < bound → ∀ commas, Accepts false commas vs →
      StartsDerivable commas vs)
    {n : Nat} (hts : Accepts false (n :: commas) ts) (hlength : ts.length < bound) :
    ∃ args rest, ts = separated args ++ .rightParen :: rest ∧ args.length = n + 1 ∧
      (∀ vs ∈ args, Derives vs) ∧ Accepts true commas rest := by
  induction n generalizing ts with
  | zero =>
    obtain ⟨us, rest, rfl, hus, hrest, hstop⟩ := ih ts hlength _ hts
    cases hrest with
    | binary ho h => exact absurd rfl (hstop _ _)
    | closing h => exact ⟨[us], _, rfl, rfl, by simpa using hus, h⟩
  | succ n ihn =>
    obtain ⟨us, rest, rfl, hus, hrest, hstop⟩ := ih ts hlength _ hts
    cases hrest with
    | binary ho h => exact absurd rfl (hstop _ _)
    | @comma _ _ ts h =>
      have hshorter : ts.length < bound := by
        simp only [List.length_append, List.length_cons] at hlength
        omega
      obtain ⟨args, rest, rfl, hargs, hderives, hrest⟩ := ihn h hshorter
      have hne : args ≠ [] := by
        rintro rfl
        simp at hargs
      refine ⟨us :: args, rest, ?_, ?_, ?_, hrest⟩
      · rw [separated_cons hne]
        simp
      · rw [List.length_cons, hargs]
      · exact List.forall_mem_cons.mpr ⟨hus, hderives⟩

/-- What the automaton accepts where an operand is to come starts with a derivable part. -/
theorem Accepts.startsDerivable (h : Accepts false commas ts) : StartsDerivable commas ts := by
  -- Induction on the length: the parts behind an opening parenthesis and behind an operator are
  -- shorter, but they are no subterms of one derivation.
  induction hbound : ts.length using Nat.strong_induction_on generalizing ts commas with
  | _ bound ih =>
    have ih' (vs : List (Token α)) (hvs : vs.length < bound) (commas : List Nat)
        (h : Accepts false commas vs) : StartsDerivable commas vs := ih vs.length hvs h rfl
    cases h with
    | operand ht h =>
      have hrest := Derives.startsDerivable (fun vs hvs => ih' vs hvs commas) (.operand ht) h
      exact hrest (by simp [← hbound])
    | @opening _ ts h =>
      have hinner : ts.length < bound := by simp [← hbound]
      obtain ⟨args, rest, rfl, hargs, hderives, hrest⟩ := h.exists_separated ih' hinner
      obtain ⟨us, rfl⟩ := List.length_eq_one_iff.mp hargs
      have hus := Derives.parens (hderives us (by simp))
      have hlength : rest.length < bound := by
        rw [← hbound]
        simp only [List.length_cons, List.length_append]
        omega
      have hparens := Derives.startsDerivable (fun vs hvs => ih' vs hvs commas) hus hrest hlength
      simpa [parenTokens, separated] using hparens
    | @call _ s ts hs h =>
      have hinner : ts.length < bound := by
        rw [← hbound]
        simp only [List.length_cons]
        omega
      obtain ⟨args, rest, rfl, hargs, hderives, hrest⟩ := h.exists_separated ih' hinner
      have harity := one_le_arity_of_mem hs
      have hus := Derives.call hs (by omega) hderives
      have hlength : rest.length < bound := by
        rw [← hbound]
        simp only [List.length_cons, List.length_append]
        omega
      have hcall := Derives.startsDerivable (fun vs hvs => ih' vs hvs commas) hus hrest hlength
      simpa [parenTokens] using hcall
    | @minus _ ts h =>
      have hinner : ts.length < bound := by simp [← hbound]
      obtain ⟨us, rest, rfl, hus, hrest, hstop⟩ := ih' ts hinner commas h
      exact ⟨.unaryOperator Lexicon.minus :: us, rest, rfl, .negated hus, hrest, hstop⟩

/-- What the automaton accepts is derivable. -/
theorem Accepts.derives (h : Accepts false [] ts) : Derives ts := by
  obtain ⟨us, rest, rfl, hus, hrest, hstop⟩ := h.startsDerivable
  cases hrest with
  | done => rwa [List.append_nil]
  | binary ho h => exact absurd rfl (hstop _ _)

end Splitting

section Necessary

variable {t : Token α} {ts us : List (Token α)}

theorem isChain_cons_of_endsOperand (ht : t.endsOperand = false) (hts : ts.IsChain Token.Apart) :
    (t :: ts).IsChain Token.Apart := by
  refine List.isChain_cons.mpr ⟨?_, hts⟩
  intro u _ hends
  rw [ht] at hends
  exact Bool.noConfusion hends

theorem isChain_append_of_startsOperand (ht : t.startsOperand = false)
    (hts : ts.IsChain Token.Apart) (hus : (t :: us).IsChain Token.Apart) :
    (ts ++ t :: us).IsChain Token.Apart := by
  refine List.isChain_append.mpr ⟨hts, hus, ?_⟩
  intro u _ v hv _
  obtain rfl := Option.some.inj hv
  exact ht

theorem isChain_parenTokens (hts : ts.IsChain Token.Apart) :
    (parenTokens ts).IsChain Token.Apart :=
  isChain_cons_of_endsOperand rfl
    (isChain_append_of_startsOperand rfl hts (List.isChain_singleton _))

theorem isChain_separated {args : List (List (Token α))}
    (hargs : ∀ ts ∈ args, ts.IsChain Token.Apart) : (separated args).IsChain Token.Apart := by
  induction args with
  | nil => exact List.isChain_nil
  | cons ts args ih =>
    obtain ⟨hts, hargs⟩ := List.forall_mem_cons.mp hargs
    by_cases hne : args = []
    · subst hne
      exact hts
    · rw [separated_cons hne]
      exact isChain_append_of_startsOperand rfl hts (isChain_cons_of_endsOperand rfl (ih hargs))

/-- In a derivable list no two operands stand side by side. -/
theorem Derives.isChain (h : Derives ts) : ts.IsChain Token.Apart := by
  induction h with
  | operand ht => exact List.isChain_singleton _
  | parens h ih => exact isChain_parenTokens ih
  | negated h ih => exact isChain_cons_of_endsOperand rfl ih
  | joined ho hts hus ihts ihus =>
    exact isChain_append_of_startsOperand rfl ihts (isChain_cons_of_endsOperand rfl ihus)
  | call hs hlength hargs ih =>
    exact isChain_cons_of_endsOperand rfl (isChain_parenTokens (isChain_separated ih))

/-- The commas between arguments are those that are to come in their parenthesis. -/
theorem commasFit_separated {args : List (List (Token α))}
    (hargs : ∀ ts ∈ args, ∀ commas rest,
      commasFit commas (ts ++ rest) = commasFit commas (rest : List (Token α)))
    (commas : List Nat) (rest : List (Token α)) :
    commasFit ((args.length - 1) :: commas) (separated args ++ .rightParen :: rest) =
      commasFit commas rest := by
  induction args with
  | nil => rfl
  | cons ts args ih =>
    obtain ⟨hts, hargs⟩ := List.forall_mem_cons.mp hargs
    by_cases hne : args = []
    · subst hne
      rw [separated, hts]
      rfl
    · have hpos : 0 < args.length := List.length_pos_iff.mpr hne
      have hcount : (ts :: args).length - 1 = (args.length - 1) + 1 := by
        rw [List.length_cons]
        omega
      rw [separated_cons hne, List.append_assoc, hts, hcount, List.cons_append]
      exact ih hargs

/-- A derivable list brings its own commas. -/
theorem Derives.commasFit_append (h : Derives ts) (commas : List Nat) (rest : List (Token α)) :
    commasFit commas (ts ++ rest) = commasFit commas rest := by
  induction h generalizing commas rest with
  | @operand t ht =>
    cases t with
    | constant _ | variableName _ => rfl
    | _ => exact Bool.noConfusion ht
  | @parens ts h ih =>
    calc commasFit commas (parenTokens ts ++ rest)
        = commasFit (0 :: commas) (ts ++ .rightParen :: rest) := by
          rw [parenTokens, List.cons_append, List.append_assoc]
          rfl
      _ = commasFit (0 :: commas) (.rightParen :: rest) := ih _ _
  | negated h ih => exact ih commas rest
  | @joined ts us o ho hts hus ihts ihus =>
    rw [List.append_assoc, ihts, List.cons_append]
    exact ihus commas rest
  | @call s args hs hlength hargs ih =>
    calc commasFit commas (.function s.token :: parenTokens (separated args) ++ rest)
        = commasFit ((args.length - 1) :: commas) (separated args ++ .rightParen :: rest) := by
          rw [parenTokens, List.cons_append, List.cons_append, List.append_assoc, hlength]
          rfl
      _ = commasFit commas rest := commasFit_separated ih commas rest

theorem Derives.commasFit (h : Derives ts) : commasFit [] ts = true := by
  have happend := h.commasFit_append [] []
  rwa [List.append_nil] at happend

end Necessary

end FormulaCalculus
