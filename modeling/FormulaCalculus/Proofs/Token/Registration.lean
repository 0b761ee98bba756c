import Mathlib.Data.List.Pairwise
import Mathlib.Data.List.Sort
import Mathlib.Data.Prod.Lex
import Mathlib.Data.String.Basic
import FormulaCalculus.Token.Lexicon

/-!
Lexicons that are built by registering operators, functions and variable names one after the other.
However they are built, their functions and variable names stand in strict order: longer names
first, names of one length in the order of their characters, and no name twice.
-/

namespace FormulaCalculus

/-! ### The order of names -/

/-- The place of a name in the order in which names are tried: longer ones first, then the order of
their characters. -/
def rank (name : String) : ℕᵒᵈ ×ₗ String := toLex (OrderDual.toDual name.utf8ByteSize, name)

theorem ranksBefore_iff {a b : String} : ranksBefore a b = true ↔ rank a < rank b := by
  simp [ranksBefore, rank, Prod.Lex.toLex_lt_toLex]

theorem rank_lt_of_utf8ByteSize_lt {a b : String} (h : b.utf8ByteSize < a.utf8ByteSize) :
    rank a < rank b := Prod.Lex.toLex_lt_toLex.mpr (Or.inl h)

theorem utf8ByteSize_le_of_rank_lt {a b : String} (h : rank a < rank b) :
    b.utf8ByteSize ≤ a.utf8ByteSize := by
  rcases Prod.Lex.toLex_lt_toLex.mp h with hlt | ⟨heq, -⟩
  · exact Nat.le_of_lt hlt
  · exact Nat.le_of_eq (OrderDual.toDual_inj.mp heq).symm

theorem rank_injective : Function.Injective rank := by
  intro a b h
  exact congrArg Prod.snd (toLex_inj.mp h)

section Ranked

variable {β : Type} {name : β → String} {x y : β} {ys : List β}

/-- Whether entries stand in the strict order of their names. -/
def Ranked (name : β → String) (ys : List β) : Prop :=
  ys.Pairwise fun x y => rank (name x) < rank (name y)

theorem mem_insertRanked : y ∈ insertRanked name x ys ↔ y = x ∨ y ∈ ys := by
  induction ys with
  | nil => exact List.mem_cons
  | cons z ys ih =>
    unfold insertRanked
    split
    · exact List.mem_cons
    · rw [List.mem_cons, ih, List.mem_cons, or_left_comm]

/-- A new name is inserted at its place. -/
theorem Ranked.insertRanked (h : Ranked name ys) (hx : ∀ y ∈ ys, name y ≠ name x) :
    Ranked name (insertRanked name x ys) := by
  induction ys with
  | nil => exact List.pairwise_singleton _ _
  | cons y ys ih =>
    obtain ⟨hy, hys⟩ := List.pairwise_cons.mp h
    unfold FormulaCalculus.insertRanked
    split
    · rename_i hranks
      have hlt := ranksBefore_iff.mp hranks
      refine List.pairwise_cons.mpr ⟨?_, h⟩
      intro z hz
      rcases List.mem_cons.mp hz with rfl | hz
      · exact hlt
      · exact hlt.trans (hy z hz)
    · rename_i hranks
      have hlt : rank (name y) < rank (name x) := by
        apply lt_of_le_of_ne (not_lt.mp (mt ranksBefore_iff.mpr hranks))
        exact rank_injective.ne (hx y List.mem_cons_self)
      refine List.pairwise_cons.mpr ⟨?_, ih hys fun z hz => hx z (List.mem_cons_of_mem y hz)⟩
      intro z hz
      rcases mem_insertRanked.mp hz with rfl | hz
      · exact hlt
      · exact hy z hz

/-- The search through ranked entries finds the one that ranks before all others it could find. -/
theorem Ranked.find?_eq_some_iff {p : β → Bool} (h : Ranked name ys) :
    ys.find? p = some x ↔ x ∈ ys ∧ p x = true ∧
      ∀ y ∈ ys, p y = true → y = x ∨ rank (name x) < rank (name y) := by
  induction ys with
  | nil => simp
  | cons z ys ih =>
    obtain ⟨hz, hys⟩ := List.pairwise_cons.mp h
    cases hp : p z with
    | true =>
      rw [List.find?_cons_of_pos hp]
      constructor
      · intro hx
        obtain rfl := Option.some.inj hx
        refine ⟨List.mem_cons_self, hp, ?_⟩
        intro y hy _
        exact (List.mem_cons.mp hy).imp_right (hz y)
      · rintro ⟨hx, -, hfirst⟩
        rcases List.mem_cons.mp hx with rfl | hx
        · rfl
        · rcases hfirst z List.mem_cons_self hp with rfl | hlt
          · rfl
          · exact absurd (hz x hx) (lt_asymm hlt)
    | false =>
      have hne {y : β} (hy : p y = true) : y ≠ z := by
        rintro rfl
        rw [hp] at hy
        nomatch hy
      rw [List.find?_cons_of_neg (by simp [hp]), ih hys]
      constructor
      · rintro ⟨hx, hpx, hfirst⟩
        refine ⟨List.mem_cons_of_mem z hx, hpx, ?_⟩
        intro y hy hpy
        exact hfirst y ((List.mem_cons.mp hy).resolve_left (hne hpy)) hpy
      · rintro ⟨hx, hpx, hfirst⟩
        refine ⟨(List.mem_cons.mp hx).resolve_left (hne hpx), hpx, ?_⟩
        intro y hy hpy
        exact hfirst y (List.mem_cons_of_mem z hy) hpy

/-- No name is entered twice. -/
theorem Ranked.eq_of_name_eq (h : Ranked name ys) (hx : x ∈ ys) (hy : y ∈ ys)
    (hname : name x = name y) : x = y := by
  by_contra hne
  have hsymm : Std.Symm fun x y : β => name x ≠ name y := ⟨fun _ _ hne => hne.symm⟩
  have hnames : ys.Pairwise fun x y => name x ≠ name y :=
    h.imp fun hlt hsame => (congrArg rank hsame).not_lt hlt
  exact hnames.forall hx hy hne hname

/-- Ranked entries are determined by which they are. -/
theorem Ranked.eq_of_mem_iff {xs : List β} (hxs : Ranked name xs) (hys : Ranked name ys)
    (h : ∀ x, x ∈ xs ↔ x ∈ ys) : xs = ys := by
  have hirrefl : Std.Irrefl fun x y : β => rank (name x) < rank (name y) :=
    ⟨fun x => lt_irrefl (rank (name x))⟩
  have hantisymm : Std.Antisymm fun x y : β => rank (name x) < rank (name y) :=
    ⟨fun x y hxy hyx => absurd hyx (lt_asymm hxy)⟩
  exact List.Pairwise.eq_of_mem_iff hxs hys h

end Ranked

/-! ### Registrations -/

/-- One entry to register in a lexicon. -/
inductive Registration where
  | variableName (name : String)
  | unaryOperator (s : Spelled UnaryOperator)
  | binaryOperator (s : Spelled BinaryOperator)
  | function (s : Spelled Function)

namespace Lexicon

/-- Registers an entry. -/
def register (l : Lexicon) : Registration → Lexicon
  | .variableName name => l.withVariable name
  | .unaryOperator s => l.withUnaryOperator s.spelling s.token
  | .binaryOperator s => l.withBinaryOperator s.spelling s.token
  | .function s => l.withFunction s.spelling s.token

/-- Registers entries one after the other. -/
def extend (l : Lexicon) (rs : List Registration) : Lexicon := rs.foldl register l

variable {l : Lexicon} {r : Registration} {rs : List Registration}

@[simp] theorem extend_nil : l.extend [] = l := rfl

@[simp] theorem extend_cons : l.extend (r :: rs) = (l.register r).extend rs := rfl

theorem withVariables_eq_extend (names : List String) :
    l.withVariables names = l.extend (names.map .variableName) := by
  induction names generalizing l with
  | nil => rfl
  | cons name names ih => exact ih

/-- The entries of the standard lexicon, the functions by kind and not by length. -/
def standardRegistrations : List Registration :=
  let unary (f : UnaryFn) : Registration := .function ⟨f.name, ⟨f.id, 1⟩⟩
  standardUnaryOperators.map .unaryOperator ++ standardBinaryOperators.map .binaryOperator ++
    [unary .sin, unary .cos, unary .tan, unary .asin, unary .acos, unary .atan,
      .function ⟨"atan2", ⟨BinaryFn.atan2.id, 2⟩⟩, unary .sinh, unary .cosh, unary .tanh,
      unary .asinh, unary .acosh, unary .atanh, unary .exp, unary .log, unary .log10, unary .sqrt,
      unary .square, unary .abs, .function ⟨"pow", ⟨TokenId.powCall, 2⟩⟩]

theorem standard_eq_extend : standard = empty.extend standardRegistrations := by
  rfl

/-- Whether a lexicon can be built by registering entries in the empty one. -/
inductive Built : Lexicon → Prop
  | empty : Built empty
  | register {l : Lexicon} (h : Built l) (r : Registration) : Built (l.register r)

theorem Built.extend (h : l.Built) (rs : List Registration) : (l.extend rs).Built := by
  induction rs generalizing l with
  | nil => exact h
  | cons r rs ih => exact ih (h.register r)

theorem standard_built : standard.Built := by
  rw [standard_eq_extend]
  exact Built.empty.extend standardRegistrations

/-! ### What is registered -/

/-- Declaring a variable changes nothing but the variable names. -/
theorem withVariable_eq (l : Lexicon) (name : String) :
    l.withVariable name = { l with variableNames := (l.withVariable name).variableNames } := by
  unfold withVariable
  split <;> rfl

theorem mem_variableNames_register {n : String} :
    n ∈ (l.register r).variableNames ↔ n ∈ l.variableNames ∨ r = .variableName n := by
  cases r with
  | variableName name =>
    show n ∈ (l.withVariable name).variableNames ↔ _
    unfold withVariable
    split
    · rename_i hcontains
      constructor
      · exact Or.inl
      · rintro (hn | hn)
        · exact hn
        · obtain rfl := Registration.variableName.inj hn
          simpa using hcontains
    · rw [mem_insertRanked, Registration.variableName.injEq, or_comm, eq_comm]
  | unaryOperator s | binaryOperator s | function s =>
    exact (or_iff_left Registration.noConfusion).symm

theorem mem_variableNames_extend {n : String} :
    n ∈ (l.extend rs).variableNames ↔ n ∈ l.variableNames ∨ .variableName n ∈ rs := by
  induction rs generalizing l with
  | nil => simp
  | cons r rs ih =>
    rw [extend_cons, ih, mem_variableNames_register, List.mem_cons, or_assoc, eq_comm]

theorem mem_functions_register {s : Spelled Function} :
    s ∈ (l.register r).functions ↔
      r = .function s ∨ s ∈ l.functions ∧ ∀ f, r = .function f → f.spelling ≠ s.spelling := by
  cases r with
  | function f =>
    show s ∈ insertRanked Spelled.spelling _ _ ↔ _
    simp only [mem_insertRanked, List.mem_filter, Registration.function.injEq, bne_iff_ne,
      forall_eq']
    exact or_congr eq_comm (and_congr_right fun _ => ne_comm)
  | variableName name =>
    show s ∈ (l.withVariable name).functions ↔ _
    rw [l.withVariable_eq name]
    simp
  | unaryOperator _ | binaryOperator _ => simp [register, withUnaryOperator, withBinaryOperator]

/-- The order that registering keeps. -/
structure InOrder (l : Lexicon) : Prop where
  functions : Ranked Spelled.spelling l.functions
  variableNames : Ranked (fun n => n) l.variableNames

theorem InOrder.register (h : l.InOrder) (r : Registration) : (l.register r).InOrder := by
  cases r with
  | variableName name =>
    show (l.withVariable name).InOrder
    unfold withVariable
    split
    · exact h
    · rename_i hcontains
      refine ⟨h.functions, h.variableNames.insertRanked ?_⟩
      rintro n hn rfl
      exact hcontains (by simpa using hn)
  | unaryOperator s | binaryOperator s => exact ⟨h.functions, h.variableNames⟩
  | function s =>
    refine ⟨Ranked.insertRanked (h.functions.filter _) ?_, h.variableNames⟩
    intro g hg
    simpa using (List.mem_filter.mp hg).2

/-- Every lexicon that can be built is in order. -/
theorem Built.inOrder (h : l.Built) : l.InOrder := by
  induction h with
  | empty => exact ⟨List.Pairwise.nil, List.Pairwise.nil⟩
  | register _ r ih => exact ih.register r

end Lexicon

end FormulaCalculus
