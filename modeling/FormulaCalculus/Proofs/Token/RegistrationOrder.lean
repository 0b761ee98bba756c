import FormulaCalculus.Proofs.Token.LongestName

/-!
The order of registration does not matter. Functions and variable names are kept in one order
whatever the order of their registration; operators stay in the order of registration, but of those
that match one text at most one is longest, unless two are written the same. So two lexicons that
register the same entries, no two of them of one kind and one spelling, read every formula alike.
-/

namespace FormulaCalculus

namespace Spelled

variable {τ : Type} {input : List Char}

/-- Of two spellings of different lengths the longer one is kept, whichever is tried first. -/
theorem longer_right_comm {s r : Spelled τ}
    (h : s.spelling.utf8ByteSize ≠ r.spelling.utf8ByteSize) (best : Option (Spelled τ)) :
    longer (longer best s) r = longer (longer best r) s := by
  cases best with
  | none => grind [longer]
  | some b => grind [longer]

/-- The longest spelling in front of a text does not depend on the order of those that are tried
last, if no two of them are the same. -/
theorem longest?_filter_append_perm {base l l' : List (Spelled τ)} (hperm : l.Perm l')
    (hdistinct : l.Pairwise fun s r => s.spelling ≠ r.spelling) {p : Spelled τ → Bool}
    (hp : ∀ s, p s = true → s.isPrefixOf input = true) :
    longest? ((base ++ l).filter p) = longest? ((base ++ l').filter p) := by
  rw [List.filter_append, List.filter_append, longest?, longest?, List.foldl_append,
    List.foldl_append]
  apply (hperm.filter p).foldl_eq'
  intro s hs r hr best
  by_cases hsame : s = r
  · rw [hsame]
  · obtain ⟨hs, hps⟩ := List.mem_filter.mp hs
    obtain ⟨hr, hpr⟩ := List.mem_filter.mp hr
    have hsymm : Std.Symm fun s r : Spelled τ => s.spelling ≠ r.spelling :=
      ⟨fun _ _ hne => hne.symm⟩
    have hne := hdistinct.forall hs hr hsame
    -- both stand in front of the text, so different spellings have different lengths
    apply longer_right_comm
    exact mt (eq_of_isPrefixOf_of_utf8ByteSize_eq (hp s hps) (hp r hpr)) hne

end Spelled

namespace Registration

/-- Whether two entries are of one kind and written the same. Declaring a variable twice is no
clash. -/
def Clashes : Registration → Registration → Prop
  | unaryOperator s, unaryOperator r => s.spelling = r.spelling
  | binaryOperator s, binaryOperator r => s.spelling = r.spelling
  | function s, function r => s.spelling = r.spelling
  | _, _ => False

def unaryOperator? : Registration → Option (Spelled UnaryOperator)
  | unaryOperator s => some s
  | _ => none

def binaryOperator? : Registration → Option (Spelled BinaryOperator)
  | binaryOperator s => some s
  | _ => none

theorem Clashes.symm : ∀ {a b : Registration}, a.Clashes b → b.Clashes a
  | unaryOperator _, unaryOperator _, h => Eq.symm h
  | binaryOperator _, binaryOperator _, h => Eq.symm h
  | function _, function _, h => Eq.symm h

theorem eq_of_unaryOperator? {a : Registration} {s : Spelled UnaryOperator}
    (h : a.unaryOperator? = some s) : a = unaryOperator s := by
  cases a with
  | unaryOperator r => exact congrArg unaryOperator (Option.some.inj h)
  | _ => nomatch h

theorem eq_of_binaryOperator? {a : Registration} {s : Spelled BinaryOperator}
    (h : a.binaryOperator? = some s) : a = binaryOperator s := by
  cases a with
  | binaryOperator r => exact congrArg binaryOperator (Option.some.inj h)
  | _ => nomatch h

theorem Clashes.of_unaryOperator? {a b : Registration} {s r : Spelled UnaryOperator}
    (ha : a.unaryOperator? = some s) (hb : b.unaryOperator? = some r)
    (h : s.spelling = r.spelling) : a.Clashes b := by
  rw [eq_of_unaryOperator? ha, eq_of_unaryOperator? hb]
  exact h

theorem Clashes.of_binaryOperator? {a b : Registration} {s r : Spelled BinaryOperator}
    (ha : a.binaryOperator? = some s) (hb : b.binaryOperator? = some r)
    (h : s.spelling = r.spelling) : a.Clashes b := by
  rw [eq_of_binaryOperator? ha, eq_of_binaryOperator? hb]
  exact h

/-- Operators of one kind have different spellings if no two entries clash. -/
theorem pairwise_filterMap {τ : Type} {pick : Registration → Option (Spelled τ)}
    (hpick : ∀ {a b s r}, pick a = some s → pick b = some r → s.spelling = r.spelling →
      a.Clashes b)
    {rs : List Registration} (h : rs.Pairwise fun a b => ¬ a.Clashes b) :
    (rs.filterMap pick).Pairwise fun s r => s.spelling ≠ r.spelling := by
  apply List.pairwise_filterMap.mpr
  apply h.imp
  intro a b hab s hs r hr hsame
  exact hab (hpick hs hr hsame)

end Registration

namespace Lexicon

variable {α : Type} {l l' : Lexicon} {r : Registration} {rs rs' : List Registration}

/-! ### What a list of entries registers -/

theorem unaryOperators_register (l : Lexicon) (r : Registration) :
    (l.register r).unaryOperators = l.unaryOperators ++ r.unaryOperator?.toList := by
  cases r with
  | variableName name =>
    show (l.withVariable name).unaryOperators = _
    rw [l.withVariable_eq name]
    exact (List.append_nil _).symm
  | unaryOperator s => rfl
  | binaryOperator s | function s => exact (List.append_nil _).symm

theorem binaryOperators_register (l : Lexicon) (r : Registration) :
    (l.register r).binaryOperators = l.binaryOperators ++ r.binaryOperator?.toList := by
  cases r with
  | variableName name =>
    show (l.withVariable name).binaryOperators = _
    rw [l.withVariable_eq name]
    exact (List.append_nil _).symm
  | binaryOperator s => rfl
  | unaryOperator s | function s => exact (List.append_nil _).symm

/-- Operators are appended in the order of their registration. -/
theorem extend_operators {τ : Type} {operators : Lexicon → List τ} {pick : Registration → Option τ}
    (hregister : ∀ l r, operators (l.register r) = operators l ++ (pick r).toList) (l : Lexicon)
    (rs : List Registration) : operators (l.extend rs) = operators l ++ rs.filterMap pick := by
  induction rs generalizing l with
  | nil => exact (List.append_nil _).symm
  | cons r rs ih =>
    rw [extend_cons, ih, hregister, List.append_assoc, List.filterMap_cons]
    cases pick r <;> rfl

/-- A function that is registered stays so unless another of its name is registered. -/
theorem mem_functions_extend (hdistinct : rs.Pairwise fun a b => ¬ a.Clashes b)
    {s : Spelled Function} :
    s ∈ (l.extend rs).functions ↔ .function s ∈ rs ∨
      s ∈ l.functions ∧ ∀ f, .function f ∈ rs → f.spelling ≠ s.spelling := by
  induction rs generalizing l with
  | nil => simp
  | cons r rs ih =>
    obtain ⟨hr, hrs⟩ := List.pairwise_cons.mp hdistinct
    rw [extend_cons, ih hrs, mem_functions_register]
    constructor
    · rintro (hs | ⟨rfl | ⟨hs, hkeep⟩, hlater⟩)
      · exact Or.inl (List.mem_cons_of_mem r hs)
      · exact Or.inl List.mem_cons_self
      · refine Or.inr ⟨hs, ?_⟩
        intro f hf
        rcases List.mem_cons.mp hf with rfl | hf
        · exact hkeep f rfl
        · exact hlater f hf
    · rintro (hs | ⟨hs, hkeep⟩)
      · rcases List.mem_cons.mp hs with rfl | hs
        · -- no later function has the name of this one
          refine Or.inr ⟨Or.inl rfl, ?_⟩
          intro f hf hsame
          exact hr _ hf hsame.symm
        · exact Or.inl hs
      · refine Or.inr ⟨Or.inr ⟨hs, ?_⟩, ?_⟩
        · rintro f rfl
          exact hkeep f List.mem_cons_self
        · intro f hf
          exact hkeep f (List.mem_cons_of_mem r hf)

/-! ### Lexicons that read alike -/

/-- Whether two lexicons have the same names, choose the same operators in front of every text, and
are as large. -/
structure ReadsAlike (l l' : Lexicon) : Prop where
  functions : l.functions = l'.functions
  variableNames : l.variableNames = l'.variableNames
  unaryOperator? : ∀ last input, l.unaryOperator? last input = l'.unaryOperator? last input
  binaryOperator? : ∀ last input, l.binaryOperator? last input = l'.binaryOperator? last input
  size : l.unaryOperators.length = l'.unaryOperators.length ∧
    l.binaryOperators.length = l'.binaryOperators.length

section

variable [Scalar α]

theorem ReadsAlike.nextToken_eq (h : ReadsAlike l l') (last : TokenId) (input : List Char) :
    l.nextToken (α := α) last input = l'.nextToken last input := by
  have hvariable : l.longestVariable? input = l'.longestVariable? input := by
    rw [longestVariable?, h.variableNames, longestVariable?]
  have hcallable : l.callable? input = l'.callable? input := by
    rw [callable?, h.functions, hvariable, callable?]
  have hoperand : l.operand (α := α) input = l'.operand input := by
    rw [operand, hvariable, operand]
  have hword : l.word (α := α) last input = l'.word last input := by
    rw [word, h.unaryOperator?, h.binaryOperator?, hcallable, hoperand, word]
  cases input with
  | nil => exact hword
  | cons c cs =>
    cases hc : isDelimiter c with
    | true =>
      obtain ⟨t, -, hread⟩ := nextToken_cons_of_delimiter (α := α) hc
      rw [hread, hread]
    | false => rw [nextToken_cons_of_plain hc, nextToken_cons_of_plain hc, hword]

theorem ReadsAlike.scanFrom_eq (h : ReadsAlike l l') (fuel : ℕ) (last : TokenId)
    (input : List Char) : l.scanFrom (α := α) fuel last input = l'.scanFrom fuel last input := by
  induction fuel generalizing last input with
  | zero => rfl
  | succ fuel ih => simp only [scanFrom, h.nextToken_eq, ih]

theorem ReadsAlike.lex_eq (h : ReadsAlike l l') (source : String) :
    l.lex (α := α) source = l'.lex source := by
  have hbound : l.scanBound source.toList = l'.scanBound source.toList := by
    rw [scanBound, h.size.1, h.size.2, scanBound]
  rw [lex, scan, hbound, h.scanFrom_eq, lex, scan]

end

/-! ### The order of registration -/

theorem ReadsAlike.extend_perm (hl : l.Built) (hperm : rs.Perm rs')
    (hdistinct : rs.Pairwise fun a b => ¬ a.Clashes b) :
    ReadsAlike (l.extend rs) (l.extend rs') where
  functions := by
    have hdistinct' := hperm.pairwise hdistinct fun hab hba => hab hba.symm
    refine Ranked.eq_of_mem_iff (hl.extend rs).inOrder.functions
      (hl.extend rs').inOrder.functions fun s => ?_
    simp only [mem_functions_extend hdistinct, mem_functions_extend hdistinct', hperm.mem_iff]
  variableNames := by
    refine Ranked.eq_of_mem_iff (hl.extend rs).inOrder.variableNames
      (hl.extend rs').inOrder.variableNames fun n => ?_
    simp only [mem_variableNames_extend, hperm.mem_iff]
  unaryOperator? last input := by
    unfold Lexicon.unaryOperator?
    rw [extend_operators unaryOperators_register, extend_operators unaryOperators_register]
    apply Spelled.longest?_filter_append_perm (hperm.filterMap _)
    · exact Registration.pairwise_filterMap Registration.Clashes.of_unaryOperator? hdistinct
    · exact fun s hs => (Bool.and_eq_true_iff.mp hs).1
  binaryOperator? last input := by
    unfold Lexicon.binaryOperator?
    rw [extend_operators binaryOperators_register, extend_operators binaryOperators_register]
    have hlongest : Spelled.longest? ((l.binaryOperators ++
          rs.filterMap Registration.binaryOperator?).filter fun s => s.isPrefixOf input) =
        Spelled.longest? ((l.binaryOperators ++
          rs'.filterMap Registration.binaryOperator?).filter fun s => s.isPrefixOf input) := by
      apply Spelled.longest?_filter_append_perm (hperm.filterMap _)
      · exact Registration.pairwise_filterMap Registration.Clashes.of_binaryOperator? hdistinct
      · exact fun s hs => hs
    rw [hlongest]
  size := by
    simp only [extend_operators unaryOperators_register, extend_operators binaryOperators_register,
      List.length_append]
    exact ⟨congrArg _ (hperm.filterMap _).length_eq, congrArg _ (hperm.filterMap _).length_eq⟩

/-- The order of registration does not matter. Entries of which no two clash extend a lexicon, in
any order, to lexicons under which every formula has the same tokens or the same error. They may
clash with what the lexicon already has. -/
theorem lex_extend_perm [Scalar α] (hl : l.Built) (hperm : rs.Perm rs')
    (hdistinct : rs.Pairwise fun a b => ¬ a.Clashes b) (source : String) :
    (l.extend rs).lex (α := α) source = (l.extend rs').lex source :=
  (ReadsAlike.extend_perm hl hperm hdistinct).lex_eq source

/-- Two stars are registered as an operator before or after a function and variables, one of which is
declared twice. -/
theorem lex_extend_perm_reverse :
    let rs : List Registration := [.binaryOperator ⟨"**", caret⟩, .variableName "lo",
      .function ⟨"log1p", ⟨1000, 1⟩⟩, .variableName "log1", .variableName "lo"]
    standard.Built ∧ rs.Perm rs.reverse ∧ rs.Pairwise (fun a b => ¬ a.Clashes b) ∧
      (standard.extend rs).lex (α := Double) "log1p(lo) ** log1" =
        (standard.extend rs.reverse).lex "log1p(lo) ** log1" := by
  intro rs
  have hperm : rs.Perm rs.reverse := rs.reverse_perm.symm
  have hdistinct : rs.Pairwise fun a b => ¬ a.Clashes b := by simp [rs, Registration.Clashes]
  exact ⟨standard_built, hperm, hdistinct, lex_extend_perm standard_built hperm hdistinct _⟩

end Lexicon

end FormulaCalculus
