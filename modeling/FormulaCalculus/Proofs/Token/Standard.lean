import FormulaCalculus.Proofs.Grammar.Basic
import FormulaCalculus.Proofs.Token.Reading
import FormulaCalculus.Proofs.Token.Registration

/-!
Reading under the standard lexicon, with any variable names that have no delimiters. An operator is
read wherever it may stand, and the name of a function in front of a well-formed call is read as the
function, whatever variables are declared.
-/

namespace FormulaCalculus

/-- The characters that operators are written with. -/
def isSign (c : Char) : Bool := c == '^' || c == '*' || c == '/' || c == '+' || c == '-'

namespace Lexicon

variable {α : Type} [Scalar α]

section

variable (l : Lexicon) (names : List String)

@[simp] theorem withVariables_cons (name : String) :
    l.withVariables (name :: names) = (l.withVariable name).withVariables names := rfl

theorem withVariables_eq :
    l.withVariables names = { l with variableNames := (l.withVariables names).variableNames } := by
  induction names generalizing l with
  | nil => rfl
  | cons name names ih =>
    rw [withVariables_cons, ih, l.withVariable_eq name]

@[simp] theorem withVariables_unaryOperators :
    (l.withVariables names).unaryOperators = l.unaryOperators := by
  rw [withVariables_eq]

@[simp] theorem withVariables_binaryOperators :
    (l.withVariables names).binaryOperators = l.binaryOperators := by
  rw [withVariables_eq]

@[simp] theorem withVariables_functions : (l.withVariables names).functions = l.functions := by
  rw [withVariables_eq]

variable {l names}

theorem mem_variableNames_withVariables {n : String} :
    n ∈ (l.withVariables names).variableNames ↔ n ∈ names ∨ n ∈ l.variableNames := by
  rw [withVariables_eq_extend, mem_variableNames_extend, or_comm]
  simp

end

variable {names : List String}

omit [Scalar α] in
/-- The standard lexicon has no delimiters in its spellings. -/
theorem standard_plain (hnames : ∀ n ∈ names, IsPlain n.toList) :
    (standard.withVariables names).Plain where
  unaryOperators := by
    rw [withVariables_unaryOperators]
    simp only [isPlain_iff_all]
    decide
  binaryOperators := by
    rw [withVariables_binaryOperators]
    simp only [isPlain_iff_all]
    decide
  functions := by
    rw [withVariables_functions]
    simp only [isPlain_iff_all]
    decide
  variableNames := fun n hn =>
    (mem_variableNames_withVariables.mp hn).elim (hnames n) fun h => by simp [standard] at h

omit [Scalar α] in
/-- An argument starts like a formula. -/
theorem standard_interchangeable {i : TokenId} (hi : i ∈ standardAllowedLeft) :
    (standard.withVariables names).Interchangeable TokenId.start i where
  unary := by
    rw [withVariables_unaryOperators]
    revert i
    decide
  binary := by
    rw [withVariables_binaryOperators]
    revert i
    decide

/-- No variable name hides the name of a function that is called. -/
theorem size_longestVariable?_le {l : Lexicon} (hl : l.Plain) (name : String) (cs : List Char) :
    ((l.longestVariable? (name.toList ++ '(' :: cs)).map String.utf8ByteSize).getD 0 ≤
      name.utf8ByteSize := by
  rw [longestVariable?_append hl (by decide)]
  cases hfind : l.longestVariable? name.toList with
  | none => exact Nat.zero_le _
  | some n =>
    have hfront := List.find?_some hfind
    exact utf8ByteSize_le_of_isPrefixOf hfront

omit [Scalar α] in
/-- Among the functions whose names start the name of a function, the function itself is tried
first. -/
theorem InOrder.find?_functions {l : Lexicon} (h : l.InOrder) {s : Spelled Function}
    (hs : s ∈ l.functions) :
    l.functions.find? (fun r => r.isPrefixOf s.spelling.toList) = some s := by
  apply h.functions.find?_eq_some_iff.mpr
  refine ⟨hs, List.isPrefixOf_iff_prefix.mpr (List.prefix_refl _), ?_⟩
  intro r hr hfront
  rcases (utf8ByteSize_le_of_isPrefixOf hfront).lt_or_eq with hlt | heq
  · exact Or.inr (rank_lt_of_utf8ByteSize_lt hlt)
  · have hsame := eq_of_isPrefixOf_of_utf8ByteSize_le hfront heq.ge
    exact Or.inl (h.functions.eq_of_name_eq hr hs hsame)

theorem callable?_function (hnames : ∀ n ∈ names, IsPlain n.toList) {s : Spelled Function}
    (hs : s ∈ standardFunctions) {cs : List Char}
    (hcall : checkCall s.spelling s.token.arity ('(' :: cs) = .ok ()) :
    (standard.withVariables names).callable? (s.spelling.toList ++ '(' :: cs) = .ok (some s) := by
  have hplain := standard_plain hnames
  have hleast := size_longestVariable?_le hplain s.spelling cs
  have hfront (r : Spelled Function) (hr : r ∈ standard.functions) :
      r.isPrefixOf (s.spelling.toList ++ '(' :: cs) = r.isPrefixOf s.spelling.toList :=
    Spelled.isPrefixOf_append (by decide) (hplain.functions r (by simpa using hr)) _ _
  unfold callable?
  dsimp only
  -- Only that it is no longer than the name matters of the longest variable.
  generalize ((((standard.withVariables names).longestVariable?
    (s.spelling.toList ++ '(' :: cs)).map String.utf8ByteSize).getD 0) = least at hleast ⊢
  have hfind : standard.functions.find? (fun r =>
      r.isPrefixOf (s.spelling.toList ++ '(' :: cs) && decide (least ≤ r.spelling.utf8ByteSize)) =
        some s := by
    obtain ⟨hself, before, behind, hsplit, hbefore⟩ :=
      List.find?_eq_some_iff_append.mp (standard_built.inOrder.find?_functions hs)
    rw [List.find?_congr fun r hr => by rw [hfront r hr]]
    refine List.find?_eq_some_iff_append.mpr ⟨?_, before, behind, hsplit, fun r hr => ?_⟩
    · simp [hself, hleast]
    · have hskip := hbefore r hr
      simp_all
  rw [withVariables_functions, hfind]
  dsimp only
  rw [List.drop_left, hcall]
  rfl

omit [Scalar α] in
/-- The name of a function starts like no other token. -/
theorem standardFunctions_spelling {s : Spelled Function} (hs : s ∈ standardFunctions) :
    ∃ c cs, s.spelling.toList = c :: cs ∧ isDelimiter c = false ∧ isBlank c = false ∧
      isSign c = false ∧ c.isDigit = false := by
  have hhead : s.spelling.toList.head?.any (fun c =>
      !isDelimiter c && !isBlank c && !isSign c && !c.isDigit) = true := by
    revert s
    decide
  cases hspelling : s.spelling.toList with
  | nil => simp [hspelling] at hhead
  | cons c cs => exact ⟨c, cs, rfl, by simpa [hspelling, and_assoc] using hhead⟩

omit [Scalar α] in
/-- Where no sign stands there is no operator. -/
theorem noOperator (names : List String) {c : Char} (hc : isSign c = false) (last : TokenId)
    (cs : List Char) :
    (standard.withVariables names).unaryOperator? last (c :: cs) = none ∧
      (standard.withVariables names).binaryOperator? last (c :: cs) = .ok none := by
  simp only [isSign, Bool.or_eq_false_iff, beq_eq_false_iff_ne] at hc
  obtain ⟨⟨⟨⟨hpow, hmul⟩, hdiv⟩, hadd⟩, hsub⟩ := hc
  have hunary : standardUnaryOperators.filter (fun s => s.isPrefixOf (c :: cs) &&
      s.token.allowedLeft.contains last) = [] := by
    simp [standardUnaryOperators, Spelled.isPrefixOf, Ne.symm hsub]
  have hbinary : standardBinaryOperators.filter (fun s => s.isPrefixOf (c :: cs)) = [] := by
    simp [standardBinaryOperators, Spelled.isPrefixOf, Ne.symm hpow, Ne.symm hmul, Ne.symm hdiv,
      Ne.symm hadd, Ne.symm hsub]
  refine ⟨?_, ?_⟩
  · rw [unaryOperator?, withVariables_unaryOperators]
    exact congrArg Spelled.longest? hunary
  · rw [binaryOperator?, withVariables_binaryOperators,
      show standard.binaryOperators.filter (fun s => s.isPrefixOf (c :: cs)) = [] from hbinary]
    rfl

/-- The name of a function in front of a well-formed call is read as the function. -/
theorem nextToken_function (hnames : ∀ n ∈ names, IsPlain n.toList) {s : Spelled Function}
    (hs : s ∈ standardFunctions) {cs : List Char}
    (hcall : checkCall s.spelling s.token.arity ('(' :: cs) = .ok ()) (last : TokenId) :
    (standard.withVariables names).nextToken (α := α) last (s.spelling.toList ++ '(' :: cs) =
      .ok (.function s.token, s.spelling.toList) := by
  obtain ⟨c, rest, hspelling, hdelimiter, -, hsign, -⟩ := standardFunctions_spelling hs
  have hcallable := callable?_function hnames hs hcall
  rw [hspelling, List.cons_append] at hcallable ⊢
  obtain ⟨hunary, hbinary⟩ := noOperator names hsign last (rest ++ '(' :: cs)
  rw [nextToken_cons_of_plain hdelimiter, word, hunary, hbinary, hcallable]
  exact congrArg (fun text => Except.ok (Token.function s.token, text)) hspelling

/-- No more than eight tokens are read for each character. -/
theorem scanBound_standard (cs : List Char) :
    (standard.withVariables names).scanBound cs = cs.length * 8 + 1 := by
  unfold scanBound
  rw [withVariables_unaryOperators, withVariables_binaryOperators]
  rfl

theorem nextToken_minus {last : TokenId} (hlast : last ∈ standardAllowedLeft) (cs : List Char) :
    (standard.withVariables names).nextToken (α := α) last ('-' :: cs) =
      .ok (.unaryOperator minus, ['-']) := by
  have hunary : (standard.withVariables names).unaryOperator? last ('-' :: cs) =
      some ⟨"-", minus⟩ := by
    rw [unaryOperator?, withVariables_unaryOperators]
    simp only [standardAllowedLeft, List.mem_cons, List.not_mem_nil, or_false] at hlast
    rcases hlast with rfl | rfl | rfl <;> rfl
  rw [nextToken_cons_of_plain (by decide), word, hunary]
  rfl

omit [Scalar α] in
/-- No minus is read where none may stand. -/
theorem unaryOperator?_of_not_mem {last : TokenId} (hlast : last ∉ standardAllowedLeft)
    (cs : List Char) : (standard.withVariables names).unaryOperator? last cs = none := by
  rw [unaryOperator?, withVariables_unaryOperators]
  have hnone : standardUnaryOperators.filter (fun s =>
      s.isPrefixOf cs && s.token.allowedLeft.contains last) = [] := by
    apply List.filter_eq_nil_iff.mpr
    intro s hs hmatch
    obtain rfl := List.mem_singleton.mp hs
    exact hlast (List.contains_iff_mem.mp (Bool.and_eq_true_iff.mp hmatch).2)
  exact congrArg Spelled.longest? hnone

theorem standardBinaryOperators_spelling {o : Spelled BinaryOperator}
    (ho : o ∈ standardBinaryOperators) :
    ∃ c, o.spelling.toList = [c] ∧ isBlank c = false ∧ isDelimiter c = false ∧
      isSign c = true := by
  simp only [standardBinaryOperators, List.mem_cons, List.not_mem_nil, or_false] at ho
  rcases ho with rfl | rfl | rfl | rfl | rfl <;> exact ⟨_, rfl, by decide, by decide, by decide⟩

/-- The sign of a binary operator behind an operand is read as the operator, whatever stands behind
it. -/
theorem nextToken_binaryOperator {o : Spelled BinaryOperator} (ho : o ∈ standardBinaryOperators)
    {last : TokenId} (hlast : last ∉ standardDisallowedLeft) (cs : List Char) :
    (standard.withVariables names).nextToken (α := α) last (o.spelling.toList ++ cs) =
      .ok (.binaryOperator o.token, o.spelling.toList) := by
  have hallowed : last ∉ standardAllowedLeft := by
    intro h
    have hsubset : ∀ i ∈ standardAllowedLeft, i ∈ standardDisallowedLeft := by decide
    exact hlast (hsubset last h)
  have hdisallowed : standardDisallowedLeft.contains last = false :=
    Bool.eq_false_iff.mpr fun h => hlast (List.contains_iff_mem.mp h)
  have hunary : (standard.withVariables names).unaryOperator? last (o.spelling.toList ++ cs) =
      none := unaryOperator?_of_not_mem hallowed _
  have hbinary : (standard.withVariables names).binaryOperator? last (o.spelling.toList ++ cs) =
      .ok (some o) := by
    rw [binaryOperator?, withVariables_binaryOperators]
    simp only [standardBinaryOperators, List.mem_cons, List.not_mem_nil, or_false] at ho
    -- Each sign is one character, so the first character alone decides.
    rcases ho with rfl | rfl | rfl | rfl | rfl <;>
      exact if_neg (Bool.eq_false_iff.mp hdisallowed)
  have hword : (standard.withVariables names).word (α := α) last (o.spelling.toList ++ cs) =
      .ok (.binaryOperator o.token, o.spelling.toList) := by
    rw [word, hunary, hbinary]
    rfl
  obtain ⟨c, hspelling, -, hdelimiter, -⟩ := standardBinaryOperators_spelling ho
  rw [hspelling, List.cons_append] at hword ⊢
  rw [nextToken_cons_of_plain hdelimiter, hword]

theorem exists_standardBinaryOperator {f : BinaryFn} {sign : String} (hf : f.symbol? = some sign) :
    ∃ o ∈ standardBinaryOperators, o.spelling = sign ∧ o.token.id = f.id := by
  rw [standardBinaryOperators_eq]
  cases f with
  | atan2 => simp [BinaryFn.symbol?] at hf
  | pow => exact ⟨⟨"^", caret⟩, by simp, Option.some.inj hf, rfl⟩
  | mul => exact ⟨⟨"*", ProductSign.times.operator⟩, by simp, Option.some.inj hf, rfl⟩
  | div => exact ⟨⟨"/", ProductSign.divided.operator⟩, by simp, Option.some.inj hf, rfl⟩
  | add => exact ⟨⟨"+", SumSign.plus.operator⟩, by simp, Option.some.inj hf, rfl⟩
  | sub => exact ⟨⟨"-", SumSign.less.operator⟩, by simp, Option.some.inj hf, rfl⟩

namespace Reads

variable {last : TokenId} {cs : List Char} {ts : List (Token α)}

/-- A call is read as its function and what stands behind its name. -/
theorem function (hnames : ∀ n ∈ names, IsPlain n.toList) {s : Spelled Function}
    (hs : s ∈ standardFunctions) (hcall : checkCall s.spelling s.token.arity ('(' :: cs) = .ok ())
    (h : Reads (standard.withVariables names) s.token.id ('(' :: cs) ts) (last : TokenId) :
    Reads (standard.withVariables names) last (s.spelling.toList ++ '(' :: cs)
      (.function s.token :: ts) := by
  obtain ⟨c, rest, hspelling, -, hblank, -⟩ := standardFunctions_spelling hs
  have hnext := nextToken_function (α := α) hnames hs hcall last
  rw [hspelling] at hnext ⊢
  exact front hblank hnext h

theorem minus (h : Reads (standard.withVariables names) TokenId.neg cs ts)
    (hlast : last ∈ standardAllowedLeft) :
    Reads (standard.withVariables names) last ('-' :: cs) (.unaryOperator Lexicon.minus :: ts) := by
  have hblank : isBlank '-' = false := by decide
  have hnext : (standard.withVariables names).nextToken (α := α) last ('-' :: [] ++ cs) =
      .ok (.unaryOperator Lexicon.minus, '-' :: []) := nextToken_minus hlast cs
  exact front hblank hnext h

theorem binaryOperator {o : Spelled BinaryOperator} (ho : o ∈ standardBinaryOperators)
    (h : Reads (standard.withVariables names) o.token.id cs ts)
    (hlast : last ∉ standardDisallowedLeft) :
    Reads (standard.withVariables names) last (o.spelling.toList ++ cs)
      (.binaryOperator o.token :: ts) := by
  have hnext : (standard.withVariables names).nextToken (α := α) last (o.spelling.toList ++ cs) =
      .ok (.binaryOperator o.token, o.spelling.toList) := nextToken_binaryOperator ho hlast cs
  obtain ⟨c, hspelling, hblank, -⟩ := standardBinaryOperators_spelling ho
  rw [hspelling] at hnext ⊢
  exact front hblank hnext h

end Reads

end Lexicon

end FormulaCalculus
