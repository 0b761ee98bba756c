import FormulaCalculus.Proofs.Call.Reading
import FormulaCalculus.Proofs.Token.Operand

/-!
Texts that stand as operands: names, numerals, and operations in parentheses of their own. In front
of a sign, a delimiter or the end of the text each is read as the same tokens, whatever stands
before it and whatever follows.
-/

namespace FormulaCalculus

open Lexicon

variable {α : Type} [Scalar α] {names : List String}

/-- Whether a text is closed, has no comma of its own, and is read as the given tokens wherever an
operand can end behind it. -/
structure IsOperandText (names : List String) (cs : List Char) (ts : List (Token α)) : Prop where
  depth : parenDepth 0 cs = some 0
  comma : hasOuterComma 0 cs = false
  length_le : ts.length ≤ cs.length
  reads : ∀ {rest : List Char} {us : List (Token α)}, Stops rest →
    (∀ i, i ∉ standardDisallowedLeft → Reads (standard.withVariables names) i rest us) →
      ∀ last, Reads (standard.withVariables names) last (cs ++ rest) (ts ++ us)

theorem IsPlain.parenDepth_eq {cs : List Char} (h : IsPlain cs) (depth : Nat) :
    parenDepth depth cs = some depth := by
  rw [← parenDepth_filter, h.filter_eq_nil]
  rfl

theorem IsPlain.hasOuterComma_eq {cs : List Char} (h : IsPlain cs) (depth : Nat) :
    hasOuterComma depth cs = false := by
  induction cs with
  | nil => rfl
  | cons c cs ih =>
    obtain ⟨hc, hcs⟩ := isPlain_cons.mp h
    obtain ⟨hopen, hclose, hcomma⟩ := isDelimiter_eq_false.mp hc
    rw [hasOuterComma, if_neg hopen, if_neg hclose, ih hcs, beq_eq_false_iff_ne.mpr hcomma]
    rfl

theorem stops_cons {c : Char} (hc : isDelimiter c = true ∨ isSign c = true) (cs : List Char) :
    Stops (c :: cs) := by
  intro d hd
  obtain rfl := Option.some.inj hd
  exact hc

namespace IsOperandText

variable {cs ds rest : List Char} {ts us : List (Token α)} {last : TokenId}

omit [Scalar α] in
theorem id_not_mem_disallowed {t : Token α} (ht : t.isOperand = true) :
    t.id ∉ standardDisallowedLeft := by
  cases t with
  | constant c =>
    cases c with
    | zero s => exact (by decide : TokenId.zero ∉ standardDisallowedLeft)
    | unity s => exact (by decide : TokenId.unity ∉ standardDisallowedLeft)
    | negUnity s => exact (by decide : TokenId.negUnity ∉ standardDisallowedLeft)
    | nan s => exact (by decide : TokenId.nan ∉ standardDisallowedLeft)
    | number n => exact (by decide : TokenId.number ∉ standardDisallowedLeft)
  | variableName name => exact (by decide : TokenId.variableName ∉ standardDisallowedLeft)
  | _ => simp [Token.isOperand] at ht

/-- A token without delimiters that is an operand. -/
theorem of_nextToken {t : Token α} (hplain : IsPlain cs)
    (hblank : ∃ c more, cs = c :: more ∧ isBlank c = false) (ht : t.isOperand = true)
    (hnext : ∀ {rest : List Char}, Stops rest → ∀ last,
      (standard.withVariables names).nextToken last (cs ++ rest) = .ok (t, cs)) :
    IsOperandText names cs [t] where
  depth := hplain.parenDepth_eq 0
  comma := hplain.hasOuterComma_eq 0
  length_le := by
    obtain ⟨c, more, rfl, -⟩ := hblank
    simp
  reads := by
    intro rest us hrest hus last
    obtain ⟨c, more, rfl, hc⟩ := hblank
    exact .front hc (hnext hrest last) (hus t.id (id_not_mem_disallowed ht))

theorem name (hnames : ∀ m ∈ names, IsName m) {n : String} (hn : n ∈ names) :
    IsOperandText names n.toList [Token.variableName (α := α) n] := by
  have hname := hnames n hn
  obtain ⟨c, more, hspelling, -⟩ := hname.starts
  have hmem : c ∈ n.toList := by
    rw [hspelling]
    exact List.mem_cons_self
  exact of_nextToken hname.isPlain ⟨c, more, hspelling, (hname.chars c hmem).2.2⟩ rfl
    (fun hrest => nextToken_name hnames hn hrest)

theorem numeral (hnames : ∀ m ∈ names, IsName m) (hcs : IsNumeral cs) {c : Constant α}
    (hc : (⟨cs, false⟩ : Literal).constant? = some c) : IsOperandText names cs [.constant c] := by
  obtain ⟨d, more, hspelling, hdigit⟩ := hcs.exists_digit
  exact of_nextToken hcs.isPlain ⟨d, more, hspelling, (of_isDigit hdigit).2.2⟩ rfl
    (fun hrest => nextToken_numeral hnames hcs hc hrest)

/-- An operand in front of a closing parenthesis. -/
theorem reads_rightParen (h : IsOperandText names cs ts)
    (hus : ∀ i, i ∉ standardDisallowedLeft → Reads (standard.withVariables names) i rest us)
    (last : TokenId) :
    Reads (standard.withVariables names) last (cs ++ ')' :: rest) (ts ++ .rightParen :: us) := by
  have hclose (i : TokenId) :
      Reads (standard.withVariables names) i (')' :: rest) (.rightParen :: us) :=
    .delimiter (by decide) rfl (hus TokenId.rightParen (by decide))
  exact h.reads (stops_cons (by decide) rest) (fun i _ => hclose i) last

theorem parenDepth_between (h : IsOperandText names cs ts) (h' : IsOperandText names ds us)
    {between : List Char} (hbetween : parenDepth 0 between = some 0) :
    parenDepth 0 (cs ++ between ++ ds) = some 0 := by
  have hfirst : parenDepth 0 (cs ++ between) = some 0 := by
    rw [parenDepth_append, h.depth]
    exact hbetween
  rw [parenDepth_append, hfirst]
  exact h'.depth

/-- What is read behind an opening parenthesis is an operand in its parentheses. -/
theorem parens (hdepth : parenDepth 0 cs = some 0) (hlength : ts.length ≤ cs.length)
    (hreads : ∀ {rest : List Char} {us : List (Token α)},
      (∀ i, i ∉ standardDisallowedLeft → Reads (standard.withVariables names) i rest us) →
        Reads (standard.withVariables names) TokenId.leftParen (cs ++ ')' :: rest)
          (ts ++ .rightParen :: us)) :
    IsOperandText names ('(' :: (cs ++ [')'])) (parenTokens ts) where
  depth := by
    rw [show parenDepth 0 ('(' :: (cs ++ [')'])) = parenDepth 1 (cs ++ [')']) from rfl,
      parenDepth_append, parenDepth_succ hdepth]
    rfl
  comma := by
    rw [show hasOuterComma 0 ('(' :: (cs ++ [')'])) = hasOuterComma 1 (cs ++ [')']) from rfl,
      hasOuterComma_append (parenDepth_succ hdepth), hasOuterComma_succ hdepth]
    rfl
  length_le := by
    simp only [parenTokens, List.length_cons, List.length_append, List.length_nil]
    omega
  reads := by
    intro rest us _ hus last
    have hopen : Reads (standard.withVariables names) last ('(' :: (cs ++ ')' :: rest))
        (.leftParen :: (ts ++ .rightParen :: us)) := .delimiter (by decide) rfl (hreads hus)
    simpa [parenTokens] using hopen

/-- The name of a function in front of its arguments. -/
theorem function (hnames : ∀ m ∈ names, IsName m) {s : Spelled Function}
    (hs : s ∈ standardFunctions) (h : IsOperandText names ('(' :: cs) ts)
    (hcheck : checkCall s.spelling s.token.arity ('(' :: cs) = .ok ()) :
    IsOperandText names (s.spelling.toList ++ '(' :: cs) (.function s.token :: ts) := by
  have hplain : IsPlain s.spelling.toList := fun c hc => (standardFunctions_chars hs c hc).1
  have hdepth := hplain.parenDepth_eq 0
  refine ⟨?_, ?_, ?_, ?_⟩
  · rw [parenDepth_append, hdepth]
    exact h.depth
  · rw [hasOuterComma_append hdepth, hplain.hasOuterComma_eq]
    exact h.comma
  · have hle := h.length_le
    obtain ⟨c, more, hspelling, -⟩ := standardFunctions_spelling hs
    simp only [hspelling, List.length_cons, List.length_append] at hle ⊢
    omega
  · intro rest us hrest hus last
    have harguments := h.reads hrest hus s.token.id
    have hcall := harguments.function (fun m hm => (hnames m hm).isPlain) hs
      (checkCall_append hcheck rest) last
    rwa [List.append_assoc]

/-- A minus in front of an operand, in parentheses. -/
theorem negated (h : IsOperandText names cs ts) :
    IsOperandText names ('(' :: ('-' :: cs ++ [')']))
      (parenTokens (.unaryOperator minus :: ts)) := by
  refine parens h.depth (Nat.succ_le_succ h.length_le) ?_
  intro rest us hus
  have hoperand := h.reads_rightParen hus TokenId.neg
  exact hoperand.minus (by decide : TokenId.leftParen ∈ standardAllowedLeft)

/-- A sign between operands, in parentheses. -/
theorem operation {o : Spelled BinaryOperator} (ho : o ∈ standardBinaryOperators)
    (h : IsOperandText names cs ts) (h' : IsOperandText names ds us) :
    IsOperandText names ('(' :: (cs ++ o.spelling.toList ++ ds ++ [')']))
      (parenTokens (ts ++ .binaryOperator o.token :: us)) := by
  obtain ⟨c, hspelling, -, hdelimiter, hsign⟩ := standardBinaryOperators_spelling ho
  have hplain : IsPlain o.spelling.toList := by
    simp [hspelling, IsPlain, hdelimiter]
  refine parens (h.parenDepth_between h' (hplain.parenDepth_eq 0)) ?_ ?_
  · have hle := h.length_le
    have hle' := h'.length_le
    simp only [hspelling, List.length_cons, List.length_append, List.length_nil]
    omega
  · intro rest vs hvs
    have hsecond := h'.reads_rightParen hvs o.token.id
    have hstops : Stops (o.spelling.toList ++ (ds ++ ')' :: rest)) := by
      rw [hspelling]
      exact stops_cons (Or.inr hsign) _
    have hboth := h.reads hstops (fun i hi => hsecond.binaryOperator ho hi) TokenId.leftParen
    simpa using hboth

/-- A function of one operand. -/
theorem call (hnames : ∀ m ∈ names, IsName m) {f : UnaryFn} (hf : f ≠ .neg)
    (h : IsOperandText names cs ts) :
    IsOperandText names (f.name.toList ++ '(' :: (cs ++ [')']))
      (.function f.function :: parenTokens ts) := by
  have hparens : IsOperandText names ('(' :: (cs ++ [')'])) (parenTokens ts) :=
    parens h.depth h.length_le fun hus => h.reads_rightParen hus TokenId.leftParen
  have hcommas : callCommas 0 (cs ++ [')']) = some 0 := by
    rw [callCommas_append h.depth h.comma]
    rfl
  have hcheck : checkCall f.name f.function.arity ('(' :: (cs ++ [')'])) = .ok () := by
    simp [checkCall, hcommas, UnaryFn.function]
  exact hparens.function hnames (unaryFn_mem_standardFunctions hf) hcheck

/-- A function of two operands. -/
theorem pairCall (hnames : ∀ m ∈ names, IsName m) (f : PairFn) (h : IsOperandText names cs ts)
    (h' : IsOperandText names ds us) :
    IsOperandText names (f.name.toList ++ '(' :: (cs ++ [','] ++ ds ++ [')']))
      (.function f.function :: parenTokens (ts ++ .comma :: us)) := by
  have hparens : IsOperandText names ('(' :: (cs ++ [','] ++ ds ++ [')']))
      (parenTokens (ts ++ .comma :: us)) := by
    refine parens (h.parenDepth_between h' rfl) ?_ ?_
    · have hle := h.length_le
      have hle' := h'.length_le
      simp only [List.length_cons, List.length_append, List.length_nil]
      omega
    · intro rest vs hvs
      have hsecond := h'.reads_rightParen hvs TokenId.comma
      have hcomma (i : TokenId) : Reads (standard.withVariables names) i
          (',' :: (ds ++ ')' :: rest)) (.comma :: (us ++ .rightParen :: vs)) :=
        .delimiter (by decide) rfl hsecond
      have hboth := h.reads (stops_cons (by decide) _) (fun i _ => hcomma i) TokenId.leftParen
      simpa using hboth
  have hcheck : checkCall f.name f.function.arity ('(' :: (cs ++ [','] ++ ds ++ [')'])) =
      .ok () := by
    have hcall := checkCall_callText f.name h.depth h.comma h'.depth h'.comma
    have hcalled : checkCall f.name 2 ('(' :: (cs ++ [','] ++ ds ++ [')'])) = .ok () := by
      simpa using hcall
    cases f <;> exact hcalled
  exact hparens.function hnames (pairFn_mem_standardFunctions f) hcheck

end IsOperandText

end FormulaCalculus
