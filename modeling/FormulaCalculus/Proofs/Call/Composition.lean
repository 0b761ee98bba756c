import FormulaCalculus.Proofs.Call.Arguments

/-!
Compilation is compositional: whatever compiles, compiles to the same tree in parentheses, and what
is written around the parentheses is built around that tree. Behind an opening parenthesis a formula
is read as at the start of a text, and the parenthesis on the stack hides what waits below it.
-/

namespace FormulaCalculus

open Lexicon Shunting

variable {α β : Type}

section Postfix

variable {ts us ps qs : List (Token α)}

theorem noCall_nil : NoCall ([] : List (Token α)) := by
  intro f rest h
  simp at h

theorem noCall_cons {t : Token α} {k : List (Token α)} (ht : ∀ f, t ≠ .function f) :
    NoCall (t :: k) := by
  intro f rest h
  exact ht f (List.cons.inj h).1

/-- Behind an opening parenthesis a formula leaves only operators above the parenthesis. -/
theorem Shunting.run_leftParen (hts : toPostfix ts = .ok ps) (o k : List (Token α)) :
    ∃ out waiting, out ++ waiting = ps ∧ (∀ t ∈ waiting, t ≠ .leftParen) ∧
      run ⟨o, k⟩ (.leftParen :: ts) = .ok ⟨o ++ out, waiting ++ .leftParen :: k⟩ := by
  obtain ⟨⟨out, waiting⟩, hrun, hops, hps⟩ := toPostfix_eq_ok_iff.mp hts
  refine ⟨out, waiting, hps, ?_, ?_⟩
  · rintro t ht rfl
    exact Bool.noConfusion (hops _ ht)
  · have habove := run_above_paren hrun o k
    rw [List.append_nil, List.nil_append] at habove
    exact run_cons_eq_ok_iff.mpr ⟨_, .opening, habove⟩

/-- A formula in parentheses is put out and leaves nothing on the stack. -/
theorem Shunting.run_parenTokens (hts : toPostfix ts = .ok ps) {o k : List (Token α)}
    (hk : NoCall k) : run ⟨o, k⟩ (parenTokens ts) = .ok ⟨o ++ ps, k⟩ := by
  obtain ⟨out, waiting, rfl, hparen, hrun⟩ := run_leftParen hts o k
  have hclose := Steps.closing (o := o ++ out) hparen hk
  rw [List.append_assoc] at hclose
  rw [parenTokens, ← List.cons_append, run_append, hrun]
  exact run_cons_eq_ok_iff.mpr ⟨_, hclose, rfl⟩

/-- The parentheses of a call put the function out behind the formula. -/
theorem Shunting.run_function (hts : toPostfix ts = .ok ps) (f : Function) (o k : List (Token α)) :
    run ⟨o, k⟩ (.function f :: parenTokens ts) = .ok ⟨o ++ ps ++ [.function f], k⟩ := by
  obtain ⟨out, waiting, rfl, hparen, hrun⟩ := run_leftParen hts o (.function f :: k)
  have hclose := Steps.closingCall (o := o ++ out) (b := k) (f := f) hparen
  rw [List.append_assoc o] at hclose
  refine run_cons_eq_ok_iff.mpr ⟨_, .name, ?_⟩
  rw [parenTokens, ← List.cons_append, run_append, hrun]
  exact run_cons_eq_ok_iff.mpr ⟨_, hclose, rfl⟩

theorem Shunting.Steps.operator_nil {t : Token α} (ht : t.isOperator = true) (o : List (Token α)) :
    Steps ⟨o, []⟩ t ⟨o, [t]⟩ := by
  obtain ⟨n, hn⟩ := Token.exists_threshold? ht
  have h := Steps.operator (o := o) (a := []) (b := []) hn (by simp) trivial
  rwa [List.append_nil o] at h

theorem toPostfix_parenTokens (hts : toPostfix ts = .ok ps) :
    toPostfix (parenTokens ts) = .ok ps :=
  toPostfix_eq_ok_iff.mpr ⟨⟨ps, []⟩, run_parenTokens hts noCall_nil, by simp, List.append_nil ps⟩

theorem toPostfix_minus (hts : toPostfix ts = .ok ps) :
    toPostfix (.unaryOperator minus :: parenTokens ts) = .ok (ps ++ [.unaryOperator minus]) := by
  have hcall : NoCall [Token.unaryOperator (α := α) minus] := noCall_cons (by simp)
  have hrun := run_cons_eq_ok_iff.mpr ⟨_, Steps.operator_nil rfl [], run_parenTokens hts hcall⟩
  exact toPostfix_eq_ok_iff.mpr ⟨_, hrun, by simp [Token.isOperator], rfl⟩

theorem toPostfix_function (hts : toPostfix ts = .ok ps) (f : Function) :
    toPostfix (.function f :: parenTokens ts) = .ok (ps ++ [.function f]) :=
  toPostfix_eq_ok_iff.mpr ⟨_, run_function hts f [] [], by simp, List.append_nil _⟩

/-- A binary operator between parentheses waits for the second of them. -/
theorem toPostfix_binaryOperator (hts : toPostfix ts = .ok ps) (hus : toPostfix us = .ok qs)
    (op : BinaryOperator) :
    toPostfix (parenTokens ts ++ .binaryOperator op :: parenTokens us) =
      .ok (ps ++ qs ++ [.binaryOperator op]) := by
  have hleft : initial.run (parenTokens ts) = .ok ⟨ps, []⟩ := run_parenTokens hts noCall_nil
  have hcall : NoCall [Token.binaryOperator (α := α) op] := noCall_cons (by simp)
  have hright := run_parenTokens (o := ps) hus hcall
  have hrun : initial.run (parenTokens ts ++ .binaryOperator op :: parenTokens us) =
      .ok ⟨ps ++ qs, [.binaryOperator op]⟩ := by
    rw [run_append, hleft]
    exact run_cons_eq_ok_iff.mpr ⟨_, Steps.operator_nil rfl ps, hright⟩
  exact toPostfix_eq_ok_iff.mpr ⟨_, hrun, by simp [Token.isOperator], rfl⟩

/-- Arguments in parentheses of their own leave nothing waiting at the comma. -/
theorem toPostfix_callTokens_parenTokens (hts : toPostfix ts = .ok ps) (hus : toPostfix us = .ok qs)
    (f : Function) :
    toPostfix (callTokens f (parenTokens ts) (parenTokens us)) =
      .ok (ps ++ qs ++ [.function f]) := by
  have hcall : NoCall [Token.leftParen (α := α), .function f] := noCall_cons (by simp)
  have hfirst : run ⟨[], [.leftParen, .function f]⟩ (parenTokens ts) =
      .ok ⟨ps, [.leftParen, .function f]⟩ := run_parenTokens hts hcall
  have hsecond := run_parenTokens (o := ps) hus hcall
  have hclose : Steps ⟨ps ++ qs, [.leftParen, .function f]⟩ .rightParen
      ⟨ps ++ qs ++ [.function f], []⟩ := by
    have h := Steps.closingCall (o := ps ++ qs) (a := []) (b := []) (f := f) (by simp)
    rwa [List.append_nil (ps ++ qs)] at h
  have hrun : initial.run (callTokens f (parenTokens ts) (parenTokens us)) =
      .ok ⟨ps ++ qs ++ [.function f], []⟩ := by
    refine run_cons_eq_ok_iff.mpr ⟨_, .name, run_cons_eq_ok_iff.mpr ⟨_, .opening, ?_⟩⟩
    rw [run_append, show run ⟨[], [.leftParen, .function f]⟩ (parenTokens ts) = _ from hfirst]
    refine run_cons_eq_ok_iff.mpr ⟨_, .comma, ?_⟩
    rw [run_append, hsecond]
    exact run_cons_eq_ok_iff.mpr ⟨_, hclose, rfl⟩
  exact toPostfix_eq_ok_iff.mpr ⟨_, hrun, by simp, List.append_nil _⟩

end Postfix

variable [Scalar α] {names : List String}

section Reading

variable {cs ds : List Char} {ts us : List (Token α)}

/-- A text in parentheses is read as it is read alone. -/
theorem Lexicon.Reads.parens (hnames : ∀ n ∈ names, IsPlain n.toList)
    (hcs : Reads (standard.withVariables names) TokenId.start cs ts)
    (hds : Reads (standard.withVariables names) TokenId.rightParen ds us) (last : TokenId) :
    Reads (standard.withVariables names) last ('(' :: (cs ++ ')' :: ds))
      (parenTokens ts ++ us) := by
  have hinside : Reads (standard.withVariables names) TokenId.leftParen cs ts :=
    hcs.of_interchangeable (standard_interchangeable (by decide))
  have hclose (last : TokenId) :
      Reads (standard.withVariables names) last (')' :: ds) (.rightParen :: us) :=
    .delimiter (by decide) rfl hds
  have happend := hinside.append (standard_plain hnames) (by decide) hclose
  rw [parenTokens, List.cons_append, List.append_assoc]
  exact .delimiter (by decide) rfl happend

end Reading

variable {bindings : String → Option β} {s t : String} {ts us ps qs : List (Token α)}
  {a b : Node α β}

/-- What the stages of compilation make of a text: its tokens, their postfix order, and the tree. -/
structure Stages (names : List String) (bindings : String → Option β) (s : String)
    (ts ps : List (Token α)) (a : Node α β) : Prop where
  reads : Reads (standard.withVariables names) TokenId.start s.toList ts
  length_le : ts.length ≤ s.toList.length * 8
  ordered : toPostfix ts = .ok ps
  puts : Node.Puts .standard bindings ps a

theorem compile_eq_ok_iff_stages :
    Expression.compile (standard.withVariables names) bindings s = .ok ⟨s, a⟩ ↔
      ∃ ts ps : List (Token α), Stages names bindings s ts ps a := by
  rw [Expression.compile_eq_ok_iff]
  constructor
  · rintro ⟨-, ts, ps, hlex, hordered, hputs⟩
    obtain ⟨hreads, hlength⟩ := lex_eq_ok_iff.mp hlex
    rw [scanBound_standard] at hlength
    exact ⟨ts, ps, hreads, by omega, hordered, hputs⟩
  · rintro ⟨ts, ps, h⟩
    have hlength : ts.length < (standard.withVariables names).scanBound s.toList := by
      rw [scanBound_standard]
      have hle := h.length_le
      omega
    exact ⟨rfl, ts, ps, lex_eq_ok_iff.mpr ⟨h.reads, hlength⟩, h.ordered, h.puts⟩

namespace Stages

variable (hnames : ∀ n ∈ names, IsPlain n.toList) (hs : Stages names bindings s ts ps a)
  (ht : Stages names bindings t us qs b)

include hnames hs

theorem parenDepth_eq : parenDepth 0 s.toList = some 0 :=
  parenDepth_of_toPostfix (standard_plain hnames) hs.reads hs.ordered

/-- A formula in parentheses is itself. -/
theorem parens : Stages names bindings ("(" ++ s ++ ")") (parenTokens ts) ps a where
  reads := by
    have h := hs.reads.parens hnames .nil TokenId.start
    simpa [String.toList_append] using h
  length_le := by
    have hle := hs.length_le
    simp [parenTokens, String.toList_append] at hle ⊢
    omega
  ordered := toPostfix_parenTokens hs.ordered
  puts := hs.puts

theorem hasOuterComma_parens : hasOuterComma 0 ("(" ++ s ++ ")").toList = false := by
  have hdepth := hs.parenDepth_eq hnames
  have hinside : hasOuterComma 1 (s.toList ++ [')']) = false := by
    rw [hasOuterComma_append (parenDepth_succ hdepth), hasOuterComma_succ hdepth]
    rfl
  simpa [String.toList_append, hasOuterComma] using hinside

theorem negated :
    Stages names bindings ("-(" ++ s ++ ")") (.unaryOperator Lexicon.minus :: parenTokens ts)
      (ps ++ [.unaryOperator Lexicon.minus]) (.unary .neg a) where
  reads := by
    have hparens := hs.reads.parens hnames .nil TokenId.neg
    have h := hparens.minus (by decide : TokenId.start ∈ standardAllowedLeft)
    simpa [String.toList_append] using h
  length_le := by
    have hle := hs.length_le
    simp [parenTokens, String.toList_append] at hle ⊢
    omega
  ordered := toPostfix_minus hs.ordered
  puts := hs.puts.one (fun _ => rfl) rfl (Constructors.standard_get?_unaryFn .neg)

/-- A call counts the commas in its argument, so there must be none outside parentheses. -/
theorem call {f : UnaryFn} (hf : f ≠ .neg) (hcomma : hasOuterComma 0 s.toList = false) :
    Stages names bindings (f.name ++ "(" ++ s ++ ")") (.function f.function :: parenTokens ts)
      (ps ++ [.function f.function]) (.unary f a) where
  reads := by
    have hcommas : callCommas 0 (s.toList ++ [')']) = some 0 := by
      rw [callCommas_append (hs.parenDepth_eq hnames) hcomma]
      rfl
    have hcheck : checkCall f.name f.function.arity ('(' :: (s.toList ++ [')'])) = .ok () := by
      simp [checkCall, hcommas, UnaryFn.function]
    have hparens := hs.reads.parens hnames .nil f.id
    have h := hparens.function hnames (unaryFn_mem_standardFunctions hf) hcheck TokenId.start
    simpa [String.toList_append] using h
  length_le := by
    have hle := hs.length_le
    simp [parenTokens, String.toList_append] at hle ⊢
    omega
  ordered := toPostfix_function hs.ordered _
  puts := hs.puts.one (fun _ => rfl) rfl (Constructors.standard_get?_unaryFn f)

include ht

theorem binary {f : BinaryFn} {o : Spelled BinaryOperator} (ho : o ∈ standardBinaryOperators)
    (hid : o.token.id = f.id) :
    Stages names bindings ("(" ++ s ++ ")" ++ o.spelling ++ "(" ++ t ++ ")")
      (parenTokens ts ++ .binaryOperator o.token :: parenTokens us)
      (ps ++ qs ++ [.binaryOperator o.token]) (.binary f a b) where
  reads := by
    have hsecond := ht.reads.parens hnames .nil o.token.id
    have hsign := hsecond.binaryOperator ho
      (by decide : TokenId.rightParen ∉ standardDisallowedLeft)
    have h := hs.reads.parens hnames hsign TokenId.start
    simpa [String.toList_append] using h
  length_le := by
    have hle := hs.length_le
    have hle' := ht.length_le
    simp [parenTokens, String.toList_append] at hle hle' ⊢
    omega
  ordered := toPostfix_binaryOperator hs.ordered ht.ordered _
  puts := by
    have hget := Constructors.standard_get?_binaryFn (α := α) (β := β) f
    rw [← hid] at hget
    exact hs.puts.two ht.puts (fun _ => rfl) rfl hget

theorem pairCall (f : PairFn) :
    Stages names bindings (f.name ++ "((" ++ s ++ "),(" ++ t ++ "))")
      (callTokens f.function (parenTokens ts) (parenTokens us))
      (ps ++ qs ++ [.function f.function]) (.binary f.fn a b) where
  reads := by
    have hcheck := checkCall_callText f.name
      ((hs.parens hnames).parenDepth_eq hnames) (hs.hasOuterComma_parens hnames)
      ((ht.parens hnames).parenDepth_eq hnames) (ht.hasOuterComma_parens hnames)
    have h := reads_callText hnames f hcheck (hs.parens hnames).reads (ht.parens hnames).reads
    simpa [callText, callTokens, String.toList_append] using h
  length_le := by
    have hle := hs.length_le
    have hle' := ht.length_le
    simp [callTokens, parenTokens, String.toList_append] at hle hle' ⊢
    omega
  ordered := toPostfix_callTokens_parenTokens hs.ordered ht.ordered _
  puts := hs.puts.pairFn f ht.puts

end Stages

/-- Formulas that compile can be put together: in parentheses each is a formula of its own, and an
operator or function around the parentheses is a node over the trees of the formulas. -/
theorem Expression.compile_compositional (hnames : ∀ n ∈ names, IsPlain n.toList)
    (hs : compile (standard.withVariables names) bindings s = .ok ⟨s, a⟩)
    (ht : compile (standard.withVariables names) bindings t = .ok ⟨t, b⟩) :
    let gives (text : String) (c : Node α β) : Prop :=
      compile (standard.withVariables names) bindings text = .ok ⟨text, c⟩
    gives ("(" ++ s ++ ")") a ∧
      gives ("-(" ++ s ++ ")") (.unary .neg a) ∧
      (hasOuterComma 0 s.toList = false →
        ∀ f : UnaryFn, f ≠ .neg → gives (f.name ++ "(" ++ s ++ ")") (.unary f a)) ∧
      (∀ (f : BinaryFn) (sign : String), f.symbol? = some sign →
        gives ("(" ++ s ++ ")" ++ sign ++ "(" ++ t ++ ")") (.binary f a b)) ∧
      ∀ f : PairFn, gives (f.name ++ "((" ++ s ++ "),(" ++ t ++ "))") (.binary f.fn a b) := by
  intro gives
  obtain ⟨ts, ps, hs⟩ := compile_eq_ok_iff_stages.mp hs
  obtain ⟨us, qs, ht⟩ := compile_eq_ok_iff_stages.mp ht
  refine ⟨?_, ?_, ?_, ?_, ?_⟩
  · exact compile_eq_ok_iff_stages.mpr ⟨_, _, hs.parens hnames⟩
  · exact compile_eq_ok_iff_stages.mpr ⟨_, _, hs.negated hnames⟩
  · intro hcomma f hf
    exact compile_eq_ok_iff_stages.mpr ⟨_, _, hs.call hnames hf hcomma⟩
  · intro f sign hsign
    obtain ⟨o, ho, rfl, hid⟩ := exists_standardBinaryOperator hsign
    exact compile_eq_ok_iff_stages.mpr ⟨_, _, hs.binary hnames ht ho hid⟩
  · intro f
    exact compile_eq_ok_iff_stages.mpr ⟨_, _, hs.pairCall hnames ht f⟩

/-- The formulas `x+1` and `-x` put together in each way. -/
theorem Expression.compile_compositional_sum_minus :
    let x : Node Double Unit := .variableLeaf "x" ()
    let sum : Node Double Unit := .binary .add x (.constant (.unity [1]))
    let minus : Node Double Unit := .unary .neg x
    let gives (text : String) (c : Node Double Unit) : Prop :=
      compile (standard.withVariables ["x"]) (fun _ => some ()) text = .ok ⟨text, c⟩
    (∀ n ∈ ["x"], IsPlain n.toList) ∧ gives "x+1" sum ∧ gives "-x" minus ∧
      gives "(x+1)" sum ∧ gives "-(x+1)" (.unary .neg sum) ∧ gives "sin(x+1)" (.unary .sin sum) ∧
      gives "(x+1)/(-x)" (.binary .div sum minus) ∧
      gives "pow((x+1),(-x))" (.binary .pow sum minus) := by
  intro x sum minus gives
  have hnames : ∀ n ∈ ["x"], IsPlain n.toList := by
    simp [IsPlain, isDelimiter]
  have hsum : gives "x+1" sum := rfl
  have hminus : gives "-x" minus := rfl
  obtain ⟨hparens, hnegated, hcall, hbinary, hpair⟩ := compile_compositional hnames hsum hminus
  exact ⟨hnames, hsum, hminus, hparens, hnegated, hcall rfl .sin (by decide),
    hbinary .div "/" rfl, hpair .pow⟩

end FormulaCalculus
