import FormulaCalculus.Expression
import FormulaCalculus.Proofs.Call.Reading
import FormulaCalculus.Proofs.Postfix.Waiting
import FormulaCalculus.Proofs.Tree.Order
import FormulaCalculus.Scalar.Double

/-!
When the arguments of a call keep to themselves. A comma does not end its argument: operators that
the first argument leaves waiting come in behind the operands of the second one. So a call is the
node over its arguments exactly if nothing is left waiting, or if the second argument starts with an
operator that moves all of it.
-/

namespace FormulaCalculus

variable {α β : Type} [Scalar α] {l : Lexicon} {bindings : String → Option β}

namespace Expression

theorem compile_eq_ok_iff {source : String} {e : Expression α β} :
    compile l bindings source = .ok e ↔ e.source = source ∧ ∃ ts ps, l.lex source = .ok ts ∧
      toPostfix ts = .ok ps ∧ Node.Puts .standard bindings ps e.root := by
  unfold compile compileWith
  constructor
  · intro h
    obtain ⟨ts, hlex, h⟩ := exists_of_bind_eq_ok h
    obtain ⟨ps, hpostfix, h⟩ := exists_of_bind_eq_ok h
    obtain ⟨root, hroot, h⟩ := exists_of_bind_eq_ok h
    obtain rfl := Except.ok.inj h
    have hputs := Node.ofPostfix_eq_ok_iff.mp (of_mapError_eq_ok hroot)
    exact ⟨rfl, ts, ps, of_mapError_eq_ok hlex, of_mapError_eq_ok hpostfix, hputs⟩
  · rintro ⟨rfl, ts, ps, hlex, hpostfix, hputs⟩
    simp only [hlex, hpostfix, Node.ofPostfix_eq_ok_iff.mpr hputs, Except.mapError, bind,
      Except.bind, pure, Except.pure]

end Expression

/-- The parentheses of a text that compiles are balanced. -/
theorem parenDepth_of_toPostfix (hl : l.Plain) {last : TokenId} {cs : List Char}
    {ts ps : List (Token α)} (hreads : l.Reads last cs ts) (hts : toPostfix ts = .ok ps) :
    parenDepth 0 cs = some 0 := by
  obtain ⟨s, hrun, hops, -⟩ := Shunting.toPostfix_eq_ok_iff.mp hts
  have hclosed : Shunting.openParens s.stack = 0 := by
    have h := Shunting.openParens_append_of_ne (Shunting.ne_leftParen_of_operators hops) []
    rw [List.append_nil] at h
    exact h
  have hdepth := Shunting.run_parenDepth hrun
  rw [hclosed, ← hreads.filter_isDelimiter hl, parenDepth_filter] at hdepth
  exact hdepth

omit [Scalar α] in
theorem Node.Puts.operandFirst {ps : List (Token α)} {a : Node α β}
    (h : Node.Puts .standard bindings ps a) : OperandFirst ps := by
  obtain ⟨bs, hbs⟩ := a.order_head
  rw [h.order_eq] at hbs
  obtain ⟨t, ps, rfl, ht, -⟩ := List.map_eq_cons_iff.mp hbs
  exact ⟨t, ps, rfl, ht⟩

omit [Scalar α] in
theorem Node.Puts.pairFn {ps qs : List (Token α)} {a b : Node α β} (f : PairFn)
    (ha : Node.Puts .standard bindings ps a) (hb : Node.Puts .standard bindings qs b) :
    Node.Puts .standard bindings (ps ++ qs ++ [.function f.function]) (.binary f.fn a b) := by
  cases f with
  | pow => exact ha.two hb (fun _ => rfl) rfl Constructors.standard_get?_powCall
  | atan2 => exact ha.two hb (fun _ => rfl) rfl (Constructors.standard_get?_binaryFn .atan2)

variable {names : List String}

/-- A call lexes if its arguments do. -/
theorem Lexicon.lex_call (hnames : ∀ n ∈ names, IsPlain n.toList) (f : PairFn) {s t : String}
    {ts us : List (Token α)} (hs : (standard.withVariables names).lex s = .ok ts)
    (ht : (standard.withVariables names).lex t = .ok us)
    (hcall : checkCall f.name 2 ('(' :: (s.toList ++ ',' :: (t.toList ++ [')']))) = .ok ()) :
    (standard.withVariables names).lex (f.name ++ "(" ++ s ++ "," ++ t ++ ")") =
      .ok (callTokens f.function ts us) := by
  obtain ⟨hreads, hlength⟩ := lex_eq_ok_iff.mp hs
  obtain ⟨hreads', hlength'⟩ := lex_eq_ok_iff.mp ht
  have htext : (f.name ++ "(" ++ s ++ "," ++ t ++ ")").toList = callText f s.toList t.toList := by
    simp [callText, String.toList_append]
  refine lex_eq_ok_iff.mpr ⟨?_, ?_⟩
  · rw [htext]
    exact reads_callText hnames f hcall hreads hreads'
  · rw [htext]
    rw [scanBound_standard] at hlength hlength' ⊢
    simp only [callTokens, callText, List.length_cons, List.length_append, List.length_nil]
    omega

/-- A call of a function with two arguments is the function's node over the trees of its arguments
exactly if the second argument settles what the first one leaves waiting. -/
theorem Expression.compile_call_iff (hnames : ∀ n ∈ names, IsPlain n.toList)
    (f : PairFn) {s t : String} {a b : Node α β}
    (hs : compile (Lexicon.standard.withVariables names) bindings s = .ok ⟨s, a⟩)
    (ht : compile (Lexicon.standard.withVariables names) bindings t = .ok ⟨t, b⟩)
    (hscomma : hasOuterComma 0 s.toList = false) (htcomma : hasOuterComma 0 t.toList = false) :
    compile (Lexicon.standard.withVariables names) bindings
        (f.name ++ "(" ++ s ++ "," ++ t ++ ")") =
        .ok ⟨f.name ++ "(" ++ s ++ "," ++ t ++ ")", .binary f.fn a b⟩ ↔
      ∃ ts us : List (Token α), (Lexicon.standard.withVariables names).lex s = .ok ts ∧
        (Lexicon.standard.withVariables names).lex t = .ok us ∧ SettledBy ts us := by
  obtain ⟨-, ts, ps, hlex, hts, ha⟩ := compile_eq_ok_iff.mp hs
  obtain ⟨-, us, qs, hlex', hus, hb⟩ := compile_eq_ok_iff.mp ht
  have hplain := Lexicon.standard_plain hnames
  have hbalanced := parenDepth_of_toPostfix hplain (Lexicon.lex_eq_ok_iff.mp hlex).1 hts
  have hbalanced' := parenDepth_of_toPostfix hplain (Lexicon.lex_eq_ok_iff.mp hlex').1 hus
  have hcall := Lexicon.checkCall_callText f.name hbalanced hscomma hbalanced' htcomma
  have hlexcall := Lexicon.lex_call hnames f hlex hlex' hcall
  constructor
  · intro h
    obtain ⟨-, vs, rs, hvs, hrs, hroot⟩ := compile_eq_ok_iff.mp h
    obtain rfl := Except.ok.inj (hlexcall.symm.trans hvs)
    -- One tree has one order of operands and operators, whatever postfix text it is built from.
    have horder := hroot.order_eq.symm.trans (ha.pairFn f hb).order_eq
    exact ⟨ts, us, hlex, hlex',
      settledBy_of_toPostfix_callTokens hts hus hb.operandFirst hrs horder⟩
  · rintro ⟨ts', us', hts', hus', hsettled⟩
    obtain rfl := Except.ok.inj (hlex.symm.trans hts')
    obtain rfl := Except.ok.inj (hlex'.symm.trans hus')
    exact compile_eq_ok_iff.mpr ⟨rfl, _, _, hlexcall,
      toPostfix_callTokens hts hus hb.operandFirst hsettled, ha.pairFn f hb⟩

/-- A sum behind the comma stays there, with nothing waiting in front of it. -/
theorem Expression.compile_atan2_of_sum :
    (compile (Lexicon.standard.withVariables ["x", "y"]) (fun _ => some ())
        (PairFn.atan2.name ++ "(" ++ "x" ++ "," ++ "x+y" ++ ")") : Except (Error Double) _) =
      .ok ⟨PairFn.atan2.name ++ "(" ++ "x" ++ "," ++ "x+y" ++ ")",
        .binary .atan2 (.variableLeaf "x" ())
          (.binary .add (.variableLeaf "x" ()) (.variableLeaf "y" ()))⟩ := by
  have hnames : ∀ n ∈ ["x", "y"], IsPlain n.toList := by
    simp [IsPlain, isDelimiter]
  refine (compile_call_iff hnames .atan2 rfl rfl rfl rfl).mpr ⟨_, _, rfl, rfl, ?_⟩
  intro o ho
  exact absurd ho List.not_mem_nil

/-- A sum in front of the comma loses its second operand to what stands behind the comma. -/
theorem Expression.compile_pow_of_sum :
    let x : Node Double Unit := .variableLeaf "x" ()
    let y : Node Double Unit := .variableLeaf "y" ()
    let read := compile (α := Double) (Lexicon.standard.withVariables ["x", "y"]) fun _ => some ()
    read "x+y" = .ok ⟨"x+y", .binary .add x y⟩ ∧ read "x" = .ok ⟨"x", x⟩ ∧
      read "pow(x+y,x)" = .ok ⟨"pow(x+y,x)", .binary .pow x (.binary .add y x)⟩ ∧
      read "pow(x+y,x)" ≠ .ok ⟨"pow(x+y,x)", .binary .pow (.binary .add x y) x⟩ := by
  intro x y read
  have hcall : read "pow(x+y,x)" = .ok ⟨"pow(x+y,x)", .binary .pow x (.binary .add y x)⟩ := rfl
  refine ⟨rfl, rfl, hcall, ?_⟩
  rw [hcall]
  simp [x]

end FormulaCalculus
