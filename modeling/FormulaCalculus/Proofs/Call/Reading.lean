import FormulaCalculus.Proofs.Token.Standard

/-!
Reading a call of a function with two arguments under the standard lexicon. Each argument is read
as it is read alone, and the commas that are counted for the call are its own.
-/

namespace FormulaCalculus

namespace Lexicon

variable {α : Type} [Scalar α] {names : List String}

/-- The text of a call with two arguments. -/
def callText (f : PairFn) (s t : List Char) : List Char :=
  f.name.toList ++ '(' :: (s ++ ',' :: (t ++ [')']))

omit [Scalar α] in
theorem checkCall_callText {s t : List Char} (name : String) (hs : parenDepth 0 s = some 0)
    (hscomma : hasOuterComma 0 s = false) (ht : parenDepth 0 t = some 0)
    (htcomma : hasOuterComma 0 t = false) :
    checkCall name 2 ('(' :: (s ++ ',' :: (t ++ [')']))) = .ok () := by
  have hcommas : callCommas 0 (s ++ ',' :: (t ++ [')'])) = some 1 := by
    rw [callCommas_append hs hscomma, callCommas_cons]
    simp [callCommas_append ht htcomma, callCommas]
  simp [checkCall, hcommas]

/-- A call is read as its function, its arguments and its parentheses and comma. -/
theorem reads_callText (hnames : ∀ n ∈ names, IsPlain n.toList) (f : PairFn) {s t : List Char}
    {ts us : List (Token α)}
    (hcall : checkCall f.name 2 ('(' :: (s ++ ',' :: (t ++ [')']))) = .ok ())
    (hs : Reads (standard.withVariables names) TokenId.start s ts)
    (ht : Reads (standard.withVariables names) TokenId.start t us) :
    Reads (standard.withVariables names) TokenId.start (callText f s t)
      (.function f.function :: .leftParen :: (ts ++ .comma :: (us ++ [.rightParen]))) := by
  have hplain := standard_plain hnames
  -- Behind the parenthesis and the comma an argument is read as at the start of a text.
  have hs' : Reads (standard.withVariables names) TokenId.leftParen s ts :=
    hs.of_interchangeable (standard_interchangeable (by decide))
  have ht' : Reads (standard.withVariables names) TokenId.comma t us :=
    ht.of_interchangeable (standard_interchangeable (by decide))
  -- From the back: the closing parenthesis, the second argument, the first one.
  have hclose (last : TokenId) :
      Reads (α := α) (standard.withVariables names) last [')'] [.rightParen] :=
    .delimiter (by decide) rfl (.blanks (by simp))
  have hsecond (last : TokenId) : Reads (standard.withVariables names) last
      (',' :: (t ++ [')'])) (.comma :: (us ++ [.rightParen])) :=
    .delimiter (by decide) rfl (ht'.append hplain (by decide) hclose)
  have hfirst (last : TokenId) : Reads (standard.withVariables names) last
      ('(' :: (s ++ ',' :: (t ++ [')']))) (.leftParen :: (ts ++ .comma :: (us ++ [.rightParen]))) :=
    .delimiter (by decide) rfl (hs'.append hplain (by decide) hsecond)
  exact .function hnames (pairFn_mem_standardFunctions f) (by cases f <;> exact hcall) (hfirst _) _

end Lexicon

end FormulaCalculus
