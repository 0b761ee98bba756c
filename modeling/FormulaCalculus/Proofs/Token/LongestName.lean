import FormulaCalculus.Proofs.Token.Standard
import FormulaCalculus.Scalar.Double

/-!
The name in front of a text that starts with no delimiter and no operator. Of the declared variables
and the registered functions the longest is read, a function before a variable that is as long, and
a number only where no name starts the text. This holds in every lexicon that can be built, whatever
names it has and in whatever order they were registered.
-/

namespace FormulaCalculus

/-- Two names that start one text are the same or of different lengths. -/
theorem eq_of_isPrefixOf_of_utf8ByteSize_eq {a b : String} {input : List Char}
    (ha : a.toList.isPrefixOf input = true) (hb : b.toList.isPrefixOf input = true)
    (hsize : a.utf8ByteSize = b.utf8ByteSize) : a = b := by
  have hprefix := List.prefix_or_prefix_of_prefix (List.isPrefixOf_iff_prefix.mp ha)
    (List.isPrefixOf_iff_prefix.mp hb)
  rcases hprefix with h | h
  · exact eq_of_isPrefixOf_of_utf8ByteSize_le (List.isPrefixOf_iff_prefix.mpr h) (by omega)
  · exact (eq_of_isPrefixOf_of_utf8ByteSize_le (List.isPrefixOf_iff_prefix.mpr h) (by omega)).symm

/-- Among the names that start one text, those that are tried first are the longer ones. -/
theorem rank_lt_iff_of_isPrefixOf {a b : String} {input : List Char}
    (ha : a.toList.isPrefixOf input = true) (hb : b.toList.isPrefixOf input = true) :
    rank a < rank b ↔ b.utf8ByteSize < a.utf8ByteSize := by
  refine ⟨fun h => ?_, rank_lt_of_utf8ByteSize_lt⟩
  apply lt_of_le_of_ne (utf8ByteSize_le_of_rank_lt h)
  intro hsize
  rw [eq_of_isPrefixOf_of_utf8ByteSize_eq hb ha hsize] at h
  exact lt_irrefl _ h

/-- The search for a name in front of a text finds the longest one. -/
theorem Ranked.find?_isPrefixOf_eq_some_iff {β : Type} {name : β → String} {x : β} {ys : List β}
    {input : List Char} (h : Ranked name ys) {p : β → Bool}
    (hp : ∀ y, p y = true → (name y).toList.isPrefixOf input = true) :
    ys.find? p = some x ↔ x ∈ ys ∧ p x = true ∧
      ∀ y ∈ ys, p y = true → y = x ∨ (name y).utf8ByteSize < (name x).utf8ByteSize := by
  rw [h.find?_eq_some_iff]
  refine and_congr_right fun _ => and_congr_right fun hx => ?_
  refine forall₃_congr fun y _ hy => ?_
  rw [rank_lt_iff_of_isPrefixOf (hp x hx) (hp y hy)]

namespace Lexicon

variable {α : Type} [Scalar α] {l : Lexicon} {input text : List Char} {t : Token α}

/-- The name or number in front of a text: the longest function unless a variable is longer, the
longest variable if all functions are shorter, a number if there is neither. Lengths are counted in
bytes. -/
inductive Names (l : Lexicon) (input : List Char) : Token α → List Char → Prop
  | function {s : Spelled Function} (hs : s ∈ l.functions) (hstarts : s.isPrefixOf input = true)
      (hlongest : ∀ r ∈ l.functions, r.isPrefixOf input = true →
        r = s ∨ r.spelling.utf8ByteSize < s.spelling.utf8ByteSize)
      (hvariable : ∀ n ∈ l.variableNames, n.toList.isPrefixOf input = true →
        n.utf8ByteSize ≤ s.spelling.utf8ByteSize)
      (hcall : checkCall s.spelling s.token.arity (input.drop s.spelling.toList.length) = .ok ()) :
      Names l input (.function s.token) s.spelling.toList
  | variableName {n : String} (hn : n ∈ l.variableNames) (hstarts : n.toList.isPrefixOf input = true)
      (hlongest : ∀ m ∈ l.variableNames, m.toList.isPrefixOf input = true →
        m = n ∨ m.utf8ByteSize < n.utf8ByteSize)
      (hfunction : ∀ s ∈ l.functions, s.isPrefixOf input = true →
        s.spelling.utf8ByteSize < n.utf8ByteSize) :
      Names l input (.variableName n) n.toList
  | constant {n : Literal} {c : Constant α}
      (hvariable : ∀ n ∈ l.variableNames, n.toList.isPrefixOf input = false)
      (hfunction : ∀ s ∈ l.functions, s.isPrefixOf input = false)
      (hn : Literal.ofPrefix? input = some n) (hc : n.constant? = some c) :
      Names l input (.constant c) n.text

section

omit [Scalar α]

theorem InOrder.longestVariable?_eq_some_iff (h : l.InOrder) {n : String} :
    l.longestVariable? input = some n ↔
      n ∈ l.variableNames ∧ n.toList.isPrefixOf input = true ∧
        ∀ m ∈ l.variableNames, m.toList.isPrefixOf input = true →
          m = n ∨ m.utf8ByteSize < n.utf8ByteSize :=
  h.variableNames.find?_isPrefixOf_eq_some_iff fun _ hm => hm

/-- The length that a function name must have is that of the longest variable. -/
theorem InOrder.size_longestVariable?_le_iff (h : l.InOrder) {k : ℕ} :
    ((l.longestVariable? input).map String.utf8ByteSize).getD 0 ≤ k ↔
      ∀ n ∈ l.variableNames, n.toList.isPrefixOf input = true → n.utf8ByteSize ≤ k := by
  cases hfind : l.longestVariable? input with
  | none =>
    have hnone := List.find?_eq_none.mp hfind
    exact iff_of_true (Nat.zero_le k) fun n hn hstarts => absurd hstarts (hnone n hn)
  | some n =>
    obtain ⟨hn, hstarts, hlongest⟩ := h.longestVariable?_eq_some_iff.mp hfind
    constructor
    · intro hk m hm hmstarts
      rcases hlongest m hm hmstarts with rfl | hlt
      · exact hk
      · exact Nat.le_trans (Nat.le_of_lt hlt) hk
    · intro hall
      exact hall n hn hstarts

/-- The functions are searched for the longest name, unless a variable is longer than that. -/
theorem InOrder.find?_function_eq_some_iff (h : l.InOrder) {s : Spelled Function} :
    (l.functions.find? fun s => s.isPrefixOf input &&
        decide (((l.longestVariable? input).map String.utf8ByteSize).getD 0 ≤
          s.spelling.utf8ByteSize)) = some s ↔
      s ∈ l.functions ∧ s.isPrefixOf input = true ∧
        (∀ r ∈ l.functions, r.isPrefixOf input = true →
          r = s ∨ r.spelling.utf8ByteSize < s.spelling.utf8ByteSize) ∧
        ∀ n ∈ l.variableNames, n.toList.isPrefixOf input = true →
          n.utf8ByteSize ≤ s.spelling.utf8ByteSize := by
  have hsearch (r : Spelled Function) (hr : (r.isPrefixOf input &&
      decide (((l.longestVariable? input).map String.utf8ByteSize).getD 0 ≤
        r.spelling.utf8ByteSize)) = true) : r.spelling.toList.isPrefixOf input = true :=
    (Bool.and_eq_true_iff.mp hr).1
  rw [h.functions.find?_isPrefixOf_eq_some_iff hsearch, ← h.size_longestVariable?_le_iff]
  simp only [Bool.and_eq_true, decide_eq_true_eq]
  constructor
  · rintro ⟨hs, ⟨hstarts, hleast⟩, hlongest⟩
    refine ⟨hs, hstarts, ?_, hleast⟩
    intro r hr hrstarts
    -- a name that is shorter than the longest variable is shorter than this one
    by_cases hr' : ((l.longestVariable? input).map String.utf8ByteSize).getD 0 ≤
        r.spelling.utf8ByteSize
    · exact hlongest r hr ⟨hrstarts, hr'⟩
    · exact Or.inr (by omega)
  · rintro ⟨hs, hstarts, hlongest, hleast⟩
    exact ⟨hs, ⟨hstarts, hleast⟩, fun r hr hr' => hlongest r hr hr'.1⟩

/-- The call of a function is read exactly if its name is the longest one and it is well formed. -/
theorem InOrder.callable?_eq_some_iff (h : l.InOrder) {s : Spelled Function} :
    l.callable? input = .ok (some s) ↔ (s ∈ l.functions ∧ s.isPrefixOf input = true ∧
      (∀ r ∈ l.functions, r.isPrefixOf input = true →
        r = s ∨ r.spelling.utf8ByteSize < s.spelling.utf8ByteSize) ∧
      ∀ n ∈ l.variableNames, n.toList.isPrefixOf input = true →
        n.utf8ByteSize ≤ s.spelling.utf8ByteSize) ∧
      checkCall s.spelling s.token.arity (input.drop s.spelling.toList.length) = .ok () := by
  rw [← h.find?_function_eq_some_iff]
  unfold callable?
  dsimp only
  constructor
  · intro hcall
    split at hcall
    · nomatch hcall
    · rename_i r hfind
      obtain ⟨u, hcheck, hcall⟩ := exists_of_bind_eq_ok hcall
      obtain rfl := Option.some.inj (Except.ok.inj hcall)
      exact ⟨hfind, hcheck⟩
  · rintro ⟨hfind, hcheck⟩
    rw [hfind]
    dsimp only
    rw [hcheck]
    rfl

/-- No call is read exactly if all functions that start the text are shorter than a variable. -/
theorem callable?_eq_none_iff :
    l.callable? input = .ok none ↔ ∀ s ∈ l.functions, s.isPrefixOf input = true →
      s.spelling.utf8ByteSize < ((l.longestVariable? input).map String.utf8ByteSize).getD 0 := by
  have hfind : l.callable? input = .ok none ↔ (l.functions.find? fun s => s.isPrefixOf input &&
      decide (((l.longestVariable? input).map String.utf8ByteSize).getD 0 ≤
        s.spelling.utf8ByteSize)) = none := by
    unfold callable?
    dsimp only
    constructor
    · intro hcall
      split at hcall
      · assumption
      · obtain ⟨u, -, hcall⟩ := exists_of_bind_eq_ok hcall
        nomatch hcall
    · intro hnone
      rw [hnone]
  rw [hfind, List.find?_eq_none]
  simp

end

/-- Where no operator starts the text, a name or a number is read. -/
theorem word_eq_ok_iff {last : TokenId} (hunary : ∀ s ∈ l.unaryOperators, s.isPrefixOf input = false)
    (hbinary : ∀ s ∈ l.binaryOperators, s.isPrefixOf input = false) :
    l.word last input = .ok (t, text) ↔
      (∃ s, l.callable? input = .ok (some s) ∧ t = .function s.token ∧ text = s.spelling.toList) ∨
      (l.callable? input = .ok none ∧ l.operand input = .ok (t, text)) := by
  have hno : l.unaryOperator? last input = none := by
    apply Spelled.longest?_eq_none_iff.mpr
    apply List.filter_eq_nil_iff.mpr
    intro s hs
    simp [hunary s hs]
  have hno' : l.binaryOperator? last input = .ok none := by
    have hnone : l.binaryOperators.filter (fun s => s.isPrefixOf input) = [] := by
      apply List.filter_eq_nil_iff.mpr
      intro s hs
      simp [hbinary s hs]
    rw [binaryOperator?, hnone]
    rfl
  rw [word, hno, hno']
  cases l.callable? input with
  | error e => simp [bind, Except.bind]
  | ok r =>
    cases r with
    | none => simp [bind, Except.bind]
    | some s => simp [bind, Except.bind, pure, Except.pure, eq_comm]

/-- An operand is the longest variable, or a number where no name starts the text. -/
theorem InOrder.operand_names (h : l.InOrder)
    (hfunction : ∀ s ∈ l.functions, s.isPrefixOf input = true →
      s.spelling.utf8ByteSize < ((l.longestVariable? input).map String.utf8ByteSize).getD 0)
    (hoperand : l.operand input = .ok (t, text)) : l.Names input t text := by
  unfold operand at hoperand
  split at hoperand
  · rename_i n hfind
    obtain ⟨rfl, rfl⟩ := Prod.mk.inj (Except.ok.inj hoperand)
    obtain ⟨hn, hstarts, hlongest⟩ := h.longestVariable?_eq_some_iff.mp hfind
    rw [hfind] at hfunction
    exact .variableName hn hstarts hlongest hfunction
  · rename_i hfind
    -- without a variable every function that starts the text is long enough
    have hnone : ∀ s ∈ l.functions, s.isPrefixOf input = false := by
      intro s hs
      rw [hfind] at hfunction
      exact Bool.eq_false_iff.mpr fun hstarts => Nat.not_lt_zero _ (hfunction s hs hstarts)
    have hvariable : ∀ n ∈ l.variableNames, n.toList.isPrefixOf input = false :=
      fun n hn => Bool.eq_false_iff.mpr (List.find?_eq_none.mp hfind n hn)
    split at hoperand
    · rename_i n hn
      split at hoperand
      · rename_i c hc
        obtain ⟨rfl, rfl⟩ := Prod.mk.inj (Except.ok.inj hoperand)
        exact .constant hvariable hnone hn hc
      · nomatch hoperand
    · nomatch hoperand

/-- The longest name wins. In any lexicon that can be built, a text that starts with no delimiter
and no operator is read as the longest function whose name starts it, if no variable is longer, as
the longest variable if all functions are shorter, and as a number only if no name starts it. -/
theorem nextToken_eq_ok_iff_names (hl : l.Built) {last : TokenId}
    (hdelimiter : ∀ c ∈ input.head?, isDelimiter c = false)
    (hunary : ∀ s ∈ l.unaryOperators, s.isPrefixOf input = false)
    (hbinary : ∀ s ∈ l.binaryOperators, s.isPrefixOf input = false) :
    l.nextToken last input = .ok (t, text) ↔ l.Names input t text := by
  have h := hl.inOrder
  have hword : l.nextToken (α := α) last input = l.word last input := by
    cases input with
    | nil => rfl
    | cons c cs => exact nextToken_cons_of_plain (hdelimiter c rfl)
  rw [hword, word_eq_ok_iff hunary hbinary]
  constructor
  · rintro (⟨s, hcall, rfl, rfl⟩ | ⟨hcall, hoperand⟩)
    · obtain ⟨⟨hs, hstarts, hlongest, hvariable⟩, hcheck⟩ := h.callable?_eq_some_iff.mp hcall
      exact .function hs hstarts hlongest hvariable hcheck
    · exact h.operand_names (callable?_eq_none_iff.mp hcall) hoperand
  · intro hnames
    cases hnames with
    | function hs hstarts hlongest hvariable hcall =>
      have hread := h.callable?_eq_some_iff.mpr ⟨⟨hs, hstarts, hlongest, hvariable⟩, hcall⟩
      exact Or.inl ⟨_, hread, rfl, rfl⟩
    | variableName hn hstarts hlongest hfunction =>
      have hfind := h.longestVariable?_eq_some_iff.mpr ⟨hn, hstarts, hlongest⟩
      refine Or.inr ⟨callable?_eq_none_iff.mpr ?_, ?_⟩
      · rw [hfind]
        exact hfunction
      · rw [operand, hfind]
    | constant hvariable hfunction hn hc =>
      have hfind : l.longestVariable? input = none :=
        List.find?_eq_none.mpr fun n hn => by simp [hvariable n hn]
      refine Or.inr ⟨callable?_eq_none_iff.mpr ?_, ?_⟩
      · intro s hs hstarts
        rw [hfunction s hs] at hstarts
        nomatch hstarts
      · simp only [operand, hfind, hn, hc]

/-- The logarithm to base ten is read, and neither the function `log` nor a variable. -/
theorem nextToken_eq_ok_iff_names_log10 :
    let l := standard.withVariables ["lo", "log1"]
    let input := "log10(2)".toList
    l.Built ∧ (∀ c ∈ input.head?, isDelimiter c = false) ∧
      (∀ s ∈ l.unaryOperators, s.isPrefixOf input = false) ∧
      (∀ s ∈ l.binaryOperators, s.isPrefixOf input = false) ∧
      l.Names (α := Double) input (.function ⟨UnaryFn.log10.id, 1⟩) "log10".toList := by
  intro l input
  have hl : l.Built := by
    show (standard.withVariables ["lo", "log1"]).Built
    rw [withVariables_eq_extend]
    exact standard_built.extend _
  have hdelimiter : ∀ c ∈ input.head?, isDelimiter c = false := by
    intro c hc
    obtain rfl : 'l' = c := Option.some.inj hc
    rfl
  have hunary : ∀ s ∈ l.unaryOperators, s.isPrefixOf input = false := by decide
  have hbinary : ∀ s ∈ l.binaryOperators, s.isPrefixOf input = false := by decide
  have hplain : ∀ n ∈ ["lo", "log1"], IsPlain n.toList := by
    simp only [isPlain_iff_all]
    decide
  have hlog10 : (⟨"log10", ⟨UnaryFn.log10.id, 1⟩⟩ : Spelled Function) ∈ standardFunctions := by
    simp [standardFunctions, UnaryFn.name]
  have hread : l.nextToken (α := Double) TokenId.start input =
      .ok (.function ⟨UnaryFn.log10.id, 1⟩, "log10".toList) :=
    nextToken_function hplain hlog10 rfl TokenId.start
  exact ⟨hl, hdelimiter, hunary, hbinary,
    (nextToken_eq_ok_iff_names hl hdelimiter hunary hbinary).mp hread⟩

end Lexicon

end FormulaCalculus
