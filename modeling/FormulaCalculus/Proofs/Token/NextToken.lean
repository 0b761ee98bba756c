import Mathlib.Data.List.Induction
import FormulaCalculus.Proofs.Bind
import FormulaCalculus.Proofs.Token.LiteralText

/-!
The first token of a text, for lexicons whose spellings have no delimiters. Its text stands at the
front, is a delimiter or has none, and stays the same when something is put behind a delimiter that
follows the text.
-/

namespace FormulaCalculus

/-- A character that a spelling does not have ends the search for it. -/
theorem isPrefixOf_append_of_not_mem {d : Char} {p : List Char} (hd : d ∉ p) (cs more : List Char) :
    p.isPrefixOf (cs ++ d :: more) = p.isPrefixOf cs := by
  induction p generalizing cs with
  | nil => simp
  | cons c p ih =>
    obtain ⟨hne, hp⟩ := not_or.mp (mt List.mem_cons.mpr hd)
    cases cs with
    | nil => simp [List.isPrefixOf_cons_cons, beq_eq_false_iff_ne.mpr (Ne.symm hne)]
    | cons b cs => simp only [List.cons_append, List.isPrefixOf_cons_cons, ih hp]

theorem isPrefixOf_append_delimiter {d : Char} (hd : isDelimiter d = true) {p : List Char}
    (hp : IsPlain p) (cs more : List Char) :
    p.isPrefixOf (cs ++ d :: more) = p.isPrefixOf cs := by
  apply isPrefixOf_append_of_not_mem
  intro hmem
  have hplain := hp d hmem
  rw [hd] at hplain
  exact Bool.noConfusion hplain

theorem append_drop_of_isPrefixOf {p cs : List Char} (h : p.isPrefixOf cs = true) :
    p ++ cs.drop p.length = cs := by
  obtain ⟨rest, rfl⟩ := List.isPrefixOf_iff_prefix.mp h
  simp

theorem exists_append_of_isPrefixOf {a b : String} (h : a.toList.isPrefixOf b.toList = true) :
    ∃ c, b = a ++ c := by
  obtain ⟨rest, hrest⟩ := List.isPrefixOf_iff_prefix.mp h
  refine ⟨String.ofList rest, ?_⟩
  apply String.ext
  rw [String.toList_append, String.toList_ofList, hrest]

theorem utf8ByteSize_le_of_isPrefixOf {a b : String} (h : a.toList.isPrefixOf b.toList = true) :
    a.utf8ByteSize ≤ b.utf8ByteSize := by
  obtain ⟨c, rfl⟩ := exists_append_of_isPrefixOf h
  rw [String.utf8ByteSize_append]
  exact Nat.le_add_right _ _

/-- A text that is no shorter than the text it starts is the whole of it. -/
theorem eq_of_isPrefixOf_of_utf8ByteSize_le {a b : String}
    (h : a.toList.isPrefixOf b.toList = true) (hsize : b.utf8ByteSize ≤ a.utf8ByteSize) :
    a = b := by
  obtain ⟨c, rfl⟩ := exists_append_of_isPrefixOf h
  have hempty : c = "" := by
    rw [String.utf8ByteSize_append] at hsize
    apply String.utf8ByteSize_eq_zero_iff.mp
    omega
  rw [hempty, String.append_empty]

namespace Token

variable {α : Type}

/-- The delimiter that a token is written as. -/
def delimiter? : Token α → Option Char
  | leftParen => some '('
  | rightParen => some ')'
  | comma => some ','
  | _ => none

theorem filterMap_delimiter?_cons (t : Token α) (ts : List (Token α)) :
    (t :: ts).filterMap delimiter? = t.delimiter?.toList ++ ts.filterMap delimiter? := by
  rw [List.filterMap_cons]
  cases t.delimiter? <;> rfl

end Token

namespace Spelled

variable {τ : Type}

theorem isPrefixOf_append {d : Char} (hd : isDelimiter d = true) {s : Spelled τ}
    (hs : IsPlain s.spelling.toList) (cs more : List Char) :
    s.isPrefixOf (cs ++ d :: more) = s.isPrefixOf cs :=
  isPrefixOf_append_delimiter hd hs cs more

theorem longest?_concat (l : List (Spelled τ)) (s : Spelled τ) :
    longest? (l ++ [s]) = longer (longest? l) s := by
  rw [longest?, List.foldl_append]
  rfl

theorem longest?_eq_none_iff {l : List (Spelled τ)} : longest? l = none ↔ l = [] := by
  constructor
  · intro h
    induction l using List.reverseRecOn with
    | nil => rfl
    | append_singleton l s ih =>
      rw [longest?_concat] at h
      unfold longer at h
      split at h
      · nomatch h
      · split at h <;> nomatch h
  · rintro rfl
    rfl

/-- The longest spelling is as long as all in front of it and longer than all behind it. -/
theorem longest?_eq_some_iff {l : List (Spelled τ)} {s : Spelled τ} :
    longest? l = some s ↔ ∃ before after, l = before ++ s :: after ∧
      (∀ r ∈ before, r.spelling.utf8ByteSize ≤ s.spelling.utf8ByteSize) ∧
        ∀ r ∈ after, r.spelling.utf8ByteSize < s.spelling.utf8ByteSize := by
  induction l using List.reverseRecOn generalizing s with
  | nil => simp [longest?]
  | append_singleton l r ih =>
    rw [longest?_concat]
    constructor
    · intro h
      unfold longer at h
      split at h
      · rename_i hnone
        obtain rfl := Option.some.inj h
        rw [longest?_eq_none_iff.mp hnone]
        exact ⟨[], [], rfl, by simp, by simp⟩
      · rename_i best hbest
        obtain ⟨before, after, rfl, hbefore, hafter⟩ := ih.mp hbest
        split at h
        · -- the last one is the longest
          rename_i hle
          obtain rfl := Option.some.inj h
          refine ⟨before ++ best :: after, [], rfl, ?_, by simp⟩
          intro q hq
          rcases List.mem_append.mp hq with hq | hq
          · exact Nat.le_trans (hbefore q hq) hle
          · rcases List.mem_cons.mp hq with rfl | hq
            · exact hle
            · exact Nat.le_trans (Nat.le_of_lt (hafter q hq)) hle
        · rename_i hlt
          obtain rfl := Option.some.inj h
          refine ⟨before, after ++ [r], by simp, hbefore, ?_⟩
          intro q hq
          rcases List.mem_append.mp hq with hq | hq
          · exact hafter q hq
          · rw [List.mem_singleton.mp hq]
            omega
    · rintro ⟨before, after, hl, hbefore, hafter⟩
      rcases List.eq_nil_or_concat after with rfl | ⟨after, q, rfl⟩
      · obtain ⟨rfl, hr⟩ := List.append_inj' hl rfl
        obtain ⟨rfl, -⟩ := List.cons.inj hr
        unfold longer
        split
        · rfl
        · rename_i best hbest
          have hmem : best ∈ l := by
            obtain ⟨b, a, rfl, -, -⟩ := ih.mp hbest
            exact List.mem_append_right b List.mem_cons_self
          exact if_pos (hbefore best hmem)
      · have hsplit : l ++ [r] = (before ++ s :: after) ++ [q] := by simpa using hl
        obtain ⟨rfl, hq⟩ := List.append_inj' hsplit rfl
        obtain ⟨rfl, -⟩ := List.cons.inj hq
        have hlongest := ih.mpr ⟨before, after, rfl, hbefore, fun p hp => hafter p (by simp [hp])⟩
        have hlt := hafter r (by simp)
        rw [hlongest]
        exact if_neg (Nat.not_le.mpr hlt)

theorem longest?_mem {l : List (Spelled τ)} {s : Spelled τ} (h : longest? l = some s) : s ∈ l := by
  obtain ⟨before, after, rfl, -, -⟩ := longest?_eq_some_iff.mp h
  exact List.mem_append_right before List.mem_cons_self

end Spelled

/-- A call that is well formed stays so whatever stands behind it. -/
theorem checkCall_append {name : String} {arity : Nat} {cs : List Char}
    (h : checkCall name arity cs = .ok ()) (rest : List Char) :
    checkCall name arity (cs ++ rest) = .ok () := by
  unfold checkCall at h
  split at h
  · rename_i cs
    split at h
    · exact absurd h (by simp)
    · rename_i n hn
      simp only [List.cons_append, checkCall, callCommas_append_of_some hn rest]
      exact h
  · exact absurd h (by simp)

namespace Lexicon

/-- A lexicon whose spellings have no delimiters. -/
structure Plain (l : Lexicon) : Prop where
  unaryOperators : ∀ s ∈ l.unaryOperators, IsPlain s.spelling.toList
  binaryOperators : ∀ s ∈ l.binaryOperators, IsPlain s.spelling.toList
  functions : ∀ s ∈ l.functions, IsPlain s.spelling.toList
  variableNames : ∀ name ∈ l.variableNames, IsPlain name.toList

variable {α : Type} [Scalar α] {l : Lexicon} {last : TokenId} {cs text : List Char} {t : Token α}

section

omit [Scalar α]

variable {d : Char}

theorem unaryOperator?_append (hl : l.Plain) (hd : isDelimiter d = true) (more : List Char) :
    l.unaryOperator? last (cs ++ d :: more) = l.unaryOperator? last cs := by
  unfold unaryOperator?
  rw [List.filter_congr fun s hs => by
    rw [Spelled.isPrefixOf_append hd (hl.unaryOperators s hs)]]

theorem binaryOperator?_append (hl : l.Plain) (hd : isDelimiter d = true) (more : List Char) :
    l.binaryOperator? last (cs ++ d :: more) = l.binaryOperator? last cs := by
  unfold binaryOperator?
  rw [List.filter_congr fun s hs => Spelled.isPrefixOf_append hd (hl.binaryOperators s hs) cs more]

theorem longestVariable?_append (hl : l.Plain) (hd : isDelimiter d = true) (more : List Char) :
    l.longestVariable? (cs ++ d :: more) = l.longestVariable? cs :=
  List.find?_congr fun name hname =>
    isPrefixOf_append_delimiter hd (hl.variableNames name hname) cs more

theorem callable?_append (hl : l.Plain) (hd : isDelimiter d = true)
    {r : Option (Spelled Function)} (h : l.callable? cs = .ok r) (more : List Char) :
    l.callable? (cs ++ d :: more) = .ok r := by
  unfold callable? at h ⊢
  dsimp only at h ⊢
  rw [longestVariable?_append hl hd, List.find?_congr fun s hs => by
    rw [Spelled.isPrefixOf_append hd (hl.functions s hs)]]
  split at h
  · exact h
  · rename_i s hfind
    have hfront : s.isPrefixOf cs = true := by
      have hs := List.find?_some hfind
      exact (Bool.and_eq_true_iff.mp hs).1
    have hlen : s.spelling.toList.length ≤ cs.length :=
      (List.isPrefixOf_iff_prefix.mp hfront).length_le
    -- The arguments are counted behind the name, which ends in front of the delimiter.
    rw [List.drop_append_of_le_length hlen]
    obtain ⟨u, hcheck, h⟩ := exists_of_bind_eq_ok h
    rw [checkCall_append hcheck]
    exact h

end

theorem operand_append {d : Char} (hl : l.Plain) (hd : isDelimiter d = true)
    (h : l.operand cs = .ok (t, text)) (more : List Char) :
    l.operand (cs ++ d :: more) = .ok (t, text) := by
  unfold operand at h ⊢
  rw [longestVariable?_append hl hd, Literal.ofPrefix?_append (endsLiteral_of_isDelimiter hd more)]
  split at h
  · exact h
  · split at h
    · exact h
    · exact absurd h (by simp)

theorem word_append {d : Char} (hl : l.Plain) (hd : isDelimiter d = true)
    (h : l.word last cs = .ok (t, text)) (more : List Char) :
    l.word last (cs ++ d :: more) = .ok (t, text) := by
  unfold word at h ⊢
  rw [unaryOperator?_append hl hd, binaryOperator?_append hl hd]
  -- Operators, functions and operands are tried in this order; what is tried first has not matched.
  split at h
  · exact h
  · obtain ⟨op, hbinary, h⟩ := exists_of_bind_eq_ok h
    rw [hbinary]
    cases op with
    | some s => exact h
    | none =>
      obtain ⟨f, hcall, h⟩ := exists_of_bind_eq_ok h
      simp only [callable?_append hl hd hcall]
      cases f with
      | some s => exact h
      | none => exact operand_append hl hd h more

omit [Scalar α] in
theorem unaryOperator?_isPrefixOf {s : Spelled UnaryOperator}
    (h : l.unaryOperator? last cs = some s) :
    s ∈ l.unaryOperators ∧ s.spelling.toList.isPrefixOf cs = true := by
  have hmem := List.mem_filter.mp (Spelled.longest?_mem h)
  exact ⟨hmem.1, (Bool.and_eq_true_iff.mp hmem.2).1⟩

omit [Scalar α] in
theorem binaryOperator?_isPrefixOf {s : Spelled BinaryOperator}
    (h : l.binaryOperator? last cs = .ok (some s)) :
    s ∈ l.binaryOperators ∧ s.spelling.toList.isPrefixOf cs = true := by
  unfold binaryOperator? at h
  split at h
  · simp at h
  · rename_i s' hlongest
    split at h
    · simp at h
    · obtain rfl := Option.some.inj (Except.ok.inj h)
      exact List.mem_filter.mp (Spelled.longest?_mem hlongest)

omit [Scalar α] in
theorem callable?_isPrefixOf {s : Spelled Function} (h : l.callable? cs = .ok (some s)) :
    s ∈ l.functions ∧ s.spelling.toList.isPrefixOf cs = true := by
  unfold callable? at h
  dsimp only at h
  split at h
  · nomatch h
  · rename_i hfind
    obtain ⟨u, -, h⟩ := exists_of_bind_eq_ok h
    obtain rfl := Option.some.inj (Except.ok.inj h)
    have hmatch := List.find?_some hfind
    exact ⟨List.mem_of_find?_eq_some hfind, (Bool.and_eq_true_iff.mp hmatch).1⟩

/-- The ways to take a token off the front of a text, behind a token with id `last`. -/
inductive Takes (l : Lexicon) (last : TokenId) (cs : List Char) : Token α → List Char → Prop
  | delimiter {t : Token α} {d : Char} {more : List Char} (ht : t.delimiter? = some d)
      (hcs : cs = d :: more) : Takes l last cs t [d]
  | unaryOperator {s : Spelled UnaryOperator} (h : l.unaryOperator? last cs = some s) :
      Takes l last cs (.unaryOperator s.token) s.spelling.toList
  | binaryOperator {s : Spelled BinaryOperator} (h : l.binaryOperator? last cs = .ok (some s)) :
      Takes l last cs (.binaryOperator s.token) s.spelling.toList
  | function {s : Spelled Function} (h : l.callable? cs = .ok (some s)) :
      Takes l last cs (.function s.token) s.spelling.toList
  | variableName {name : String} (h : l.longestVariable? cs = some name) :
      Takes l last cs (.variableName name) name.toList
  | constant {n : Literal} {c : Constant α} (hn : Literal.ofPrefix? cs = some n)
      (hc : n.constant? = some c) : Takes l last cs (.constant c) n.text

theorem operand_takes (h : l.operand cs = .ok (t, text)) : l.Takes last cs t text := by
  unfold operand at h
  split at h
  · rename_i name hname
    obtain ⟨rfl, rfl⟩ := Prod.mk.inj (Except.ok.inj h)
    exact .variableName hname
  · split at h
    · rename_i n hn
      split at h
      · rename_i c hc
        obtain ⟨rfl, rfl⟩ := Prod.mk.inj (Except.ok.inj h)
        exact .constant hn hc
      · nomatch h
    · nomatch h

theorem word_takes (h : l.word last cs = .ok (t, text)) : l.Takes last cs t text := by
  unfold word at h
  split at h
  · rename_i s hs
    obtain ⟨rfl, rfl⟩ := Prod.mk.inj (Except.ok.inj h)
    exact .unaryOperator hs
  · obtain ⟨op, hop, h⟩ := exists_of_bind_eq_ok h
    cases op with
    | some s =>
      obtain ⟨rfl, rfl⟩ := Prod.mk.inj (Except.ok.inj h)
      exact .binaryOperator hop
    | none =>
      obtain ⟨f, hf, h⟩ := exists_of_bind_eq_ok h
      cases f with
      | some s =>
        obtain ⟨rfl, rfl⟩ := Prod.mk.inj (Except.ok.inj h)
        exact .function hf
      | none => exact operand_takes h

theorem nextToken_takes (h : l.nextToken last cs = .ok (t, text)) : l.Takes last cs t text := by
  unfold nextToken at h
  split at h
  · obtain ⟨rfl, rfl⟩ := Prod.mk.inj (Except.ok.inj h)
    exact .delimiter rfl rfl
  · obtain ⟨rfl, rfl⟩ := Prod.mk.inj (Except.ok.inj h)
    exact .delimiter rfl rfl
  · obtain ⟨rfl, rfl⟩ := Prod.mk.inj (Except.ok.inj h)
    exact .delimiter rfl rfl
  · exact word_takes h

/-- A token is taken off the front with its text. -/
theorem Takes.starts (h : l.Takes last cs t text) : text ++ cs.drop text.length = cs := by
  cases h with
  | delimiter ht hcs =>
    subst hcs
    rfl
  | unaryOperator h => exact append_drop_of_isPrefixOf (unaryOperator?_isPrefixOf h).2
  | binaryOperator h => exact append_drop_of_isPrefixOf (binaryOperator?_isPrefixOf h).2
  | function h => exact append_drop_of_isPrefixOf (callable?_isPrefixOf h).2
  | variableName h =>
    have hfront := List.find?_some h
    exact append_drop_of_isPrefixOf hfront
  | constant hn hc => exact Literal.text_append_of_ofPrefix? hn

omit [Scalar α] in
theorem isDelimiter_of_delimiter? {d : Char} (ht : t.delimiter? = some d) :
    isDelimiter d = true := by
  cases t <;> simp only [Token.delimiter?, Option.some.injEq, reduceCtorEq] at ht <;>
    subst ht <;> rfl

theorem Takes.delimiters (hl : l.Plain) (h : l.Takes last cs t text) :
    text.filter isDelimiter = t.delimiter?.toList := by
  cases h with
  | delimiter ht hcs => rw [ht, List.filter_cons_of_pos (isDelimiter_of_delimiter? ht)]; rfl
  | unaryOperator h =>
    exact (hl.unaryOperators _ (unaryOperator?_isPrefixOf h).1).filter_eq_nil
  | binaryOperator h =>
    exact (hl.binaryOperators _ (binaryOperator?_isPrefixOf h).1).filter_eq_nil
  | function h => exact (hl.functions _ (callable?_isPrefixOf h).1).filter_eq_nil
  | variableName h => exact (hl.variableNames _ (List.mem_of_find?_eq_some h)).filter_eq_nil
  | constant hn hc => exact (Literal.isPlain_text_of_ofPrefix? hn).filter_eq_nil

theorem nextToken_cons_of_plain {c : Char} (hc : isDelimiter c = false) :
    l.nextToken (α := α) last (c :: cs) = l.word last (c :: cs) := by
  obtain ⟨hopen, hclose, hcomma⟩ := isDelimiter_eq_false.mp hc
  unfold nextToken
  split <;> simp_all

/-- A delimiter is a token of its own, whatever stands in front of it. -/
theorem nextToken_cons_of_delimiter {d : Char} (hd : isDelimiter d = true) :
    ∃ t : Token α, t.delimiter? = some d ∧
      ∀ (l : Lexicon) (last : TokenId) (cs : List Char),
        l.nextToken last (d :: cs) = .ok (t, [d]) := by
  rcases isDelimiter_iff.mp hd with rfl | rfl | rfl
  · exact ⟨.leftParen, rfl, fun _ _ _ => rfl⟩
  · exact ⟨.rightParen, rfl, fun _ _ _ => rfl⟩
  · exact ⟨.comma, rfl, fun _ _ _ => rfl⟩

/-- The first token of a text is the same with a delimiter and anything else behind the text. -/
theorem nextToken_append {d : Char} (hl : l.Plain) (hd : isDelimiter d = true)
    (hcs : cs ≠ []) (h : l.nextToken last cs = .ok (t, text)) (more : List Char) :
    l.nextToken last (cs ++ d :: more) = .ok (t, text) := by
  obtain ⟨c, cs, rfl⟩ := List.exists_cons_of_ne_nil hcs
  by_cases hc : isDelimiter c = true
  · obtain ⟨u, -, hu⟩ := nextToken_cons_of_delimiter (α := α) hc
    rw [hu] at h
    rw [List.cons_append, hu, h]
  · have hplain := Bool.eq_false_iff.mpr hc
    rw [nextToken_cons_of_plain hplain] at h
    rw [List.cons_append, nextToken_cons_of_plain hplain]
    exact word_append hl hd h more

end Lexicon

end FormulaCalculus
