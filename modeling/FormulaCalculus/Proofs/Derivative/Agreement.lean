import FormulaCalculus.Proofs.Calculus.Exact
import FormulaCalculus.Proofs.Derivative.Rules

/-!
The agreement of the two derivatives. Where neither derivative loses a zero that the other one has,
and nothing is undefined, the derived tree exists and has a value, and this value stretched to the
shape of the derivative's value is that value.
-/

namespace FormulaCalculus

variable {α β : Type} [Scalar α]

/-- Whether a value, stretched to the shape of another one, is the other one. -/
def Value.BroadcastsTo : Value α → Value α → Prop
  | .tensor a, .tensor b => a.broadcastTo b.shape = (.ok b : Except (AlgebraError α) (Tensor α))
  | .symbol c, .symbol d => c.shape.StretchesTo d.shape ∧ d = c.withShape d.shape
  | _, _ => False

namespace Terms

variable {u du l r dl dr : Value α} {a : Tensor α}

theorem isAddressable_unaryRule {f : UnaryFn} (h : unaryRule f u du = .ok (.tensor a))
    (hdu : ∀ b, du = .tensor b → b.shape.isAddressable = true) : a.shape.isAddressable = true := by
  cases f with
  | neg =>
    cases du with
    | tensor b =>
      obtain rfl := Value.tensor.inj (Except.ok.inj h)
      exact hdu b rfl
    | symbol c => nomatch Except.ok.inj h
  | exp | log | sin | cos | tan | sinh | cosh | tanh => exact BinaryFn.isAddressable_onValues h
  | _ =>
    obtain ⟨_, _, h⟩ := exists_of_bind_eq_ok h
    exact BinaryFn.isAddressable_onValues h

theorem isAddressable_binaryRule {f : BinaryFn} (h : binaryRule f l r dl dr = .ok (.tensor a)) :
    a.shape.isAddressable = true := by
  cases f with
  | add | sub => exact BinaryFn.isAddressable_onValues h
  | mul =>
    obtain ⟨_, _, h⟩ := exists_of_bind_eq_ok h
    obtain ⟨_, _, h⟩ := exists_of_bind_eq_ok h
    exact BinaryFn.isAddressable_onValues h
  | div =>
    obtain ⟨_, _, h⟩ := exists_of_bind_eq_ok h
    obtain ⟨_, _, h⟩ := exists_of_bind_eq_ok h
    obtain ⟨_, _, h⟩ := exists_of_bind_eq_ok h
    exact BinaryFn.isAddressable_onValues h
  | pow =>
    have hbranch : binaryRule .pow l r dl dr =
        if isZero dr then powRule l r dl else expPowRule l r dl dr := rfl
    rw [hbranch] at h
    split_ifs at h
    all_goals
      obtain ⟨_, _, h⟩ := exists_of_bind_eq_ok h
      obtain ⟨_, _, h⟩ := exists_of_bind_eq_ok h
      obtain ⟨_, _, h⟩ := exists_of_bind_eq_ok h
    · exact BinaryFn.isAddressable_onValues h
    · obtain ⟨_, _, h⟩ := exists_of_bind_eq_ok h
      obtain ⟨_, _, h⟩ := exists_of_bind_eq_ok h
      exact BinaryFn.isAddressable_onValues h
  | atan2 =>
    obtain ⟨_, _, h⟩ := exists_of_bind_eq_ok h
    obtain ⟨_, _, h⟩ := exists_of_bind_eq_ok h
    obtain ⟨_, _, h⟩ := exists_of_bind_eq_ok h
    obtain ⟨_, _, h⟩ := exists_of_bind_eq_ok h
    exact BinaryFn.isAddressable_onValues h

end Terms

namespace Node

/-- The tree itself and the trees below it. -/
def subtrees : Node α β → List (Node α β)
  | constant c => [constant c]
  | tensor a => [tensor a]
  | variableLeaf name b => [variableLeaf name b]
  | unary f a => unary f a :: a.subtrees
  | binary f a b => binary f a b :: (a.subtrees ++ b.subtrees)

/-- What is asked of a sub-tree for its two derivatives to be compared. -/
structure Comparable (read : β → Tensor α) (wrt : String) (a : Node α β) : Prop where
  wellFormed : ∀ c, a = constant c → c.WellFormed
  /-- A variable is read in a shape with at least one axis. -/
  axes : ∀ name b, a = variableLeaf name b → (read b).shape ≠ []
  eval_ne_nan : ∀ s, a.eval read ≠ .ok (.symbol (.nan s))
  diff_ne_nan : ∀ s, a.diff read wrt ≠ .ok (.symbol (.nan s))
  /-- The value of the derivative is the symbol for zero where its tree is the leaf with it. -/
  zero_iff : (∃ s, a.diff read wrt = .ok (.symbol (.zero s))) ↔
    ∃ s, a.derivative wrt = .ok (constant (.zero s))

variable {read : β → Tensor α} {wrt : String} {a n : Node α β} {v : Value α}

omit [Scalar α] in
theorem self_mem_subtrees (a : Node α β) : a ∈ a.subtrees := by
  cases a <;> exact List.mem_cons_self

omit [Scalar α] in
theorem isZeroLeaf_iff : n.isZeroLeaf = true ↔ ∃ s, n = constant (.zero s) := by
  constructor
  · intro h
    cases n with
    | constant c =>
      cases c with
      | zero s => exact ⟨s, rfl⟩
      | _ => exact absurd h Bool.false_ne_true
    | _ => exact absurd h Bool.false_ne_true
  · rintro ⟨s, rfl⟩
    rfl

/-- Where the value of the derivative is the symbol for zero if and only if its tree is the leaf. -/
theorem isZeroLeaf_eq_isZero (h : (∃ s, a.diff read wrt = .ok (.symbol (.zero s))) ↔
    ∃ s, a.derivative wrt = .ok (constant (.zero s))) (hdiff : a.diff read wrt = .ok v)
    (hderivative : a.derivative wrt = .ok n) : n.isZeroLeaf = v.isZero := by
  rw [Bool.eq_iff_iff, isZeroLeaf_iff]
  constructor
  · rintro ⟨s, rfl⟩
    obtain ⟨t, ht⟩ := h.mpr ⟨s, hderivative⟩
    obtain rfl := Except.ok.inj (hdiff.symm.trans ht)
    rfl
  · intro hzero
    obtain ⟨s, rfl⟩ := Value.exists_of_isZero hzero
    obtain ⟨t, ht⟩ := h.mp ⟨s, hdiff⟩
    exact ⟨t, Except.ok.inj (hderivative.symm.trans ht)⟩

theorem Comparable.isZeroLeaf_eq (h : a.Comparable read wrt) (hdiff : a.diff read wrt = .ok v)
    (hderivative : a.derivative wrt = .ok n) : n.isZeroLeaf = v.isZero :=
  isZeroLeaf_eq_isZero h.zero_iff hdiff hderivative

theorem RefinesNonzero.refines_of_isZeroLeaf (h : n.RefinesNonzero read v)
    (hzero : n.isZeroLeaf = v.isZero) : n.Refines read v := by
  rcases h.refines with hv | hrefines
  · obtain ⟨s, rfl⟩ := isZeroLeaf_iff.mp (hzero.trans hv)
    obtain ⟨t, rfl⟩ := Value.exists_of_isZero hv
    have hst : s.StretchesTo t := h.bounded.2
    exact ⟨h.bounded, Or.inr ⟨_, rfl, Value.symbol_stretchesTo (.zero s) hst⟩⟩
  · exact hrefines

/-- The leaves stretch to the shape of the value. -/
theorem bounded_of_eval (hconstants : ∀ c, constant c ∈ n.subtrees → c.WellFormed)
    (hv : n.eval read = .ok v) : n.Bounded read v.shape := by
  induction n generalizing v with
  | constant c =>
    obtain rfl := Except.ok.inj hv
    exact ⟨hconstants c (List.mem_singleton.mpr rfl), .refl _⟩
  | tensor a =>
    obtain rfl := Except.ok.inj hv
    exact Shape.StretchesTo.refl a.shape
  | variableLeaf name b =>
    obtain rfl := Except.ok.inj hv
    exact Shape.StretchesTo.refl _
  | unary f a ih =>
    obtain ⟨w, hw, hv⟩ := exists_of_bind_eq_ok hv
    obtain rfl := Except.ok.inj hv
    rw [UnaryFn.shape_onValue]
    exact ih (fun c hc => hconstants c (List.mem_cons_of_mem _ hc)) hw
  | binary f a b iha ihb =>
    obtain ⟨x, hx, hv⟩ := exists_of_bind_eq_ok hv
    obtain ⟨y, hy, hv⟩ := exists_of_bind_eq_ok hv
    obtain ⟨hxv, hyv⟩ := Shape.join?_eq_some (BinaryFn.shape_onValues hv)
    have hleft (c : Constant α) (hc : constant c ∈ a.subtrees) : c.WellFormed :=
      hconstants c (List.mem_cons_of_mem _ (List.mem_append_left _ hc))
    have hright (c : Constant α) (hc : constant c ∈ b.subtrees) : c.WellFormed :=
      hconstants c (List.mem_cons_of_mem _ (List.mem_append_right _ hc))
    exact ⟨(iha hleft hx).mono hxv, (ihb hright hy).mono hyv⟩

theorem variable_comparable (name : String) (b : β) (hb : (read b).shape ≠ []) :
    (variableLeaf name b : Node α β).Comparable read wrt := by
  have hdiff : (variableLeaf name b : Node α β).diff read wrt =
      .ok (.symbol (if name = wrt then .unity (read b).shape else .zero (read b).shape)) := rfl
  have hderivative : (variableLeaf name b : Node α β).derivative wrt =
      .ok (constant (if name = wrt then .unity Shape.scalar else .zero Shape.scalar)) := rfl
  constructor
  · intro c h
    nomatch h
  · intro name' b' h
    obtain ⟨_, rfl⟩ := Node.variableLeaf.inj h
    exact hb
  · intro s h
    nomatch Except.ok.inj h
  · intro s h
    rw [hdiff] at h
    split_ifs at h
    all_goals nomatch Except.ok.inj h
  · rw [hdiff, hderivative]
    split_ifs <;> simp

theorem unity_comparable (s : Shape) :
    (constant (.unity s) : Node α β).Comparable read wrt := by
  constructor
  · intro c h
    obtain rfl := Node.constant.inj h
    trivial
  · intro name b h
    nomatch h
  · intro t h
    nomatch Except.ok.inj h
  · intro t h
    nomatch Except.ok.inj h
  · exact ⟨fun _ => ⟨s, rfl⟩, fun _ => ⟨s, rfl⟩⟩

/-- A tree whose value and derivative are tensors. -/
theorem comparable_of_tensor (hconstant : ∀ c, a ≠ constant c)
    (hvariable : ∀ name b, a ≠ variableLeaf name b) {t d : Tensor α}
    (heval : a.eval read = .ok (.tensor t)) (hdiff : a.diff read wrt = .ok (.tensor d))
    (hderivative : a.derivative wrt = .ok n) (hn : n.isZeroLeaf = false) :
    a.Comparable read wrt := by
  constructor
  · intro c h
    exact absurd h (hconstant c)
  · intro name b h
    exact absurd h (hvariable name b)
  · intro s h
    rw [heval] at h
    nomatch Except.ok.inj h
  · intro s h
    rw [hdiff] at h
    nomatch Except.ok.inj h
  · rw [hdiff, hderivative]
    constructor
    · rintro ⟨s, h⟩
      nomatch Except.ok.inj h
    · rintro ⟨s, h⟩
      obtain rfl := Except.ok.inj h
      nomatch hn

theorem computes_of_eval (h : ∀ S ∈ a.subtrees, S.Comparable read wrt)
    (hv : a.eval read = .ok v) : a.Computes read v :=
  ⟨bounded_of_eval (fun c hc => (h _ hc).wellFormed c rfl) hv, hv⟩

/-- A derivative that is a tensor can be addressed. -/
theorem isAddressable_diff {b : Tensor α} (hdiff : a.diff read wrt = .ok (.tensor b)) :
    b.shape.isAddressable = true := by
  induction a generalizing b with
  | constant c => nomatch Except.ok.inj hdiff
  | tensor a => nomatch Except.ok.inj hdiff
  | variableLeaf name b => nomatch Except.ok.inj hdiff
  | unary f a ih =>
    obtain ⟨du, hdu, hdiff⟩ := exists_of_bind_eq_ok hdiff
    have htensor (c : Tensor α) (hc : du = .tensor c) : c.shape.isAddressable = true :=
      ih (hc ▸ hdu)
    split_ifs at hdiff with hzero
    · exact htensor b (Except.ok.inj hdiff)
    · obtain ⟨u, _, hdiff⟩ := exists_of_bind_eq_ok hdiff
      exact Terms.isAddressable_unaryRule hdiff htensor
  | binary f a b iha ihb =>
    obtain ⟨dl, _, hdiff⟩ := exists_of_bind_eq_ok hdiff
    obtain ⟨dr, _, hdiff⟩ := exists_of_bind_eq_ok hdiff
    split_ifs at hdiff with hzero
    · exact BinaryFn.isAddressable_onValues hdiff
    · obtain ⟨l, _, hdiff⟩ := exists_of_bind_eq_ok hdiff
      obtain ⟨r, _, hdiff⟩ := exists_of_bind_eq_ok hdiff
      exact Terms.isAddressable_binaryRule hdiff

variable [LawfulScalar α]

theorem derivative_refines_unary {f : UnaryFn} {D : Node α β} {du : Value α}
    (h : ∀ S ∈ (unary f a).subtrees, S.Comparable read wrt) (hdu : a.diff read wrt = .ok du)
    (hD : a.derivative wrt = .ok D) (hrefines : D.Refines read du)
    (hdiff : (unary f a).diff read wrt = .ok v) :
    ∃ n, (unary f a).derivative wrt = .ok n ∧ n.Refines read v := by
  have hself := h _ (self_mem_subtrees _)
  have hbelow : ∀ S ∈ a.subtrees, S.Comparable read wrt := by
    intro S hS
    exact h S (List.mem_cons_of_mem _ hS)
  have hsame := (hbelow a (self_mem_subtrees a)).isZeroLeaf_eq hdu hD
  have hstep : (unary f a).derivative wrt =
      if du.isZero then .ok D else Terms.unaryRule f a D := by
    rw [derivative, hD, ← hsame]
    rfl
  have hvalue : (if du.isZero then .ok du else
      a.eval read >>= fun u => Terms.unaryRule f u du) = .ok v := by
    rw [diff, hdu] at hdiff
    exact hdiff
  split_ifs at hvalue hstep with hzero
  · obtain rfl := Except.ok.inj hvalue
    exact ⟨D, hstep, hrefines⟩
  · obtain ⟨u, hu, hvalue⟩ := exists_of_bind_eq_ok hvalue
    have hcomputes := computes_of_eval hbelow hu
    obtain ⟨n, hn, hnonzero⟩ := Terms.unaryRule_follows f hcomputes hrefines v hvalue
    -- A value that is the symbol for zero has a derived tree that is the leaf with it.
    have hderivative := hstep.trans hn
    have hleaf := hself.isZeroLeaf_eq hdiff hderivative
    exact ⟨n, hderivative, hnonzero.refines_of_isZeroLeaf hleaf⟩

theorem derivative_refines_binary {f : BinaryFn} {a b DL DR : Node α β} {dl dr : Value α}
    (h : ∀ S ∈ (binary f a b).subtrees, S.Comparable read wrt) (hdl : a.diff read wrt = .ok dl)
    (hdr : b.diff read wrt = .ok dr) (hDL : a.derivative wrt = .ok DL)
    (hDR : b.derivative wrt = .ok DR) (hrefinesl : DL.Refines read dl)
    (hrefinesr : DR.Refines read dr) (hdiff : (binary f a b).diff read wrt = .ok v) :
    ∃ n, (binary f a b).derivative wrt = .ok n ∧ n.Refines read v := by
  have hself := h _ (self_mem_subtrees _)
  have hleft : ∀ S ∈ a.subtrees, S.Comparable read wrt := by
    intro S hS
    exact h S (List.mem_cons_of_mem _ (List.mem_append_left _ hS))
  have hright : ∀ S ∈ b.subtrees, S.Comparable read wrt := by
    intro S hS
    exact h S (List.mem_cons_of_mem _ (List.mem_append_right _ hS))
  have ha := hleft a (self_mem_subtrees a)
  have hb := hright b (self_mem_subtrees b)
  have hsamel := ha.isZeroLeaf_eq hdl hDL
  have hsamer := hb.isZeroLeaf_eq hdr hDR
  have hstep : (binary f a b).derivative wrt =
      if dl.isZero && dr.isZero then smartBinary .add DL DR
      else Terms.binaryRule f a b DL DR := by
    rw [derivative, hDL, hDR, ← hsamel, ← hsamer]
    rfl
  have hvalue : (if dl.isZero && dr.isZero then BinaryFn.add.onValues dl dr else
      a.eval read >>= fun l => b.eval read >>= fun r => Terms.binaryRule f l r dl dr) = .ok v := by
    rw [diff, hdl, hdr] at hdiff
    exact hdiff
  split_ifs at hvalue hstep with hzero
  · obtain ⟨n, hn, hrefines⟩ :=
      hrefinesl.smartBinary (f := .add) (by decide) hrefinesr v hvalue
    exact ⟨n, hstep.trans hn, hrefines⟩
  · obtain ⟨l, hl, hvalue⟩ := exists_of_bind_eq_ok hvalue
    obtain ⟨r, hr, hvalue⟩ := exists_of_bind_eq_ok hvalue
    have hnan : ¬ l.IsNan := by
      rintro ⟨s, rfl⟩
      exact ha.eval_ne_nan s hl
    obtain ⟨n, hn, hnonzero⟩ := Terms.binaryRule_follows f (computes_of_eval hleft hl)
      (computes_of_eval hright hr) hrefinesl hrefinesr hnan hsamer v hvalue
    have hderivative := hstep.trans hn
    have hleaf := hself.isZeroLeaf_eq hdiff hderivative
    exact ⟨n, hderivative, hnonzero.refines_of_isZeroLeaf hleaf⟩

/-- The derived tree refines the derivative's value. -/
theorem derivative_refines (h : ∀ S ∈ a.subtrees, S.Comparable read wrt)
    (hdiff : a.diff read wrt = .ok v) :
    ∃ n, a.derivative wrt = .ok n ∧ n.Refines read v := by
  induction a generalizing v with
  | constant c =>
    obtain rfl := Except.ok.inj hdiff
    exact ⟨_, rfl, Computes.refines ⟨⟨trivial, .refl _⟩, rfl⟩⟩
  | tensor a =>
    obtain rfl := Except.ok.inj hdiff
    exact ⟨_, rfl, Computes.refines ⟨⟨trivial, .refl _⟩, rfl⟩⟩
  | variableLeaf name b =>
    obtain rfl := Except.ok.inj hdiff
    -- The leaf has scalar shape, the value that of the variable.
    have haxes := (h _ (List.mem_singleton.mpr rfl)).axes name b rfl
    have hscalar := Shape.scalar_stretchesTo haxes
    refine ⟨_, rfl, ?_⟩
    split_ifs
    · exact ⟨⟨trivial, hscalar⟩, Or.inr ⟨_, rfl, Value.symbol_stretchesTo (.unity _) hscalar⟩⟩
    · exact ⟨⟨trivial, hscalar⟩, Or.inr ⟨_, rfl, Value.symbol_stretchesTo (.zero _) hscalar⟩⟩
  | unary f a ih =>
    obtain ⟨du, hdu, _⟩ := exists_of_bind_eq_ok hdiff
    obtain ⟨D, hD, hrefines⟩ := ih (fun S hS => h S (List.mem_cons_of_mem _ hS)) hdu
    exact derivative_refines_unary h hdu hD hrefines hdiff
  | binary f a b iha ihb =>
    obtain ⟨dl, hdl, hrest⟩ := exists_of_bind_eq_ok hdiff
    obtain ⟨dr, hdr, _⟩ := exists_of_bind_eq_ok hrest
    obtain ⟨DL, hDL, hrefinesl⟩ :=
      iha (fun S hS => h S (List.mem_cons_of_mem _ (List.mem_append_left _ hS))) hdl
    obtain ⟨DR, hDR, hrefinesr⟩ :=
      ihb (fun S hS => h S (List.mem_cons_of_mem _ (List.mem_append_right _ hS))) hdr
    exact derivative_refines_binary h hdl hdr hDL hDR hrefinesl hrefinesr hdiff

/-- Where the derivative has a value, the derived tree exists and has a value, and the latter
stretched to the shape of the former is the former. -/
theorem derivative_broadcastsTo (h : ∀ S ∈ a.subtrees, S.Comparable read wrt)
    (hdiff : a.diff read wrt = .ok v) :
    ∃ n w, a.derivative wrt = .ok n ∧ n.eval read = .ok w ∧ w.BroadcastsTo v := by
  obtain ⟨n, hn, hrefines⟩ := derivative_refines h hdiff
  rcases hrefines.eval with ⟨s, rfl⟩ | ⟨w, hw, hstretch⟩
  · exact absurd hdiff ((h a (self_mem_subtrees a)).diff_ne_nan s)
  refine ⟨n, w, hn, hw, ?_⟩
  cases hstretch with
  | tensor h => exact Tensor.broadcastTo_eq_ok h (isAddressable_diff hdiff)
  | symbol h => exact ⟨h.shape, h.eq_withShape⟩

/-- A sine times a one with two places. The derived tree is the cosine, in which neither the factor
nor its shape is left. -/
theorem derivative_broadcastsTo_sin :
    (∀ S ∈ (binary .mul (unary .sin (variableLeaf "x" ())) (constant (.unity [2])) :
        Node ℝ Unit).subtrees, S.Comparable (fun _ => Tensor.ofList [3]) "x") ∧
    (binary .mul (unary .sin (variableLeaf "x" ())) (constant (.unity [2])) : Node ℝ Unit).diff
      (fun _ => Tensor.ofList [3]) "x" = .ok (.tensor (.ofList [Real.cos 3, Real.cos 3])) ∧
    ∃ n w, (binary .mul (unary .sin (variableLeaf "x" ())) (constant (.unity [2])) :
        Node ℝ Unit).derivative "x" = .ok n ∧
      n.eval (fun _ => Tensor.ofList [3]) = .ok w ∧
      w.BroadcastsTo (.tensor (.ofList [Real.cos 3, Real.cos 3])) := by
  have hall : ∀ S ∈ (binary .mul (unary .sin (variableLeaf "x" ())) (constant (.unity [2])) :
      Node ℝ Unit).subtrees, S.Comparable (fun _ => Tensor.ofList [3]) "x" := by
    intro S hS
    simp only [subtrees, List.mem_cons, List.mem_append, List.not_mem_nil, or_false] at hS
    rcases hS with rfl | (rfl | rfl) | rfl
    · exact comparable_of_tensor (fun c h => nomatch h) (fun name b h => nomatch h)
        (t := .ofList [Real.sin 3, Real.sin 3]) (d := .ofList [Real.cos 3, Real.cos 3]) rfl rfl
        (n := unary .cos (variableLeaf "x" ())) rfl rfl
    · exact comparable_of_tensor (fun c h => nomatch h) (fun name b h => nomatch h)
        (t := .ofList [Real.sin 3]) (d := .ofList [Real.cos 3]) rfl rfl
        (n := unary .cos (variableLeaf "x" ())) rfl rfl
    · exact variable_comparable "x" () (List.cons_ne_nil 1 [])
    · exact unity_comparable [2]
  exact ⟨hall, rfl, derivative_broadcastsTo hall rfl⟩

end Node

end FormulaCalculus
