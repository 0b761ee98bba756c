import FormulaCalculus.Proofs.Tensor.Stretching
import FormulaCalculus.Tree.Derivative

/-!
What the chain rules keep. A property of terms that all functions keep and that the rules' own
constants have is a property of every derivative. A derivative is in an ideal of terms if the
operands' derivatives are.
-/

namespace FormulaCalculus

namespace Terms

variable {α τ : Type} [Scalar α] [Terms α τ]

/-- Whether all functions keep a property and the constants of the chain rules have it. -/
structure Closed (P : τ → Prop) : Prop where
  one : P one
  half : P (real Scalar.half)
  two : P (real Scalar.two)
  ln10 : P (real Scalar.ln10)
  unary : ∀ f x, P x → P (unary f x)
  binary : ∀ f x y r, P x → P y → binary f x y = .ok r → P r

variable {P : τ → Prop} {u du l r dl dr v : τ}

/-- Whether a calculation gives a term with a property, if it gives one. -/
def Gives (P : τ → Prop) (m : Except (AlgebraError α) τ) : Prop := ∀ v, m = .ok v → P v

omit [Scalar α] [Terms α τ] in
theorem Gives.ok (h : P v) : Gives P (.ok v : Except (AlgebraError α) τ) := by
  intro w hw
  rwa [← Except.ok.inj hw]

omit [Scalar α] [Terms α τ] in
theorem Gives.bind {Q : τ → Prop} {m : Except (AlgebraError α) τ}
    {f : τ → Except (AlgebraError α) τ} (h : Gives P m) (hf : ∀ v, P v → Gives Q (f v)) :
    Gives Q (m >>= f) := by
  intro w hw
  obtain ⟨v, hv, hw⟩ := exists_of_bind_eq_ok hw
  exact hf v (h v hv) w hw

theorem Closed.gives (h : Closed P) (f : BinaryFn) (hl : P l) (hr : P r) :
    Gives P (Terms.binary f l r) := fun v hv => h.binary f l r v hl hr hv

theorem Closed.unaryRule (h : Closed P) (f : UnaryFn) (hu : P u) (hdu : P du) :
    Gives P (unaryRule f u du) := by
  have hsquare := h.unary .square u hu
  cases f with
  | neg => exact .ok (h.unary .neg du hdu)
  | abs => exact (h.gives .div hu (h.unary .abs u hu)).bind fun v hv => h.gives .mul hv hdu
  | sqrt =>
    exact (h.gives .mul h.half hdu).bind fun v hv => h.gives .div hv (h.unary .sqrt u hu)
  | square => exact (h.gives .mul h.two hu).bind fun v hv => h.gives .mul hv hdu
  | exp => exact h.gives .mul (h.unary .exp u hu) hdu
  | log => exact h.gives .div hdu hu
  | log10 => exact (h.gives .mul hu h.ln10).bind fun v hv => h.gives .div hdu hv
  | sin => exact h.gives .mul (h.unary .cos u hu) hdu
  | cos => exact h.gives .mul (h.unary .neg _ (h.unary .sin u hu)) hdu
  | tan => exact h.gives .div hdu (h.unary .square _ (h.unary .cos u hu))
  | asin =>
    exact (h.gives .sub h.one hsquare).bind fun v hv => h.gives .div hdu (h.unary .sqrt v hv)
  | acos =>
    exact (h.gives .sub h.one hsquare).bind fun v hv =>
      h.gives .div (h.unary .neg du hdu) (h.unary .sqrt v hv)
  | atan => exact (h.gives .add h.one hsquare).bind fun v hv => h.gives .div hdu hv
  | sinh => exact h.gives .mul (h.unary .cosh u hu) hdu
  | cosh => exact h.gives .mul (h.unary .sinh u hu) hdu
  | tanh => exact h.gives .div hdu (h.unary .square _ (h.unary .cosh u hu))
  | asinh =>
    exact (h.gives .add hsquare h.one).bind fun v hv => h.gives .div hdu (h.unary .sqrt v hv)
  | acosh =>
    exact (h.gives .sub hsquare h.one).bind fun v hv => h.gives .div hdu (h.unary .sqrt v hv)
  | atanh => exact (h.gives .sub h.one hsquare).bind fun v hv => h.gives .div hdu hv

theorem Closed.powRule (h : Closed P) (hl : P l) (hr : P r) (hdl : P dl) :
    Gives P (powRule l r dl) := by
  refine (h.gives .sub hr h.one).bind fun reduced hreduced => ?_
  refine (h.gives .pow hl hreduced).bind fun power hpower => ?_
  refine (h.gives .mul hr hpower).bind fun outer houter => ?_
  exact h.gives .mul houter hdl

theorem Closed.expPowRule (h : Closed P) (hl : P l) (hr : P r) (hdl : P dl) (hdr : P dr) :
    Gives P (expPowRule l r dl dr) := by
  refine (h.gives .mul hdr (h.unary .log l hl)).bind fun logTerm hlog => ?_
  refine (h.gives .mul hr hdl).bind fun factor hfactor => ?_
  refine (h.gives .div hfactor hl).bind fun baseTerm hbase => ?_
  refine (h.gives .pow hl hr).bind fun power hpower => ?_
  refine (h.gives .add hlog hbase).bind fun sum hsum => ?_
  exact h.gives .mul hpower hsum

theorem Closed.binaryRule (h : Closed P) (f : BinaryFn) (hl : P l) (hr : P r) (hdl : P dl)
    (hdr : P dr) : Gives P (binaryRule f l r dl dr) := by
  have hneg := h.unary .neg l hl
  cases f with
  | add => exact h.gives .add hdl hdr
  | sub => exact h.gives .sub hdl hdr
  | mul =>
    refine (h.gives .mul hdl hr).bind fun x hx => ?_
    exact (h.gives .mul hl hdr).bind fun y hy => h.gives .add hx hy
  | div =>
    refine (h.gives .mul hdl hr).bind fun x hx => ?_
    refine (h.gives .mul hneg hdr).bind fun y hy => ?_
    refine (h.gives .add hx hy).bind fun z hz => ?_
    exact h.gives .div hz (h.unary .square r hr)
  | pow =>
    have hbranch : Terms.binaryRule .pow l r dl dr =
        if isZero dr then Terms.powRule l r dl else Terms.expPowRule l r dl dr := rfl
    rw [hbranch]
    split_ifs
    · exact h.powRule hl hr hdl
    · exact h.expPowRule hl hr hdl hdr
  | atan2 =>
    refine (h.gives .mul hr hdl).bind fun x hx => ?_
    refine (h.gives .mul hneg hdr).bind fun y hy => ?_
    refine (h.gives .add hx hy).bind fun z hz => ?_
    refine (h.gives .add (h.unary .square r hr) (h.unary .square l hl)).bind fun w hw => ?_
    exact h.gives .div hz hw

/-! ### Ideals -/

/-- Whether the terms with the property `N` form an ideal among those with `P`: sums, differences
and opposites of them, products with them and quotients of them have it again. -/
structure Ideal (P N : τ → Prop) : Prop extends Closed P where
  le : ∀ x, N x → P x
  neg : ∀ x, N x → N (Terms.unary .neg x)
  add : ∀ x y, N x → N y → Gives N (Terms.binary .add x y)
  sub : ∀ x y, N x → N y → Gives N (Terms.binary .sub x y)
  mul : ∀ x y, P x → P y → N x ∨ N y → Gives N (Terms.binary .mul x y)
  div : ∀ x y, N x → P y → Gives N (Terms.binary .div x y)

variable {N : τ → Prop}

/-- The derivative of a function at a term whose derivative is in the ideal. -/
theorem Ideal.unaryRule (h : Ideal P N) (f : UnaryFn) (hu : P u) (hdu : N du) :
    Gives N (Terms.unaryRule f u du) := by
  have hsquare := h.unary .square u hu
  have hproduct {m : τ} (hm : P m) : Gives N (Terms.binary .mul m du) :=
    h.mul m du hm (h.le du hdu) (Or.inr hdu)
  have hquotient {m : τ} (hm : P m) : Gives N (Terms.binary .div du m) := h.div du m hdu hm
  cases f with
  | neg => exact .ok (h.neg du hdu)
  | abs => exact (h.gives .div hu (h.unary .abs u hu)).bind fun v hv => hproduct hv
  | sqrt => exact (hproduct h.half).bind fun v hv => h.div v _ hv (h.unary .sqrt u hu)
  | square => exact (h.gives .mul h.two hu).bind fun v hv => hproduct hv
  | exp => exact hproduct (h.unary .exp u hu)
  | log => exact hquotient hu
  | log10 => exact (h.gives .mul hu h.ln10).bind fun v hv => hquotient hv
  | sin => exact hproduct (h.unary .cos u hu)
  | cos => exact hproduct (h.unary .neg _ (h.unary .sin u hu))
  | tan => exact hquotient (h.unary .square _ (h.unary .cos u hu))
  | asin => exact (h.gives .sub h.one hsquare).bind fun v hv => hquotient (h.unary .sqrt v hv)
  | acos =>
    exact (h.gives .sub h.one hsquare).bind fun v hv =>
      h.div _ _ (h.neg du hdu) (h.unary .sqrt v hv)
  | atan => exact (h.gives .add h.one hsquare).bind fun v hv => hquotient hv
  | sinh => exact hproduct (h.unary .cosh u hu)
  | cosh => exact hproduct (h.unary .sinh u hu)
  | tanh => exact hquotient (h.unary .square _ (h.unary .cosh u hu))
  | asinh => exact (h.gives .add hsquare h.one).bind fun v hv => hquotient (h.unary .sqrt v hv)
  | acosh => exact (h.gives .sub hsquare h.one).bind fun v hv => hquotient (h.unary .sqrt v hv)
  | atanh => exact (h.gives .sub h.one hsquare).bind fun v hv => hquotient hv

theorem Ideal.powRule (h : Ideal P N) (hl : P l) (hr : P r) (hdl : P dl) (hnull : N r ∨ N dl) :
    Gives N (Terms.powRule l r dl) := by
  refine (h.gives .sub hr h.one).bind fun reduced hreduced => ?_
  refine (h.gives .pow hl hreduced).bind fun power hpower => ?_
  rcases hnull with hnull | hnull
  · refine (h.mul r power hr hpower (Or.inl hnull)).bind fun outer houter => ?_
    exact h.mul outer dl (h.le outer houter) hdl (Or.inl houter)
  · refine (h.gives .mul hr hpower).bind fun outer houter => ?_
    exact h.mul outer dl houter hdl (Or.inr hnull)

theorem Ideal.expPowRule (h : Ideal P N) (hl : P l) (hr : P r) (hdl : P dl) (hdr : P dr)
    (hlog : N dr ∨ N (Terms.unary .log l)) (hnull : N r ∨ N dl) :
    Gives N (Terms.expPowRule l r dl dr) := by
  refine (h.mul dr _ hdr (h.unary .log l hl) hlog).bind fun logTerm hlogTerm => ?_
  refine (h.mul r dl hr hdl hnull).bind fun factor hfactor => ?_
  refine (h.div factor l hfactor hl).bind fun baseTerm hbase => ?_
  refine (h.gives .pow hl hr).bind fun power hpower => ?_
  refine (h.add logTerm baseTerm hlogTerm hbase).bind fun sum hsum => ?_
  exact h.mul power sum hpower (h.le sum hsum) (Or.inr hsum)

/-- The derivative of a power, by either rule. -/
theorem Ideal.pow (h : Ideal P N) (hl : P l) (hr : P r) (hdl : P dl) (hdr : P dr)
    (hlog : N dr ∨ N (Terms.unary .log l)) (hnull : N r ∨ N dl) :
    Gives N (Terms.binaryRule .pow l r dl dr) := by
  have hbranch : Terms.binaryRule .pow l r dl dr =
      if isZero dr then Terms.powRule l r dl else Terms.expPowRule l r dl dr := rfl
  rw [hbranch]
  split_ifs
  · exact h.powRule hl hr hdl hnull
  · exact h.expPowRule hl hr hdl hdr hlog hnull

theorem Ideal.product (h : Ideal P N) (hl : P l) (hr : P r) (hdl : P dl) (hdr : P dr)
    (hleft : N dl ∨ N r) (hright : N l ∨ N dr) : Gives N (Terms.binaryRule .mul l r dl dr) := by
  refine (h.mul dl r hdl hr hleft).bind fun x hx => ?_
  exact (h.mul l dr hl hdr hright).bind fun y hy => h.add x y hx hy

theorem Ideal.quotient (h : Ideal P N) (hl : P l) (hr : P r) (hdl : P dl) (hdr : P dr)
    (hleft : N dl ∨ N r) (hright : N l ∨ N dr) : Gives N (Terms.binaryRule .div l r dl dr) := by
  refine (h.mul dl r hdl hr hleft).bind fun x hx => ?_
  refine (h.mul _ dr (h.unary .neg l hl) hdr (hright.imp_left (h.neg l))).bind fun y hy => ?_
  refine (h.add x y hx hy).bind fun z hz => ?_
  exact h.div z _ hz (h.unary .square r hr)

theorem Ideal.angle (h : Ideal P N) (hl : P l) (hr : P r) (hdl : P dl) (hdr : P dr)
    (hleft : N r ∨ N dl) (hright : N l ∨ N dr) : Gives N (Terms.binaryRule .atan2 l r dl dr) := by
  refine (h.mul r dl hr hdl hleft).bind fun x hx => ?_
  refine (h.mul _ dr (h.unary .neg l hl) hdr (hright.imp_left (h.neg l))).bind fun y hy => ?_
  refine (h.add x y hx hy).bind fun z hz => ?_
  refine (h.gives .add (h.unary .square r hr) (h.unary .square l hl)).bind fun w hw => ?_
  exact h.div z w hz hw

/-- The derivative of a function that is no sum, at terms of which one is in the ideal together with
its derivative. -/
theorem Ideal.productRule (h : Ideal P N) {f : BinaryFn} (hadd : f ≠ .add) (hsub : f ≠ .sub)
    (hlog : N l → N (Terms.unary .log l)) (hl : P l) (hr : P r) (hdl : P dl) (hdr : P dr)
    (hside : N l ∧ N dl ∨ N r ∧ N dr) : Gives N (Terms.binaryRule f l r dl dr) := by
  -- each product in a rule has one factor from the one operand and one from the other
  have hcross : N r ∨ N dl := by
    rcases hside with ⟨-, hdl⟩ | ⟨hr, -⟩
    · exact Or.inr hdl
    · exact Or.inl hr
  have hcross' : N l ∨ N dr := by
    rcases hside with ⟨hl, -⟩ | ⟨-, hdr⟩
    · exact Or.inl hl
    · exact Or.inr hdr
  cases f with
  | add => exact absurd rfl hadd
  | sub => exact absurd rfl hsub
  | mul => exact h.product hl hr hdl hdr hcross.symm hcross'
  | div => exact h.quotient hl hr hdl hdr hcross.symm hcross'
  | pow => exact h.pow hl hr hdl hdr (hcross'.imp_left hlog).symm hcross
  | atan2 => exact h.angle hl hr hdl hdr hcross hcross'

/-- The derivative of a function at terms whose derivatives are in the ideal. -/
theorem Ideal.binaryRule (h : Ideal P N) (f : BinaryFn) (hl : P l) (hr : P r) (hdl : N dl)
    (hdr : N dr) : Gives N (Terms.binaryRule f l r dl dr) := by
  have hPdl := h.le dl hdl
  have hPdr := h.le dr hdr
  cases f with
  | add => exact h.add dl dr hdl hdr
  | sub => exact h.sub dl dr hdl hdr
  | mul => exact h.product hl hr hPdl hPdr (Or.inl hdl) (Or.inr hdr)
  | div => exact h.quotient hl hr hPdl hPdr (Or.inl hdl) (Or.inr hdr)
  | pow => exact h.pow hl hr hPdl hPdr (Or.inl hdr) (Or.inr hdl)
  | atan2 => exact h.angle hl hr hPdl hPdr (Or.inr hdl) (Or.inr hdr)

end Terms

/-! ### Derived trees -/

namespace Node

variable {α β : Type} [Scalar α]

/-- Whether a closed property of trees passes to their parts and to the derivatives of leaves. -/
structure Inherited (P : Node α β → Prop) : Prop extends Terms.Closed P where
  scalarZero : P (.constant (.zero Shape.scalar))
  constantZero : ∀ c, P (.constant c) → P (.constant (.zero c.shape))
  tensorZero : ∀ a, P (.tensor a) → P (.constant (.zero a.shape))
  unaryChild : ∀ f a, P (Node.unary f a) → P a
  binaryChildren : ∀ f a b, P (Node.binary f a b) → P a ∧ P b

theorem Inherited.derivative {P : Node α β → Prop} (h : Inherited P) {wrt : String}
    {a n : Node α β} (ha : P a) (hn : a.derivative wrt = .ok n) : P n := by
  induction a generalizing n with
  | constant c =>
    obtain rfl := Except.ok.inj hn
    exact h.constantZero c ha
  | tensor a =>
    obtain rfl := Except.ok.inj hn
    exact h.tensorZero a ha
  | variableLeaf name b =>
    obtain rfl := Except.ok.inj hn
    split_ifs
    · exact h.one
    · exact h.scalarZero
  | unary f a ih =>
    have hchild := h.unaryChild f a ha
    obtain ⟨du, hdu, hn⟩ := exists_of_bind_eq_ok hn
    split_ifs at hn
    · obtain rfl := Except.ok.inj hn
      exact ih hchild hdu
    · exact h.unaryRule f hchild (ih hchild hdu) n hn
  | binary f a b iha ihb =>
    obtain ⟨hleft, hright⟩ := h.binaryChildren f a b ha
    obtain ⟨dl, hdl, hn⟩ := exists_of_bind_eq_ok hn
    obtain ⟨dr, hdr, hn⟩ := exists_of_bind_eq_ok hn
    split_ifs at hn
    · exact h.binary .add dl dr n (iha hleft hdl) (ihb hright hdr) hn
    · exact h.binaryRule f hleft hright (iha hleft hdl) (ihb hright hdr) n hn

end Node

end FormulaCalculus
