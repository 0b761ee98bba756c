import FormulaCalculus.Proofs.Calculus.ChainRules

/-!
Differentiation is correct in exact arithmetic. At a point where a tree is regular, evaluation
succeeds all around the point, and the value of the partial derivative is the derivative of the
function that evaluation computes.
-/

namespace FormulaCalculus

open Filter Topology

/-- The first entry of a value. -/
noncomputable def Value.entry (v : Value ℝ) : ℝ :=
  match v.toTensor with
  | .ok a => a.data.headD 0
  | .error _ => 0

theorem Value.Is.entry_eq {v : Value ℝ} {x : ℝ} (h : v.Is x) : v.entry = x := by
  have htensor : v.toTensor = .ok (Tensor.singleton x) := by
    cases v with
    | tensor a =>
      rw [show a = Tensor.singleton x from h]
      rfl
    | symbol c =>
      have hc : c.Is x := h
      rw [toTensor, BinaryFn.realPart_eq hc, hc.shape_eq]
      exact Tensor.filled_scalar x
  rw [entry, htensor]
  rfl

theorem Value.Is.eq_zero {v : Value ℝ} {x : ℝ} (h : v.Is x) (hzero : v.isZero = true) : x = 0 := by
  cases v with
  | tensor a => exact absurd hzero Bool.false_ne_true
  | symbol c =>
    cases c with
    | zero s => exact h.2
    | _ => exact absurd hzero Bool.false_ne_true

namespace Node

variable {β : Type}

/-- The number that a tree evaluates to. -/
noncomputable def realValue (read : β → Tensor ℝ) (a : Node ℝ β) : ℝ :=
  match a.eval read with
  | .ok v => v.entry
  | .error _ => 0

/-- Whether a tree evaluates to a real number in shape `[1]`. -/
def Evaluates (read : β → Tensor ℝ) (a : Node ℝ β) : Prop :=
  Yields (a.eval read) (a.realValue read)

/-- Whether the constants of a tree are real numbers in shape `[1]`. -/
def IsReal : Node ℝ β → Prop
  | constant c => ∃ x, c.Is x
  | tensor a => ∃ x, a = Tensor.singleton x
  | variableLeaf _ _ => True
  | unary _ a => a.IsReal
  | binary _ a b => a.IsReal ∧ b.IsReal

/-- Whether every variable of a tree reads as the number that its name stands for. -/
def ReadsNames (read : (String → ℝ) → β → Tensor ℝ) : Node ℝ β → Prop
  | constant _ | tensor _ => True
  | variableLeaf name b => ∀ env, read env b = Tensor.singleton (env name)
  | unary _ a => a.ReadsNames read
  | binary _ a b => a.ReadsNames read ∧ b.ReadsNames read

/-- Whether every function in a tree is applied to operands at which it is regular. An exponent
stays fixed if it does not mention the variable. -/
def RegularAt (read : β → Tensor ℝ) (wrt : String) : Node ℝ β → Prop
  | constant _ | tensor _ | variableLeaf _ _ => True
  | unary f a => a.RegularAt read wrt ∧ f.RegularAt (a.realValue read)
  | binary f a b => a.RegularAt read wrt ∧ b.RegularAt read wrt ∧
    f.RegularAt (wrt ∉ b.names) (a.realValue read) (b.realValue read)

variable {read : β → Tensor ℝ} {a b : Node ℝ β} {x y : ℝ}

theorem realValue_of_yields (h : Yields (a.eval read) x) : a.realValue read = x := by
  obtain ⟨v, hv, his⟩ := h
  rw [realValue, hv]
  exact his.entry_eq

theorem evaluates_of_yields (h : Yields (a.eval read) x) : a.Evaluates read := by
  rw [Evaluates, realValue_of_yields h]
  exact h

theorem yields_unary {f : UnaryFn} (ha : a.Evaluates read)
    (h : f.inDomain (a.realValue read) = true) :
    Yields ((unary f a).eval read) (f.real (a.realValue read)) :=
  Yields.bind ha fun _ hv => .of_is (UnaryFn.onValue_is hv h)

theorem yields_binary {f : BinaryFn} (ha : a.Evaluates read) (hb : b.Evaluates read)
    (h : f.Defined (a.realValue read) (b.realValue read)) :
    Yields ((binary f a b).eval read) (f.real (a.realValue read) (b.realValue read)) :=
  Yields.bind ha fun _ hv => Yields.bind hb fun _ hw => BinaryFn.onValues_yields hv hw h

variable {reads : (String → ℝ) → β → Tensor ℝ} {wrt : String} {env : String → ℝ}

/-- A tree that does not mention a variable does not change with it. -/
theorem eval_update (hreads : a.ReadsNames reads) (hwrt : wrt ∉ a.names) (s : ℝ) :
    a.eval (reads (Function.update env wrt s)) = a.eval (reads env) := by
  induction a with
  | constant c => rfl
  | tensor t => rfl
  | variableLeaf name b =>
    have hname : name ≠ wrt := fun h => hwrt (by simp [names, h])
    have hread : reads (Function.update env wrt s) b = reads env b := by
      rw [hreads, hreads, Function.update_of_ne hname]
    rw [eval, eval, hread]
  | unary f a ih => rw [eval, eval, ih hreads hwrt]
  | binary f a b iha ihb =>
    rw [names, List.mem_append, not_or] at hwrt
    rw [eval, eval, iha hreads.1 hwrt.1, ihb hreads.2 hwrt.2]

/-- Its derivative is the symbol for zero. -/
theorem diff_of_not_mem (hreads : a.ReadsNames reads) (hreal : a.IsReal) (hwrt : wrt ∉ a.names) :
    a.diff (reads env) wrt = .ok (.symbol (.zero Shape.scalar)) := by
  induction a with
  | constant c =>
    obtain ⟨x, hx⟩ := hreal
    rw [diff, hx.shape_eq]
  | tensor t =>
    obtain ⟨x, rfl⟩ := hreal
    rfl
  | variableLeaf name b =>
    have hname : name ≠ wrt := fun h => hwrt (by simp [names, h])
    rw [diff, if_neg hname, hreads]
    rfl
  | unary f a ih =>
    rw [diff, ih hreads hreal hwrt]
    rfl
  | binary f a b iha ihb =>
    rw [names, List.mem_append, not_or] at hwrt
    rw [diff, iha hreads.1 hreal.1 hwrt.1, ihb hreads.2 hreal.2 hwrt.2]
    rfl

/-- What is proved of every part of a regular tree: it evaluates around the point, and its
derivative succeeds with the derivative of its value. -/
structure DifferentiatesAt (reads : (String → ℝ) → β → Tensor ℝ) (wrt : String)
    (env : String → ℝ) (a : Node ℝ β) (d : ℝ) : Prop where
  evaluates : ∀ᶠ s in 𝓝 (env wrt), a.Evaluates (reads (Function.update env wrt s))
  hasDerivAt : HasDerivAt (fun s => a.realValue (reads (Function.update env wrt s))) d (env wrt)
  diff : Yields (a.diff (reads env) wrt) d

namespace DifferentiatesAt

variable {d da db : ℝ}

theorem evaluates_self (h : DifferentiatesAt reads wrt env a d) : a.Evaluates (reads env) := by
  have hself := h.evaluates.self_of_nhds
  rw [Function.update_eq_self] at hself
  exact hself

theorem of_leaf {F : ℝ → ℝ} (heval : ∀ s, Yields (a.eval (reads (Function.update env wrt s))) (F s))
    (hderiv : HasDerivAt F d (env wrt)) (hdiff : Yields (a.diff (reads env) wrt) d) :
    DifferentiatesAt reads wrt env a d where
  evaluates := Eventually.of_forall fun s => evaluates_of_yields (heval s)
  hasDerivAt := hderiv.congr_of_eventuallyEq
    (Eventually.of_forall fun s => realValue_of_yields (heval s))
  diff := hdiff

theorem unary {f : UnaryFn} (h : DifferentiatesAt reads wrt env a da)
    (hf : f.RegularAt (a.realValue (reads env))) :
    DifferentiatesAt reads wrt env (.unary f a) (f.slope (a.realValue (reads env)) * da) := by
  have hself :
      a.realValue (reads (Function.update env wrt (env wrt))) = a.realValue (reads env) := by
    rw [Function.update_eq_self]
  have hf' : f.RegularAt (a.realValue (reads (Function.update env wrt (env wrt)))) := by rwa [hself]
  -- The domain is open, so the function can be applied at all points nearby.
  have hyields : ∀ᶠ s in 𝓝 (env wrt), Yields
      ((Node.unary f a).eval (reads (Function.update env wrt s)))
      (f.real (a.realValue (reads (Function.update env wrt s)))) := by
    filter_upwards [h.evaluates,
      h.hasDerivAt.continuousAt.eventually (UnaryFn.eventually_inDomain hf')] with s ha hs
    exact yields_unary ha hs
  refine ⟨hyields.mono fun s hs => evaluates_of_yields hs, ?_, ?_⟩
  · have hcomp := (UnaryFn.hasDerivAt_real hf').comp (env wrt) h.hasDerivAt
    rw [hself] at hcomp
    exact hcomp.congr_of_eventuallyEq (hyields.mono fun s hs => realValue_of_yields hs)
  · refine h.diff.bind fun du hdu => ?_
    by_cases hzero : du.isZero = true
    · rw [if_pos hzero]
      refine (Yields.of_is hdu).congr ?_
      rw [hdu.eq_zero hzero, mul_zero]
    · rw [if_neg hzero]
      exact Yields.bind h.evaluates_self fun u hu => Terms.unaryRule_yields hu hdu hf

theorem binary {f : BinaryFn} (ha : DifferentiatesAt reads wrt env a da)
    (hb : DifferentiatesAt reads wrt env b db)
    (hfixed : wrt ∉ b.names → b.diff (reads env) wrt = .ok (.symbol (.zero Shape.scalar)) ∧
      ∀ s, b.realValue (reads (Function.update env wrt s)) = b.realValue (reads env))
    (hf : f.RegularAt (wrt ∉ b.names) (a.realValue (reads env)) (b.realValue (reads env))) :
    DifferentiatesAt reads wrt env (.binary f a b)
      (f.slope (a.realValue (reads env)) (b.realValue (reads env)) da db) := by
  have hselfa :
      a.realValue (reads (Function.update env wrt (env wrt))) = a.realValue (reads env) := by
    rw [Function.update_eq_self]
  have hselfb :
      b.realValue (reads (Function.update env wrt (env wrt))) = b.realValue (reads env) := by
    rw [Function.update_eq_self]
  -- What does not mention the variable has the symbol for zero as its derivative.
  have hdb : wrt ∉ b.names → db = 0 := by
    intro hwrt
    obtain ⟨v, hv, hdb⟩ := hb.diff
    rw [(hfixed hwrt).1] at hv
    obtain rfl := Except.ok.inj hv
    exact hdb.2
  have hfixed' : wrt ∉ b.names → db = 0 ∧ ∀ s, b.realValue (reads (Function.update env wrt s)) =
      b.realValue (reads (Function.update env wrt (env wrt))) :=
    fun hwrt => ⟨hdb hwrt, fun s => ((hfixed hwrt).2 s).trans hselfb.symm⟩
  have hf' : f.RegularAt (wrt ∉ b.names) (a.realValue (reads (Function.update env wrt (env wrt))))
      (b.realValue (reads (Function.update env wrt (env wrt)))) := by rwa [hselfa, hselfb]
  have hyields : ∀ᶠ s in 𝓝 (env wrt), Yields
      ((Node.binary f a b).eval (reads (Function.update env wrt s)))
      (f.real (a.realValue (reads (Function.update env wrt s)))
        (b.realValue (reads (Function.update env wrt s)))) := by
    filter_upwards [ha.evaluates, hb.evaluates,
      BinaryFn.eventually_defined ha.hasDerivAt hb.hasDerivAt hfixed' hf'] with s hsa hsb hs
    exact yields_binary hsa hsb hs
  refine ⟨hyields.mono fun s hs => evaluates_of_yields hs, ?_, ?_⟩
  · have hcomp := BinaryFn.hasDerivAt_real ha.hasDerivAt hb.hasDerivAt hfixed' hf'
    rw [hselfa, hselfb] at hcomp
    exact hcomp.congr_of_eventuallyEq (hyields.mono fun s hs => realValue_of_yields hs)
  · obtain ⟨dl, hdl, hdlis⟩ := ha.diff
    obtain ⟨dr, hdr, hdris⟩ := hb.diff
    obtain ⟨l, hl, hlis⟩ := ha.evaluates_self
    obtain ⟨r, hr, hris⟩ := hb.evaluates_self
    have hzero : wrt ∉ b.names → dr.isZero = true := by
      intro hwrt
      rw [(hfixed hwrt).1] at hdr
      obtain rfl := Except.ok.inj hdr
      rfl
    have hrule := Terms.binaryRule_yields hlis hris hdlis hdris hzero hf
    rw [Node.diff, hdl, hdr, hl, hr]
    change Yields (if dl.isZero && dr.isZero then _ else _) _
    -- Two symbols for zero are added and no rule is applied.
    split_ifs with hboth
    · obtain ⟨hdlzero, hdrzero⟩ := Bool.and_eq_true_iff.mp hboth
      obtain rfl := hdlis.eq_zero hdlzero
      obtain rfl := hdris.eq_zero hdrzero
      refine (BinaryFn.onValues_yields (f := .add) hdlis hdris trivial).congr ?_
      rw [BinaryFn.slope_zero]
      exact add_zero 0
    · exact hrule

end DifferentiatesAt

theorem differentiatesAt (hreads : a.ReadsNames reads) (hreal : a.IsReal)
    (hregular : a.RegularAt (reads env) wrt) : ∃ d, DifferentiatesAt reads wrt env a d := by
  induction a with
  | constant c =>
    obtain ⟨x, hx⟩ := hreal
    exact ⟨0, .of_leaf (fun _ => .of_is hx) (hasDerivAt_const _ x)
      (.of_is ⟨hx.shape_eq, rfl⟩)⟩
  | tensor t =>
    obtain ⟨x, rfl⟩ := hreal
    exact ⟨0, .of_leaf (F := fun _ => x) (fun _ => .of_is rfl) (hasDerivAt_const _ x)
      (.of_is ⟨rfl, rfl⟩)⟩
  | variableLeaf name b =>
    have heval (s : ℝ) : Yields ((variableLeaf name b).eval (reads (Function.update env wrt s)))
        (Function.update env wrt s name) := by
      rw [eval, hreads]
      exact .of_is rfl
    by_cases hname : name = wrt
    · subst hname
      have hvalue (s : ℝ) := (heval s).congr (Function.update_self name s env)
      refine ⟨1, .of_leaf hvalue (hasDerivAt_id' _) ?_⟩
      rw [diff, if_pos rfl, hreads]
      exact .of_is ⟨rfl, rfl⟩
    · refine ⟨0, .of_leaf (fun s => (heval s).congr (Function.update_of_ne hname s env))
        (hasDerivAt_const _ _) ?_⟩
      rw [diff, if_neg hname, hreads]
      exact .of_is ⟨rfl, rfl⟩
  | unary f a ih =>
    obtain ⟨d, hd⟩ := ih hreads hreal hregular.1
    exact ⟨_, hd.unary hregular.2⟩
  | binary f a b iha ihb =>
    obtain ⟨da, hda⟩ := iha hreads.1 hreal.1 hregular.1
    obtain ⟨db, hdb⟩ := ihb hreads.2 hreal.2 hregular.2.1
    refine ⟨_, hda.binary hdb (fun hwrt => ⟨diff_of_not_mem hreads.2 hreal.2 hwrt, fun s => ?_⟩)
      hregular.2.2⟩
    rw [realValue, realValue, eval_update hreads.2 hwrt]

/-- At every point where a tree over real numbers is regular, the value of its partial derivative is
the derivative of the function that the tree evaluates to around the point. -/
theorem diff_hasDerivAt (hreads : a.ReadsNames reads) (hreal : a.IsReal)
    (hregular : a.RegularAt (reads env) wrt) :
    ∃ v d, a.diff (reads env) wrt = .ok v ∧ v.Is d ∧
      (∀ᶠ s in 𝓝 (env wrt), a.Evaluates (reads (Function.update env wrt s))) ∧
      HasDerivAt (fun s => a.realValue (reads (Function.update env wrt s))) d (env wrt) := by
  obtain ⟨d, hd⟩ := differentiatesAt hreads hreal hregular
  obtain ⟨v, hv, his⟩ := hd.diff
  exact ⟨v, d, hv, his, hd.evaluates, hd.hasDerivAt⟩

/-- The cube has a derivative at a negative number. -/
theorem diff_hasDerivAt_cube :
    let reads (env : String → ℝ) (name : String) := Tensor.singleton (env name)
    let cube : Node ℝ String := binary .pow (variableLeaf "x" "x") (constant (.ofReal 3))
    let env : String → ℝ := fun _ => -2
    (cube.ReadsNames reads ∧ cube.IsReal ∧ cube.RegularAt (reads env) "x") ∧
      ∃ v d, cube.diff (reads env) "x" = .ok v ∧ v.Is d ∧
        (∀ᶠ s in 𝓝 (env "x"), cube.Evaluates (reads (Function.update env "x" s))) ∧
        HasDerivAt (fun s => cube.realValue (reads (Function.update env "x" s))) d (env "x") := by
  intro reads cube env
  have hreads : cube.ReadsNames reads := ⟨fun _ => rfl, trivial⟩
  have hreal : cube.IsReal := ⟨trivial, 3, rfl, rfl⟩
  have hregular : cube.RegularAt (reads env) "x" := by
    have hbase : (variableLeaf "x" "x" : Node ℝ String).realValue (reads env) = -2 := rfl
    have hexponent : (constant (.ofReal 3) : Node ℝ String).realValue (reads env) = 3 :=
      realValue_of_yields (.of_is ⟨rfl, rfl⟩)
    refine ⟨trivial, trivial, Or.inr ⟨?_, ⟨3, ?_⟩, ?_⟩⟩
    · rw [hbase]
      norm_num
    · rw [hexponent]
      norm_num
    · exact List.not_mem_nil
  exact ⟨⟨hreads, hreal, hregular⟩, diff_hasDerivAt hreads hreal hregular⟩

end Node

end FormulaCalculus
