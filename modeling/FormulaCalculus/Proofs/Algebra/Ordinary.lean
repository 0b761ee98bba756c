import FormulaCalculus.Proofs.Algebra.RealLine
import FormulaCalculus.Proofs.Scalar.Rounding

/-!
Ordinary constants: the symbols and the real numbers without symbol, of scalar shape. They are what
can be typed without an imaginary literal, and sums, differences, products and quotients of them,
and their opposites, squares and logarithms, are ordinary again.
-/

namespace FormulaCalculus

variable {α : Type} [Scalar α]

namespace Constant

variable {c d : Constant α}

/-- Whether a constant is a symbol or a real number without symbol, of scalar shape. -/
structure Ordinary (c : Constant α) : Prop where
  shape : c.shape = Shape.scalar
  unflagged : c.isImaginary = false
  wellFormed : c.WellFormed

variable [LawfulScalar α]

theorem ordinary_ofReal {x : α} (hx : Scalar.Plain x) : (ofReal x).Ordinary :=
  ⟨rfl, rfl, fun _ => ⟨ComplexNumber.isReal_ofReal x, hx⟩⟩

theorem Ordinary.onRealLine (hc : c.Ordinary) : c.OnRealLine := by
  refine ⟨hc.unflagged, ?_⟩
  cases c with
  | number n => exact (hc.wellFormed hc.unflagged).1
  | _ => exact ComplexNumber.isReal_ofReal _

/-- Constants are folded to ordinary ones by sums, differences, products and quotients. -/
theorem Ordinary.onConstants {f : BinaryFn} (hf : f.IsArithmetic) {e : Constant α}
    (hc : c.Ordinary) (hd : d.Ordinary) (h : f.onConstants c d = .ok e) : e.Ordinary := by
  have hreal : e.OnRealLine := .onConstants hf.1 hc.onRealLine hd.onRealLine h
  refine ⟨?_, hreal.unflagged, BinaryFn.onConstants_wellFormed hc.wellFormed hd.wellFormed h⟩
  have hjoin := (BinaryFn.onConstants_eq_ok h).1
  rw [hc.shape, hd.shape] at hjoin
  exact (Option.some.inj hjoin).symm

/-- An ordinary number has a real opposite, square and logarithm; the last can be undefined. -/
theorem Ordinary.onConstant {f : UnaryFn} (hf : f = .neg ∨ f = .square ∨ f = .log)
    (hc : c.Ordinary) : (f.onConstant c).Ordinary := by
  have hstays : f.leavesRealLine = false := by rcases hf with rfl | rfl | rfl <;> rfl
  have hreal := UnaryFn.onConstant_onRealLine hstays hc.onRealLine
  exact ⟨(f.shape_onConstant c).trans hc.shape, hreal.unflagged,
    f.onConstant_wellFormed hc.wellFormed⟩

end Constant

end FormulaCalculus
