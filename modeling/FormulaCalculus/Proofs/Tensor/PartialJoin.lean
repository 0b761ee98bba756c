import FormulaCalculus.Proofs.Tensor.JointShape
import FormulaCalculus.Proofs.Tensor.Stretching
import FormulaCalculus.Scalar.Double

/-!
Joining shapes as an operation that may fail. It is commutative, associative and idempotent, and the
shape without axes is neutral. A tensor is stretched to a shape if its own shape adds nothing to
that one, unless the shape is too large to be addressed: then it is refused, also where it has no
entries at all.
-/

namespace FormulaCalculus

open Shape (volume join?)

namespace Tensor

variable {α ε : Type} {a b c r u : Shape}

theorem joinShapes_comm_iff : joinShapes a b = (.ok u : Except (AlgebraError ε) Shape) ↔
    joinShapes b a = (.ok u : Except (AlgebraError ε) Shape) := by
  rw [joinShapes_eq_ok, joinShapes_eq_ok, Shape.join?_comm]

/-- Joining one shape behind another. -/
theorem joinShapes_bind_eq_ok {f : Shape → Except (AlgebraError ε) Shape} {g : Shape → Option Shape}
    (hf : ∀ s, f s = .ok u ↔ g s = some u) :
    (joinShapes a b >>= f) = .ok u ↔ (join? a b).bind g = some u := by
  simp only [bind_eq_ok_iff, Option.bind_eq_some_iff, joinShapes_eq_ok, hf]

theorem joinShapes_assoc_iff :
    (joinShapes a b >>= fun s => joinShapes s c) = (.ok u : Except (AlgebraError ε) Shape) ↔
      (joinShapes b c >>= fun s => joinShapes a s) =
        (.ok u : Except (AlgebraError ε) Shape) := by
  rw [joinShapes_bind_eq_ok fun _ => joinShapes_eq_ok,
    joinShapes_bind_eq_ok fun _ => joinShapes_eq_ok, Shape.join?_assoc]

theorem broadcastTo_succeeds_iff {t : Tensor α} :
    (∃ b : Tensor α, t.broadcastTo r = (.ok b : Except (AlgebraError ε) (Tensor α))) ↔
      t.shape.fits r = true := by
  unfold broadcastTo
  split_ifs with h
  · exact iff_of_true ⟨_, rfl⟩ h
  · simp [h]

/-- Joining shapes is a partial join, and stretching a tensor agrees with it for every shape that
can be addressed. -/
theorem joinShapes_partial_join (ε α : Type) :
    (∀ a b u, joinShapes a b = (.ok u : Except (AlgebraError ε) Shape) ↔
      joinShapes b a = (.ok u : Except (AlgebraError ε) Shape)) ∧
    (∀ a b c u,
      (joinShapes a b >>= fun s => joinShapes s c) = (.ok u : Except (AlgebraError ε) Shape) ↔
        (joinShapes b c >>= fun s => joinShapes a s) =
          (.ok u : Except (AlgebraError ε) Shape)) ∧
    (∀ a, joinShapes a a = (.ok a : Except (AlgebraError ε) Shape) ∧
      joinShapes [] a = (.ok a : Except (AlgebraError ε) Shape)) ∧
    ∀ (t : Tensor α) r,
      (∃ b : Tensor α, t.broadcastTo r = (.ok b : Except (AlgebraError ε) (Tensor α))) ↔
        joinShapes t.shape r = (.ok r : Except (AlgebraError ε) Shape) ∧
          r.isAddressable = true := by
  refine ⟨fun a b u => joinShapes_comm_iff, fun a b c u => joinShapes_assoc_iff, fun a => ⟨?_, ?_⟩,
    fun t r => ?_⟩
  · exact joinShapes_eq_ok.mpr (Shape.join?_self a)
  · exact joinShapes_eq_ok.mpr (Shape.nil_join? a)
  · rw [broadcastTo_succeeds_iff, Shape.fits_iff, Shape.stretchesTo_iff_join?, joinShapes_eq_ok]

/-- A tensor without entries is not stretched to a shape without entries that it joins without
changing it, because the other axes of that shape are too long. -/
theorem broadcastTo_too_long :
    let t : Tensor Double := .replicate [0, 1, 1] Scalar.one
    let r : Shape := [0, 4611686018427387904, 4]
    volume t.shape = 0 ∧ volume r = 0 ∧
      joinShapes t.shape r = (.ok r : Except (AlgebraError Double) Shape) ∧
        t.broadcastTo r = (.error (.broadcast t.shape r) :
          Except (AlgebraError Double) (Tensor Double)) := by
  intro t r
  have hfits : ¬ t.shape.fits r = true := by decide
  exact ⟨by decide, by decide, rfl, dif_neg hfits⟩

end Tensor

end FormulaCalculus
