import BundleAdjustment.Proofs.Linear.Quadratic
import BundleAdjustment.Proofs.Solver.Curvature
import BundleAdjustment.Proofs.Solver.Residual

/-!
Conjugate gradients descend.

On a layout whose spans are apart, the error of linear factors at a flat point is a quadratic function
whose gradient the iteration starts from, and damping adds to this function what it adds to the operator
(`dampedError_eq`). In a `Descending` state the direction meets the residual in the residual's square, so
that a step goes to the lowest point along its direction (`potential_along`). One more step that the
settings allow therefore never raises the damped error (`run_descends`), for every tolerance and damping,
and in particular no run ends above the point zero (`conjugateGradient_descends`).
-/
namespace BundleAdjustment
open Matrix Layout

variable {K : Type} [ExactScalar K]

/-! ### The blocks of a flat point -/

namespace Layout

theorem foldlM_gather {l : Layout} {x : Tensor K} {value : Key → Vec K} {keys : List Key}
    (t : Table Key (Vec K)) (h : ∀ key ∈ keys, l.gather x key = .ok (value key)) :
    ∃ t', keys.foldlM (fun t key => return t.insert key (← l.gather x key)) t = Except.ok t' ∧
      ∀ key, t'.find? key = if key ∈ keys then some (value key) else t.find? key := by
  induction keys generalizing t with
  | nil => exact ⟨t, rfl, fun _ => rfl⟩
  | cons first rest ih =>
    obtain ⟨t', ht', hfind⟩ := ih (t.insert first (value first)) fun key hkey =>
      h key (List.mem_cons_of_mem first hkey)
    refine ⟨t', ?_, fun key => ?_⟩
    · rw [List.foldlM_cons, h first (List.mem_cons_self ..)]
      exact ht'
    · rw [hfind, Table.find?_insert]
      by_cases hrest : key ∈ rest
      · rw [if_pos hrest, if_pos (List.mem_cons_of_mem first hrest)]
      · rw [if_neg hrest]
        by_cases hfirst : first = key
        · rw [if_pos hfirst, hfirst, if_pos (List.mem_cons_self ..)]
        · rw [if_neg hfirst, if_neg (by simp [hrest, Ne.symm hfirst])]

/-- On a proper layout a point is unpacked into the blocks of the keys. -/
theorem Proper.unpack_eq {l : Layout} (hl : l.Proper) {x : Vec K} (hx : x.size = l.length) :
    ∃ t, l.unpack (.ofVec x) = .ok t ∧
      ∀ key n, l.Holds key n → t.find? key = some (block x (l.start key) n) := by
  have hgather : ∀ key ∈ l.keys, l.gather (.ofVec x) key =
      .ok (block x (l.start key) (l.spanOf key).2.toNat) := by
    intro key hkey
    obtain ⟨e, he, rfl⟩ := List.mem_map.mp hkey
    obtain ⟨-, hn, -⟩ := hl.inside e he
    have hfind : l.spans.find? e.1 = some e.2 := Table.find?_of_mem he
    have hspan : l.spanOf e.1 = e.2 := by rw [spanOf, hfind, Option.getD_some]
    have hnat : (((l.spanOf e.1).2.toNat : Nat) : Int) = e.2.2 := by rw [hspan, Int.toNat_of_nonneg hn]
    have hok : l.span e.1 = .ok (e.2.1, ((l.spanOf e.1).2.toNat : Int)) := by rw [span, hfind, hnat]
    exact gather_of_holds (hl.holds hok) hx
  obtain ⟨t, ht, hfind⟩ := foldlM_gather Table.empty hgather
  refine ⟨t, ht, fun key n hkey => ?_⟩
  have hmem : key ∈ l.keys := List.mem_map_of_mem (f := Prod.fst) (mem_of_span hkey.span).1
  rw [hfind, if_pos hmem, hkey.covers.width, Int.toNat_natCast]

end Layout

namespace Solver
open LinearFactor

/-! ### The error at a flat point -/

/-- The error of linear factors at a flat point: that of every factor at the point's blocks, added up. -/
def linearError (factors : List (LinearFactor K)) (l : Layout) (x : Vec K) : Except Fault K := do
  let blocks ← l.unpack (.ofVec x)
  return (← factors.mapM fun f => f.error (asContainer blocks)).sum

/-- The error with half the squares of the point's entries added, in the measure of the Hessian's diagonal.
Damping that is not positive is left out. -/
def dampedError (factors : List (LinearFactor K)) (l : Layout) (damping : K) (x : Vec K) : Except Fault K := do
  let e ← linearError factors l x
  let d ← hessianDiagonal factors l
  return e + max damping 0 * (0.5 * d.dot (x.mul x))

/-- The quadratic function whose gradient is `A x - b`. -/
def potential {n : Nat} (A : Matrix (Fin n) (Fin n) K) (b x : Fin n → K) : K :=
  0.5 * (x ⬝ᵥ A *ᵥ x) - b ⬝ᵥ x

def errorAtZero (factors : List (LinearFactor K)) : K :=
  (factors.map fun f => 0.5 * (f.scaling.vec f.rhs).dot (f.scaling.vec f.rhs)).sum

theorem potential_eq {n : Nat} (A : Matrix (Fin n) (Fin n) K) (b x : Fin n → K) :
    potential A b x = x ⬝ᵥ A *ᵥ x / 2 - b ⬝ᵥ x := by
  rw [potential, Scalar.half_mul]

/-- One factor's error, at the blocks of a flat point. -/
theorem error_of_blocks {f : LinearFactor K} {l : Layout} (h : f.Applies l) {x : Vec K} {t : Container K}
    (ht : ∀ e ∈ f.terms.entries, t.find? e.1 = some (.ofVec (block x (l.start e.1) e.2.cols))) :
    f.error t = .ok (0.5 * (f.scaling.vec f.rhs).dot (f.scaling.vec f.rhs) +
      potential (f.hessianMatrix l.start l.length) (f.normalRhs l.start l.length) (x.coords l.length)) := by
  have himage : (f.image l.start x).coords f.rows = f.spread l.start l.length *ᵥ x.coords l.length := by
    rw [image, coords_products h.inLayout x (Vec.size_zeros _), Vec.coords_zeros, zero_add]
  have hsize := size_vec_scaling h.onePerRow
  rw [error_of_supplies h.onePerRow (supplies_of_found ht) (m := f.image l.start x) rfl]
  congr 1
  have hlinear : (f.scaling.vec (f.scaling.vec f.rhs)).dot (f.image l.start x) =
      f.normalRhs l.start l.length ⬝ᵥ x.coords l.length := by
    rw [Vec.dot_eq (hsize _), himage, coords_vec_twice h.onePerRow, normalRhs, dotProduct_mulVec,
      mulVec_transpose]
  have hsquare : (f.scaling.vec (f.scaling.vec (f.image l.start x))).dot (f.image l.start x) =
      x.coords l.length ⬝ᵥ f.hessianMatrix l.start l.length *ᵥ x.coords l.length := by
    rw [Vec.dot_eq (hsize _), coords_vec_twice h.onePerRow, himage, curvature_eq, ← mulVec_mulVec,
      mulVec_transpose, ← dotProduct_mulVec]
    rfl
  rw [hlinear, hsquare, potential_eq, Scalar.half_mul]
  ring

theorem potential_zero {n : Nat} (A : Matrix (Fin n) (Fin n) K) (b : Fin n → K) : potential A b 0 = 0 := by
  rw [potential_eq, zero_dotProduct, dotProduct_zero, zero_div, sub_zero]

theorem potential_add {n : Nat} (A A' : Matrix (Fin n) (Fin n) K) (b b' x : Fin n → K) :
    potential (A + A') (b + b') x = potential A b x + potential A' b' x := by
  rw [potential_eq, potential_eq, potential_eq, add_mulVec, dotProduct_add, add_dotProduct]
  ring

theorem potential_sum (l : Layout) (factors : List (LinearFactor K)) (x : Fin l.length → K) :
    potential (hessianSum l factors) (rhsSum l factors) x =
      (factors.map fun f => potential (f.hessianMatrix l.start l.length) (f.normalRhs l.start l.length) x).sum := by
  induction factors with
  | nil =>
    show potential (0 : Matrix (Fin l.length) (Fin l.length) K) 0 x = 0
    rw [potential_eq, zero_mulVec, dotProduct_zero, zero_dotProduct, zero_div, sub_zero]
  | cons f rest ih => rw [hessianSum_cons, rhsSum_cons, potential_add, ih, List.map_cons, List.sum_cons]

section Errors
variable {factors : List (LinearFactor K)} {l : Layout} (hl : l.Proper) (happ : ∀ f ∈ factors, f.Applies l)
  {x : Vec K} (hx : x.size = l.length)
include hl happ hx

theorem linearError_eq : linearError factors l x = .ok (errorAtZero factors +
    potential (hessianSum l factors) (rhsSum l factors) (x.coords l.length)) := by
  obtain ⟨t, ht, hfind⟩ := hl.unpack_eq hx
  have herrors : ∀ f ∈ factors, f.error (asContainer t) =
      .ok (0.5 * (f.scaling.vec f.rhs).dot (f.scaling.vec f.rhs) +
        potential (f.hessianMatrix l.start l.length) (f.normalRhs l.start l.length) (x.coords l.length)) := by
    intro f hf
    refine error_of_blocks (happ f hf) fun e he => ?_
    rw [asContainer, Table.find?_mapValues, hfind e.1 e.2.cols ((happ f hf).inLayout e he)]
    rfl
  rw [linearError, ht, ok_bind, mapM_eq_ok.mpr ((List.map_congr_left herrors).trans List.map_map.symm),
    ok_bind, List.sum_map_add, errorAtZero, potential_sum]
  rfl

/-- The damped error is a quadratic function whose gradient is that of the damped normal equations. -/
theorem dampedError_eq {d : Vec K} (hd : hessianDiagonal factors l = .ok d) (hds : d.size = l.length)
    (damping : K) : dampedError factors l damping x = .ok (errorAtZero factors +
      potential (hessianSum l factors + max damping 0 • Matrix.diagonal (d.coords l.length))
        (rhsSum l factors) (x.coords l.length)) := by
  have hdot : d.dot (x.mul x) = x.coords l.length ⬝ᵥ (d.coords l.length * x.coords l.length) := by
    rw [Vec.dot_eq hds, Vec.coords_mul hx]
    refine Finset.sum_congr rfl fun i _ => ?_
    rw [Pi.mul_apply, Pi.mul_apply]
    ring
  rw [dampedError, linearError_eq hl happ hx, ok_bind, hd, ok_bind, potential_eq, potential_eq,
    Scalar.half_mul, mulVec_damped, dotProduct_add, dotProduct_smul, hdot, smul_eq_mul]
  refine congrArg Except.ok ?_
  ring

end Errors

/-! ### One step -/

/-- A step along a direction of positive curvature, as long as the residual asks for, ends below its start. -/
theorem potential_along {n : Nat} {A : Matrix (Fin n) (Fin n) K} (hsymm : Aᵀ = A) {b x p : Fin n → K} {rz : K}
    (hrz : p ⬝ᵥ (b - A *ᵥ x) = rz) (hcurv : 0 < p ⬝ᵥ A *ᵥ p) :
    potential A b (x + (rz / (p ⬝ᵥ A *ᵥ p)) • p) ≤ potential A b x := by
  have hswap : x ⬝ᵥ A *ᵥ p = p ⬝ᵥ A *ᵥ x := by
    rw [dotProduct_mulVec, ← mulVec_transpose, hsymm, dotProduct_comm]
  rw [dotProduct_sub, dotProduct_comm p b] at hrz
  have hdrop : potential A b (x + (rz / (p ⬝ᵥ A *ᵥ p)) • p) = potential A b x - rz * rz / (2 * (p ⬝ᵥ A *ᵥ p)) := by
    simp only [potential_eq, mulVec_add, mulVec_smul, add_dotProduct, dotProduct_add, smul_dotProduct,
      dotProduct_smul, smul_eq_mul, hswap]
    have hb : b ⬝ᵥ p = rz + p ⬝ᵥ A *ᵥ x := by linear_combination hrz
    rw [hb]
    field_simp
    ring
  rw [hdrop]
  have hpos : 0 ≤ rz * rz / (2 * (p ⬝ᵥ A *ᵥ p)) := div_nonneg (mul_self_nonneg rz) (by linarith)
  linarith

namespace System

variable {s : System K} {A : Matrix (Fin s.layout.length) (Fin s.layout.length) K} {i : Iterate K} {hp : Vec K}

/-- A state whose direction meets the residual in the residual's square. -/
structure Descending (s : System K) (A : Matrix (Fin s.layout.length) (Fin s.layout.length) K)
    (i : Iterate K) : Prop extends s.Faithful A i where
  along : i.p.coords s.layout.length ⬝ᵥ i.r.coords s.layout.length = i.rz

theorem Linear.descending_first (hs : s.Linear A) : s.Descending A s.first where
  toFaithful := hs.faithful_first
  along := (dotProduct_comm _ _).trans (Vec.dot_eq hs.rhs_size).symm

namespace Descending
variable (hs : s.Linear A) (h : s.Descending A i) (hsize : hp.size = s.layout.length)
  (hcoords : hp.coords s.layout.length = A *ᵥ i.p.coords s.layout.length) (hcurv : 0 < i.p.dot hp)
include hs h hsize hcoords hcurv

/-- The step leaves a residual that is orthogonal to its direction, and the next direction adds to that. -/
theorem moved : s.Descending A (s.moved i hp (i.rz / i.p.dot hp)) where
  toFaithful := h.toFaithful.moved hs hsize hcoords _
  along := by
    have horth : i.p.coords s.layout.length ⬝ᵥ
        (s.moved i hp (i.rz / i.p.dot hp)).r.coords s.layout.length = 0 := by
      rw [h.toSized.coords_moved_r hsize, dotProduct_sub, dotProduct_smul, h.along, ← Vec.dot_eq h.p_size,
        smul_eq_mul, div_mul_cancel₀ _ hcurv.ne', sub_self]
    rw [h.toSized.coords_moved_p hs, add_dotProduct, smul_dotProduct, horth, smul_zero, add_zero,
      dotProduct_metric, h.toSized.rz_moved hs]

omit hs hsize in
theorem potential_moved (hsymm : Aᵀ = A) :
    potential A (s.rhs.coords s.layout.length)
        ((s.moved i hp (i.rz / i.p.dot hp)).x.coords s.layout.length) ≤
      potential A (s.rhs.coords s.layout.length) (i.x.coords s.layout.length) := by
  have hdot : i.p.dot hp = i.p.coords s.layout.length ⬝ᵥ A *ᵥ i.p.coords s.layout.length := by
    rw [Vec.dot_eq h.p_size, hcoords]
  rw [h.toSized.coords_moved_x, hdot]
  refine potential_along hsymm ?_ (hdot ▸ hcurv)
  rw [← h.residual, h.along]

end Descending

/-! ### One more step -/

def withSteps (s : System K) (steps : Int) : System K := { s with settings := { s.settings with maxSteps := steps } }

/-- The value of the system's quadratic function at a solution. -/
def height (s : System K) (A : Matrix (Fin s.layout.length) (Fin s.layout.length) K) (x : Vec K) : K :=
  potential A (s.rhs.coords s.layout.length) (x.coords s.layout.length)

/-- Two solutions of which the second is not above the first. -/
structure Lowers (s : System K) (A : Matrix (Fin s.layout.length) (Fin s.layout.length) K)
    (sol sol' : Solution K) : Prop where
  size : sol.step.size = s.layout.length
  size' : sol'.step.size = s.layout.length
  below : s.height A sol'.step ≤ s.height A sol.step

theorem Descending.lowers_moved (hs : s.Linear A) (hsymm : Aᵀ = A) (h : s.Descending A i)
    (hsize : hp.size = s.layout.length) (hcoords : hp.coords s.layout.length = A *ᵥ i.p.coords s.layout.length)
    (hcurv : 0 < i.p.dot hp) {n n' : Int} {length length' : K} {b b' : Bool} :
    s.Lowers A ⟨i.x, n, length, b⟩ ⟨(s.moved i hp (i.rz / i.p.dot hp)).x, n', length', b'⟩ where
  size := h.x_size
  size' := (h.moved hs hsize hcoords hcurv).x_size
  below := h.potential_moved hcoords hcurv hsymm

/-- Two runs from one state, the second of them with one more step. They part only where the first is out
of steps, and the second takes at most one more. -/
theorem Descending.run_descends (hs : s.Linear A) (hsymm : Aᵀ = A) (steps steps' : Int) {fuel : Nat} (n : Nat)
    (h : s.Descending A i) :
    ∃ sol sol', (∀ notes, ∃ notes', (s.withSteps steps).run fuel n i notes = (.ok sol, notes')) ∧
      (∀ notes, ∃ notes', (s.withSteps steps').run (fuel + 1) n i notes = (.ok sol', notes')) ∧
      s.Lowers A sol sol' := by
  induction fuel generalizing n i with
  | zero =>
    obtain ⟨hp, happly, hsize, hcoords⟩ := hs.apply_eq i.p h.p_size
    have happly' : (s.withSteps steps').apply i.p = .ok hp := happly
    refine ⟨⟨i.x, steps, i.length, false⟩, ?_⟩
    by_cases hflat : i.p.dot hp ≤ 0
    · exact ⟨_, fun notes => ⟨notes, rfl⟩, fun notes => ⟨_, run_flat happly' hflat 0 n notes⟩,
        h.x_size, h.x_size, le_rfl⟩
    · have hcurv := not_le.mp hflat
      have hrun := run_moved happly' hcurv (h.rz_pos hs hcurv).ne' 0 n
      by_cases hsmall : (s.moved i hp (i.rz / i.p.dot hp)).length ≤ s.threshold
      · exact ⟨_, fun notes => ⟨notes, rfl⟩, fun notes => ⟨_, (hrun notes).trans (if_pos hsmall)⟩,
          h.lowers_moved hs hsymm hsize hcoords hcurv⟩
      · exact ⟨_, fun notes => ⟨notes, rfl⟩, fun notes => ⟨_, (hrun notes).trans (if_neg hsmall)⟩,
          h.lowers_moved hs hsymm hsize hcoords hcurv⟩
  | succ fuel ih =>
    obtain ⟨hp, happly, hsize, hcoords⟩ := hs.apply_eq i.p h.p_size
    -- The number of steps is not read by a step, so that both runs take it alike.
    have happly' : ∀ m, (s.withSteps m).apply i.p = .ok hp := fun _ => happly
    by_cases hflat : i.p.dot hp ≤ 0
    · exact ⟨_, _, fun notes => ⟨_, run_flat (happly' steps) hflat fuel n notes⟩,
        fun notes => ⟨_, run_flat (happly' steps') hflat (fuel + 1) n notes⟩, h.x_size, h.x_size, le_rfl⟩
    · have hcurv := not_le.mp hflat
      have h' := h.moved hs hsize hcoords hcurv
      have hrun := fun m fuel => run_moved (happly' m) hcurv (h.rz_pos hs hcurv).ne' fuel n
      by_cases hsmall : (s.moved i hp (i.rz / i.p.dot hp)).length ≤ s.threshold
      · exact ⟨_, _, fun notes => ⟨_, (hrun steps fuel notes).trans (if_pos hsmall)⟩,
          fun notes => ⟨_, (hrun steps' (fuel + 1) notes).trans (if_pos hsmall)⟩,
          h'.x_size, h'.x_size, le_rfl⟩
      · obtain ⟨sol, sol', hsol, hsol', hlow⟩ := ih (n + 1) h'
        refine ⟨sol, sol', fun notes => ?_, fun notes => ?_, hlow⟩
        · rw [(hrun steps fuel notes).trans (if_neg hsmall)]
          exact hsol _
        · rw [(hrun steps' (fuel + 1) notes).trans (if_neg hsmall)]
          exact hsol' _

/-- One more step that the settings allow does not lead up. -/
theorem Linear.solve_descends (hs : s.Linear A) (hsymm : Aᵀ = A) (k : Nat) :
    ∃ sol sol', (∀ notes, ∃ notes', (s.withSteps k).solve notes = (.ok sol, notes')) ∧
      (∀ notes, ∃ notes', (s.withSteps (k + 1 : Nat)).solve notes = (.ok sol', notes')) ∧
      s.Lowers A sol sol' := by
  by_cases hsmall : s.first.length ≤ s.threshold
  · have hsolve : ∀ m notes, (s.withSteps m).solve notes = (.ok ⟨s.first.x, 0, s.first.length, true⟩, notes) :=
      fun m notes => congrFun (if_pos hsmall) notes
    exact ⟨_, _, fun notes => ⟨notes, hsolve k notes⟩, fun notes => ⟨notes, hsolve _ notes⟩,
      hs.descending_first.x_size, hs.descending_first.x_size, le_rfl⟩
  · have hsolve : ∀ m : Nat, (s.withSteps m).solve = (s.withSteps m).run m 1 s.first := fun m => if_neg hsmall
    rw [hsolve, hsolve]
    exact hs.descending_first.run_descends hs hsymm k (k + 1 : Nat) 1

/-- Without steps the solution is the point that the iteration begins with. -/
theorem solve_of_nonpos (s : System K) {steps : Int} (h : steps ≤ 0) :
    ∃ sol, (∀ notes, (s.withSteps steps).solve notes = (.ok sol, notes)) ∧ sol.step = s.first.x := by
  by_cases hsmall : s.first.length ≤ s.threshold
  · exact ⟨_, fun notes => congrFun (if_pos hsmall) notes, rfl⟩
  · refine ⟨⟨s.first.x, steps, s.first.length, false⟩, fun notes => ?_, rfl⟩
    have hnone : (s.withSteps steps).solve = (s.withSteps steps).run steps.toNat 1 s.first := if_neg hsmall
    rw [hnone, Int.toNat_of_nonpos h]
    rfl

/-- No solution is above the point zero. -/
theorem Linear.solve_below_first (hs : s.Linear A) (hsymm : Aᵀ = A) (steps : Int) :
    ∃ sol, (∀ notes, ∃ notes', (s.withSteps steps).solve notes = (.ok sol, notes')) ∧
      sol.step.size = s.layout.length ∧ s.height A sol.step ≤ s.height A s.first.x := by
  have hnone : ∀ {m : Int}, m ≤ 0 → ∃ sol, (∀ notes, ∃ notes', (s.withSteps m).solve notes = (.ok sol, notes')) ∧
      sol.step.size = s.layout.length ∧ s.height A sol.step ≤ s.height A s.first.x := by
    intro m hm
    obtain ⟨sol, hsol, hfirst⟩ := s.solve_of_nonpos hm
    exact ⟨sol, fun notes => ⟨notes, hsol notes⟩, hfirst ▸ hs.descending_first.x_size, hfirst ▸ le_rfl⟩
  rcases le_total steps 0 with hneg | hpos
  · exact hnone hneg
  · obtain ⟨k, rfl⟩ := Int.eq_ofNat_of_zero_le hpos
    clear hpos
    induction k with
    | zero => exact hnone le_rfl
    | succ k ih =>
      obtain ⟨sol, hsol, -, hle⟩ := ih
      obtain ⟨sol₁, sol', hsol₁, hsol', hlow⟩ := hs.solve_descends hsymm k
      obtain ⟨notes, hrun⟩ := hsol []
      obtain ⟨notes₁, hrun₁⟩ := hsol₁ []
      cases hrun.symm.trans hrun₁
      exact ⟨sol', hsol', hlow.size', hlow.below.trans hle⟩

end System

/-! ### The report -/

/-- **Conjugate gradients never make the error of linear factors worse.** On a layout whose spans lie in the
buffer and apart, wherever the gradient at zero is defined, a run with one more step ends with a damped
error that is no higher, whatever the tolerance, the damping and the preconditioner; and whatever the number
of steps, no run ends with a higher error than that of the point zero. -/
theorem conjugateGradient_descends {factors : List (LinearFactor K)} {l : Layout} (hl : l.Proper) {g : Vec K}
    (hg : gradientAtZero factors l = .ok g) (settings : Settings K) :
    (∀ k : Nat, ∃ sol sol' q q',
      (∀ notes, ∃ notes',
        conjugateGradient factors l { settings with maxSteps := k } notes = (.ok sol, notes')) ∧
      (∀ notes, ∃ notes',
        conjugateGradient factors l { settings with maxSteps := (k + 1 : Nat) } notes = (.ok sol', notes')) ∧
      dampedError factors l settings.damping sol.step = .ok q ∧
      dampedError factors l settings.damping sol'.step = .ok q' ∧ q' ≤ q) ∧
    ∃ sol e e₀, (∀ notes, ∃ notes', conjugateGradient factors l settings notes = (.ok sol, notes')) ∧
      linearError factors l sol.step = .ok e ∧ linearError factors l (Vec.zeros l.length) = .ok e₀ ∧ e ≤ e₀ := by
  have happ := applies_of_gradient hl hg
  obtain ⟨d, hd, hds, hdiag⟩ := hessianDiagonal_eq hl happ
  obtain ⟨g', hg', hgs, hgc⟩ := gradientAtZero_eq hl happ
  cases hg.symm.trans hg'
  have hrhs : (-g).size = l.length := (Vec.size_neg g).trans hgs
  let s : System K := ⟨factors, l, settings, -g, d⟩
  have hs : s.Linear s.operator := System.linear_operator hl.size_nonneg happ hrhs hds
  have hb : s.rhs.coords l.length = rhsSum l factors := by
    show (-g).coords l.length = _
    rw [Vec.coords_neg hgs, hgc, neg_neg]
  have hsymm : s.operatorᵀ = s.operator := by
    rw [System.operator, transpose_add, transpose_smul, diagonal_transpose, hessianSum_symm]
  have hrun : ∀ steps, conjugateGradient factors l { settings with maxSteps := steps } =
      (s.withSteps steps).solve := by
    intro steps
    have hok : System.ofFactors factors l { settings with maxSteps := steps } = .ok (s.withSteps steps) := by
      rw [System.ofFactors, hg, hd]
      rfl
    rw [conjugateGradient, Noted.lift_bind hok]
  have hdamped : ∀ x : Vec K, x.size = l.length →
      dampedError factors l settings.damping x = .ok (errorAtZero factors + s.height s.operator x) := by
    intro x hx
    rw [dampedError_eq hl happ hx hd hds, System.height, hb]
    rfl
  refine ⟨fun k => ?_, ?_⟩
  · obtain ⟨sol, sol', hsol, hsol', hlow⟩ := hs.solve_descends hsymm k
    refine ⟨sol, sol', _, _, ?_, ?_, hdamped _ hlow.size, hdamped _ hlow.size', ?_⟩
    · rw [hrun]
      exact hsol
    · rw [hrun]
      exact hsol'
    · exact add_le_add_right hlow.below _
  · obtain ⟨sol, hsol, hsize, hle⟩ := hs.solve_below_first hsymm settings.maxSteps
    refine ⟨sol, _, _, ?_, linearError_eq hl happ hsize, linearError_eq hl happ (Vec.size_zeros _), ?_⟩
    · rw [hrun settings.maxSteps]
      exact hsol
    · have hdamp : potential (hessianSum l factors) (rhsSum l factors) (sol.step.coords l.length) ≤
          s.height s.operator sol.step := by
        have hnonneg := damping_nonneg l factors (le_max_right settings.damping 0) (sol.step.coords l.length)
        rw [System.height, hb, potential_eq, potential_eq, System.operator_mulVec, dotProduct_add, hdiag]
        linarith
      have hfirst : s.height s.operator s.first.x = 0 := by
        rw [System.height, hs.coords_first, potential_zero]
      rw [Vec.coords_zeros, potential_zero]
      linarith

open BlockMatrix

/-- Two places that nothing else shares, with damping and a run that takes any number of steps. -/
theorem conjugateGradient_descends_tiltedPair :
    ∃ (l : Layout) (g : Vec ℚ), Layout.ofWidths [.number 0, .number 1] [.whole 2, .whole 1] = .ok l ∧
      l.Proper ∧ gradientAtZero [tiltedPair ℚ] l = .ok g ∧
      ∀ k : Nat, ∃ sol sol' q q',
        (∀ notes, ∃ notes', conjugateGradient [tiltedPair ℚ] l ⟨k, -1, 1 / 2, true⟩ notes = (.ok sol, notes')) ∧
        (∀ notes, ∃ notes',
          conjugateGradient [tiltedPair ℚ] l ⟨(k + 1 : Nat), -1, 1 / 2, true⟩ notes = (.ok sol', notes')) ∧
        dampedError [tiltedPair ℚ] l (1 / 2) sol.step = .ok q ∧
        dampedError [tiltedPair ℚ] l (1 / 2) sol'.step = .ok q' ∧ q' ≤ q := by
  have hl : Layout.ofWidths [.number 0, .number 1] [.whole 2, .whole 1] =
      .ok ⟨⟨[(.number 0, (0, 2)), (.number 1, (2, 1))], by decide⟩, 3⟩ := rfl
  have hproper := proper_ofWidths hl fun w hw n hn => by
    simp only [List.mem_cons, List.not_mem_nil, or_false] at hw
    rcases hw with rfl | rfl <;> cases hn <;> decide
  obtain ⟨g, hg⟩ : ∃ g, gradientAtZero [tiltedPair ℚ]
      ⟨⟨[(.number 0, (0, 2)), (.number 1, (2, 1))], by decide⟩, 3⟩ = .ok g := ⟨_, rfl⟩
  exact ⟨_, g, hl, hproper, hg, (conjugateGradient_descends hproper hg ⟨0, -1, 1 / 2, true⟩).1⟩

end Solver
end BundleAdjustment
