import BundleAdjustment.Proofs.Solver.Convergence
import BundleAdjustment.Proofs.Solver.Success

/-!
Conjugate gradients do not break down.

A step of the iteration divides by the curvature of its direction and by the square of its residual, and
it gives up where the curvature is not positive. `Enters` says which steps a run makes, and from which
states. Each of these states tracks conjugate directions above the threshold (`Enters.tracks`), so that both
divisors are positive there, and a run with any number of steps ends without a warning: it notes the
residual of each of its steps and nothing else. The Hessian may be singular, entries of its diagonal may
vanish, and the damping may be negative.
-/
namespace BundleAdjustment

variable {K : Type} [ExactScalar K]

namespace Solver
namespace System

/-- The iteration makes its step with the number `n` from the state `i`. -/
inductive Enters (s : System K) : (n : Nat) → Iterate K → Prop where
  | first (hlarge : ¬ s.first.length ≤ s.threshold) (hmax : 1 ≤ s.settings.maxSteps) : s.Enters 1 s.first
  | next {n : Nat} {i i' : Iterate K} {hp : Vec K} (earlier : s.Enters n i) (happly : s.apply i.p = .ok hp)
      (hcurv : ¬ i.p.dot hp ≤ 0) (hlarge : ¬ (advance i hp (i.rz / i.p.dot hp)).length ≤ s.threshold)
      (hnext : s.redirect (advance i hp (i.rz / i.p.dot hp)) = .ok i')
      (hmax : ((n + 1 : Nat) : Int) ≤ s.settings.maxSteps) : s.Enters (n + 1) i'

variable {s : System K} {n : Nat} {i : Iterate K}

namespace Enters

theorem bounds (h : s.Enters n i) : 1 ≤ n ∧ (n : Int) ≤ s.settings.maxSteps := by
  cases h with
  | first _ hmax => exact ⟨le_rfl, hmax⟩
  | next _ _ _ _ _ hmax => exact ⟨Nat.le_add_left 1 _, hmax⟩

/-- The solution is what the iteration finds from any state that it enters, with the notes on the steps
that led there. -/
theorem solve_eq (h : s.Enters n i) : ∃ residuals, residuals.length + 1 = n ∧ ∀ notes,
    s.solve notes = s.run (s.settings.maxSteps.toNat + 1 - n) n i (notes ++ Event.steps 1 residuals) := by
  induction h with
  | first hlarge _ =>
    refine ⟨[], rfl, fun notes => ?_⟩
    rw [solve, if_neg hlarge, Nat.add_sub_cancel, Event.steps, List.append_nil]
  | @next n i i' hp earlier happly hcurv hlarge hnext hmax ih =>
    obtain ⟨residuals, hcount, hrun⟩ := ih
    have hfuel : s.settings.maxSteps.toNat + 1 - n = s.settings.maxSteps.toNat + 1 - (n + 1) + 1 := by omega
    refine ⟨residuals ++ [(advance i hp (i.rz / i.p.dot hp)).length], ?_, fun notes => ?_⟩
    · rw [List.length_append, ← hcount]
      rfl
    · rw [hrun, hfuel, run_next happly hcurv hlarge hnext, Event.steps_append, Nat.add_comm 1, hcount,
        List.append_assoc]
      rfl

variable [RootLaws K] (hs : s.WellPosed) (htol : 0 ≤ s.settings.tolerance)
include hs htol

/-- The states that are entered track conjugate directions, as many as there were steps. -/
theorem tracks (h : s.Enters n i) : ¬ i.length ≤ s.threshold ∧ ∃ k, n = k + 1 ∧ s.Tracks i k := by
  induction h with
  | first hlarge _ => exact ⟨hlarge, 0, rfl, tracks_first hs⟩
  | @next n i i' hp earlier happly hcurv hlarge hnext hmax ih =>
    obtain ⟨habove, k, rfl, htracks⟩ := ih
    have hr := htracks.residual_ne_zero htol habove
    obtain ⟨hp', happly', hsize, hcoords, -⟩ := htracks.apply_direction hs hr
    cases happly.symm.trans happly'
    cases hnext.symm.trans (redirect_eq (htracks.rz_pos hs hr).ne' hp _)
    exact ⟨hlarge, k + 1, rfl, htracks.moved hs hr hsize hcoords⟩

/-- Both numbers that a step divides by are positive. -/
theorem divisors_pos (h : s.Enters n i) : 0 < i.rz ∧ ∃ hp, s.apply i.p = .ok hp ∧ 0 < i.p.dot hp := by
  obtain ⟨habove, k, -, htracks⟩ := h.tracks hs htol
  have hr := htracks.residual_ne_zero htol habove
  obtain ⟨hp, happly, -, -, hcurv⟩ := htracks.apply_direction hs hr
  exact ⟨htracks.rz_pos hs hr, hp, happly, hcurv⟩

/-- A step is noted and ends the run in a small residual, or leads to the next one. -/
theorem run_succ (h : s.Enters n i) : ∃ i' : Iterate K,
    (∀ fuel notes, s.run (fuel + 1) n i notes =
      (.ok ⟨i'.x, n, i'.length, true⟩, notes ++ [.stepTaken n i'.length])) ∨
    (∀ fuel notes, s.run (fuel + 1) n i notes = s.run fuel (n + 1) i' (notes ++ [.stepTaken n i'.length])) ∧
      (((n + 1 : Nat) : Int) ≤ s.settings.maxSteps → s.Enters (n + 1) i') := by
  obtain ⟨hrz, hp, happly, hcurv⟩ := h.divisors_pos hs htol
  have hrun := run_moved happly hcurv hrz.ne'
  refine ⟨s.moved i hp (i.rz / i.p.dot hp), ?_⟩
  by_cases hsmall : (s.moved i hp (i.rz / i.p.dot hp)).length ≤ s.threshold
  · refine .inl fun fuel notes => ?_
    rw [hrun, if_pos hsmall]
  · refine .inr ⟨fun fuel notes => ?_, fun hmax => ?_⟩
    · rw [hrun, if_neg hsmall]
    · exact .next h happly (not_le.mpr hcurv) hsmall (redirect_eq hrz.ne' hp _) hmax

/-- From a state that is entered, a run notes its steps and enters a state for each step that it counts. -/
theorem run_quiet {fuel : Nat} (h : s.Enters n i) (hsteps : (n : Int) + fuel = s.settings.maxSteps) :
    ∃ sol residuals, (∀ notes, s.run (fuel + 1) n i notes = (.ok sol, notes ++ Event.steps n residuals)) ∧
      ∃ k : Nat, sol.iterations = (n + k : Nat) ∧ residuals.length = k + 1 ∧
        ∀ j ≤ k, ∃ i', s.Enters (n + j) i' := by
  induction fuel generalizing n i with
  | zero =>
    obtain ⟨i', hrun | ⟨hrun, -⟩⟩ := h.run_succ hs htol
    · exact ⟨_, [i'.length], hrun 0, 0, rfl, rfl, fun j hj => ⟨i, Nat.le_zero.mp hj ▸ h⟩⟩
    · -- The count of a run that is out of steps is the number of the last one.
      exact ⟨_, [i'.length], hrun 0, 0, hsteps.symm, rfl, fun j hj => ⟨i, Nat.le_zero.mp hj ▸ h⟩⟩
  | succ fuel ih =>
    obtain ⟨i', hrun | ⟨hrun, hnext⟩⟩ := h.run_succ hs htol
    · exact ⟨_, [i'.length], hrun _, 0, rfl, rfl, fun j hj => ⟨i, Nat.le_zero.mp hj ▸ h⟩⟩
    · obtain ⟨sol, residuals, hsol, k, hk, hcount, hentered⟩ := ih (hnext (by omega)) (by omega)
      refine ⟨sol, i'.length :: residuals, fun notes => ?_, k + 1, ?_, congrArg (· + 1) hcount,
        fun j hj => ?_⟩
      · rw [hrun, hsol, List.append_assoc]
        rfl
      · rw [hk, Nat.add_right_comm, Nat.add_assoc]
      · cases j with
        | zero => exact ⟨i, h⟩
        | succ j =>
          obtain ⟨i'', h''⟩ := hentered j (Nat.le_of_succ_le_succ hj)
          rw [Nat.add_right_comm] at h''
          exact ⟨i'', h''⟩

theorem solve_quiet (h : s.Enters n i) :
    ∃ sol residuals, (∀ notes, s.solve notes = (.ok sol, notes ++ Event.steps 1 residuals)) ∧
      ∃ k : Nat, sol.iterations = (n + k : Nat) ∧ residuals.length = n + k ∧
        ∀ j ≤ k, ∃ i', s.Enters (n + j) i' := by
  obtain ⟨-, hmax⟩ := h.bounds
  have hsteps : (n : Int) + (s.settings.maxSteps.toNat - n : Nat) = s.settings.maxSteps := by omega
  have hfuel : s.settings.maxSteps.toNat + 1 - n = s.settings.maxSteps.toNat - n + 1 := by omega
  obtain ⟨before, hbefore, hsolve⟩ := h.solve_eq
  obtain ⟨sol, after, hsol, k, hk, hafter, hentered⟩ := h.run_quiet hs htol hsteps
  refine ⟨sol, before ++ after, fun notes => ?_, k, hk, ?_, hentered⟩
  · rw [hsolve, hfuel, hsol, List.append_assoc, Event.steps_append, Nat.add_comm 1, hbefore]
  · rw [List.length_append, hafter]
    omega

end Enters

variable [RootLaws K]

/-- The steps that a solution counts are those that the iteration makes and notes. -/
theorem solve_quiet (hs : s.WellPosed) (htol : 0 ≤ s.settings.tolerance) :
    ∃ sol residuals, (∀ notes, s.solve notes = (.ok sol, notes ++ Event.steps 1 residuals)) ∧
      residuals.length = sol.iterations.toNat ∧
      ∀ n : Nat, (∃ i, s.Enters n i) ↔ 1 ≤ n ∧ (n : Int) ≤ sol.iterations := by
  have hcounted : ∃ sol residuals, (∀ notes, s.solve notes = (.ok sol, notes ++ Event.steps 1 residuals)) ∧
      residuals.length = sol.iterations.toNat ∧
      ∀ n : Nat, 1 ≤ n → (n : Int) ≤ sol.iterations → ∃ i, s.Enters n i := by
    by_cases hsmall : s.first.length ≤ s.threshold
    · refine ⟨⟨s.first.x, 0, s.first.length, true⟩, [], fun notes => ?_, rfl, fun n hn hle => ?_⟩
      · rw [solve, if_pos hsmall, Event.steps, List.append_nil]
        rfl
      · have hle : (n : Int) ≤ 0 := hle
        omega
    · by_cases hmax : 1 ≤ s.settings.maxSteps
      · obtain ⟨sol, residuals, hsol, k, hk, hcount, hentered⟩ :=
          (Enters.first hsmall hmax).solve_quiet hs htol
        refine ⟨sol, residuals, hsol, by rw [hk, hcount, Int.toNat_natCast], fun n hn hle => ?_⟩
        have hone : 1 + (n - 1) = n := by omega
        exact hone ▸ hentered (n - 1) (by omega)
      · have hnone : s.settings.maxSteps.toNat = 0 := by omega
        refine ⟨⟨s.first.x, s.settings.maxSteps, s.first.length, false⟩, [], fun notes => ?_, hnone.symm,
          fun n hn hle => ?_⟩
        · rw [solve, if_neg hsmall, hnone, Event.steps, List.append_nil]
          rfl
        · have hle : (n : Int) ≤ s.settings.maxSteps := hle
          omega
  obtain ⟨sol, residuals, hsol, hnoted, hcount⟩ := hcounted
  refine ⟨sol, residuals, hsol, hnoted, fun n => ⟨?_, fun hn => hcount n hn.1 hn.2⟩⟩
  rintro ⟨i, hi⟩
  obtain ⟨sol', residuals', hsol', k, hk, -⟩ := hi.solve_quiet hs htol
  have hsame : Except.ok sol = Except.ok sol' :=
    congrArg Prod.fst ((hsol []).symm.trans (hsol' []))
  cases hsame
  refine ⟨hi.bounds.1, ?_⟩
  rw [hk]
  omega

end System

/-- **Conjugate gradients do not break down.** In exact arithmetic, on a proper layout on which the gradient
at zero is defined, with any number of steps, any damping and any preconditioner, and with a tolerance that is
not negative, the iteration ends without a warning. The steps that it counts are those that it makes, each of
which it notes, and in the state that a step is made from the curvature of the direction and the square of
the residual, which are all that it divides by, are positive. -/
theorem conjugateGradient_quiet [RootLaws K] {factors : List (LinearFactor K)} {l : Layout}
    {settings : Settings K} {g : Vec K} (hl : l.Proper) (hg : gradientAtZero factors l = .ok g)
    (htol : 0 ≤ settings.tolerance) :
    ∃ s sol residuals, System.ofFactors factors l settings = .ok s ∧
      (∀ notes, conjugateGradient factors l settings notes = (.ok sol, notes ++ Event.steps 1 residuals)) ∧
      residuals.length = sol.iterations.toNat ∧
      (∀ n : Nat, (∃ i, s.Enters n i) ↔ 1 ≤ n ∧ (n : Int) ≤ sol.iterations) ∧
      ∀ n i, s.Enters n i →
        (∃ earlier, earlier.length + 1 = n ∧ ∀ notes, s.solve notes =
          s.run (settings.maxSteps.toNat + 1 - n) n i (notes ++ Event.steps 1 earlier)) ∧
        0 < i.rz ∧ ∃ hp, s.apply i.p = .ok hp ∧ 0 < i.p.dot hp := by
  obtain ⟨g', d, -, -, hsystem, hs⟩ := System.ofFactors_eq settings hl (applies_of_gradient hl hg)
  obtain ⟨sol, residuals, hsol, hnoted, hcount⟩ := System.solve_quiet hs htol
  refine ⟨_, sol, residuals, hsystem, fun notes => ?_, hnoted, hcount,
    fun n i h => ⟨h.solve_eq, h.divisors_pos hs htol⟩⟩
  rw [conjugateGradient, Noted.lift_bind hsystem]
  exact hsol notes

open BlockMatrix

/-- The last place belongs to no factor, and the damping is negative. -/
theorem conjugateGradient_quiet_tiltedPair :
    ∃ l g, Layout.ofOffsets [.whole 0, .whole 2, .whole 3, .whole 4] = .ok l ∧ l.Proper ∧
      gradientAtZero [tiltedPair ℝ] l = .ok g ∧
      ∃ s sol residuals, System.ofFactors [tiltedPair ℝ] l ⟨5, 0, -(1 / 2), true⟩ = .ok s ∧
        (∀ notes, conjugateGradient [tiltedPair ℝ] l ⟨5, 0, -(1 / 2), true⟩ notes =
          (.ok sol, notes ++ Event.steps 1 residuals)) ∧ residuals.length = sol.iterations.toNat ∧
        (∀ n : Nat, (∃ i, s.Enters n i) ↔ 1 ≤ n ∧ (n : Int) ≤ sol.iterations) ∧
        ∀ n i, s.Enters n i →
          (∃ earlier, earlier.length + 1 = n ∧ ∀ notes, s.solve notes =
            s.run (5 + 1 - n) n i (notes ++ Event.steps 1 earlier)) ∧
          0 < i.rz ∧ ∃ hp, s.apply i.p = .ok hp ∧ 0 < i.p.dot hp := by
  obtain ⟨l, hl⟩ : ∃ l, Layout.ofOffsets [.whole 0, .whole 2, .whole 3, .whole 4] = .ok l := ⟨_, rfl⟩
  have hproper : l.Proper := by
    refine Layout.proper_ofOffsets hl fun w hw n hn => ?_
    simp only [List.mem_cons, List.not_mem_nil, or_false] at hw
    rcases hw with rfl | rfl | rfl | rfl <;> cases hn <;> decide
  cases hl
  obtain ⟨g, hg⟩ : ∃ g, gradientAtZero [tiltedPair ℝ]
      (⟨⟨[(.number 0, (0, 2)), (.number 1, (2, 1)), (.number 2, (3, 1))], by decide⟩, 4⟩ : Layout) = .ok g :=
    ⟨_, rfl⟩
  have htol : (0 : ℝ) ≤ (⟨5, 0, -(1 / 2), true⟩ : Settings ℝ).tolerance := le_rfl
  exact ⟨_, g, rfl, hproper, hg, conjugateGradient_quiet hproper hg htol⟩

end Solver
end BundleAdjustment
