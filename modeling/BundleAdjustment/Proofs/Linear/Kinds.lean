import BundleAdjustment.Proofs.Exact
import BundleAdjustment.Proofs.Linear.Building
import BundleAdjustment.Proofs.Linear.Deviations
import BundleAdjustment.Proofs.Linear.Placement

/-!
What the kind of a factor decides.

Every factor is a general one as well, if its promise is left out (`forget`). Of several rows, a
factor and what remains of it when its promise is forgotten are whitened to the same system and
write the same products in the same order, so that they leave the same matrix, also where a write is
refused (`addTo_forget`). Only the refusal of a hard constraint names the kind. A factor of two terms
writes the six blocks of its matrices (`pairBlocks_eq_pairWrites`), and it is folded in like the general
factor of these terms (`pair_refines_general`).
-/
namespace BundleAdjustment.LinearFactor
variable {α : Type}

/-- A factor without the promise of its kind. -/
def forget (f : LinearFactor α) : LinearFactor α := { f with kind := .general, fits := trivial }

/-- A promise is checked last: terms that are not a factor without it are none with it either, for the
same reason, and a factor is one with the promise if it keeps it. -/
theorem build_or_general (kind : FactorKind) (terms : List (Key × Tensor α)) (rhs : Vec α)
    (model : Option (Noise α)) :
    (∃ e, build (fun _ => .ok kind) terms rhs model = .error e ∧ general terms rhs model = .error e) ∨
      ∃ g, general terms rhs model = .ok g ∧ g.rhs = rhs ∧ g.model = model ∧
        (kind.Fits g.widths g.rows →
          ∃ f, build (fun _ => .ok kind) terms rhs model = .ok f ∧ f.kind = kind ∧ f.forget = g) := by
  unfold general build
  cases ht : readTerms rhs.size terms with
  | error e => exact .inl ⟨e, rfl, rfl⟩
  | ok t =>
    simp only [ok_bind, ofTerms]
    by_cases hm : ModelRows model rhs.size
    · simp only [dif_pos hm]
      refine .inr ⟨⟨.general, t.1, rhs, model, t.2, hm, trivial⟩, rfl, rfl, rfl, fun hk => ?_⟩
      exact ⟨⟨kind, t.1, rhs, model, t.2, hm, hk⟩, dif_pos hk, rfl, rfl⟩
    · simp only [dif_neg hm]
      exact .inl ⟨_, rfl, rfl⟩

/-- Two matrices of two rows for two keys are a pair exactly when they are a general factor, and the
general one is the pair without its promise. -/
theorem pair_and_general {k₁ k₂ : Key} (hk : k₁ ≠ k₂) {A₁ A₂ : Mat α} (h₁ : A₁.rows = 2)
    (h₂ : A₂.rows = 2) (b : Vec α) (model : Option (Noise α)) :
    (¬ (b.size = 2 ∧ ModelRows model 2) ∧ ∃ e, pair (k₁, .ofMat A₁) (k₂, .ofMat A₂) b model = .error e ∧
        general [(k₁, .ofMat A₁), (k₂, .ofMat A₂)] b model = .error e) ∨
      (b.size = 2 ∧ ModelRows model 2) ∧ ∃ f, pair (k₁, .ofMat A₁) (k₂, .ofMat A₂) b model = .ok f ∧
        general [(k₁, .ofMat A₁), (k₂, .ofMat A₂)] b model = .ok f.forget ∧
        f.kind = .pair ∧ f.rows = 2 := by
  have hrows : b.size = 2 → ∀ e ∈ [(k₁, A₁), (k₂, A₂)], e.2.rows = b.size := by
    intro hb e he
    simp only [List.mem_cons, List.not_mem_nil, or_false] at he
    rcases he with rfl | rfl
    · exact h₁.trans hb.symm
    · exact h₂.trans hb.symm
  have hkeys : ([(k₁, A₁), (k₂, A₂)].map Prod.fst).Nodup := by simpa using hk
  rcases build_or_general .pair [(k₁, .ofMat A₁), (k₂, .ofMat A₂)] b model with
    ⟨e, hp, hg⟩ | ⟨g, hg, hrhs, hmodel, hfit⟩
  · refine .inl ⟨fun ⟨hb, hm⟩ => ?_, e, hp, hg⟩
    have hfits : FactorKind.pair.Fits ([(k₁, A₁), (k₂, A₂)].map fun e => e.2.cols) b.size := ⟨rfl, hb⟩
    obtain ⟨f, hf⟩ := exists_build hkeys (hrows hb) (hb.symm ▸ hm) hfits
    cases hp.symm.trans hf
  · have hbuild : build (fun _ => .ok .general) ([(k₁, A₁), (k₂, A₂)].map fun e => (e.1, .ofMat e.2)) b
        model = .ok g := hg
    have hterms : g.terms.entries = [(k₁, A₁), (k₂, A₂)] := (parts_of_build hbuild).1
    have hb : g.rows = 2 := by
      rw [← h₁]
      exact (g.rows_eq (k₁, A₁) (by rw [hterms]; exact List.mem_cons_self ..)).symm
    have hwidths : g.widths.length = 2 := by
      rw [widths, termWidths, hterms]
      rfl
    obtain ⟨f, hf, hkind, rfl⟩ := hfit ⟨hwidths, hb⟩
    have hsize : b.size = 2 := hrhs ▸ hb
    exact .inr ⟨⟨hsize, hmodel ▸ hb ▸ f.model_rows⟩, f, hf, hg, hkind, hb⟩

variable [Scalar α]

/-! ### What is written -/

/-- Placed terms are written in one way, whatever the kind. -/
theorem pairWrites_or_gramWrites (kind : FactorKind) (b : Vec α) (last : Int) (placed : List (Int × Mat α)) :
    (match kind, placed with
      | .pair, [first, second] => (pure (pairWrites b last first second) : Except Fault _)
      | _, _ => pure (gramWrites b last placed)) = pure (gramWrites b last placed) := by
  split
  · rw [pairWrites_eq]
  · rfl

theorem plainWrites_forget (f : LinearFactor α) (slots : SlotTable) (M : BlockMatrix α) :
    f.forget.plainWrites slots M = f.plainWrites slots M := by
  have hkind := fun kind (places : List Int) =>
    pairWrites_or_gramWrites kind f.rhs M.lastSlot (places.zip f.blocks)
  unfold plainWrites
  congr 1
  funext table
  congr 1
  funext places
  congr 1
  funext _
  exact (hkind .general places).trans (hkind f.kind places).symm

theorem whiten_forget {f : LinearFactor α} (h1 : f.rows ≠ 1) : f.forget.whiten = forget <$> f.whiten := by
  have hsystem : f.forget.whitenedSystem = f.whitenedSystem := rfl
  unfold whiten
  rw [hsystem]
  cases hs : f.whitenedSystem with
  | error e => rfl
  | ok s =>
    have hone := onePerRow_of_whitenedSystem h1 hs
    obtain ⟨t, b, hs', -, hwidths, hrows, hsize⟩ := exists_whitenedSystem (.inr hone)
    rw [hone.whitenedRows_eq] at hrows hsize
    cases hs'.symm.trans hs
    have hrows' : ∀ e ∈ t.entries, e.2.rows = b.size := fun e he => (hrows e he).trans hsize.symm
    have hmodel : ModelRows (remainingModel f.model) b.size := hsize ▸ modelRows_remainingModel f.model_rows
    -- Whitening keeps the widths and the rows, and with them the promise.
    have hfits : f.kind.Fits (termWidths t) b.size := by
      rw [hwidths, hsize]
      exact f.fits
    show f.forget.withTerms t b (remainingModel f.model) = forget <$> f.withTerms t b (remainingModel f.model)
    simp only [withTerms, dif_pos hrows', ofTerms, dif_pos hmodel, ok_bind, dif_pos hfits]
    rfl

/-- Hard constraints are refused in the name of the kind; all else is written, or refused, alike. -/
theorem writes_forget {f : LinearFactor α} (h1 : f.rows ≠ 1) (slots : SlotTable) (M : BlockMatrix α) :
    f.forget.writes slots M = f.writes slots M ∨
      f.writes slots M = .error (.constrainedUpdate f.kind.name) ∧
        f.forget.writes slots M = .error (.constrainedUpdate FactorKind.general.name) := by
  have hplain : (f.forget.whiten >>= fun g => g.plainWrites slots M) =
      f.whiten >>= fun g => g.plainWrites slots M := by
    rw [whiten_forget h1]
    cases f.whiten with
    | error e => rfl
    | ok g => exact plainWrites_forget g slots M
  have hempty : f.forget.isEmpty = f.isEmpty := rfl
  have hmodel : f.forget.model = f.model := rfl
  unfold writes
  rw [hempty, hmodel, plainWrites_forget]
  cases f.isEmpty with
  | true => exact .inl rfl
  | false =>
    cases Noise.needsWhitening f.model with
    | false => exact .inl rfl
    | true =>
      cases f.model.elim false Noise.isConstrained with
      | true => exact .inr ⟨rfl, rfl⟩
      | false => exact .inl hplain

/-- **The kind of a factor of several rows does not show in the matrix**, and in a refusal only where
a hard constraint is refused. -/
theorem addTo_forget {f : LinearFactor α} (h1 : f.rows ≠ 1) (slots : SlotTable) (M : BlockMatrix α) :
    (f.addTo slots M).1 = (f.forget.addTo slots M).1 ∧
      ((f.addTo slots M).2 = (f.forget.addTo slots M).2 ∨
        (f.addTo slots M).2 = .error (.constrainedUpdate f.kind.name) ∧
          (f.forget.addTo slots M).2 = .error (.constrainedUpdate FactorKind.general.name)) := by
  unfold addTo
  rcases writes_forget h1 slots M with h | ⟨h, h'⟩
  · rw [h]
    exact ⟨rfl, .inl rfl⟩
  · rw [h, h']
    exact ⟨rfl, .inr ⟨rfl, rfl⟩⟩

/-! ### Factors of two terms -/

/-- The blocks that are computed at once from the matrices of a pair are those that it writes, in the
same order, where the first term has the lower slot. -/
theorem pairBlocks_eq_pairWrites {A₁ A₂ : Mat α} {b : Vec α} (h₁ : A₁.rows = b.size) (h₂ : A₂.rows = b.size)
    {s₁ s₂ : Int} (hs : s₁ ≤ s₂) (last : Int) :
    (Tensor.ofMat A₁).pairBlocks (.ofMat A₂) (.ofVec b) =
      .ok ((pairWrites b last (s₁, A₁) (s₂, A₂)).map fun w => .ofMat w.value) := by
  rw [Tensor.pairBlocks_ofMat h₁ h₂, pairWrites, if_neg (Int.not_lt.mpr hs)]
  rfl

/-- **The direct writes of a pair are those of the general factor**: two matrices of two rows are both
or neither a factor, and both factors leave the same matrix, with the same answer. Only a hard
constraint is refused in each one's own name. -/
theorem pair_refines_general {k₁ k₂ : Key} (hk : k₁ ≠ k₂) {A₁ A₂ : Mat α} (h₁ : A₁.rows = 2)
    (h₂ : A₂.rows = 2) (b : Vec α) (model : Option (Noise α)) :
    (¬ (b.size = 2 ∧ ModelRows model 2) ∧ ∃ e, pair (k₁, .ofMat A₁) (k₂, .ofMat A₂) b model = .error e ∧
        general [(k₁, .ofMat A₁), (k₂, .ofMat A₂)] b model = .error e) ∨
      (b.size = 2 ∧ ModelRows model 2) ∧ ∃ f g, pair (k₁, .ofMat A₁) (k₂, .ofMat A₂) b model = .ok f ∧
        general [(k₁, .ofMat A₁), (k₂, .ofMat A₂)] b model = .ok g ∧
        ∀ (slots : SlotTable) (M : BlockMatrix α), (f.addTo slots M).1 = (g.addTo slots M).1 ∧
          ((f.addTo slots M).2 = (g.addTo slots M).2 ∨
            (f.addTo slots M).2 = .error (.constrainedUpdate "BinaryLinearFactor") ∧
              (g.addTo slots M).2 = .error (.constrainedUpdate "JacobianFactor")) := by
  rcases pair_and_general hk h₁ h₂ b model with h | ⟨hb, f, hf, hg, hkind, hrows⟩
  · exact .inl h
  · have h1 : f.rows ≠ 1 := by omega
    have hname : f.kind.name = "BinaryLinearFactor" := by rw [hkind]; rfl
    exact .inr ⟨hb, f, f.forget, hf, hg, fun slots M => hname ▸ addTo_forget h1 slots M⟩

/-- Terms in the order opposite to that of their slots, with two unequal deviations. -/
theorem pair_refines_general_unequalDeviations :
    ∃ f g : LinearFactor ℚ,
      pair (.number 1, .ofMat (Mat.ofFn 2 1 fun i _ => (i : ℚ) + 1))
          (.number 0, .ofMat (Mat.ofFn 2 3 fun i j => 2 * (i : ℚ) + j))
        (Vec.ofFn 2 fun i => 3 - (i : ℚ)) (some (.diagonal (Vec.ofFn 2 fun i => (i : ℚ) + 2))) = .ok f ∧
      general [(.number 1, .ofMat (Mat.ofFn 2 1 fun i _ => (i : ℚ) + 1)),
          (.number 0, .ofMat (Mat.ofFn 2 3 fun i j => 2 * (i : ℚ) + j))]
        (Vec.ofFn 2 fun i => 3 - (i : ℚ)) (some (.diagonal (Vec.ofFn 2 fun i => (i : ℚ) + 2))) = .ok g ∧
      ∀ (slots : SlotTable) (M : BlockMatrix ℚ), (f.addTo slots M).1 = (g.addTo slots M).1 ∧
        ((f.addTo slots M).2 = (g.addTo slots M).2 ∨
          (f.addTo slots M).2 = .error (.constrainedUpdate "BinaryLinearFactor") ∧
            (g.addTo slots M).2 = .error (.constrainedUpdate "JacobianFactor")) := by
  have hb : (Vec.ofFn 2 fun i => 3 - (i : ℚ)).size = 2 ∧
      ModelRows (some (Noise.diagonal (Vec.ofFn 2 fun i => (i : ℚ) + 2))) 2 := ⟨rfl, fun _ hm => by cases hm; rfl⟩
  have hk : Key.number 1 ≠ Key.number 0 := by decide
  exact ((pair_refines_general hk (Mat.rows_ofFn 2 1 _) (Mat.rows_ofFn 2 3 _) _ _).resolve_left fun h => h.1 hb).2

end BundleAdjustment.LinearFactor
