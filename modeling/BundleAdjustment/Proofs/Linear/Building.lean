import BundleAdjustment.Linear.Factor
import BundleAdjustment.Proofs.Faults
import Mathlib.Data.List.Nodup

/-!
Building a linear factor.

The checks of a new factor pass for terms of distinct keys whose matrices have the rows of the
right-hand side, a model with these rows and a kind whose promise is kept (`exists_build`). What is
built has the terms that were given, in their order (`parts_of_build`).
-/
namespace BundleAdjustment

namespace LinearFactor
variable {α : Type}

theorem entries_of_addTerm {rows : Nat} {t t' : TermTable α rows} {key : Key} {A : Mat α}
    (h : addTerm t key (.ofMat A) = .ok t') : t'.1.entries = t.1.entries ++ [(key, A)] := by
  unfold addTerm at h
  simp only [Tensor.mat?_ofMat] at h
  split at h
  · split at h
    · cases h
    · rename_i hc
      cases h
      exact Table.write_of_not_mem A (mt Table.contains_iff.mpr hc)
  · cases h

theorem exists_addTerm {rows : Nat} (t : TermTable α rows) {key : Key} {A : Mat α} (hA : A.rows = rows)
    (hkey : key ∉ t.1.keys) : ∃ t', addTerm t key (.ofMat A) = .ok t' := by
  have hc : t.1.contains key = false := by
    rw [Table.contains, Table.find?_eq_none_iff.mpr hkey]
    rfl
  unfold addTerm
  simp only [Tensor.mat?_ofMat, dif_pos hA, hc, Bool.false_eq_true, if_false]
  exact ⟨_, rfl⟩

/-- Terms that are read are the terms that were given. -/
theorem entries_of_readTerms {rows : Nat} {terms : List (Key × Mat α)} {t : TermTable α rows}
    (h : readTerms rows (terms.map fun e => (e.1, .ofMat e.2)) = .ok t) : t.1.entries = terms := by
  have hfold : ∀ (terms : List (Key × Mat α)) (t₀ : TermTable α rows),
      (terms.map fun e => (e.1, Tensor.ofMat e.2)).foldlM (fun t e => addTerm t e.1 e.2) t₀ = .ok t →
        t.1.entries = t₀.1.entries ++ terms := by
    intro terms
    induction terms with
    | nil =>
      intro t₀ h
      cases h
      rw [List.append_nil]
    | cons e rest ih =>
      intro t₀ h
      rw [List.map_cons, List.foldlM_cons] at h
      obtain ⟨t₁, ht₁, h⟩ := bind_eq_ok.mp h
      rw [ih t₁ h, entries_of_addTerm ht₁, List.append_assoc]
      rfl
  exact hfold terms _ h

theorem exists_readTerms {rows : Nat} {terms : List (Key × Mat α)} (hd : (terms.map Prod.fst).Nodup)
    (hr : ∀ e ∈ terms, e.2.rows = rows) :
    ∃ t, readTerms rows (terms.map fun e => (e.1, .ofMat e.2)) = .ok t := by
  have hfold : ∀ (terms : List (Key × Mat α)) (t₀ : TermTable α rows),
      (t₀.1.keys ++ terms.map Prod.fst).Nodup → (∀ e ∈ terms, e.2.rows = rows) →
        ∃ t, (terms.map fun e => (e.1, Tensor.ofMat e.2)).foldlM (fun t e => addTerm t e.1 e.2) t₀ = .ok t := by
    intro terms
    induction terms with
    | nil => exact fun t₀ _ _ => ⟨t₀, rfl⟩
    | cons e rest ih =>
      intro t₀ hd hr
      have hkey : e.1 ∉ t₀.1.keys := fun hk =>
        (List.nodup_append.mp hd).2.2 e.1 hk e.1 (List.mem_cons_self ..) rfl
      obtain ⟨t₁, ht₁⟩ := exists_addTerm t₀ (hr e (List.mem_cons_self ..)) hkey
      have hkeys : t₁.1.keys = t₀.1.keys ++ [e.1] := by
        rw [Table.keys, entries_of_addTerm ht₁, List.map_append]
        rfl
      have hd' : (t₁.1.keys ++ rest.map Prod.fst).Nodup := by
        rw [hkeys, List.append_assoc]
        exact hd
      obtain ⟨t, ht⟩ := ih t₁ hd' fun u hu => hr u (List.mem_cons_of_mem e hu)
      refine ⟨t, ?_⟩
      rw [List.map_cons, List.foldlM_cons, ht₁]
      exact ht
  exact hfold terms _ hd hr

theorem parts_of_build {kindOf : List Nat → Except Fault FactorKind} {terms : List (Key × Mat α)}
    {rhs : Vec α} {model : Option (Noise α)} {f : LinearFactor α}
    (h : build kindOf (terms.map fun e => (e.1, .ofMat e.2)) rhs model = .ok f) :
    f.terms.entries = terms ∧ f.rhs = rhs ∧ f.model = model := by
  obtain ⟨t, ht, h⟩ := bind_eq_ok.mp h
  obtain ⟨hterms, hrhs, hmodel⟩ := parts_of_ofTerms h
  exact ⟨hterms ▸ entries_of_readTerms ht, hrhs, hmodel⟩

/-- Terms of distinct keys with the rows of the right-hand side are a factor, of a kind that they
fit. -/
theorem exists_build {kind : FactorKind} {terms : List (Key × Mat α)} {rhs : Vec α}
    {model : Option (Noise α)} (hd : (terms.map Prod.fst).Nodup) (hr : ∀ e ∈ terms, e.2.rows = rhs.size)
    (hm : ModelRows model rhs.size) (hk : kind.Fits (terms.map fun e => e.2.cols) rhs.size) :
    ∃ f, build (fun _ => .ok kind) (terms.map fun e => (e.1, .ofMat e.2)) rhs model = .ok f := by
  obtain ⟨t, ht⟩ := exists_readTerms hd hr
  have hwidths : termWidths t.1 = terms.map fun e => e.2.cols := by
    rw [termWidths, entries_of_readTerms ht]
  have hfits : kind.Fits (termWidths t.1) rhs.size := hwidths ▸ hk
  refine ⟨⟨kind, t.1, rhs, model, t.2, hm, hfits⟩, ?_⟩
  rw [build, ht, ok_bind, ofTerms, dif_pos hm, ok_bind, dif_pos hfits]
  rfl

end LinearFactor

end BundleAdjustment
