import BundleAdjustment.Proofs.Linear.Forms
import BundleAdjustment.Solver.Operators

/-!
The loops over a factor's keys.

The operators collect the blocks of a factor's keys from a buffer into a container, and add the
blocks of a container onto a buffer. Where every key has its places neither fails.
-/
namespace BundleAdjustment
open Layout
variable {K : Type} [ExactScalar K]

namespace LinearFactor

omit [ExactScalar K] in
/-- A layout's own spans serve a factor of one width. -/
theorem flatSpan_of_inLayout {f : LinearFactor K} {l : Layout} {width : Int} (hf : f.InLayout l)
    (hk : f.kind = .uniform width) : ∀ e ∈ f.terms.entries, flatSpan width (some l) e.1 = .ok (l.spanOf e.1) := by
  intro e he
  have hwidth : (l.spanOf e.1).2 = width := ((hf e he).covers.width).trans (cols_of_uniform hk e he)
  rw [flatSpan, (hf e he).span]
  simp only [ok_bind, hwidth]
  rfl

theorem addTransposed_eq {u : Vec K} {terms : List (Key × Mat K)} {y : Container K}
    (hrows : ∀ t ∈ terms, t.2.rows = u.size) (hd : (y.keys ++ terms.map Prod.fst).Nodup) :
    ∃ y', addTransposed (.ofVec u) y terms = .ok y' ∧
      y'.entries = y.entries ++ terms.map fun t => (t.1, .ofVec (t.2.transposeMulVec u)) := by
  induction terms generalizing y with
  | nil => exact ⟨y, rfl, (List.append_nil _).symm⟩
  | cons t rest ih =>
    have hnot : t.1 ∉ y.keys := by
      intro hk
      exact (List.nodup_append.mp hd).2.2 _ hk _ (List.mem_cons_self ..) rfl
    have hinsert : (y.insert t.1 (.ofVec (t.2.transposeMulVec u))).entries =
        y.entries ++ [(t.1, .ofVec (t.2.transposeMulVec u))] := Table.write_of_not_mem _ hnot
    obtain ⟨y', hy', he⟩ := ih (y := y.insert t.1 (.ofVec (t.2.transposeMulVec u)))
      (fun v hv => hrows v (List.mem_cons_of_mem t hv)) (by
        rw [Table.keys_insert, if_neg hnot, List.append_assoc]
        exact hd)
    refine ⟨y', ?_, ?_⟩
    · rw [addTransposed, List.foldlM_cons, matmul_transpose (hrows t (List.mem_cons_self ..))]
      simp only [ok_bind, Table.find?_eq_none_iff.mpr hnot]
      exact hy'
    · rw [he, hinsert, List.append_assoc]
      rfl

end LinearFactor

namespace Solver

theorem foldlM_gather_eq {l : Layout} {x : Vec K} {terms : List (Key × Mat K)} (t : Container K)
    (hx : x.size = l.length) (hl : ∀ e ∈ terms, l.Holds e.1 e.2.cols) (hd : (terms.map Prod.fst).Nodup) :
    ∃ t', (terms.map Prod.fst).foldlM
        (fun t key => return t.insert key (.ofVec (← l.gather (.ofVec x) key))) t = Except.ok t' ∧
      (∀ e ∈ terms, t'.find? e.1 = some (.ofVec (block x (l.start e.1) e.2.cols))) ∧
      ∀ key, key ∉ terms.map Prod.fst → t'.find? key = t.find? key := by
  induction terms generalizing t with
  | nil =>
    refine ⟨t, rfl, ?_, fun _ _ => rfl⟩
    intro e he
    cases he
  | cons e rest ih =>
    obtain ⟨hnot, hrest⟩ := List.nodup_cons.mp hd
    have hgather := gather_of_holds (hl e (List.mem_cons_self ..)) hx
    obtain ⟨t', ht', hfound, hother⟩ := ih (t.insert e.1 (.ofVec (block x (l.start e.1) e.2.cols)))
      (fun u hu => hl u (List.mem_cons_of_mem e hu)) hrest
    refine ⟨t', ?_, ?_, ?_⟩
    · rw [List.map_cons, List.foldlM_cons, hgather]
      exact ht'
    · intro u hu
      rcases List.mem_cons.mp hu with rfl | hu
      · rw [hother _ hnot, Table.find?_insert, if_pos rfl]
      · exact hfound u hu
    · intro key hkey
      rw [List.map_cons, List.mem_cons, not_or] at hkey
      rw [hother key hkey.2, Table.find?_insert, if_neg fun he => hkey.1 he.symm]

/-- Vectors of the lengths of their blocks are added onto a buffer. -/
theorem scatterAll_eq {l : Layout} {terms : List (Key × Mat K)} {value : Key × Mat K → Vec K}
    {y : Vec K} {blocks : Container K} (hy : y.size = l.length)
    (hl : ∀ e ∈ terms, l.Holds e.1 (value e).size)
    (hb : blocks.entries = terms.map fun e => (e.1, .ofVec (value e))) :
    scatterAll l y blocks = .ok (addBlocks l.start value y terms) := by
  rw [scatterAll, hb]
  clear hb
  induction terms generalizing y with
  | nil => rfl
  | cons e rest ih =>
    rw [List.map_cons, List.foldlM_cons, scatterAdd_of_holds (hl e (List.mem_cons_self ..)) hy]
    exact ih ((size_addBlock y (l.start e.1) (value e)).trans hy)
      fun u hu => hl u (List.mem_cons_of_mem e hu)

end Solver
end BundleAdjustment
