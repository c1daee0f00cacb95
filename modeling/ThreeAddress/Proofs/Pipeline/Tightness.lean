import ThreeAddress.Proofs.Pass.Tightness
import ThreeAddress.Proofs.Pipeline.Chains
import ThreeAddress.Proofs.Pipeline.NormalForm

namespace ThreeAddress.Pipeline

variable {m : Signature} {ps : List Pass} {pass : Pass} {b c : Body} {n : Nat}

theorem Completes.stage (h : Completes m ps b c) (hn : ps[n]? = some pass) :
    reached m ps b (n + 1) = (pass.run m (reached m ps b n)).body ∧
      (∃ changed, (pass.run m (reached m ps b n)).result = .ok changed) ∧
      (reached m ps b (n + 1)).Valid := by
  induction h generalizing n with
  | nil => cases hn
  | @cons first ps b c hok hv h ih =>
    obtain ⟨flag, hflag⟩ := hok
    have hsucc (k : Nat) : reached m (first :: ps) b (k + 1) =
        reached m ps (first.run m b).body k := reached_succ (stage_ok_iff.2 ⟨hflag, hv⟩) k
    cases n with
    | zero =>
      cases hn
      rw [hsucc]
      exact ⟨rfl, ⟨flag, hflag⟩, hv⟩
    | succ n =>
      rw [hsucc, hsucc]
      exact ih hn

theorem Completes.reached_length (h : Completes m ps b c) : reached m ps b ps.length = c := by
  simpa using h.reached_eq []

theorem Completes.nodup_reached (h : Completes m ps b c) (hpos : 0 < n) (hn : n ≤ ps.length) :
    (reached m ps b n).ids.Nodup := by
  obtain ⟨n, rfl⟩ := Nat.exists_eq_succ_of_ne_zero hpos.ne'
  exact (h.stage (List.getElem?_eq_getElem hn)).2.2.nodup

theorem Completes.tight_reached (h : Completes m ps b c) {i k : Nat} (hi : 0 < i)
    (hk : i + k ≤ ps.length) (hps : ∀ pass ∈ (ps.drop i).take k, pass.KeepsTight)
    (ht : (reached m ps b i).Tight) : (reached m ps b (i + k)).Tight := by
  induction k with
  | zero => exact ht
  | succ k ih =>
    have hlt : i + k < ps.length := hk
    have hpass : ps[i + k]? = some ps[i + k] := List.getElem?_eq_getElem hlt
    have htight := ih hlt.le fun p hp ↦ hps p (List.take_subset_take_left _ k.le_succ hp)
    have hkeeps : ps[i + k].KeepsTight := by
      refine hps _ (List.mem_of_getElem? (i := k) ?_)
      rw [List.getElem?_take_of_lt k.lt_succ_self, List.getElem?_drop, hpass]
    rw [← Nat.add_assoc, (h.stage hpass).1]
    exact hkeeps m _ (h.nodup_reached (Nat.add_pos_left hi k) hlt.le) htight

theorem Completes.tight_spared (h : Completes m ps b c) (pass : Pass)
    (hpass : ps[n]? = some pass) (hpos : 0 < n)
    (hkeeps : ∀ d : Body, d.ids.Nodup → d.Tight → d.KeepsRims (pass.run m d).body →
      (pass.run m d).body.Tight)
    (hr : (reached m ps b n).KeepsRims (reached m ps b (n + 1)))
    (ht : (reached m ps b n).Tight) : (reached m ps b (n + 1)).Tight := by
  have hlt : n < ps.length := (List.getElem?_eq_some_iff.1 hpass).1
  rw [(h.stage hpass).1] at hr ⊢
  exact hkeeps _ (h.nodup_reached hpos hlt.le) ht hr

/-- The standard pipeline leaves traps tight if, wherever casts, operations with an identity
operand, unreachable units and unread allocations go, what may throw at the rims of traps goes on to
do so, and no trap begins at a stored comparison when these are expanded. -/
theorem standard_tight (m : Signature) {b : Body} {changed : Bool}
    (hok : (standard.run m b).result = .ok changed)
    (hrims : ∀ n ∈ [7, 8, 9, 10, 16],
      (reached m standard.passes b n).KeepsRims (reached m standard.passes b (n + 1)))
    (hstored : ∀ t ∈ (reached m standard.passes b 15).traps,
      ∀ v ∈ (reached m standard.passes b 15).units, v.id = t.first →
        StoredComparisons.comparison? v.stmt = none) : (standard.run m b).body.Tight := by
  have h : Completes m standard.passes b (standard.run m b).body := completes_of_ok false hok
  have hlength : standard.passes.length = 23 := rfl
  have tightened : (reached m standard.passes b 4).Tight := by
    have hpass : standard.passes[3]? = some .trapTightening := rfl
    obtain ⟨hbody, ⟨flag, hflag⟩, -⟩ := h.stage hpass
    rw [hbody]
    exact Pass.trapTightening_tight (h.nodup_reached (by omega) (by omega)) hflag
  have branches : (reached m standard.passes b 7).Tight := by
    refine h.tight_reached (i := 4) (k := 3) (by omega) (by omega) ?_ tightened
    simp [standard, Pass.trapMerging_keepsTight, Pass.temporaryFolding_keepsTight,
      Pass.constantBranches_keepsTight]
  have constants : (reached m standard.passes b 8).Tight :=
    h.tight_spared .constantCasts rfl (by omega)
      (fun _ ↦ Pass.constantCasts_byRule.tight m) (hrims 7 (by simp)) branches
  have casts : (reached m standard.passes b 9).Tight :=
    h.tight_spared .identityCasts rfl (by omega)
      (fun _ ↦ Pass.identityCasts_byRule.tight m) (hrims 8 (by simp)) constants
  have operations : (reached m standard.passes b 10).Tight :=
    h.tight_spared .identityOperations rfl (by omega)
      (fun _ ↦ Pass.identityOperations_byRule.tight m) (hrims 9 (by simp)) casts
  have reachable : (reached m standard.passes b 11).Tight :=
    h.tight_spared .unreachableUnits rfl (by omega)
      (fun _ ↦ Pass.unreachableUnits_cleans.tight m) (hrims 10 (by simp)) operations
  have copies : (reached m standard.passes b 15).Tight := by
    refine h.tight_reached (i := 11) (k := 4) (by omega) (by omega) ?_ reachable
    simp [standard, Pass.booleanConstants_keepsTight, Pass.copyPropagation_keepsTight]
  have expanded : (reached m standard.passes b 16).Tight := by
    have hpass : standard.passes[15]? = some .storedComparisons := rfl
    obtain ⟨hbody, ⟨flag, hflag⟩, hvalid⟩ := h.stage hpass
    rw [hbody] at hvalid ⊢
    exact StoredComparisons.tight_run (h.nodup_reached (by omega) (by omega)) copies hstored hflag
      hvalid.nodup
  have allocations : (reached m standard.passes b 17).Tight :=
    h.tight_spared .deadAllocations rfl (by omega)
      (fun _ ↦ Pass.deadAllocations_cleans.tight m) (hrims 16 (by simp)) expanded
  have names : (reached m standard.passes b 23).Tight := by
    refine h.tight_reached (i := 17) (k := 6) (by omega) (by omega) ?_ allocations
    simp [standard, Pass.deadAssignments_keepsTight, Pass.unusedLocals_keepsTight,
      Pass.constantBranches_keepsTight, Pass.jumpThreading_keepsTight, Pass.nops_keepsTight,
      Pass.localNames_keepsTight]
  exact h.reached_length ▸ names

def guarded : Signature where
  declaringType := "Demo"
  name := "guarded"
  isStatic := true
  parameters := [⟨some "n", .int⟩]
  returnType := .void

def byOne : Expr := .binary .div (.var ⟨0⟩) (.const (.int 1))

def byLocal : Expr := .binary .div (.const (.int 1)) (.var ⟨0⟩)

def guardedBody (first second : Expr) : Body where
  locals := [⟨⟨0⟩, "n", .int⟩]
  units :=
    [⟨⟨0⟩, .identity ⟨0⟩ (.parameter 0)⟩,
      ⟨⟨1⟩, .assign (.field none ⟨"Demo", "f", .int⟩) first⟩,
      ⟨⟨2⟩, .assign (.field none ⟨"Demo", "f", .int⟩) second⟩,
      ⟨⟨3⟩, .assign (.field none ⟨"Demo", "f", .int⟩) byLocal⟩,
      ⟨⟨4⟩, .ret none⟩,
      ⟨⟨5⟩, .ret none⟩]
  traps := [⟨⟨1⟩, ⟨4⟩, ⟨5⟩, .object "E"⟩]
  nextUnit := 6

theorem keepsRims_guardedBody (e e' : Expr) :
    (guardedBody byLocal e).KeepsRims (guardedBody byLocal e') := by
  have hn : (guardedBody byLocal e).ids.Nodup := by
    show [(⟨0⟩ : UnitId), ⟨1⟩, ⟨2⟩, ⟨3⟩, ⟨4⟩, ⟨5⟩].Nodup
    decide
  rintro u ⟨t, ht, hu⟩
  obtain rfl := List.mem_singleton.1 ht
  obtain rfl | hu := hu
  · exact ⟨⟨⟨1⟩, .assign (.field none ⟨"Demo", "f", .int⟩) byLocal⟩, by simp [guardedBody], rfl, rfl⟩
  · obtain rfl : ⟨3⟩ = u := Body.successor?_inj hn rfl hu
    exact ⟨⟨⟨3⟩, .assign (.field none ⟨"Demo", "f", .int⟩) byLocal⟩, by simp [guardedBody], rfl, rfl⟩

/-- The division in the middle of the trap goes, and the ones at its rims stay. -/
theorem standard_tight_guarded :
    (standard.run guarded (guardedBody byLocal byOne)).result = .ok true ∧
    (∀ n ∈ [7, 8, 9, 10, 16],
      (reached guarded standard.passes (guardedBody byLocal byOne) n).KeepsRims
        (reached guarded standard.passes (guardedBody byLocal byOne) (n + 1))) ∧
    (∀ t ∈ (reached guarded standard.passes (guardedBody byLocal byOne) 15).traps,
      ∀ v ∈ (reached guarded standard.passes (guardedBody byLocal byOne) 15).units, v.id = t.first →
        StoredComparisons.comparison? v.stmt = none) ∧
    (standard.run guarded (guardedBody byLocal byOne)).body.Tight := by
  have hok : (standard.run guarded (guardedBody byLocal byOne)).result = .ok true := by cbv
  have hbefore : ∀ n ∈ [7, 8, 9], reached guarded standard.passes (guardedBody byLocal byOne) n =
      guardedBody byLocal byOne := by
    simp only [List.forall_mem_cons]
    refine ⟨?_, ?_, ?_, by simp⟩ <;> cbv
  have hafter : ∀ n ∈ [10, 11, 15, 16, 17],
      reached guarded standard.passes (guardedBody byLocal byOne) n =
        guardedBody byLocal (.value (.var ⟨0⟩)) := by
    simp only [List.forall_mem_cons]
    refine ⟨?_, ?_, ?_, ?_, ?_, by simp⟩ <;> cbv
  have hrims : ∀ n ∈ [7, 8, 9, 10, 16],
      (reached guarded standard.passes (guardedBody byLocal byOne) n).KeepsRims
        (reached guarded standard.passes (guardedBody byLocal byOne) (n + 1)) := by
    simp [hbefore, hafter, keepsRims_guardedBody]
  have hstored : ∀ t ∈ (reached guarded standard.passes (guardedBody byLocal byOne) 15).traps,
      ∀ v ∈ (reached guarded standard.passes (guardedBody byLocal byOne) 15).units,
        v.id = t.first → StoredComparisons.comparison? v.stmt = none := by
    rw [hafter 15 (by simp)]
    simp [guardedBody, StoredComparisons.comparison?, byLocal]
  exact ⟨hok, hrims, hstored, standard_tight guarded hok hrims hstored⟩

theorem standard_loosens_guarded :
    (standard.run guarded (guardedBody byOne byOne)).result = .ok true ∧
      ¬ (standard.run guarded (guardedBody byOne byOne)).body.Tight := by
  have hok : (standard.run guarded (guardedBody byOne byOne)).result = .ok true := by cbv
  have hbody : (standard.run guarded (guardedBody byOne byOne)).body =
      guardedBody (.value (.var ⟨0⟩)) (.value (.var ⟨0⟩)) := by cbv
  refine ⟨hok, fun h ↦ ?_⟩
  rw [hbody] at h
  obtain ⟨⟨v, hv, hid, hthrow⟩, -⟩ := h _ (List.mem_singleton_self _)
  simp only [guardedBody, List.mem_cons, List.not_mem_nil, or_false] at hv
  rcases hv with rfl | rfl | rfl | rfl | rfl | rfl <;>
    simp_all [Stmt.mayThrow, Place.mayThrow, Expr.mayThrow]

end ThreeAddress.Pipeline
