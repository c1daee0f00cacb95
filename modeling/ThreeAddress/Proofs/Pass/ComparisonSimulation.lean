import ThreeAddress.Proofs.Flow.Execution
import ThreeAddress.Proofs.Pass.ComparisonExpansion
import ThreeAddress.Proofs.WellFormedness

namespace ThreeAddress

namespace Body.Expanded

variable {b c : Body} {done : UnitId → Prop} {image : UnitId → UnitId} {u : UnitId} {i : Nat}

theorem index_lt (h : Expanded done image b c) (hbound : b.Bounded) (hu : u ∈ b.ids)
    (hk : ¬ done u) : (image u).index < b.nextUnit := by
  rw [(h.kept u hu hk).2]
  exact hbound u hu

theorem injective (h : Expanded done image b c) (hbound : b.Bounded) :
    ∀ u ∈ b.ids, ∀ w ∈ b.ids, image u = image w → u = w := by
  intro u hu w hw he
  by_contra hne
  by_cases hdu : done u <;> by_cases hdw : done w
  · have hapart := h.apart u w hdu hdw hne
    rw [he] at hapart
    omega
  · have hlow := (h.fresh u hdu).1
    have hhigh := h.index_lt hbound hw hdw
    rw [he] at hlow
    omega
  · have hlow := (h.fresh w hdw).1
    have hhigh := h.index_lt hbound hu hdu
    rw [he] at hhigh
    omega
  · rw [(h.kept u hu hdu).2, (h.kept w hw hdw).2] at he
    exact hne he

theorem inner (h : Expanded done image b c) (hbound : b.Bounded) (hu : done u) (hi : i ≠ 0)
    (hlt : i < 4) : ∀ w ∈ b.ids, image w ≠ ⟨(image u).index + i⟩ := by
  intro w hw he
  have hindex : (image w).index = (image u).index + i := congrArg UnitId.index he
  by_cases hdw : done w
  · by_cases hne : w = u
    · rw [hne] at hindex
      omega
    · have hapart := h.apart w u hdw hu hne
      omega
  · have hlow := (h.fresh u hu).1
    have hhigh := h.index_lt hbound hw hdw
    omega

end Body.Expanded

namespace Semantics

variable {V H E : Type} {M : Semantics V H E} {b c : Body} {f : UnitId → UnitId} {u w next : UnitId}
  {place : Place} {cond : Comparison} {ts : List Trap} {n : Nat} {σ : State V H}
  {r : Result V H E}

theorem acts_test (h : c.Diamond n place cond next ts) : M.Acts c (⟨n⟩, σ) r ↔
    r = .ok (⟨if M.test cond σ then n + 3 else n + 1⟩, σ) := by
  have hrow : c.successor? ⟨n⟩ = some ⟨n + 1⟩ := h.row 0 (Nat.succ_pos 2)
  rw [acts_iff_of_exec h.test fun _ ↦ exec_branch_iff]
  cases M.test cond σ with
  | true => rfl
  | false => simp [land, follow?, hrow]

theorem acts_leave (h : c.Diamond n place cond next ts) :
    M.Acts c (⟨n + 2⟩, σ) r ↔ r = .ok (next, σ) :=
  acts_iff_of_exec h.leave fun _ ↦ exec_goto_iff

/-- A store in the diamond of a comparison, which does what the comparison does unless control
goes on elsewhere. -/
theorem land_store (h : c.Diamond n place cond (f next) ((b.around u).map (·.mapRefs f)))
    (hnext : b.successor? u = some next) {i : Nat} (hi : i < 4) (k : Constant)
    (p : Except E (State V H)) (hp : ∀ σ', p = .ok σ' → i = 3) :
    M.land c ⟨n + i⟩ (.assign place (.value (.const k))) (.ofPut σ p) =
      (M.land b u (.assign place (.compare cond)) (.ofPut σ p)).map (Config.map f) := by
  refine land_of_follow? ?_
  cases p with
  | ok σ' =>
    obtain rfl := hp σ' rfl
    rw [Outcome.ofPut, follow?, h.last, follow?, hnext]
    rfl
  | error e =>
    rw [Outcome.ofPut, follow?, h.around i hi, List.find?_map, follow?, Option.map_map,
      Option.map_map]
    rfl

theorem crosses_whenTrue (hb : b.Coherent)
    (h : c.Diamond n place cond (f next) ((b.around u).map (·.mapRefs f)))
    (hs : b.stmt? u = some (.assign place (.compare cond))) (hnext : b.successor? u = some next)
    (ht : M.test cond σ = true) :
    M.Crosses c (fun w ↦ ∀ u ∈ b.ids, f u ≠ w) (⟨n + 3⟩, σ) r ↔
      ∃ q, M.Acts b (u, σ) q ∧ r = q.map (Config.map f) := by
  refine crosses_iff_of_acts hb fun r ↦ ?_
  simp only [acts_compare hs, ht, exists_eq_left]
  rw [acts_literal h.whenTrue, land_store h hnext (Nat.lt_succ_self 3) _ _ fun _ _ ↦ rfl]

theorem crosses_whenFalse (hb : b.Coherent)
    (h : c.Diamond n place cond (f next) ((b.around u).map (·.mapRefs f)))
    (hs : b.stmt? u = some (.assign place (.compare cond))) (hnext : b.successor? u = some next)
    (hinner : ∀ u ∈ b.ids, f u ≠ ⟨n + 2⟩) (ht : M.test cond σ = false) :
    M.Crosses c (fun w ↦ ∀ u ∈ b.ids, f u ≠ w) (⟨n + 1⟩, σ) r ↔
      ∃ q, M.Acts b (u, σ) q ∧ r = q.map (Config.map f) := by
  cases hp : M.put (M.literal (.bool false)) σ place with
  | error e =>
    refine crosses_iff_of_acts hb fun r ↦ ?_
    simp only [acts_compare hs, ht, hp, exists_eq_left]
    rw [acts_literal h.whenFalse, hp, land_store h hnext (i := 1) (by omega) _ _ (by simp)]
  | ok σ' =>
    -- the store of `false` is left by way of the goto behind it
    have hrow : c.successor? ⟨n + 1⟩ = some ⟨n + 2⟩ := h.row 1 (by omega)
    have hgoto (r : Result V H E) : M.Acts c (⟨n + 1⟩, σ) r ↔ r = .ok (⟨n + 2⟩, σ') := by
      rw [acts_literal h.whenFalse, hp, Outcome.ofPut, land, follow?, hrow]
      rfl
    have hout : ∀ y, M.Step c (⟨n + 2⟩, σ') y → ¬ ∀ u ∈ b.ids, f u ≠ y.1 := by
      intro y hy hall
      obtain rfl := Except.ok.inj ((acts_leave h).1 hy)
      obtain ⟨p, -, hnextp⟩ := (Body.successor?_eq_some hb.nodup).1 hnext
      exact hall next (List.mem_of_getElem? hnextp) rfl
    rw [crosses_iff_of_step hgoto hinner, crosses_iff_acts hout, acts_leave h]
    simp only [acts_compare hs, ht, hp, exists_eq_left, Outcome.ofPut, land, follow?, hnext]
    rfl

theorem crosses_diamond (hb : b.Coherent)
    (h : c.Diamond n place cond (f next) ((b.around u).map (·.mapRefs f)))
    (hs : b.stmt? u = some (.assign place (.compare cond))) (hnext : b.successor? u = some next)
    (hinner : ∀ i, i ≠ 0 → i < 4 → ∀ u ∈ b.ids, f u ≠ ⟨n + i⟩) :
    M.Crosses c (fun w ↦ ∀ u ∈ b.ids, f u ≠ w) (⟨n⟩, σ) r ↔
      ∃ q, M.Acts b (u, σ) q ∧ r = q.map (Config.map f) := by
  cases ht : M.test cond σ with
  | true =>
    have htest (r : Result V H E) : M.Acts c (⟨n⟩, σ) r ↔ r = .ok (⟨n + 3⟩, σ) := by
      rw [acts_test h, ht, if_pos rfl]
    rw [crosses_iff_of_step htest (hinner 3 (by omega) (by omega))]
    exact crosses_whenTrue hb h hs hnext ht
  | false =>
    have htest (r : Result V H E) : M.Acts c (⟨n⟩, σ) r ↔ r = .ok (⟨n + 1⟩, σ) := by
      rw [acts_test h, ht, if_neg Bool.false_ne_true]
    rw [crosses_iff_of_step htest (hinner 1 (by omega) (by omega))]
    exact crosses_whenFalse hb h hs hnext (hinner 2 (by omega) (by omega)) ht

theorem simulates_expanded {done : UnitId → Prop} (hb : b.Coherent) (hbound : b.Bounded)
    (h : Body.Expanded done f b c) : M.Simulates f b c := by
  intro u hu σ r
  by_cases hk : done u
  · obtain ⟨place, cond, next, hs, hnext, hdia⟩ := h.opened u hk
    exact crosses_diamond hb hdia hs hnext fun i hi hlt ↦ h.inner hbound hk hi hlt
  · rw [(h.kept u hu hk).2]
    exact crosses_iff_of_acts hb fun r ↦ acts_moved h.moved ⟨hu, hk⟩

end Semantics

namespace StoredComparisons

variable {b : Body}

def agreeing : Semantics Unit Unit Unit where
  literal _ := ()
  holds _ _ _ := true
  compute _ _ _ r := r = (.ok (), ())
  input _ _ := ()
  putField _ _ _ _ := .ok ()
  putElement _ _ _ _ := .ok ()
  index? _ := none
  thrown _ _ := ()
  catches _ _ := false
  caught _ h := h

/-- What the pass makes of a crowded body. The store of `true` has the identity of the unit in front
of the branch. -/
def caughtBody : Body where
  locals := crowdedBody.locals
  units :=
    [⟨⟨0⟩, .nop⟩,
      ⟨⟨4294967293⟩, .branch ⟨.eq, .var ⟨0⟩, .var ⟨0⟩⟩ ⟨0⟩⟩,
      ⟨⟨4294967294⟩, .assign (.var ⟨1⟩) (.value (.const (.bool false)))⟩,
      ⟨⟨4294967295⟩, .goto ⟨4294967292⟩⟩,
      ⟨⟨0⟩, .assign (.var ⟨1⟩) (.value (.const (.bool true)))⟩,
      ⟨⟨4294967292⟩, .ret none⟩]
  nextUnit := 1

theorem run_crowdedBody : (run crowdedBody).body = caughtBody := by decide +kernel

theorem caughtBody_circles {x : Semantics.Config Unit Unit} {σ : Semantics.State Unit Unit}
    (h : agreeing.Reaches caughtBody (⟨4294967293⟩, σ) x) :
    x = (⟨4294967293⟩, σ) ∨ x = (⟨0⟩, σ) := by
  have hbranch (r : Semantics.Result Unit Unit Unit) :
      agreeing.Acts caughtBody (⟨4294967293⟩, σ) r ↔ r = .ok (⟨0⟩, σ) :=
    Semantics.acts_iff_of_exec (s := .branch ⟨.eq, .var ⟨0⟩, .var ⟨0⟩⟩ ⟨0⟩) rfl
      fun _ ↦ Semantics.exec_branch_iff
  have hexec (o : Semantics.Outcome Unit Unit Unit) : agreeing.Exec σ .nop o ↔ o = .next σ :=
    ⟨by rintro ⟨⟩; rfl, by rintro rfl; exact .nop⟩
  have hnop (r : Semantics.Result Unit Unit Unit) :
      agreeing.Acts caughtBody (⟨0⟩, σ) r ↔ r = .ok (⟨4294967293⟩, σ) :=
    Semantics.acts_iff_of_exec rfl hexec
  induction h with
  | refl => exact .inl rfl
  | tail _ hstep ih =>
    obtain rfl | rfl := ih
    · exact .inr (Except.ok.inj ((hbranch _).1 hstep))
    · exact .inl (Except.ok.inj ((hnop _).1 hstep))

end StoredComparisons

end ThreeAddress
