import Mathlib.Data.Nat.Find
import ThreeAddress.Proofs.Body.Chains
import ThreeAddress.Proofs.Pass.Jumps

namespace ThreeAddress

namespace Body

variable {b : Body} {u x y z : UnitId}

theorem gotoStep_iff (hn : b.ids.Nodup) : b.GotoStep x y ↔ b.stmt? x = some (.goto y) :=
  (stmt?_eq_some hn).symm

theorem followGotos_ends (hn : b.ids.Nodup) (fresh : List UnitId)
    (hpassed : ∀ x ∈ b.ids, x ∉ fresh → Relation.TransGen b.GotoStep x u)
    (hz : b.GotoStep (b.followGotos fresh u) z) : b.OnGotoCycle (b.followGotos fresh u) := by
  fun_induction followGotos b fresh u with
  | case1 fresh u target hs hf ih =>
    refine ih (fun x hx hne ↦ ?_) hz
    have hstep := (gotoStep_iff hn).2 hs
    by_cases he : x = u
    · exact he ▸ .single hstep
    · exact (hpassed x hx fun hm ↦ hne ((List.mem_erase_of_ne he).2 hm)).tail hstep
  | case2 fresh u target hs hf => exact hpassed u hz.mem hf
  | case3 fresh u hs => exact absurd ((gotoStep_iff hn).1 hz) (hs z)

theorem destination_ends (hn : b.ids.Nodup) (hz : b.GotoStep (b.destination u) z) :
    b.OnGotoCycle (b.destination u) :=
  followGotos_ends hn b.ids (fun _ hx hf ↦ absurd hx hf) hz

def Reaches (b : Body) : Nat → UnitId → UnitId → Prop
  | 0, x, y => x = y
  | n + 1, x, y => ∃ z, b.GotoStep x z ∧ b.Reaches n z y

theorem exists_reaches (h : Relation.ReflTransGen b.GotoStep x y) : ∃ n, b.Reaches n x y := by
  induction h using Relation.ReflTransGen.head_induction_on with
  | refl => exact ⟨0, rfl⟩
  | head hxz _ ih =>
    obtain ⟨n, hn⟩ := ih
    exact ⟨n + 1, _, hxz, hn⟩

/-- On the way round a cycle back to `u`, each unit passed before is further from `u` than the one
that is passed next, so none is met again before `u`. -/
theorem followGotos_home (hn : b.ids.Nodup) (n : Nat) (fresh : List UnitId) (hu : u ∉ fresh)
    (hx : b.Reaches n x u) (hleast : ∀ k < n, ¬ b.Reaches k x u)
    (hpassed : ∀ y ∈ b.ids, y ∉ fresh → y = u ∨ ∀ k ≤ n, ¬ b.Reaches k y u) :
    b.followGotos fresh x = u := by
  induction n generalizing fresh x with
  | zero =>
    obtain rfl : x = u := hx
    unfold followGotos
    split
    · exact if_neg hu
    · rfl
  | succ n ih =>
    obtain ⟨y, hxy, hyu⟩ := hx
    have hfresh : x ∈ fresh := by
      by_contra hf
      obtain rfl | hfar := hpassed x hxy.mem hf
      · exact hleast 0 (Nat.succ_pos n) rfl
      · exact hfar (n + 1) (Nat.le_refl _) ⟨y, hxy, hyu⟩
    rw [followGotos, (gotoStep_iff hn).1 hxy]
    dsimp only
    rw [if_pos hfresh]
    refine ih (fresh.erase x) (fun hm ↦ hu (List.mem_of_mem_erase hm)) hyu ?_ ?_
    · exact fun k hk hr ↦ hleast (k + 1) (Nat.succ_lt_succ hk) ⟨y, hxy, hr⟩
    · intro z hz hzf
      by_cases he : z = x
      · exact .inr fun k hk ↦ he ▸ hleast k (Nat.lt_succ_of_le hk)
      · refine (hpassed z hz fun hm ↦ hzf ((List.mem_erase_of_ne he).2 hm)).imp_right ?_
        exact fun hfar k hk ↦ hfar k (Nat.le_succ_of_le hk)

theorem destination_of_onGotoCycle (hn : b.ids.Nodup) (h : b.OnGotoCycle u) :
    b.destination u = u := by
  classical
  obtain ⟨y, huy, hyu⟩ := h.step
  have hreaches := exists_reaches hyu
  rw [destination, followGotos, (gotoStep_iff hn).1 huy]
  dsimp only
  rw [if_pos huy.mem]
  refine followGotos_home hn (Nat.find hreaches) _ hn.not_mem_erase (Nat.find_spec hreaches)
    (fun k hk ↦ Nat.find_min hreaches hk) fun z hz hzf ↦ .inl ?_
  by_contra he
  exact hzf ((List.mem_erase_of_ne he).2 hz)

theorem destination_of_not_goto (hn : b.ids.Nodup) (h : ∀ z, ¬ b.GotoStep u z) :
    b.destination u = u := by
  rw [destination, followGotos]
  split
  · next target hs => exact absurd ((gotoStep_iff hn).2 hs) (h target)
  · rfl

end Body

/-- A loop that removes units without effect one by one leaves no chain, if no jump comes to rest at
one. -/
theorem Revision.unchained_removeFirst {skip : Stmt → Prop} {test : Body → Nat → Bool}
    {note : Nat → UnitId → Note} {r : Revision} (hs : ∀ z, ¬ skip (.goto z))
    (hm : ∀ (s : Stmt) f, skip (s.mapTargets f) ↔ skip s)
    (hi : ∀ c p, test c p = true → ∃ u, Body.Idle skip c p u) (hn : r.body.ids.Nodup)
    (h : r.body.Lands skip) : (r.removeFirst test note).body.Unchained := by
  have hloop : (r.removeFirst test note).body.ids.Nodup ∧
      (r.removeFirst test note).body.Lands skip := by
    refine removeFirst_keeps (P := fun c ↦ c.ids.Nodup ∧ c.Lands skip) ?_ r ⟨hn, h⟩
    intro c p hc ht _
    obtain ⟨u, hu⟩ := hi c p ht
    refine ⟨?_, hc.2.removeAt hs hm hc.1 hu⟩
    rw [Body.ids_removeAt]
    exact hc.1.eraseIdx p
  exact hloop.2.unchained hs

theorem Body.idle_of_isGotoNext {skip : Stmt → Prop} {c : Body} {p : Nat}
    (h : c.isGotoNext p = true) : ∃ u, Idle skip c p u := by
  obtain ⟨u, next, hu, hnext, hs⟩ := isGotoNext_iff.1 h
  exact ⟨u, .goto hu hnext hs⟩

namespace JumpThreading

variable {b : Body} {x y : UnitId}

theorem gotoStep_thread (hxy : b.GotoStep x y) :
    (thread b).body.GotoStep x (b.destination y) :=
  List.mem_map.2 ⟨⟨x, .goto y⟩, hxy, rfl⟩

theorem onGotoCycle_thread (hn : b.ids.Nodup) (h : b.OnGotoCycle x) :
    (thread b).body.OnGotoCycle x := by
  have hstep : ∀ {x y}, b.OnGotoCycle x → b.GotoStep x y → (thread b).body.GotoStep x y := by
    intro x y hx hxy
    have hs := gotoStep_thread hxy
    rwa [Body.destination_of_onGotoCycle hn (hx.next hn hxy)] at hs
  have hpath : ∀ {x y}, Relation.ReflTransGen b.GotoStep x y → b.OnGotoCycle x →
      Relation.ReflTransGen (thread b).body.GotoStep x y := by
    intro x y hxy
    induction hxy using Relation.ReflTransGen.head_induction_on with
    | refl => exact fun _ ↦ .refl
    | head hxz _ ih => exact fun hx ↦ .head (hstep hx hxz) (ih (hx.next hn hxz))
  obtain ⟨y, hxy, hyx⟩ := h.step
  exact .head' (hstep h hxy) (hpath hyx (h.next hn hxy))

theorem unchained_thread (hn : b.ids.Nodup) : (thread b).body.Unchained := by
  intro w hw t ht z hz
  obtain ⟨v, hv, rfl⟩ := List.mem_map.1 hw
  obtain ⟨y, hy, rfl⟩ : ∃ y ∈ v.stmt.targets, b.destination y = t := by simpa using ht
  obtain ⟨u, hu, he⟩ := List.mem_map.1 hz
  obtain ⟨z', hz'⟩ : ∃ z', b.GotoStep (b.destination y) z' := by
    obtain ⟨id, s⟩ := u
    obtain ⟨rfl, hs⟩ := CodeUnit.mk.inj he
    cases s with
    | goto target => exact ⟨target, hu⟩
    | _ => cases hs
  exact onGotoCycle_thread hn (Body.destination_ends hn hz')

theorem unchained_revise (hn : b.ids.Nodup) : (revise b).body.Unchained := by
  have hthread : (thread b).body.ids.Nodup := by simpa [thread, Revision.withNotes] using hn
  have hloop : (swept b).body.Unchained :=
    Revision.unchained_removeFirst (fun _ h ↦ h) (fun _ _ ↦ Iff.rfl)
      (fun _ _ ↦ Body.idle_of_isGotoNext) hthread (unchained_thread hn).lands
  exact hloop.of_units rfl

theorem isGotoNext_revise (b : Body) (p : Nat) : (revise b).body.isGotoNext p = false := by
  rw [Bool.eq_false_iff]
  intro hg
  have hp : p < (swept b).body.size := Nat.lt_of_succ_lt (Body.lt_size_of_isGotoNext hg)
  have hdone : (swept b).body.isGotoNext p = false := Revision.removeFirst_done _ hp
  exact Bool.false_ne_true (hdone.symm.trans hg)

/-- On a body without chains and without gotos to the next unit there is nothing to do. -/
theorem revise_eq_self (hb : b.Valid) (hu : b.Unchained) (hg : ∀ p, b.isGotoNext p = false) :
    revise b = ⟨b, [], false⟩ := by
  have hthread : thread b = ⟨b, [], false⟩ := by
    apply thread_eq_self
    intro w hw t ht
    by_cases hgoto : ∃ z, b.GotoStep t z
    · obtain ⟨z, hz⟩ := hgoto
      exact Body.destination_of_onGotoCycle hb.nodup (hu w hw t ht z hz)
    · exact Body.destination_of_not_goto hb.nodup (not_exists.1 hgoto)
  have hswept : swept b = ⟨b, [], false⟩ := by
    rw [swept, hthread]
    exact Revision.removeFirst_eq_self _ hg
  rw [revise_eq, hswept]
  exact Revision.dropEmptyTraps_eq_self hb

end JumpThreading

namespace Nops

variable {b : Body}

theorem idle_of_isIdle {c : Body} {p : Nat} (h : isIdle c p = true) :
    ∃ u, Body.Idle (· = .nop) c p u := by
  obtain ⟨-, u, hu, hnop | hgoto, -⟩ := isIdle_iff.1 h
  · exact ⟨u, .skipped hu hnop⟩
  · exact Body.idle_of_isGotoNext hgoto

/-- Where no jump comes to rest at a goto over empty units, none goes to a goto without them. -/
theorem unchained_revise (hn : b.ids.Nodup) (h : b.Lands (· = .nop)) :
    (revise b).body.Unchained := by
  have hloop : (swept b).body.Unchained :=
    Revision.unchained_removeFirst (by simp) (fun s f ↦ Stmt.mapTargets_eq_nop f s)
      (fun _ _ ↦ idle_of_isIdle) hn h
  exact hloop.of_units rfl

end Nops

namespace Pass

/-- Jump threading leaves a valid body in which every jump goes to a unit that is no goto, or to a
goto on a cycle of gotos. Another run says that it changes nothing, and changes nothing. -/
theorem jumpThreading_stable (m : Signature) {b : Body} (hb : b.validate = .ok ()) :
    ∃ c notes changed, jumpThreading.run m b = ⟨c, notes, .ok changed⟩ ∧ c.validate = .ok () ∧
      c.Unchained ∧ jumpThreading.run m c = ⟨c, [], .ok false⟩ := by
  have hv := Body.validate_eq_ok.1 hb
  have hc := JumpThreading.valid_revise hv
  have hunchained := JumpThreading.unchained_revise hv.nodup
  refine ⟨_, _, _, rfl, Body.validate_eq_ok.2 hc, hunchained, ?_⟩
  have hagain := JumpThreading.revise_eq_self hc hunchained (JumpThreading.isGotoNext_revise b)
  exact congrArg Revision.finish hagain

def waiting : Signature where
  declaringType := "Demo"
  name := "wait"
  isStatic := true
  parameters := [⟨some "n", .int⟩]
  returnType := .void

def circling : Body where
  locals := [⟨⟨0⟩, "n", .int⟩]
  units :=
    [⟨⟨0⟩, .branch ⟨.eq, .var ⟨0⟩, .const (.int 0)⟩ ⟨3⟩⟩,
      ⟨⟨1⟩, .goto ⟨4⟩⟩,
      ⟨⟨2⟩, .ret none⟩,
      ⟨⟨3⟩, .goto ⟨4⟩⟩,
      ⟨⟨4⟩, .goto ⟨5⟩⟩,
      ⟨⟨5⟩, .goto ⟨4⟩⟩]
  nextUnit := 6

def circlingOnce : Body where
  locals := [⟨⟨0⟩, "n", .int⟩]
  units :=
    [⟨⟨0⟩, .branch ⟨.eq, .var ⟨0⟩, .const (.int 0)⟩ ⟨5⟩⟩,
      ⟨⟨1⟩, .goto ⟨5⟩⟩,
      ⟨⟨2⟩, .ret none⟩,
      ⟨⟨5⟩, .goto ⟨5⟩⟩]
  nextUnit := 6

theorem jumpThreading_stable_circling : circling.validate = .ok () ∧
    (jumpThreading.run waiting circling).body = circlingOnce ∧
    (jumpThreading.run waiting circling).result = .ok true ∧ circlingOnce.Unchained ∧
    jumpThreading.run waiting circlingOnce = ⟨circlingOnce, [], .ok false⟩ := by
  have hb : circling.validate = .ok () := by decide +kernel
  obtain ⟨c, notes, changed, hrun, -, hunchained, hagain⟩ := jumpThreading_stable waiting hb
  have hbody : (jumpThreading.run waiting circling).body = circlingOnce := by cbv
  have hresult : (jumpThreading.run waiting circling).result = .ok true := by cbv
  obtain rfl : c = circlingOnce := by rw [← hbody, hrun]
  exact ⟨hb, hbody, hresult, hunchained, hagain⟩

end Pass

end ThreeAddress
