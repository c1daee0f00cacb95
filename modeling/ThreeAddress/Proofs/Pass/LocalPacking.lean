import Mathlib
import ThreeAddress.Proofs.Flow.Paths
import ThreeAddress.Proofs.Pass.Locals

namespace ThreeAddress

namespace Body

/-- A step of a walk: the position that it leaves, whether the unit there throws, and the position
that it enters. -/
structure Hop where
  source : Nat
  throws : Bool
  target : Nat

variable {b c : Body} {f : Stmt → Stmt} {h : Hop} {hops : List Hop} {x : LocalId} {p : Nat}

/-- The step goes along an edge of the flow graph, an exceptional one if the unit throws. -/
def Hop.IsEdge (b : Body) (h : Hop) : Prop :=
  h.target ∈ if h.throws then b.flowGraph.catches h.source else b.flowGraph.succs h.source

instance (b : Body) (h : Hop) : Decidable (h.IsEdge b) := by
  unfold Hop.IsEdge
  infer_instance

/-- The walks from the first unit, with the positions that they end at. -/
inductive Walk (b : Body) : List Hop → Nat → Prop
  | start : Walk b [] 0
  | concat {hops : List Hop} {h : Hop} :
      Walk b hops h.source → h.IsEdge b → Walk b (hops ++ [h]) h.target

def Hop.completes (b : Body) (x : LocalId) (h : Hop) : Bool :=
  !h.throws && (b.stmtAt? h.source).bind Stmt.def? == some x

def lastDefinition? (b : Body) (x : LocalId) (hops : List Hop) : Option Nat :=
  (hops.zipIdx.filter fun (h, _) ↦ h.completes b x).getLast?.map (·.2)

theorem lastDefinition?_concat (b : Body) (x : LocalId) (hops : List Hop) (h : Hop) :
    b.lastDefinition? x (hops ++ [h]) =
      if h.completes b x then some hops.length else b.lastDefinition? x hops := by
  cases hc : h.completes b x <;> simp [lastDefinition?, List.zipIdx_append, hc]

theorem Hop.IsEdge.leads (he : h.IsEdge b) : b.Leads h.source h.target := by
  unfold IsEdge at he
  split at he
  · exact .inr he
  · exact .inl he

theorem Hop.completes_eq_true : h.completes b x = true ↔
    h.throws = false ∧ b.Defines h.source x := by
  simp [completes, Defines]

theorem Hop.IsEdge.keeps (he : h.IsEdge b) (hc : h.completes b x = false) :
    b.Keeps x h.source h.target := by
  unfold IsEdge at he
  split at he
  · exact .inr he
  · next ht =>
    refine .inl ⟨he, fun hd ↦ ?_⟩
    have htrue : h.completes b x = true := Hop.completes_eq_true.2 ⟨by simpa using ht, hd⟩
    exact Bool.false_ne_true (hc.symm.trans htrue)

theorem flowGraph_mapStmts (ht : ∀ s, (f s).targets = s.targets)
    (hf : ∀ s, (f s).fallsThrough = s.fallsThrough) (hm : ∀ s, (f s).mayThrow = s.mayThrow) :
    (b.mapStmts f).flowGraph = b.flowGraph := by
  have hposition : (b.mapStmts f).position? = b.position? :=
    funext (position?_congr (ids_mapStmts b f))
  have hsize : (b.mapStmts f).size = b.size := by simp [size, mapStmts]
  have hcovers : (b.mapStmts f).covers = b.covers := funext (covers_congr (ids_mapStmts b f))
  have hnormal : ∀ p s, (b.mapStmts f).normalSuccessors p (f s) = b.normalSuccessors p s := by
    intro p s
    simp [normalSuccessors, hsize, hposition, ht, hf]
  have hexceptional : ∀ p s,
      (b.mapStmts f).exceptionalSuccessors p (f s) = b.exceptionalSuccessors p s := by
    intro p s
    simp only [exceptionalSuccessors, hm, hposition, hcovers]
    rfl
  have hunits : (b.mapStmts f).units.zipIdx = b.units.zipIdx.map (Prod.map (·.mapStmt f) id) :=
    List.zipIdx_map
  simp only [flowGraph, ids_mapStmts, hunits, List.map_map, Function.comp_def, Prod.map,
    CodeUnit.stmt_mapStmt, id, hnormal, hexceptional]

theorem Walk.mono (hw : b.Walk hops p) (hg : c.flowGraph = b.flowGraph) : c.Walk hops p := by
  induction hw with
  | start => exact .start
  | concat _ he ih => exact .concat ih (by rwa [Hop.IsEdge, hg])

end Body

namespace LocalPacking

variable {b : Body} {pairs : List (LocalId × LocalId)} {g : Sharing} {l : Local} {x y : LocalId}
  {h : Body.Hop} {hops : List Body.Hop} {p : Nat}

def Sharing.Compatible (pairs : List (LocalId × LocalId)) (g : Sharing) : Prop :=
  ∀ x ∈ g.members, ∀ y ∈ g.members, x ≠ y → (x, y) ∉ pairs

theorem Sharing.Compatible.join (hg : g.Compatible pairs) (ha : g.admits pairs l = true) :
    Sharing.Compatible pairs { g with members := g.members ++ [l.id] } := by
  have hnew : ∀ m ∈ g.members, m ≠ l.id → (l.id, m) ∉ pairs ∧ (m, l.id) ∉ pairs := by
    simp only [admits, Bool.and_eq_true, List.all_eq_true, Bool.or_eq_true, beq_iff_eq,
      Bool.not_eq_true', Bool.or_eq_false_iff, List.contains_eq_mem, decide_eq_false_iff_not] at ha
    exact fun m hm hne ↦ (ha.2 m hm).resolve_left hne
  intro x hx y hy hne
  rcases List.mem_append.1 hx with hx | hx <;> rcases List.mem_append.1 hy with hy | hy
  · exact hg x hx y hy hne
  · obtain rfl := List.mem_singleton.1 hy
    exact (hnew x hx hne).2
  · obtain rfl := List.mem_singleton.1 hx
    exact (hnew y hy hne.symm).1
  · exact absurd ((List.mem_singleton.1 hx).trans (List.mem_singleton.1 hy).symm) hne

theorem compatible_foldl (ls : List Local) (gs : List Sharing)
    (hgs : ∀ g ∈ gs, g.Compatible pairs) :
    ∀ g ∈ ls.foldl (fun gs l ↦ place pairs l gs) gs, g.Compatible pairs := by
  induction ls generalizing gs with
  | nil => exact hgs
  | cons l ls ih =>
    refine ih _ (forall_place ?_ (fun g ha hg ↦ hg.join ha) (fun _ hg ↦ hg) gs hgs)
    intro x hx y hy hne
    exact absurd ((List.mem_singleton.1 hx).trans (List.mem_singleton.1 hy).symm) hne

theorem compatible_groups (b : Body) : ∀ g ∈ groups b, g.Compatible (conflicts b) :=
  compatible_foldl _ [] (by simp)

theorem members_place (pairs : List (LocalId × LocalId)) (l : Local) (gs : List Sharing) :
    ((place pairs l gs).flatMap (·.members)).Perm (gs.flatMap (·.members) ++ [l.id]) := by
  induction gs with
  | nil => exact .refl _
  | cons g gs ih =>
    unfold place
    split
    · simp only [List.flatMap_cons, List.append_assoc]
      exact List.Perm.append_left _ List.perm_append_comm
    · simp only [List.flatMap_cons, List.append_assoc]
      exact ih.append_left _

theorem members_foldl (pairs : List (LocalId × LocalId)) (ls : List Local) (gs : List Sharing) :
    ((ls.foldl (fun gs l ↦ place pairs l gs) gs).flatMap (·.members)).Perm
      (gs.flatMap (·.members) ++ ls.map (·.id)) := by
  induction ls generalizing gs with
  | nil => simp
  | cons l ls ih =>
    refine (ih _).trans ?_
    simpa using (members_place pairs l gs).append_right (ls.map (·.id))

theorem members_groups (b : Body) :
    ((groups b).flatMap (·.members)).Perm ((candidates b).map (·.id)) :=
  members_foldl (conflicts b) _ []

theorem group_unique (hn : (b.locals.map (·.id)).Nodup) {g g' : Sharing} (hg : g ∈ groups b)
    (hg' : g' ∈ groups b) (hx : x ∈ g.members) (hx' : x ∈ g'.members) : g = g' := by
  have hsub : ((candidates b).map (·.id)).Sublist (b.locals.map (·.id)) := List.filter_sublist.map _
  have hflat : ((groups b).flatMap (·.members)).Nodup :=
    (members_groups b).nodup_iff.2 (hsub.nodup hn)
  have hsymm : Std.Symm (Function.onFun List.Disjoint Sharing.members) :=
    ⟨fun _ _ hd _ hx hx' ↦ hd hx' hx⟩
  by_contra hne
  exact (List.nodup_flatMap.1 hflat).2.forall hg hg' hne hx hx'

theorem exists_group (hn : (b.locals.map (·.id)).Nodup) (hs : stand b x = stand b y) (hne : x ≠ y) :
    ∃ g ∈ groups b, x ∈ g.members ∧ y ∈ g.members := by
  have member {z : LocalId} (hz : (z, stand b z) ∈ mapping b) :
      ∃ g ∈ groups b, z ∈ g.members ∧ stand b z ∈ g.members := by
    obtain ⟨g, hg, hm, hr⟩ := joined_of_mapping hz
    exact ⟨g, hg, List.mem_of_mem_drop hm, hr ▸ List.mem_of_head? (sound_groups b g hg).head⟩
  obtain hx | hx := stand_eq b x <;> obtain hy | hy := stand_eq b y
  · exact absurd (hx.symm.trans (hs.trans hy)) hne
  · obtain ⟨g, hg, hm, hr⟩ := member hy
    exact ⟨g, hg, hx ▸ hs ▸ hr, hm⟩
  · obtain ⟨g, hg, hm, hr⟩ := member hx
    exact ⟨g, hg, hm, hy ▸ hs ▸ hr⟩
  · obtain ⟨g, hg, hm, hr⟩ := member hx
    obtain ⟨g', hg', hm', hr'⟩ := member hy
    obtain rfl := group_unique hn hg hg' hr (hs ▸ hr')
    exact ⟨g, hg, hm, hm'⟩

theorem conflict_of_liveOut (hd : b.Defines p x) (hy : y ∈ b.liveness.liveOut p) :
    (x, y) ∈ conflicts b := by
  obtain ⟨s, hs, hx⟩ := Option.bind_eq_some_iff.1 hd
  obtain ⟨u, hu, rfl⟩ := Option.map_eq_some_iff.1 hs
  refine List.mem_append_left _ (List.mem_flatMap.2 ⟨(u, p), List.mem_zipIdx_iff_getElem?.2 hu, ?_⟩)
  simpa [hx] using hy

theorem defines_revise : (revise b).body.Defines p x ↔ ∃ y, b.Defines p y ∧ stand b y = x := by
  rw [body_revise, Body.Defines, Body.stmtAt?_mapStmts]
  cases hs : b.stmtAt? p with
  | none => simp [Body.Defines, hs]
  | some s => simp [Body.Defines, hs]

/-- Where a local is needed, only its own definitions complete definitions of what stands for it. -/
theorem completes_revise (hn : (b.locals.map (·.id)).Nodup) (he : h.IsEdge b)
    (hx : x ∈ b.liveness.liveIn h.target) :
    h.completes (revise b).body (stand b x) = h.completes b x := by
  rw [Bool.eq_iff_iff, Body.Hop.completes_eq_true, Body.Hop.completes_eq_true, defines_revise]
  refine and_congr_right fun _ ↦ ⟨?_, fun hd ↦ ⟨x, hd, rfl⟩⟩
  rintro ⟨y, hd, hs⟩
  by_contra hnot
  have hne : y ≠ x := by
    rintro rfl
    exact hnot hd
  obtain ⟨g, hg, hy, hx'⟩ := exists_group hn hs hne
  exact compatible_groups b g hg y hy x hx' hne
    (conflict_of_liveOut hd (Body.liveOut_of_leads he.leads hx))

theorem lastDefinition?_revise (hn : (b.locals.map (·.id)).Nodup) (hw : b.Walk hops p)
    (hx : x ∈ b.liveness.liveIn p) :
    (revise b).body.lastDefinition? (stand b x) hops = b.lastDefinition? x hops := by
  induction hw with
  | start => rfl
  | concat _ he ih =>
    rw [Body.lastDefinition?_concat, Body.lastDefinition?_concat, completes_revise hn he hx]
    split
    · rfl
    · next hc => exact ih (Body.liveIn_of_keeps (he.keeps (Bool.eq_false_iff.2 hc)) hx)

theorem flowGraph_revise (b : Body) : (revise b).body.flowGraph = b.flowGraph := by
  rw [body_revise]
  exact Body.flowGraph_mapStmts (fun s ↦ s.targets_mapLocals _) (fun s ↦ s.fallsThrough_mapLocals _)
    fun s ↦ s.mayThrow_mapLocals _

/-- On every walk, what a unit reads was stored by the same step before and after packing, or by
none. -/
theorem packed_reads_agree (hn : (b.locals.map (·.id)).Nodup) :
    (revise b).body = b.mapStmts (·.mapLocals (stand b)) ∧
    ∀ hops p x, b.Walk hops p → b.Reads p x →
      (revise b).body.Walk hops p ∧ (revise b).body.Reads p (stand b x) ∧
      (revise b).body.lastDefinition? (stand b x) hops = b.lastDefinition? x hops := by
  refine ⟨body_revise b, fun hops p x hw hx ↦ ⟨hw.mono (flowGraph_revise b), ?_, ?_⟩⟩
  · obtain ⟨s, hs, hmem⟩ := hx
    refine ⟨s.mapLocals (stand b), ?_, ?_⟩
    · rw [body_revise, Body.stmtAt?_mapStmts, hs, Option.map_some]
    · rw [Stmt.uses_mapLocals]
      exact List.mem_map_of_mem hmem
  · exact lastDefinition?_revise hn hw (Body.mem_liveIn.2 ⟨p, hx, .refl⟩)

def dividing : Body where
  locals := [⟨⟨0⟩, "n", .int⟩, ⟨⟨1⟩, "t", .int⟩, ⟨⟨2⟩, "q", .int⟩]
  units :=
    [⟨⟨0⟩, .identity ⟨0⟩ (.parameter 0)⟩,
      ⟨⟨1⟩, .assign (.var ⟨1⟩) (.binary .sub (.var ⟨0⟩) (.const (.int 1)))⟩,
      ⟨⟨2⟩, .branch ⟨.le, .var ⟨1⟩, .const (.int 0)⟩ ⟨5⟩⟩,
      ⟨⟨3⟩, .assign (.var ⟨2⟩) (.binary .div (.const (.int 1)) (.var ⟨0⟩))⟩,
      ⟨⟨4⟩, .branch ⟨.eq, .var ⟨2⟩, .const (.int 0)⟩ ⟨1⟩⟩,
      ⟨⟨5⟩, .ret (some (.var ⟨0⟩))⟩]
  traps := [⟨⟨3⟩, ⟨4⟩, ⟨5⟩, .object "E"⟩]
  nextUnit := 6

def aroundOnce : List Body.Hop :=
  [⟨0, false, 1⟩, ⟨1, false, 2⟩, ⟨2, false, 3⟩, ⟨3, false, 4⟩, ⟨4, false, 1⟩, ⟨1, false, 2⟩]

theorem walk_aroundOnce : dividing.Walk aroundOnce 2 := by
  change dividing.Walk ([] ++ [⟨0, false, 1⟩] ++ [⟨1, false, 2⟩] ++ [⟨2, false, 3⟩] ++
    [⟨3, false, 4⟩] ++ [⟨4, false, 1⟩] ++ [⟨1, false, 2⟩]) 2
  have hfirst : dividing.Walk ([] ++ [⟨0, false, 1⟩] ++ [⟨1, false, 2⟩]) 2 :=
    .concat (.concat .start (by decide)) (by decide)
  exact .concat (.concat (.concat (.concat hfirst (by decide)) (by decide)) (by decide)) (by decide)

/-- The quotient takes the place of the difference. In between it is stored there, but the test
reads the difference of its own round. -/
theorem packed_reads_agree_dividing : (dividing.locals.map (·.id)).Nodup ∧
    stand dividing ⟨2⟩ = ⟨1⟩ ∧ stand dividing ⟨1⟩ = ⟨1⟩ ∧ dividing.Walk aroundOnce 2 ∧
    dividing.Reads 2 ⟨1⟩ ∧ (revise dividing).body.lastDefinition? ⟨1⟩ aroundOnce = some 5 := by
  have hnodup : (dividing.locals.map (·.id)).Nodup := by decide
  have hquotient : stand dividing ⟨2⟩ = ⟨1⟩ := by decide_cbv
  have hself : stand dividing ⟨1⟩ = ⟨1⟩ := by decide_cbv
  have hread : dividing.Reads 2 ⟨1⟩ := ⟨_, rfl, by decide⟩
  obtain ⟨-, -, hlast⟩ := (packed_reads_agree hnodup).2 _ _ _ walk_aroundOnce hread
  rw [hself] at hlast
  exact ⟨hnodup, hquotient, hself, walk_aroundOnce, hread, hlast.trans rfl⟩

end LocalPacking

end ThreeAddress
