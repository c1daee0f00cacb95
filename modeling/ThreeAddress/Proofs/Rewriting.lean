import ThreeAddress.Body.Edit
import ThreeAddress.Proofs.Slots

namespace ThreeAddress

def Value.frame : Value → Value
  | var _ => var ⟨0⟩
  | const c => const c

def Comparison.frame (c : Comparison) : Comparison := ⟨c.op, c.left.frame, c.right.frame⟩

def Call.frame (c : Call) : Call where
  dispatch := c.dispatch
  method := c.method
  receiver := c.receiver.map Value.frame
  arguments := c.arguments.map Value.frame

def Expr.frame : Expr → Expr
  | value v => value v.frame
  | compare c => compare c.frame
  | binary op left right => binary op left.frame right.frame
  | unary op operand => unary op operand.frame
  | cast ty v => cast ty v.frame
  | new ty => new ty
  | newArray ty size => newArray ty size.frame
  | instanceOf ty v => instanceOf ty v.frame
  | length array => length array.frame
  | field receiver ref => field (receiver.map Value.frame) ref
  | element array index => element array.frame index.frame
  | invoke call => invoke call.frame

def Place.frame : Place → Place
  | var _ => var ⟨0⟩
  | field receiver ref => field (receiver.map Value.frame) ref
  | element array index => element array.frame index.frame

/-- What a statement holds apart from locals and targets: its kind, operators, types, members,
constants, and where in it there are locals and targets. -/
def Stmt.frame : Stmt → Stmt
  | identity _ source => identity ⟨0⟩ source
  | assign place expr => assign place.frame expr.frame
  | branch condition _ => branch condition.frame ⟨0⟩
  | goto _ => goto ⟨0⟩
  | switch key targets _ => switch key.frame (List.replicate targets.length ⟨0⟩) ⟨0⟩
  | invoke call => invoke call.frame
  | ret value => ret (value.map Value.frame)
  | throw value => throw value.frame
  | nop => nop

section Rewrite

variable {g : Value → Value} (hg : ∀ v, (g v).frame = v.frame)
include hg

theorem Call.frame_mapValues (c : Call) : (c.mapValues g).frame = c.frame := by
  simp [mapValues, frame, Function.comp_def, hg]

theorem Comparison.frame_mapValues (c : Comparison) : (c.mapValues g).frame = c.frame := by
  simp only [mapValues, frame, hg]

theorem Expr.frame_mapValues (e : Expr) : (e.mapValues g).frame = e.frame := by
  cases e with
  | compare c => simp only [mapValues, frame, c.frame_mapValues hg]
  | invoke call => simp only [mapValues, frame, call.frame_mapValues hg]
  | field receiver ref => simp [mapValues, frame, Function.comp_def, hg]
  | _ => simp only [mapValues, frame, hg]

theorem Place.frame_mapValues (p : Place) : (p.mapValues g).frame = p.frame := by
  cases p with
  | field receiver ref => simp [mapValues, frame, Function.comp_def, hg]
  | _ => simp only [mapValues, frame, hg]

theorem Stmt.frame_mapValues (s : Stmt) : (s.mapValues g).frame = s.frame := by
  cases s with
  | assign place e => simp only [mapValues, frame, place.frame_mapValues hg, e.frame_mapValues hg]
  | branch c target => simp only [mapValues, frame, c.frame_mapValues hg]
  | invoke call => simp only [mapValues, frame, call.frame_mapValues hg]
  | ret value => simp [mapValues, frame, Function.comp_def, hg]
  | _ => simp only [mapValues, frame, hg]

end Rewrite

theorem Value.frame_mapLocal (f : LocalId → LocalId) (v : Value) :
    (v.mapLocal f).frame = v.frame := by
  cases v <;> rfl

namespace Stmt

theorem frame_mapDef (f : LocalId → LocalId) (s : Stmt) : (s.mapDef f).frame = s.frame := by
  fun_cases mapDef f s <;> rfl

theorem frame_mapLocals (f : LocalId → LocalId) (s : Stmt) : (s.mapLocals f).frame = s.frame := by
  rw [mapLocals, frame_mapValues (Value.frame_mapLocal f), frame_mapDef]

theorem frame_mapTargets (r : UnitId → UnitId) (s : Stmt) : (s.mapTargets r).frame = s.frame := by
  cases s <;> simp [mapTargets, frame]

end Stmt

theorem eq_of_toList {α : Type} {o o' : Option α} (h : o.toList = o'.toList) : o = o' := by
  simpa using congrArg List.head? h

namespace Value

theorem var?_frame (v : Value) : v.frame.var? = v.var?.map fun _ ↦ ⟨0⟩ := by
  cases v <;> rfl

theorem eq_of_frame {v w : Value} (hframe : v.frame = w.frame) (hvar : v.var? = w.var?) :
    v = w := by
  cases v with
  | var x => exact (var?_eq_some.1 hvar.symm).symm
  | const c =>
    cases w with
    | var y => simp [var?] at hvar
    | const d => exact hframe

theorem list_eq_of_frame {vs ws : List Value} (hframe : vs.map frame = ws.map frame)
    (hvars : vs.filterMap var? = ws.filterMap var?) : vs = ws := by
  induction vs generalizing ws with
  | nil => exact (List.map_eq_nil_iff.1 hframe.symm).symm
  | cons v vs ih =>
    cases ws with
    | nil => simp at hframe
    | cons w ws =>
      obtain ⟨hhead, htail⟩ := List.cons.inj hframe
      have hkind := congrArg var? hhead
      rw [var?_frame, var?_frame] at hkind
      have hboth : v.var? = w.var? ∧ vs.filterMap var? = ws.filterMap var? := by
        cases hv : v.var? <;> cases hw : w.var? <;> simp_all
      rw [eq_of_frame hhead hboth.1, ih htail hboth.2]

theorem length_vars_eq_of_frame {vs ws : List Value} (hframe : vs.map frame = ws.map frame) :
    (vs.filterMap var?).length = (ws.filterMap var?).length := by
  have hvars (us : List Value) : (us.map frame).filterMap var? =
      (us.filterMap var?).map fun _ ↦ ⟨0⟩ := by
    simp only [List.filterMap_map, List.map_filterMap, Function.comp_def, var?_frame]
  have hlengths := congrArg List.length (congrArg (List.filterMap var?) hframe)
  rwa [hvars, hvars, List.length_map, List.length_map] at hlengths

end Value

theorem Call.values_frame (c : Call) : c.frame.values = c.values.map Value.frame := by
  cases h : c.receiver <;> simp [values, frame, h]

theorem Call.eq_of_frame {c d : Call} (hframe : c.frame = d.frame) (hvalues : c.values = d.values) :
    c = d := by
  obtain ⟨hdispatch, hmethod, hreceiver, -⟩ := Call.mk.inj hframe
  have hlength : c.receiver.toList.length = d.receiver.toList.length := by
    simpa [Option.toList_map] using congrArg (fun o ↦ o.toList.length) hreceiver
  obtain ⟨hreceivers, harguments⟩ := List.append_inj hvalues hlength
  have hreceiver := eq_of_toList hreceivers
  cases c
  cases d
  simp_all only

theorem Comparison.eq_of_frame {c d : Comparison} (hframe : c.frame = d.frame)
    (hvalues : c.values = d.values) : c = d := by
  obtain ⟨op, left, right⟩ := c
  obtain ⟨op', left', right'⟩ := d
  simp_all [frame, values]

namespace Expr

theorem values_frame (e : Expr) : e.frame.values = e.values.map Value.frame := by
  cases e with
  | field receiver ref => cases receiver <;> rfl
  | invoke call => exact call.values_frame
  | _ => rfl

theorem eq_of_frame {e e' : Expr} (hframe : e.frame = e'.frame) (hvalues : e.values = e'.values) :
    e = e' := by
  cases e with
  | compare c =>
    cases e' with
    | compare d => rw [Comparison.eq_of_frame (compare.inj hframe) hvalues]
    | _ => simp [frame] at hframe
  | invoke c =>
    cases e' with
    | invoke d => rw [Call.eq_of_frame (invoke.inj hframe) hvalues]
    | _ => simp [frame] at hframe
  | field receiver ref =>
    cases e' with
    | field receiver' ref' => rw [eq_of_toList hvalues, (field.inj hframe).2]
    | _ => simp [frame] at hframe
  | _ => cases e' <;> simp_all [frame, values]

end Expr

namespace Place

theorem values_frame (p : Place) : p.frame.values = p.values.map Value.frame := by
  cases p with
  | field receiver ref => cases receiver <;> rfl
  | _ => rfl

theorem eq_of_frame {p q : Place} (hframe : p.frame = q.frame) (hvar : p.var? = q.var?)
    (hvalues : p.values = q.values) : p = q := by
  cases p with
  | var x => exact (var?_eq_some.1 hvar.symm).symm
  | field receiver ref =>
    cases q with
    | field receiver' ref' => rw [eq_of_toList hvalues, (field.inj hframe).2]
    | _ => simp [frame] at hframe
  | element array index => cases q <;> simp_all [frame, values]

end Place

namespace Stmt

variable {s t : Stmt}

theorem values_frame (s : Stmt) : s.frame.values = s.values.map Value.frame := by
  cases s with
  | assign place e => simp only [frame, values, place.values_frame, e.values_frame, List.map_append]
  | invoke call => exact call.values_frame
  | ret value => cases value <;> rfl
  | _ => rfl

theorem eq_of_frame (hframe : s.frame = t.frame) (hdef : s.def? = t.def?)
    (hvalues : s.values = t.values) (htargets : s.targets = t.targets) : s = t := by
  cases s with
  | assign place e =>
    cases t with
    | assign place' e' =>
      obtain ⟨hplace, hexpr⟩ := assign.inj hframe
      have hlength : place.values.length = place'.values.length := by
        simpa [Place.values_frame] using congrArg (fun p ↦ p.values.length) hplace
      obtain ⟨hplaceValues, hexprValues⟩ := List.append_inj hvalues hlength
      rw [Place.eq_of_frame hplace hdef hplaceValues, Expr.eq_of_frame hexpr hexprValues]
    | _ => simp [frame] at hframe
  | branch c target =>
    cases t with
    | branch d target' =>
      obtain rfl := Comparison.eq_of_frame (branch.inj hframe).1 hvalues
      obtain rfl := List.singleton_inj.1 htargets
      rfl
    | _ => simp [frame] at hframe
  | switch key targets default =>
    cases t with
    | switch key' targets' default' =>
      obtain rfl := List.singleton_inj.1 hvalues
      obtain ⟨rfl, hdefault⟩ := List.append_inj' htargets rfl
      obtain rfl := List.singleton_inj.1 hdefault
      rfl
    | _ => simp [frame] at hframe
  | invoke call =>
    cases t with
    | invoke call' => rw [Call.eq_of_frame (invoke.inj hframe) hvalues]
    | _ => simp [frame] at hframe
  | ret value =>
    cases t with
    | ret value' => rw [eq_of_toList hvalues]
    | _ => simp [frame] at hframe
  | _ => cases t <;> simp_all [frame, values, def?, targets]

theorem eq_iff_frame : s = t ↔
    s.frame = t.frame ∧ s.locals = t.locals ∧ s.targets = t.targets := by
  constructor
  · rintro rfl
    exact ⟨rfl, rfl, rfl⟩
  · rintro ⟨hframe, hlocals, htargets⟩
    have hvalues : s.values.map Value.frame = t.values.map Value.frame := by
      rw [← values_frame, ← values_frame, hframe]
    obtain ⟨huses, hdefs⟩ := List.append_inj hlocals (Value.length_vars_eq_of_frame hvalues)
    exact eq_of_frame hframe (eq_of_toList hdefs) (Value.list_eq_of_frame hvalues huses) htargets

/-- In `t` the image of each local stands where the local stands in `s`, and `t` is else as `s`
is. -/
structure Renamed (f : LocalId → LocalId) (s t : Stmt) : Prop where
  uses : t.uses = s.uses.map f
  defines : t.def? = s.def?.map f
  locals : t.locals = s.locals.map f
  targets : t.targets = s.targets
  fallsThrough : t.fallsThrough = s.fallsThrough
  mayThrow : t.mayThrow = s.mayThrow
  frame : t.frame = s.frame

/-- In `t` the image of each target stands where the target stands in `s`, and `t` is else as `s`
is. -/
structure Retargeted (r : UnitId → UnitId) (s t : Stmt) : Prop where
  targets : t.targets = s.targets.map r
  locals : t.locals = s.locals
  frame : t.frame = s.frame

variable {f g : LocalId → LocalId} {r : UnitId → UnitId}

theorem renamed_mapLocals (f : LocalId → LocalId) (s : Stmt) : s.Renamed f (s.mapLocals f) where
  uses := uses_mapLocals s f
  defines := def?_mapLocals s f
  locals := locals_mapLocals s f
  targets := targets_mapLocals s f
  fallsThrough := fallsThrough_mapLocals s f
  mayThrow := mayThrow_mapLocals s f
  frame := frame_mapLocals f s

theorem renamed_iff : s.Renamed f t ↔ t = s.mapLocals f := by
  constructor
  · intro h
    have h' := renamed_mapLocals f s
    exact eq_iff_frame.2
      ⟨h.frame.trans h'.frame.symm, h.locals.trans h'.locals.symm, h.targets.trans h'.targets.symm⟩
  · rintro rfl
    exact renamed_mapLocals f s

theorem retargeted_iff : s.Retargeted r t ↔ t = s.mapTargets r := by
  have h' : s.Retargeted r (s.mapTargets r) :=
    ⟨targets_mapTargets r s, locals_mapTargets r s, frame_mapTargets r s⟩
  constructor
  · intro h
    exact eq_iff_frame.2
      ⟨h.frame.trans h'.frame.symm, h.locals.trans h'.locals.symm, h.targets.trans h'.targets.symm⟩
  · rintro rfl
    exact h'

theorem mapLocals_mapLocals (f g : LocalId → LocalId) (s : Stmt) :
    (s.mapLocals f).mapLocals g = s.mapLocals (g ∘ f) := by
  have hf := renamed_mapLocals f s
  have hg := renamed_mapLocals g (s.mapLocals f)
  have hgf := renamed_mapLocals (g ∘ f) s
  refine eq_iff_frame.2 ⟨?_, ?_, ?_⟩
  · rw [hg.frame, hf.frame, hgf.frame]
  · rw [hg.locals, hf.locals, hgf.locals, List.map_map]
  · rw [hg.targets, hf.targets, hgf.targets]

theorem mapLocals_eq_iff : s.mapLocals f = s.mapLocals g ↔ ∀ x ∈ s.locals, f x = g x := by
  have hf := renamed_mapLocals f s
  have hg := renamed_mapLocals g s
  rw [eq_iff_frame, hf.frame, hg.frame, hf.locals, hg.locals, hf.targets, hg.targets]
  simp

end Stmt

namespace Body

theorem getElem?_redirect {b : Body} {a z : UnitId} {p : Nat} {v : CodeUnit} :
    (b.redirect a z).units[p]? = some v ↔ ∃ u, b.units[p]? = some u ∧ v.id = u.id ∧
      u.stmt.Retargeted (fun t ↦ if t = a then z else t) v.stmt := by
  have hmap : (b.redirect a z).units[p]? =
      b.units[p]?.map (·.mapStmt (·.mapTargets (rename a z))) := List.getElem?_map
  rw [hmap, Option.map_eq_some_iff]
  refine exists_congr fun u ↦ and_congr_right fun _ ↦ ?_
  constructor
  · rintro rfl
    exact ⟨rfl, Stmt.retargeted_iff.2 rfl⟩
  · rintro ⟨hid, hstmt⟩
    obtain ⟨id, s⟩ := v
    obtain rfl := Stmt.retargeted_iff.1 hstmt
    obtain rfl := hid
    rfl

/-- A renaming puts the image of each local where the analyses see the local, and depends on nothing
but the images of these; two renamings in a row are one. A redirection puts the new target where the
old one was seen. Neither changes anything else. -/
theorem slots_rewritten (f g : LocalId → LocalId) (s : Stmt) (b : Body) (a z : UnitId) :
    (∀ t, t = s.mapLocals f ↔ s.Renamed f t) ∧
    (s.mapLocals f = s.mapLocals g ↔ ∀ x ∈ s.locals, f x = g x) ∧
    (s.mapLocals f).mapLocals g = s.mapLocals (g ∘ f) ∧
    ∀ (p : Nat) (v : CodeUnit), (b.redirect a z).units[p]? = some v ↔
      ∃ u, b.units[p]? = some u ∧ v.id = u.id ∧
        u.stmt.Retargeted (fun t ↦ if t = a then z else t) v.stmt :=
  ⟨fun _ ↦ Stmt.renamed_iff.symm, Stmt.mapLocals_eq_iff, Stmt.mapLocals_mapLocals f g s,
    fun _ _ ↦ getElem?_redirect⟩

end Body

end ThreeAddress
