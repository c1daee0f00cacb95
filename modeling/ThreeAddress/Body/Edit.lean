import ThreeAddress.Body.Basic

namespace ThreeAddress.Body

/-- The identity of the unit that is handed one after `i` others. -/
def fresh (b : Body) (i : Nat) : UnitId := ⟨wrapId (b.nextUnit + i)⟩

def push (b : Body) (s : Stmt) : UnitId × Body :=
  (b.fresh 0,
    { b with units := b.units ++ [⟨b.fresh 0, s⟩], nextUnit := wrapId (b.nextUnit + 1) })

/-- Appends units that have identities, up to the first whose identity is taken. -/
def append (b : Body) : List CodeUnit → Option Error × Body
  | [] => (none, b)
  | u :: us =>
    if b.hasUnit u.id then
      (some (.invariant (.appendedTwice u.id)), b)
    else
      append { b with
        units := b.units ++ [u]
        nextUnit := max b.nextUnit (wrapId (u.id.index + 1)) } us

def pushTrap (b : Body) (t : Trap) : Body := { b with traps := b.traps ++ [t] }

def mapStmts (b : Body) (f : Stmt → Stmt) : Body := { b with units := b.units.map (·.mapStmt f) }

@[simp] theorem ids_mapStmts (b : Body) (f : Stmt → Stmt) : (b.mapStmts f).ids = b.ids := by
  simp [ids, mapStmts]

def setStmt (b : Body) (u : UnitId) (s : Stmt) : Body :=
  { b with units := b.units.map fun v ↦ if v.id = u then { v with stmt := s } else v }

@[simp] theorem ids_setStmt (b : Body) (u : UnitId) (s : Stmt) : (b.setStmt u s).ids = b.ids := by
  simp only [ids, setStmt, List.map_map]
  refine List.map_congr_left fun v _ ↦ ?_
  by_cases h : v.id = u <;> simp [h]

def modifyAt (b : Body) (p : Nat) (f : Stmt → Stmt) : Body :=
  { b with units := b.units.modify p (·.mapStmt f) }

def setStmtAt (b : Body) (p : Nat) (s : Stmt) : Body := b.modifyAt p fun _ ↦ s

def modifyStmt (b : Body) (u : UnitId) (f : Stmt → Stmt) : Body :=
  match b.position? u with
  | some p => b.modifyAt p f
  | none => b

def rename (a z : UnitId) (u : UnitId) : UnitId := if u = a then z else u

/-- Points every jump and trap that names `a` at `z`. -/
def redirect (b : Body) (a z : UnitId) : Body :=
  { b with
    units := b.units.map (·.mapStmt (·.mapTargets (rename a z)))
    traps := b.traps.map (·.mapRefs (rename a z)) }

@[simp] theorem ids_redirect (b : Body) (a z : UnitId) : (b.redirect a z).ids = b.ids := by
  simp [ids, redirect]

def eraseAt (b : Body) (p : Nat) : Body := { b with units := b.units.eraseIdx p }

@[simp] theorem ids_eraseAt (b : Body) (p : Nat) : (b.eraseAt p).ids = b.ids.eraseIdx p := by
  simp [ids, eraseAt, List.eraseIdx_eq_take_drop_succ, List.map_take, List.map_drop]

/-- Removes the unit at a position. What referred to it refers to the unit after it. -/
def removeAt (b : Body) (p : Nat) : Body :=
  match b.units[p]?, b.units[p + 1]? with
  | some u, some next => (b.redirect u.id next.id).eraseAt p
  | _, _ => b.eraseAt p

@[simp] theorem ids_removeAt (b : Body) (p : Nat) : (b.removeAt p).ids = b.ids.eraseIdx p := by
  unfold removeAt
  split <;> simp

theorem size_removeAt {b : Body} {p : Nat} (h : p < b.size) : (b.removeAt p).size + 1 = b.size := by
  have hp : p < b.units.length := h
  unfold removeAt
  split <;> simp [size, eraseAt, redirect, List.length_eraseIdx, hp] <;> omega

/-- Removes a unit, unless it is the last one and something refers to it, and returns its
statement. What referred to the unit, the statement included, refers to the unit after it. -/
def remove (b : Body) (u : UnitId) : Except Error (Stmt × Body) :=
  match b.position? u, b.stmt? u with
  | some p, some s =>
    if b.isRemovable u then
      .ok (s.mapTargets (rename u ((b.successor? u).getD u)), b.removeAt p)
    else .error (.invariant (.removedTrailing u))
  | _, _ => .error (.invariant (.removedMissing u))

def number (start : Nat) : List Stmt → List CodeUnit
  | [] => []
  | s :: ss => ⟨⟨wrapId start⟩, s⟩ :: number (start + 1) ss

/-- Replaces a unit by statements under fresh identities. What referred to the unit, the new
statements included, refers to the first of them from then on. -/
def replace (b : Body) (u : UnitId) (stmts : List Stmt) : Except Error (List UnitId × Body) :=
  match stmts with
  | [] => .error (.invariant (.replacedByNothing u))
  | _ :: _ =>
    match b.position? u with
    | none => .error (.invariant (.replacedMissing u))
    | some p =>
      let fresh := number b.nextUnit stmts
      let grown := { b with
        units := b.units.take p ++ fresh ++ b.units.drop (p + 1)
        nextUnit := wrapId (b.nextUnit + stmts.length) }
      .ok (fresh.map (·.id), grown.redirect u (b.fresh 0))

def isEmptyTrap (b : Body) (t : Trap) : Bool :=
  match b.trapSpan? t with
  | some (first, last) => decide (last ≤ first)
  | none => false

def emptyTraps (b : Body) : List Trap := b.traps.filter b.isEmptyTrap

def dropEmptyTraps (b : Body) : Body := { b with traps := b.traps.filter (!b.isEmptyTrap ·) }

end ThreeAddress.Body
