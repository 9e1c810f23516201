import AgentOps.Service.Memory

/-!
# The owner map

`harnessapi/owner.go`: each function runs under `Service.mu`, so each is one step. The owner
of thread `t` has number `t`; the functions also keep its history.
-/

namespace AgentOps.Service

namespace Slot

def setOwner (s : Slot) (t : ℕ) (f : Owner → Owner) : Slot :=
  { s with owners := Function.update s.owners t (f (s.owners t)) }

def note (s : Slot) (t : ℕ) (f : History → History) : Slot :=
  { s with hist := Function.update s.hist t (f (s.hist t)) }

/-- `claim` with a new owner. -/
def claim (s : Slot) (t : ℕ) (cancel : Bool) : Bool × Slot :=
  let s := s.setOwner t fun _ => { cancel }
  match s.entry with
  | some _ => (false, s)
  | none => (true, ({ s with entry := some t }).note t fun h => { h with taken := true })

/-- `lookup`: the live binding. -/
def lookup (s : Slot) : Option ℕ := s.entry.filter fun o => (s.owners o).live

/-- `register` of the binding that thread `t` made. -/
def register (s : Slot) (t : ℕ) : Bool × Slot :=
  if s.entry ≠ some t ∨ (s.owners t).stop.isSome then (false, s)
  else (true, (s.setOwner t fun o => { o with live := true }).note t fun h =>
    { h with taken := false })

/-- `stopped`. -/
def stopped (s : Slot) (t : ℕ) : Bool := (s.owners t).stop.isSome

/-- `takeStop`. -/
def takeStop (s : Slot) (t : ℕ) : Option StopSpec × Slot :=
  match (s.owners t).stop with
  | none => (none, s)
  | some spec => (some spec, (s.setOwner t fun o => { o with stop := none }).note t fun h =>
      { h with served := h.served ++ [spec] })

/-- `finish`. -/
def finish (s : Slot) (t : ℕ) : Option StopSpec × Slot :=
  match (s.owners t).stop with
  | some spec => (some spec, (s.setOwner t fun o => { o with stop := none }).note t fun h =>
      { h with inHand := some spec })
  | none =>
    let s := if s.entry = some t then { s with entry := none } else s
    (none, (s.setOwner t fun o => { o with settled := false }).note t fun h =>
      { h with taken := false, closed := h.closed || (s.owners t).settled })

/-- `settle` has run the stop that `finish` returned. -/
def ran (s : Slot) (t : ℕ) : Slot :=
  s.note t fun h => { h with served := h.served ++ h.inHand.toList, inHand := none }

/-- `detach` of an owner that is not live: an end is stored on it, unless one is stored
already. A launch is left to deal with it; the end of another owner can be awaited. -/
def detachOwned (s : Slot) (o : ℕ) (spec : StopSpec) : Detached × Slot :=
  let s :=
    if spec.suspend = .unspecified ∧ (s.owners o).stop = none then
      (s.setOwner o fun own => { own with stop := some spec }).note o fun h =>
        { h with stored := h.stored ++ [spec] }
    else s
  if spec.suspend ≠ .unspecified ∨ (s.owners o).cancel then (.nothing, s)
  else (.waits o, (s.setOwner o fun own => { own with settled := true }).note o fun h =>
    { h with handed := true })

/-- The entry becomes a new owner of thread `t`. -/
def hold (s : Slot) (t : ℕ) (victim : Option ℕ) : Slot :=
  ({ s with entry := some t }.setOwner t fun _ => {}).note t fun h =>
    { h with taken := true, victim }

end Slot

/-- `detach`. -/
def Mem.detach (m : Mem) (t : ℕ) (want : Option ℕ) (spec : StopSpec) : Detached × Mem :=
  if want.isSome ∧ m.slot.entry ≠ want then (.nothing, m)
  else match m.slot.entry with
    | none => (.held none, { m with slot := m.slot.hold t none })
    | some o =>
      if (m.slot.owners o).live then
        match (m.binds o).close spec.ifIdleFor m.now with
        | none => (.nothing, m)
        | some b => (.held (some o),
            { m with slot := m.slot.hold t (some o), binds := Function.update m.binds o b })
      else
        let r := m.slot.detachOwned o spec
        (r.1, { m with slot := r.2 })

end AgentOps.Service
