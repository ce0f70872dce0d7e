import Pinion64.Scheduler

/-! Interrupt routes: interrupt_vector.c and the vector page handlers of init.c. -/
namespace Pinion64

def vectorPage (vec : BitVec 16) : ℕ := (vec >>> 7).toNat

def vectorSlot (vec : BitVec 16) : BitVec 7 := vec.setWidth 7

/-- The route of a vector, if its page is installed. -/
def Kernel.routeOf (k : Kernel) (vec : BitVec 16) : Option (Fin 4 → Ptr) :=
  (k.vectorPageTable (vectorPage vec)).route.map fun r => r (vectorSlot vec)

def Kernel.setRoute (k : Kernel) (vec : BitVec 16) (i : Fin 4) (tcb : Ptr) : Kernel :=
  { k with
    vectorPageTable := Function.update k.vectorPageTable (vectorPage vec)
      { k.vectorPageTable (vectorPage vec) with
        route := (k.vectorPageTable (vectorPage vec)).route.map fun r =>
          Function.update r (vectorSlot vec) (Function.update (r (vectorSlot vec)) i tcb) } }

theorem Kernel.setRoute_routeOf (k : Kernel) (vec v : BitVec 16) (i : Fin 4) (t : Ptr) :
    (k.setRoute vec i t).routeOf v =
      if vectorPage v = vectorPage vec ∧ vectorSlot v = vectorSlot vec then
        (k.routeOf v).map fun r => Function.update r i t
      else k.routeOf v := by
  unfold Kernel.routeOf Kernel.setRoute
  by_cases hp : vectorPage v = vectorPage vec
  · simp only [hp, Function.update_self, true_and]
    cases (k.vectorPageTable (vectorPage vec)).route with
    | none => split_ifs <;> rfl
    | some r =>
      by_cases hs : vectorSlot v = vectorSlot vec <;> simp [hs]
  · rw [if_neg (fun hc => hp hc.1)]
    simp only [Function.update_of_ne hp]

def interruptAddVectorPage (S : PageSource) (k : Kernel) (vecBase : BitVec 16)
    (vtable : Vtable) : Kernel :=
  let (page, p) := pgeAlloc S k.paging
  { k with
    paging := p
    vectorPageTable := Function.update k.vectorPageTable (vectorPage vecBase)
      ⟨if page = 0 then none else some fun _ _ => 0, some vtable⟩ }

/-- A full route leaves only a message in the log. -/
def interruptAddRoute (k : Kernel) (tcb : Ptr) (vec : BitVec 16) : Kernel :=
  match k.routeOf vec with
  | none => k
  | some route =>
    match slots.find? fun i => route i = 0 with
    | some i => k.setRoute vec i tcb
    | none => k

def interruptRemoveRoute (k : Kernel) (tcb : Ptr) (vec : BitVec 16) : Kernel :=
  match k.routeOf vec with
  | none => k
  | some route =>
    match slots.find? fun i => route i = tcb with
    | some i => k.setRoute vec i 0
    | none => k

/-- The body of the loop of interrupt_vector_fire for one tap of the route. -/
def notifyTap (vec : BitVec 16) (k : Kernel) (tcb : Ptr) : Kernel :=
  if tcb = 0 then k
  else
    match (k.tcb tcb).tapOf vec with
    | none => k
    | some j =>
      let k := k.updTcb tcb fun t => t.fireTap j
      if (k.tcb tcb).state = tcbStateWaiting then
        let k := schedulerAddTcb k tcb
        let k := k.setState tcb tcbStateQueued
        k.setRax tcb (vec.setWidth 64)
      else if (k.tcb tcb).state = tcbStateSuspendedWaiting then
        let k := k.setState tcb tcbStateSuspended
        k.setRax tcb (vec.setWidth 64)
      else k

/-- irq_on_fire only writes to the log. -/
def irqOnFire (k : Kernel) (_vec : BitVec 16) : Kernel := k

def OnFire.run : OnFire → Kernel → BitVec 16 → Kernel
  | .irq => irqOnFire

def interruptVectorFire (k : Kernel) (vec : BitVec 16) : Kernel :=
  let page := k.vectorPageTable (vectorPage vec)
  match page.route with
  | none => k
  | some route =>
    let k :=
      match page.vtable.bind Vtable.onFire with
      | some h => h.run k vec
      | none => k
    slots.foldl (fun k i => notifyTap vec k (route (vectorSlot vec) i)) k

/-- irq_on_reset only writes to the log. -/
def irqOnReset (k : Kernel) (_vec : BitVec 16) : Kernel := k

def pinionOnReset (k : Kernel) (vec : BitVec 16) : Kernel :=
  if vec &&& 0x7F = 0 then
    if hasPagefault k then interruptVectorFire k vec else k
  else if vec &&& 0x7F = 1 then
    if hasMiscfault k then interruptVectorFire k vec else k
  else if vec &&& 0x7F = 2 then
    if hasZombie k then interruptVectorFire k vec else k
  else k

def OnReset.run : OnReset → Kernel → BitVec 16 → Kernel
  | .irq => irqOnReset
  | .pinion => pinionOnReset

def interruptVectorReset (k : Kernel) (vec : BitVec 16) : Kernel :=
  let page := k.vectorPageTable (vectorPage vec)
  match page.route with
  | none => k
  | some _ =>
    match page.vtable.bind Vtable.onReset with
    | some h => h.run k vec
    | none => k

end Pinion64
