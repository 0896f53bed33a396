import FormulaDrawing.Proofs.Template.Registry

/-! A registry as a map from identifiers to entries with the order of registration beside it. Its
operations change the two in place, step by step, so that one that fails could leave half of its work
behind. None does: each comes to what the operation on the list of entries comes to. -/

namespace FormulaDrawing

/-- The entry with the declarations of its drawing added, and what was found. -/
def Entry.extracted (s : Settings) (id : String) (x : Entry) (d : Drawing) : Entry × Extraction :=
  let found := Extraction.ofDrawing s id d
  let (known, result) := found.declarations.foldl Registry.merge (x.declarations, found)
  ({ x with declarations := known }, result)

structure Ledger where
  order : List String := []
  slots : String → Option Entry := fun _ => none

namespace Ledger

/-- What a step has changed stays changed if a later one fails. -/
abbrev Step (α : Type) := ExceptT Registry.Failure (StateM Ledger) α

def add (l : Ledger) (x : Entry) : Ledger where
  order := l.order ++ [x.template.id]
  slots := Function.update l.slots x.template.id (some x)

def put (l : Ledger) (id : String) (x : Entry) : Ledger :=
  { l with slots := Function.update l.slots id (some x) }

def drop (l : Ledger) (id : String) : Ledger where
  order := l.order.filter (· != id)
  slots := Function.update l.slots id none

def find (id : String) : Step Entry := do
  let l ← get
  match l.slots id with
  | some x => return x
  | none => throw (.notFound id)

def readDrawing (id source : String) : Step Drawing :=
  ExceptT.mk (pure (Registry.readDrawing id source))

def register (t : Template) : Step Unit := do
  let l ← get
  if (l.slots t.id).isSome then throw (.duplicate t.id) else modify (·.add { template := t })

def insertIfAbsent (d : Declaration) : Step Bool := do
  let x ← find d.template
  if d.listed x.declarations then return false
  else
    modify (·.put d.template { x with declarations := x.declarations ++ [d] })
    return true

def extract (s : Settings) (id : String) : Step Extraction := do
  let x ← find id
  let d ← readDrawing id x.template.source
  let (y, result) := x.extracted s id d
  modify (·.put id y)
  return result

/-- The template is registered already when the extraction begins. -/
def registerAndExtract (s : Settings) (t : Template) : Step Extraction := do
  let _ ← readDrawing t.id t.source
  register t
  extract s t.id

/-- The source is replaced already when the extraction begins. -/
def update (s : Settings) (id source : String) : Step Extraction := do
  let _ ← readDrawing id source
  let x ← find id
  modify (·.put id { x with template := { x.template with source } })
  extract s id

def remove (id : String) : Step (Option Template) := do
  let l ← get
  match l.slots id with
  | none => return none
  | some x =>
    modify (·.drop id)
    return some x.template

section Change

theorem slots_add (l : Ledger) (x : Entry) (k : String) :
    (l.add x).slots k = if k = x.template.id then some x else l.slots k := Function.update_apply ..

theorem slots_put (l : Ledger) (id : String) (x : Entry) (k : String) :
    (l.put id x).slots k = if k = id then some x else l.slots k := Function.update_apply ..

theorem slots_drop (l : Ledger) (id k : String) :
    (l.drop id).slots k = if k = id then none else l.slots k := Function.update_apply ..

theorem put_add {x y : Entry} (l : Ledger) (h : y.template = x.template) :
    (l.add x).put x.template.id y = l.add y := by
  rw [put, add, add, Function.update_idem, h]

theorem put_put (l : Ledger) (id : String) (x y : Entry) : (l.put id x).put id y = l.put id y := by
  rw [put, put, put, Function.update_idem]

end Change

section Run

theorem run_get (l : Ledger) : (get : Step Ledger).run.run l = (.ok l, l) := rfl

theorem run_modify (f : Ledger → Ledger) (l : Ledger) :
    (modify f : Step PUnit).run.run l = (.ok (), f l) := rfl

theorem run_find (l : Ledger) (id : String) : (find id).run.run l =
    match l.slots id with
    | some x => (.ok x, l)
    | none => (.error (.notFound id), l) := by
  rw [find, run_bind, run_get]
  dsimp only
  cases l.slots id <;> rfl

theorem run_readDrawing (l : Ledger) (id source : String) :
    (readDrawing id source).run.run l = (Registry.readDrawing id source, l) := rfl

theorem run_register (l : Ledger) (t : Template) : (register t).run.run l =
    if (l.slots t.id).isSome then (.error (.duplicate t.id), l)
    else (.ok (), l.add { template := t }) := by
  rw [register, run_bind, run_get]
  dsimp only
  split <;> rfl

theorem run_insertIfAbsent (l : Ledger) (d : Declaration) : (insertIfAbsent d).run.run l =
    match l.slots d.template with
    | some x =>
      if d.listed x.declarations then (.ok false, l)
      else (.ok true, l.put d.template { x with declarations := x.declarations ++ [d] })
    | none => (.error (.notFound d.template), l) := by
  rw [insertIfAbsent, run_bind, run_find]
  cases l.slots d.template with
  | none => rfl
  | some x =>
    dsimp only
    split <;> rfl

theorem run_extract (l : Ledger) (s : Settings) (id : String) : (extract s id).run.run l =
    match l.slots id with
    | some x =>
      match Registry.readDrawing id x.template.source with
      | .ok d => (.ok (x.extracted s id d).2, l.put id (x.extracted s id d).1)
      | .error c => (.error c, l)
    | none => (.error (.notFound id), l) := by
  rw [extract, run_bind, run_find]
  cases l.slots id with
  | none => rfl
  | some x =>
    dsimp only
    rw [run_bind, run_readDrawing]
    cases Registry.readDrawing id x.template.source <;> rfl

theorem run_registerAndExtract (l : Ledger) (s : Settings) (t : Template) :
    (registerAndExtract s t).run.run l =
      match Registry.readDrawing t.id t.source with
      | .ok d =>
        if (l.slots t.id).isSome then (.error (.duplicate t.id), l)
        else
          let (y, result) := Entry.extracted s t.id { template := t } d
          (.ok result, l.add y)
      | .error c => (.error c, l) := by
  rw [registerAndExtract, run_bind, run_readDrawing]
  cases hd : Registry.readDrawing t.id t.source with
  | error c => rfl
  | ok d =>
    dsimp only
    rw [run_bind, run_register]
    by_cases hold : (l.slots t.id).isSome = true
    · rw [if_pos hold, if_pos hold]
    · rw [if_neg hold, if_neg hold]
      dsimp only
      -- the entry is there now, with the source that could be read
      rw [run_extract, slots_add, if_pos rfl]
      dsimp only
      rw [hd]
      exact congrArg (Prod.mk _) (put_add l rfl)

theorem run_update (l : Ledger) (s : Settings) (id source : String) :
    (update s id source).run.run l =
      match Registry.readDrawing id source with
      | .ok d =>
        match l.slots id with
        | some x =>
          let (y, result) :=
            Entry.extracted s id { x with template := { x.template with source } } d
          (.ok result, l.put id y)
        | none => (.error (.notFound id), l)
      | .error c => (.error c, l) := by
  rw [update, run_bind, run_readDrawing]
  cases hd : Registry.readDrawing id source with
  | error c => rfl
  | ok d =>
    dsimp only
    rw [run_bind, run_find]
    cases l.slots id with
    | none => rfl
    | some x =>
      dsimp only
      rw [run_bind, run_modify]
      dsimp only
      rw [run_extract, slots_put, if_pos rfl]
      dsimp only
      rw [hd]
      exact congrArg (Prod.mk _) (put_put ..)

theorem run_remove (l : Ledger) (id : String) : (remove id).run.run l =
    match l.slots id with
    | some x => (.ok (some x.template), l.drop id)
    | none => (.ok none, l) := by
  rw [remove, run_bind, run_get]
  dsimp only
  cases l.slots id <;> rfl

end Run

end Ledger

namespace Registry

variable {r r₁ : Registry} {x : Entry} {id : String}

/-- The registry as a map with an order. -/
def ledger (r : Registry) : Ledger := { order := r.ids, slots := r.entry? }

/-- What an operation with this result comes to in place. -/
def settle {α : Type} (r : Registry) :
    Except Failure (Registry × α) → Except Failure α × Ledger
  | .ok (next, a) => (.ok a, next.ledger)
  | .error c => (.error c, r.ledger)

theorem settle_of_ok {α : Type} {result : Except Failure (Registry × α)} (h : ∃ p, result = .ok p) :
    r₁.settle result = r.settle result := by
  obtain ⟨p, rfl⟩ := h
  rfl

section Change

theorem ledger_slots (r : Registry) (id : String) : r.ledger.slots id = r.entry? id := rfl

theorem ledger_modify {f : Entry → Entry} (hf : ∀ x, (f x).template.id = x.template.id)
    (hx : r.entry? id = some x) : (r.modify id f).ledger = r.ledger.put id (f x) := by
  rw [ledger, Ledger.put, ids_modify hf, ledger, Ledger.mk.injEq]
  refine ⟨rfl, funext fun k => ?_⟩
  rw [Function.update_apply, entry?_modify hf]
  split
  next h => rw [h, hx, Option.map_some]
  next => rfl

theorem ledger_append (hx : r.entry? x.template.id = none) :
    ledger { entries := r.entries ++ [x] } = r.ledger.add x := by
  rw [ledger, Ledger.add, ledger, Ledger.mk.injEq]
  refine ⟨by rw [ids, ids, List.map_append, List.map_singleton], funext fun k => ?_⟩
  unfold entry? at hx ⊢
  rw [List.find?_append, Function.update_apply]
  split
  next h => simp [h, hx]
  next h => simp [Ne.symm h]

theorem ledger_remove (r : Registry) (id : String) : (r.remove id).ledger = r.ledger.drop id := by
  rw [ledger, Ledger.drop, ledger, Ledger.mk.injEq]
  refine ⟨by rw [ids, ids, remove, List.filter_map]; rfl, funext fun k => ?_⟩
  unfold remove entry?
  rw [List.find?_filter, Function.update_apply]
  split
  next h => simp [h]
  next h =>
    congr 1
    funext y
    by_cases hy : y.template.id = k <;> simp [hy, h]

theorem remove_eq_self (h : r.entry? id = none) : r.remove id = r := by
  unfold entry? at h
  rw [remove, Registry.mk.injEq]
  refine List.filter_eq_self.2 fun x hx => ?_
  simpa using List.find?_eq_none.1 h x hx

end Change

section InPlace

theorem run_register (r : Registry) (t : Template) : (Ledger.register t).run.run r.ledger =
    r.settle ((r.register t).map (·, ())) := by
  rw [Ledger.run_register, register, contains, ledger_slots]
  split
  next => rfl
  next hnew =>
    rw [← ledger_append (by simpa using hnew)]
    rfl

theorem run_insertIfAbsent (r : Registry) (d : Declaration) :
    (Ledger.insertIfAbsent d).run.run r.ledger = r.settle (r.insertIfAbsent d) := by
  rw [Ledger.run_insertIfAbsent, insertIfAbsent, find, ledger_slots]
  cases hx : r.entry? d.template with
  | none => rfl
  | some x =>
    dsimp only [bind, Except.bind]
    split
    · rfl
    · exact congrArg (Prod.mk _) (ledger_modify
        (f := fun e => { e with declarations := e.declarations ++ [d] }) (fun _ => rfl) hx).symm

theorem run_extract (r : Registry) (s : Settings) (id : String) :
    (Ledger.extract s id).run.run r.ledger = r.settle (r.extract s id) := by
  rw [Ledger.run_extract, extract, find, ledger_slots]
  cases hx : r.entry? id with
  | none => rfl
  | some x =>
    dsimp only [bind, Except.bind]
    cases readDrawing id x.template.source with
    | error c => rfl
    | ok d => exact congrArg (Prod.mk _) (ledger_modify
        (f := fun e => { e with declarations := (x.extracted s id d).1.declarations })
        (fun _ => rfl) hx).symm

theorem run_registerAndExtract (r : Registry) (s : Settings) (t : Template) :
    (Ledger.registerAndExtract s t).run.run r.ledger = r.settle (r.registerAndExtract s t) := by
  rw [Ledger.registerAndExtract, run_bind, Ledger.run_readDrawing, registerAndExtract]
  cases hd : readDrawing t.id t.source with
  | error c => rfl
  | ok d =>
    dsimp only
    rw [run_bind, run_register]
    change _ = r.settle (r.register t >>= fun r => r.extract s t.id)
    cases hr : r.register t with
    | error c => rfl
    | ok r₁ =>
      have hok := exists_extract (find_register hr) (mapError_eq_ok_iff.1 hd) s
      exact (run_extract r₁ s t.id).trans (settle_of_ok hok)

theorem run_update (r : Registry) (s : Settings) (id source : String) :
    (Ledger.update s id source).run.run r.ledger = r.settle (r.update s id source) := by
  rw [Ledger.update, run_bind, Ledger.run_readDrawing, update]
  cases hd : readDrawing id source with
  | error c => rfl
  | ok d =>
    dsimp only
    rw [run_bind, Ledger.run_find, ledger_slots]
    let f : Entry → Entry := fun e => { e with template := { e.template with source } }
    change _ = r.settle (r.find id >>= fun _ => (r.modify id f).extract s id)
    cases hx : r.entry? id with
    | none =>
      rw [find, hx]
      rfl
    | some x =>
      have hfind : r.find id = .ok x := by rw [find, hx]
      have hok := exists_extract (find_modify (f := f) (fun _ => rfl) hfind)
        (mapError_eq_ok_iff.1 hd) s
      rw [hfind]
      dsimp only
      rw [run_bind, Ledger.run_modify, ← ledger_modify (f := f) (fun _ => rfl) hx]
      exact (run_extract _ s id).trans (settle_of_ok hok)

theorem run_remove (r : Registry) (id : String) : (Ledger.remove id).run.run r.ledger =
    r.settle (.ok (r.remove id, r.get? id)) := by
  rw [Ledger.run_remove, ledger_slots, get?]
  cases hx : r.entry? id with
  | none =>
    rw [remove_eq_self hx]
    rfl
  | some x => exact congrArg (Prod.mk _) (ledger_remove r id).symm

end InPlace

end Registry

end FormulaDrawing
