import FormulaDrawing.Proofs.Template.Ledger

/-! Registries with a history. Whatever was done to a registry, its order lists the identifiers of its
map, and each template has declarations of its own, no two of which have the same key. They stay as long
as the template does. -/

namespace FormulaDrawing

/-- The entry of an identifier. -/
structure Entry.Orderly (id : String) (x : Entry) : Prop where
  id_eq : x.template.id = id
  own : ∀ d ∈ x.declarations, d.template = id
  distinct : (x.declarations.map (·.key)).Nodup

/-- No declaration is lost or changed, and nothing is brought into disorder. -/
structure Entry.Leads (id : String) (x y : Entry) : Prop where
  declarations : x.declarations <+: y.declarations
  orderly : x.Orderly id → y.Orderly id

namespace Entry

variable {id : String} {x y z : Entry} {d : Declaration} {ds : List Declaration}

theorem Leads.trans (h : x.Leads id y) (h' : y.Leads id z) : x.Leads id z :=
  ⟨h.declarations.trans h'.declarations, h'.orderly ∘ h.orderly⟩

theorem orderly_new {t : Template} : Orderly t.id { template := t } :=
  ⟨rfl, nofun, List.nodup_nil⟩

theorem Orderly.push (h : x.Orderly id) (hd : d.template = id)
    (hnew : ¬ d.listed x.declarations = true) :
    Orderly id { x with declarations := x.declarations ++ [d] } where
  id_eq := h.id_eq
  own := by
    intro e he
    rcases List.mem_append.1 he with he | he
    · exact h.own e he
    · rw [List.mem_singleton.1 he, hd]
  distinct := by
    rw [List.map_append, List.map_singleton, List.nodup_append']
    refine ⟨h.distinct, List.nodup_singleton _, List.disjoint_singleton.2 fun hkey => hnew ?_⟩
    exact Declaration.listed_iff.2 (List.mem_map.1 hkey)

theorem Orderly.merge (hds : ∀ d ∈ ds, d.template = id) (h : x.Orderly id) (found : Extraction) :
    Orderly id { x with declarations := (ds.foldl Registry.merge (x.declarations, found)).1 } := by
  induction ds generalizing x found with
  | nil => exact h
  | cons d ds ih =>
    obtain ⟨hd, hds⟩ := List.forall_mem_cons.1 hds
    rw [List.foldl_cons, Registry.merge]
    split
    next => exact ih hds h _
    next hnew => exact ih hds (h.push hd hnew) _

theorem leads_extracted (s : Settings) (id : String) (x : Entry) (d : Drawing) :
    x.Leads id (x.extracted s id d).1 where
  declarations := (Registry.foldl_merge_spec (Extraction.ofDrawing s id d).declarations
    (x.declarations, Extraction.ofDrawing s id d)).1
  orderly := fun h => h.merge (fun _ => Extraction.template_of_mem_ofDrawing) _

theorem leads_source (id source : String) (x : Entry) :
    x.Leads id { x with template := { x.template with source } } :=
  ⟨List.prefix_rfl, fun h => ⟨h.id_eq, h.own, h.distinct⟩⟩

theorem leads_push (hd : d.template = id) (hnew : ¬ d.listed x.declarations = true) :
    x.Leads id { x with declarations := x.declarations ++ [d] } :=
  ⟨List.prefix_append .., fun h => h.push hd hnew⟩

end Entry

namespace Registry

inductive Operation where
  | register (t : Template)
  | registerAndExtract (s : Settings) (t : Template)
  | update (s : Settings) (id source : String)
  | extract (s : Settings) (id : String)
  | insertIfAbsent (d : Declaration)
  | remove (id : String)

def Operation.id : Operation → String
  | register t => t.id
  | registerAndExtract _ t => t.id
  | update _ id _ => id
  | extract _ id => id
  | insertIfAbsent d => d.template
  | remove id => id

/-- What an operation returns. -/
inductive Answer where
  | registered
  | extracted (x : Extraction)
  | inserted (b : Bool)
  | removed (t : Option Template)
deriving DecidableEq

def perform (r : Registry) : Operation → Except Failure (Registry × Answer)
  | .register t => (r.register t).map (·, .registered)
  | .registerAndExtract s t => (r.registerAndExtract s t).map fun (r, x) => (r, .extracted x)
  | .update s id source => (r.update s id source).map fun (r, x) => (r, .extracted x)
  | .extract s id => (r.extract s id).map fun (r, x) => (r, .extracted x)
  | .insertIfAbsent d => (r.insertIfAbsent d).map fun (r, b) => (r, .inserted b)
  | .remove id => .ok (r.remove id, .removed (r.get? id))

/-- A failure leaves the registry as it was. -/
def after (r : Registry) (op : Operation) : Registry :=
  match r.perform op with
  | .ok (next, _) => next
  | .error _ => r

end Registry

namespace Ledger

open Registry (Operation Answer)

def perform : Operation → Step Answer
  | .register t => (fun _ => .registered) <$> register t
  | .registerAndExtract s t => .extracted <$> registerAndExtract s t
  | .update s id source => .extracted <$> update s id source
  | .extract s id => .extracted <$> extract s id
  | .insertIfAbsent d => .inserted <$> insertIfAbsent d
  | .remove id => .removed <$> remove id

/-- What the operation leaves behind, also where it fails. -/
def after (l : Ledger) (op : Operation) : Ledger := ((perform op).run.run l).2

variable {l l' : Ledger} {r : Registry} {op : Operation}

section Same

theorem run_map_settle {α : Type} {step : Step α} {result : Except Registry.Failure (Registry × α)}
    (f : α → Answer) (h : step.run.run r.ledger = r.settle result) :
    (f <$> step).run.run r.ledger = r.settle (result.map fun (r, a) => (r, f a)) := by
  rw [map_eq_pure_bind, run_bind, h]
  cases result <;> rfl

theorem run_perform (r : Registry) (op : Operation) :
    (perform op).run.run r.ledger = r.settle (r.perform op) := by
  cases op with
  | register t =>
    have h := run_map_settle (fun _ => .registered) (r.run_register t)
    rw [perform, h, Registry.perform]
    cases r.register t <;> rfl
  | registerAndExtract s t => exact run_map_settle .extracted (r.run_registerAndExtract s t)
  | update s id source => exact run_map_settle .extracted (r.run_update s id source)
  | extract s id => exact run_map_settle .extracted (r.run_extract s id)
  | insertIfAbsent d => exact run_map_settle .inserted (r.run_insertIfAbsent d)
  | remove id => exact run_map_settle .removed (r.run_remove id)

theorem after_ledger (r : Registry) (op : Operation) : r.ledger.after op = (r.after op).ledger := by
  rw [after, run_perform, Registry.after]
  cases r.perform op <;> rfl

theorem foldl_after_ledger (ops : List Operation) (r : Registry) :
    ops.foldl after r.ledger = (ops.foldl Registry.after r).ledger := by
  induction ops generalizing r with
  | nil => rfl
  | cons op ops ih => rw [List.foldl_cons, List.foldl_cons, after_ledger, ih]

end Same

section Moves

/-- What an operation that comes through can do. -/
inductive Moves (l : Ledger) (op : Operation) : Ledger → Prop
  | same : l.Moves op l
  | added {x : Entry} (hnew : l.slots op.id = none) (hx : x.Orderly op.id) : l.Moves op (l.add x)
  | changed {x y : Entry} (hx : l.slots op.id = some x) (hy : x.Leads op.id y) :
    l.Moves op (l.put op.id y)
  | dropped (hop : op = .remove op.id) : l.Moves op (l.drop op.id)

/-- Either the operation comes through or nothing has changed. -/
def Settles {α : Type} (l : Ledger) (op : Operation) : Except Registry.Failure α × Ledger → Prop
  | (.ok _, l') => l.Moves op l'
  | (.error _, l') => l' = l

theorem Settles.map {α : Type} {step : Step α} (h : l.Settles op (step.run.run l)) (f : α → Answer) :
    l.Settles op ((f <$> step).run.run l) := by
  rw [map_eq_pure_bind, run_bind]
  generalize step.run.run l = p at h ⊢
  obtain ⟨result, l'⟩ := p
  cases result <;> exact h

theorem settles_perform (l : Ledger) (op : Operation) : l.Settles op ((perform op).run.run l) := by
  cases op with
  | register t =>
    refine Settles.map ?_ _
    rw [run_register]
    split
    next => rfl
    next hnew => exact .added (Option.not_isSome_iff_eq_none.1 hnew) Entry.orderly_new
  | registerAndExtract s t =>
    -- In one step the template is added together with what is found in it, so that `added` is enough.
    refine Settles.map ?_ _
    rw [run_registerAndExtract]
    split
    next d _ =>
      split
      next => rfl
      next hnew =>
        exact .added (Option.not_isSome_iff_eq_none.1 hnew)
          ((Entry.leads_extracted s t.id _ d).orderly Entry.orderly_new)
    next => rfl
  | update s id source =>
    refine Settles.map ?_ _
    rw [run_update]
    split
    next d _ =>
      split
      next x hx =>
        exact .changed hx ((Entry.leads_source id source x).trans (Entry.leads_extracted s id _ d))
      next => rfl
    next => rfl
  | extract s id =>
    refine Settles.map ?_ _
    rw [run_extract]
    split
    next x hx =>
      split
      next d _ => exact .changed hx (Entry.leads_extracted s id x d)
      next => rfl
    next => rfl
  | insertIfAbsent d =>
    refine Settles.map ?_ _
    rw [run_insertIfAbsent]
    split
    next x hx =>
      split
      next => exact .same
      next hnew => exact .changed hx (Entry.leads_push rfl hnew)
    next => rfl
  | remove id =>
    refine Settles.map ?_ _
    rw [run_remove]
    split
    next => exact .dropped rfl
    next => exact .same

theorem moves_after (l : Ledger) (op : Operation) : l.Moves op (l.after op) := by
  have h := settles_perform l op
  unfold after
  generalize (perform op).run.run l = p at h ⊢
  obtain ⟨result, l'⟩ := p
  cases result with
  | ok a => exact h
  | error c =>
    obtain rfl : l' = l := h
    exact .same

theorem eq_of_run_error {c : Registry.Failure} (h : (perform op).run.run l = (.error c, l')) :
    l' = l := by
  have hsettles := settles_perform l op
  rw [h] at hsettles
  exact hsettles

theorem Moves.slots_of_ne {id : String} (h : l.Moves op l') (hid : id ≠ op.id) :
    l'.slots id = l.slots id := by
  cases h with
  | same => rfl
  | added hnew hx => rw [slots_add, hx.id_eq, if_neg hid]
  | changed hx hy => rw [slots_put, if_neg hid]
  | dropped hop => rw [slots_drop, if_neg hid]

theorem Moves.order_of_ne (h : l.Moves op l') :
    l'.order.filter (· != op.id) = l.order.filter (· != op.id) := by
  cases h with
  | same => rfl
  | added hnew hx => simp [add, hx.id_eq]
  | changed hx hy => rfl
  | dropped hop => simp [drop]

end Moves

section Orderly

structure Orderly (l : Ledger) : Prop where
  nodup : l.order.Nodup
  mem_order : ∀ id, id ∈ l.order ↔ (l.slots id).isSome = true
  entries : ∀ id x, l.slots id = some x → x.Orderly id

theorem Orderly.add {x : Entry} {id : String} (h : l.Orderly) (hnew : l.slots id = none)
    (hx : x.Orderly id) : (l.add x).Orderly := by
  obtain rfl := hx.id_eq
  refine ⟨?_, fun k => ?_, fun k y hy => ?_⟩
  · have hnot : x.template.id ∉ l.order := by simp [h.mem_order, hnew]
    rw [Ledger.add, List.nodup_append']
    exact ⟨h.nodup, List.nodup_singleton _, List.disjoint_singleton.2 hnot⟩
  · rw [slots_add, Ledger.add, List.mem_append, List.mem_singleton, h.mem_order]
    split
    next hk => simp [hk]
    next hk => simp [hk]
  · rw [slots_add] at hy
    split at hy
    next hk =>
      cases hy
      exact hk ▸ hx
    next => exact h.entries k y hy

theorem Orderly.put {x y : Entry} {id : String} (h : l.Orderly) (hx : l.slots id = some x)
    (hy : x.Leads id y) : (l.put id y).Orderly := by
  refine ⟨h.nodup, fun k => ?_, fun k z hz => ?_⟩
  · rw [slots_put, Ledger.put, h.mem_order]
    split
    next hk => simp [hk, hx]
    next => rfl
  · rw [slots_put] at hz
    split at hz
    next hk =>
      cases hz
      exact hk ▸ hy.orderly (h.entries id x hx)
    next => exact h.entries k z hz

theorem Orderly.drop (h : l.Orderly) (id : String) : (l.drop id).Orderly := by
  refine ⟨h.nodup.filter _, fun k => ?_, fun k y hy => ?_⟩
  · rw [slots_drop, Ledger.drop, List.mem_filter, h.mem_order]
    split
    next hk => simp [hk]
    next hk => simp [hk]
  · rw [slots_drop] at hy
    split at hy
    next => cases hy
    next => exact h.entries k y hy

theorem Orderly.moves (h : l.Orderly) (hmoves : l.Moves op l') : l'.Orderly := by
  cases hmoves with
  | same => exact h
  | added hnew hx => exact h.add hnew hx
  | changed hx hy => exact h.put hx hy
  | dropped hop => exact h.drop op.id

theorem Orderly.foldl_after (h : l.Orderly) (ops : List Operation) :
    (ops.foldl after l).Orderly := by
  induction ops generalizing l with
  | nil => exact h
  | cons op ops ih => exact ih (h.moves (l.moves_after op))

end Orderly

section Declares

variable {id : String} {d : Declaration}

/-- The declaration is in the entry of the identifier. -/
def Declares (l : Ledger) (id : String) (d : Declaration) : Prop :=
  ∃ x, l.slots id = some x ∧ d ∈ x.declarations

theorem Moves.declares (hmoves : l.Moves op l') (h : l.Declares id d) (hop : op ≠ .remove id) :
    l'.Declares id d := by
  by_cases hid : id = op.id
  · obtain ⟨x, hx, hd⟩ := h
    subst hid
    cases hmoves with
    | same => exact ⟨x, hx, hd⟩
    | added hnew _ =>
      rw [hnew] at hx
      cases hx
    | changed hy hlead =>
      obtain rfl := Option.some.inj (hy.symm.trans hx)
      exact ⟨_, by rw [slots_put, if_pos rfl], hlead.declarations.subset hd⟩
    | dropped heq => exact absurd heq hop
  · rw [Declares, hmoves.slots_of_ne hid]
    exact h

theorem declares_foldl_after {ops : List Operation} (h : l.Declares id d) (hops : .remove id ∉ ops) :
    (ops.foldl after l).Declares id d := by
  induction ops generalizing l with
  | nil => exact h
  | cons op ops ih =>
    obtain ⟨hop, hops⟩ := List.ne_and_not_mem_of_not_mem_cons hops
    exact ih ((l.moves_after op).declares h hop.symm) hops

theorem Orderly.eq_of_key_eq {d' : Declaration} (h : l.Orderly) (hd : l.Declares id d)
    (hd' : l.Declares id d') (hkey : d'.key = d.key) : d' = d := by
  obtain ⟨x, hx, hd⟩ := hd
  obtain ⟨y, hy, hd'⟩ := hd'
  obtain rfl := Option.some.inj (hx.symm.trans hy)
  exact List.inj_on_of_nodup_map (h.entries id x hx).distinct hd' hd hkey

end Declares

/-- After any operations on an empty registry. In place they leave behind what they come to on the list of
entries, and there it is in order. One more operation changes nothing where it fails, and if it does not
then only under its own identifier. A declaration is the only one with its key until its template is
removed. -/
theorem orderly_of_history (ops : List Operation) :
    let l := ops.foldl after {}
    let r := ops.foldl Registry.after {}
    l = r.ledger ∧ l.Orderly ∧ (∀ op, (perform op).run.run l = r.settle (r.perform op)) ∧
      (∀ op c l', (perform op).run.run l = (.error c, l') → l' = l) ∧
      (∀ op, (∀ id, id ≠ op.id → (l.after op).slots id = l.slots id) ∧
        (l.after op).order.filter (· != op.id) = l.order.filter (· != op.id)) ∧
      ∀ (more : List Operation) (id : String) (d : Declaration), l.Declares id d → .remove id ∉ more →
        (more.foldl after l).Declares id d ∧
          ∀ d', (more.foldl after l).Declares id d' → d'.key = d.key → d' = d := by
  intro l r
  have hr : l = r.ledger := foldl_after_ledger ops {}
  have hl : l.Orderly :=
    Orderly.foldl_after (l := {}) ⟨List.nodup_nil, fun _ => by simp, nofun⟩ ops
  refine ⟨hr, hl, fun op => hr ▸ run_perform r op, fun _ _ _ => eq_of_run_error,
    fun op => ⟨fun _ => (l.moves_after op).slots_of_ne, (l.moves_after op).order_of_ne⟩, ?_⟩
  intro more id d hd hmore
  have hlater := declares_foldl_after hd hmore
  exact ⟨hlater, fun d' hd' hkey => (hl.foldl_after more).eq_of_key_eq hlater hd' hkey⟩

/-- The element is red where it is declared and blue in a later source. It stays red through other
templates that come, fail and go, and a template that is there is not registered again. -/
theorem orderly_of_history_recoloured :
    ∃ (ops more : List Operation) (d : Declaration) (op : Operation) (c : Registry.Failure),
      d.key = ("x", "a", "t") ∧ d.style.fill = "red" ∧ (ops.foldl after {}).Declares "t" d ∧
      .remove "t" ∉ more ∧ (more.foldl after (ops.foldl after {})).order = ["t", "v"] ∧
      (more.foldl after (ops.foldl after {})).Declares "t" d ∧
      (∀ d', (more.foldl after (ops.foldl after {})).Declares "t" d' → d'.key = d.key → d' = d) ∧
      (perform op).run.run (ops.foldl after {}) = (.error c, ops.foldl after {}) := by
  let blue := "<svg><text class=\"formula\" id=\"a\" fill=\"blue\">x</text></svg>"
  let d : Declaration := { name := "x", id := "a", template := "t", style := { fill := "red" } }
  let ops : List Operation :=
    [.register { id := "t", name := "t", source := "<svg/>" }, .insertIfAbsent d]
  let more : List Operation :=
    [.registerAndExtract {} { id := "u", name := "u", source := "<svg>" }, .update {} "t" blue,
      .register { id := "u", name := "u", source := "<svg>" },
      .register { id := "v", name := "v", source := blue }, .extract {} "u", .remove "u"]
  let op : Operation := .registerAndExtract {} { id := "t", name := "t", source := blue }
  have hslot : ((ops.foldl after {}).slots "t").map (·.declarations) = some [d] := by decide +kernel
  have hd : (ops.foldl after {}).Declares "t" d := by
    obtain ⟨x, hx, hdeclarations⟩ := Option.map_eq_some_iff.1 hslot
    exact ⟨x, hx, hdeclarations ▸ List.mem_singleton_self d⟩
  have hfails : ((perform op).run.run (ops.foldl after {})).1 = .error (.duplicate "t") := by
    decide +kernel
  have hmore : .remove "t" ∉ more := by simp [more]
  obtain ⟨-, -, -, hatomic, -, hkept⟩ := orderly_of_history ops
  obtain ⟨hlater, honly⟩ := hkept more "t" d hd hmore
  have hsame := hatomic op _ _ (Prod.ext hfails rfl)
  exact ⟨ops, more, d, op, .duplicate "t", rfl, rfl, hd, hmore, by decide +kernel, hlater, honly,
    Prod.ext hfails hsame⟩

end Ledger

end FormulaDrawing
