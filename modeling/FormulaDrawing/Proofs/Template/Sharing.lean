import FormulaDrawing.Proofs.Template.History
import FormulaDrawing.Proofs.Template.Shares

/-! Calls that add declarations to one template of a registry that they share. Each reads the template and
waits its turn; in its turn it adds what is not declared yet. In whatever order they take their turns, every
new key is added by one of them. -/

namespace FormulaDrawing

namespace Registry

variable {r : Registry} {id : String} {e : Entry}

section Calls

/-- A call that adds declarations to one template. -/
inductive Call where
  | extract (s : Settings)
  | insertIfAbsent (name element : String) (style : Style)

def Call.operation (id : String) : Call → Operation
  | extract s => .extract s id
  | insertIfAbsent name element style => .insertIfAbsent { name, id := element, template := id, style }

/-- What a call has in hand when it waits for its turn. -/
inductive Offer where
  | found (x : Extraction)
  | single (d : Declaration)

def Offer.declarations : Offer → List Declaration
  | found x => x.declarations
  | single d => [d]

/-- The part of a call before its turn: nothing is changed. -/
def Call.look (r : Registry) (id : String) : Call → Except Failure Offer
  | extract s => do
    let e ← r.find id
    let d ← readDrawing id e.template.source
    return .found (Extraction.ofDrawing s id d)
  | insertIfAbsent name element style => do
    let _ ← r.find id
    return .single { name, id := element, template := id, style }

/-- The turn of a call: nobody else has the declarations meanwhile. -/
def Offer.merge (known : List Declaration) : Offer → List Declaration × Answer
  | found x =>
    let (known, x) := x.declarations.foldl Registry.merge (known, x)
    (known, .extracted x)
  | single d => if d.listed known then (known, .inserted false) else (known ++ [d], .inserted true)

/-- How many declarations a call says it has added. -/
def Answer.credit : Answer → ℕ
  | extracted x => x.added
  | inserted b => b.toNat
  | registered | removed _ => 0

/-- What is found or given is offered; a call that fails before its turn offers nothing. -/
def Call.offered (r : Registry) (id : String) (c : Call) : List Declaration :=
  match c.look r id with
  | .ok o => o.declarations
  | .error _ => []

theorem Offer.merge_fst (known : List Declaration) (o : Offer) :
    (o.merge known).1 = known ++ unlisted known o.declarations := by
  cases o with
  | found x => exact (foldl_merge_eq known x x.declarations).1
  | single d =>
    rw [merge, declarations, unlisted, unlisted]
    split <;> simp [unlisted]

theorem credit_merge {c : Call} {o : Offer} (h : c.look r id = .ok o) (known : List Declaration) :
    (o.merge known).2.credit = (unlisted known o.declarations).length := by
  cases c with
  | extract s =>
    obtain ⟨e, -, h⟩ := bind_eq_ok_iff.1 h
    obtain ⟨d, -, h⟩ := bind_eq_ok_iff.1 h
    obtain rfl := Except.ok.inj h
    have hadded := (foldl_merge_eq known (Extraction.ofDrawing s id d)
      (Extraction.ofDrawing s id d).declarations).2
    rw [Extraction.added_ofDrawing, zero_add] at hadded
    exact hadded
  | insertIfAbsent name element style =>
    obtain ⟨e, -, h⟩ := bind_eq_ok_iff.1 h
    obtain rfl := Except.ok.inj h
    rw [Offer.merge, Offer.declarations, unlisted, unlisted]
    split <;> simp [Answer.credit, unlisted]

theorem perform_operation (hn : r.ids.Nodup) (he : r.find id = .ok e) (c : Call) :
    r.perform (c.operation id) = (c.look r id).map fun o =>
      (r.modify id fun x => { x with declarations := (o.merge e.declarations).1 },
        (o.merge e.declarations).2) := by
  cases c with
  | extract s =>
    rw [Call.operation, perform, extract, Call.look, he]
    dsimp only [bind, Except.bind]
    cases readDrawing id e.template.source <;> rfl
  | insertIfAbsent name element style =>
    rw [Call.operation, perform, insertIfAbsent, Call.look]
    dsimp only
    rw [he]
    dsimp only [bind, Except.bind, pure, Except.pure, Except.map, Offer.merge]
    by_cases h : Declaration.listed { name, id := element, template := id, style } e.declarations = true
    · rw [if_pos h, if_pos h, modify_eq_self hn he rfl]
    · rw [if_neg h, if_neg h]
      have hpush := modify_congr hn he
        (f := fun x => { x with declarations :=
          x.declarations ++ [{ name, id := element, template := id, style }] })
        (g := fun x => { x with declarations :=
          e.declarations ++ [{ name, id := element, template := id, style }] }) rfl
      rw [hpush]

end Calls

section Shared

variable {ι : Type} {r' : Registry} {e' : Entry} {calls : ι → Call} {i : ι}

/-- How far a call is. -/
inductive Progress where
  | begun
  | waiting (o : Offer)
  | returned (a : Except Failure Answer)

/-- A registry with the calls that share it. -/
structure Shared (ι : Type) where
  registry : Registry
  progress : ι → Progress

def start (r : Registry) : Shared ι := ⟨r, fun _ => .begun⟩

/-- How a call that has had its turn or not can stand. -/
def Progress.Stands (look : Except Failure Offer) (turned : Prop) (share : ℕ) : Progress → Prop
  | begun => ¬ turned
  | waiting o => look = .ok o ∧ ¬ turned
  | returned (.error f) => look = .error f ∧ ¬ turned
  | returned (.ok a) =>
    (∃ o known, look = .ok o ∧ a = (o.merge known).2) ∧ turned ∧ a.credit = share

/-- What is known of a registry with calls on their way. -/
structure Account (id : String) (calls : ι → Call) (r : Registry) (e : Entry) (c : Shared ι)
    (order : List ι) (shares : ι → List Declaration) : Prop
    extends Shares e.declarations (fun i => (calls i).offered r id) order shares where
  entry : c.registry.find id = .ok { e with declarations := e.declarations ++ order.flatMap shares }
  others : ∀ k ≠ id, c.registry.entry? k = r.entry? k
  ids : c.registry.ids = r.ids
  sequential : c.registry = order.foldl (fun r i => r.after ((calls i).operation id)) r
  stands : ∀ i, (c.progress i).Stands ((calls i).look r id) (i ∈ order) (shares i).length

variable {c c' : Shared ι} {order : List ι} {shares : ι → List Declaration} {p : Progress} {o : Offer}

theorem account_start (he : r.find id = .ok e) (calls : ι → Call) :
    Account id calls r e (start r) [] fun _ => [] where
  toShares := shares_nil _ _
  entry := by rwa [List.flatMap_nil, List.append_nil]
  others := fun _ _ => rfl
  ids := rfl
  sequential := rfl
  stands := fun _ => List.not_mem_nil

theorem Account.look_eq (h : Account id calls r e c order shares) (he : r.find id = .ok e) (i : ι) :
    (calls i).look c.registry id = (calls i).look r id := by
  cases calls i <;> simp only [Call.look, he, h.entry, bind, Except.bind]

variable [DecidableEq ι]

/-- One call goes on, in its turn or before; the others stay where they are. -/
inductive Step (id : String) (calls : ι → Call) (c : Shared ι) : Shared ι → Prop where
  | look {i : ι} {o : Offer} (hi : c.progress i = .begun) (ho : (calls i).look c.registry id = .ok o) :
    Step id calls c { c with progress := Function.update c.progress i (.waiting o) }
  | fail {i : ι} {f : Failure} (hi : c.progress i = .begun) (hf : (calls i).look c.registry id = .error f) :
    Step id calls c { c with progress := Function.update c.progress i (.returned (.error f)) }
  | turn {i : ι} {o : Offer} {e : Entry} (hi : c.progress i = .waiting o)
      (he : c.registry.find id = .ok e) :
    Step id calls c
      { registry := c.registry.modify id fun x => { x with declarations := (o.merge e.declarations).1 }
        progress := Function.update c.progress i (.returned (.ok (o.merge e.declarations).2)) }

/-- Any number of steps of the calls, which begin with this registry. -/
def Run (id : String) (calls : ι → Call) (r : Registry) (c : Shared ι) : Prop :=
  Relation.ReflTransGen (Step id calls) (start r) c

theorem stands_update {progress : ι → Progress} {look : ι → Except Failure Offer} {turned : ι → Prop}
    {share : ι → ℕ} (hp : p.Stands (look i) (turned i) (share i))
    (h : ∀ j ≠ i, (progress j).Stands (look j) (turned j) (share j)) (j : ι) :
    (Function.update progress i p j).Stands (look j) (turned j) (share j) := by
  by_cases hj : j = i
  · subst hj
    rwa [Function.update_self]
  · rw [Function.update_of_ne hj]
    exact h j hj

theorem Account.wait (h : Account id calls r e c order shares)
    (hp : p.Stands ((calls i).look r id) (i ∈ order) (shares i).length) :
    Account id calls r e { c with progress := Function.update c.progress i p } order shares :=
  { h with stands := stands_update hp fun j _ => h.stands j }

theorem Account.turn (h : Account id calls r e c order shares) (hn : r.ids.Nodup)
    (he : r.find id = .ok e) (hi : c.progress i = .waiting o) (he' : c.registry.find id = .ok e') :
    Account id calls r e
      { registry := c.registry.modify id fun x => { x with declarations := (o.merge e'.declarations).1 }
        progress := Function.update c.progress i (.returned (.ok (o.merge e'.declarations).2)) }
      (order ++ [i])
      (Function.update shares i
        (unlisted (e.declarations ++ order.flatMap shares) ((calls i).offered r id))) := by
  have hstands := h.stands i
  rw [hi] at hstands
  obtain ⟨hlook, hnew⟩ := hstands
  have hoffered : (calls i).offered r id = o.declarations := by rw [Call.offered, hlook]
  obtain rfl : { e with declarations := e.declarations ++ order.flatMap shares } = e' :=
    Except.ok.inj (h.entry.symm.trans he')
  have hnodup : c.registry.ids.Nodup := h.ids ▸ hn
  let add : Entry → Entry := fun x =>
    { x with declarations := (o.merge (e.declarations ++ order.flatMap shares)).1 }
  have hadd : ∀ x, (add x).template.id = x.template.id := fun _ => rfl
  exact {
    toShares := h.toShares.push hnew
    entry := by
      rw [find_modify hadd he', flatMap_update hnew, hoffered, ← List.append_assoc, ← Offer.merge_fst]
    others := fun k hk => by
      rw [entry?_modify hadd, if_neg hk]
      exact h.others k hk
    ids := by
      rw [ids_modify hadd]
      exact h.ids
    sequential := by
      rw [List.foldl_append, List.foldl_cons, List.foldl_nil, ← h.sequential, Registry.after,
        perform_operation hnodup he', h.look_eq he, hlook]
      rfl
    stands := by
      refine stands_update ⟨⟨o, _, hlook, rfl⟩, by simp, ?_⟩ fun j hj => ?_
      · rw [Function.update_self, hoffered]
        exact credit_merge hlook _
      · have hmem : (j ∈ order ++ [i]) = (j ∈ order) := by simp [hj]
        rw [Function.update_of_ne hj, hmem]
        exact h.stands j }

theorem Account.step (h : Account id calls r e c order shares) (hn : r.ids.Nodup)
    (he : r.find id = .ok e) (hstep : Step id calls c c') :
    ∃ order shares, Account id calls r e c' order shares := by
  cases hstep with
  | @look i o hi ho =>
    have hstands := h.stands i
    rw [hi] at hstands
    exact ⟨order, shares, h.wait ⟨h.look_eq he i ▸ ho, hstands⟩⟩
  | @fail i f hi hf =>
    have hstands := h.stands i
    rw [hi] at hstands
    exact ⟨order, shares, h.wait ⟨h.look_eq he i ▸ hf, hstands⟩⟩
  | turn hi he' => exact ⟨_, _, h.turn hn he hi he'⟩

theorem account_of_run (hn : r.ids.Nodup) (he : r.find id = .ok e) (h : Run id calls r c) :
    ∃ order shares, Account id calls r e c order shares := by
  induction h with
  | refl => exact ⟨[], fun _ => [], account_start he calls⟩
  | tail _ hstep ih =>
    obtain ⟨order, shares, h⟩ := ih
    exact h.step hn he hstep

theorem Account.exists_steps (h : Account id calls r e c order shares) (hn : r.ids.Nodup)
    (hi : c.progress i = .begun) : ∃ a, Relation.ReflTransGen (Step id calls) c
      { registry := c.registry.after ((calls i).operation id)
        progress := Function.update c.progress i (.returned a) } := by
  have hnodup : c.registry.ids.Nodup := h.ids ▸ hn
  rw [Registry.after, perform_operation hnodup h.entry]
  cases hlook : (calls i).look c.registry id with
  | error f => exact ⟨.error f, .single (.fail hi hlook)⟩
  | ok o =>
    -- No other call goes on between the look and the turn of this one.
    have hwaiting : Function.update c.progress i (.waiting o) i = .waiting o := Function.update_self ..
    have hturn : Step id calls { c with progress := Function.update c.progress i (.waiting o) } _ :=
      .turn hwaiting h.entry
    rw [Function.update_idem] at hturn
    exact ⟨_, .head (.look hi hlook) (.single hturn)⟩

theorem exists_run (hn : r.ids.Nodup) (he : r.find id = .ok e) (calls : ι → Call) (hnodup : order.Nodup) :
    ∃ c, Run id calls r c ∧ c.registry = order.foldl (fun r i => r.after ((calls i).operation id)) r ∧
      ∀ i, if i ∈ order then ∃ a, c.progress i = .returned a else c.progress i = .begun := by
  induction order using List.reverseRecOn with
  | nil => exact ⟨start r, .refl, rfl, fun i => by simp [start]⟩
  | append_singleton order i ih =>
    obtain ⟨hbefore, -, hi⟩ := List.nodup_append.1 hnodup
    have hi : i ∉ order := fun hmem => hi i hmem i (List.mem_singleton_self i) rfl
    obtain ⟨c, hrun, hregistry, hprogress⟩ := ih hbefore
    obtain ⟨order', shares, h⟩ := account_of_run hn he hrun
    have hbegun := hprogress i
    rw [if_neg hi] at hbegun
    obtain ⟨a, hsteps⟩ := h.exists_steps hn hbegun
    refine ⟨_, hrun.trans hsteps, ?_, fun j => ?_⟩
    · rw [List.foldl_append, ← hregistry]
      rfl
    · by_cases hj : j = i
      · subst hj
        rw [if_pos (by simp)]
        exact ⟨a, Function.update_self ..⟩
      · have hmem : j ∈ order ++ [i] ↔ j ∈ order := by simp [hj]
        have hold : Function.update c.progress i (.returned a) j = c.progress j :=
          Function.update_of_ne hj ..
        simp only [hmem, hold]
        exact hprogress j

end Shared

section Settled

variable {ι : Type} [DecidableEq ι] {c : Shared ι} {order : List ι} {shares : ι → List Declaration}
  {calls : ι → Call}

/-- A call that fails adds nothing. -/
def credited : Except Failure Answer → ℕ
  | .ok a => a.credit
  | .error _ => 0

/-- What the calls have done when all have returned. -/
structure Settled [Fintype ι] (id : String) (calls : ι → Call) (r : Registry) (e : Entry) (r' : Registry)
    (answers : ι → Except Failure Answer) (new : List Declaration)
    (shares : ι → List Declaration) : Prop where
  entry : r'.find id = .ok { e with declarations := e.declarations ++ new }
  others : ∀ k ≠ id, r'.entry? k = r.entry? k
  ids : r'.ids = r.ids
  distinct : (new.map Declaration.key).Nodup
  fresh : ∀ d ∈ new, d.key ∉ e.declarations.map Declaration.key
  keys : ∀ k, k ∈ (e.declarations ++ new).map Declaration.key ↔
    k ∈ e.declarations.map Declaration.key ∨ ∃ i, k ∈ ((calls i).offered r id).map Declaration.key
  share : ∀ i, (shares i).Sublist new ∧ (shares i).Sublist ((calls i).offered r id)
  once : ∀ k ∈ new.map Declaration.key, ∃! i, k ∈ (shares i).map Declaration.key
  credit : ∀ i, credited (answers i) = (shares i).length
  total : ∑ i, credited (answers i) = new.length
  failed : ∀ i f, (calls i).look r id = .error f → answers i = .error f
  answered : ∀ i o, (calls i).look r id = .ok o → ∃ known, answers i = .ok (o.merge known).2
  sequential : ∃ order : List ι, order.Nodup ∧
    r' = order.foldl (fun r i => r.after ((calls i).operation id)) r

theorem Account.settled [Fintype ι] {answers : ι → Except Failure Answer}
    (h : Account id calls r e c order shares) (hdone : ∀ i, c.progress i = .returned (answers i)) :
    Settled id calls r e c.registry answers (order.flatMap shares) shares := by
  have hstands (i : ι) : (Progress.returned (answers i)).Stands ((calls i).look r id) (i ∈ order)
      (shares i).length := hdone i ▸ h.stands i
  have hcredit (i : ι) : credited (answers i) = (shares i).length := by
    have hi := hstands i
    cases ha : answers i with
    | error f =>
      rw [ha] at hi
      rw [h.idle i hi.2]
      rfl
    | ok a =>
      rw [ha] at hi
      exact hi.2.2
  -- A call that has returned without a turn has failed before it, so it has offered nothing.
  have hnothing (i : ι) (hi : i ∉ order) : (calls i).offered r id = [] := by
    have hi' := hstands i
    cases ha : answers i with
    | error f =>
      rw [ha] at hi'
      rw [Call.offered, hi'.1]
    | ok a =>
      rw [ha] at hi'
      exact absurd hi'.2.1 hi
  exact {
    entry := h.entry
    others := h.others
    ids := h.ids
    distinct := h.distinct
    fresh := h.fresh
    keys := fun k => by
      rw [h.keys]
      refine or_congr_right ⟨fun ⟨i, _, hk⟩ => ⟨i, hk⟩, fun ⟨i, hk⟩ => ⟨i, ?_, hk⟩⟩
      by_contra hi
      rw [hnothing i hi] at hk
      cases hk
    share := fun i => ⟨h.share_sublist i, h.offered i⟩
    once := fun _ => h.once
    credit := hcredit
    total := by
      simp only [hcredit]
      exact h.sum_length
    failed := fun i f hf => by
      have hi := hstands i
      cases ha : answers i with
      | error f' =>
        rw [ha, hf] at hi
        rw [Except.error.inj hi.1]
      | ok a =>
        rw [ha, hf] at hi
        obtain ⟨⟨_, _, ⟨⟩, _⟩, _⟩ := hi
    answered := fun i o ho => by
      have hi := hstands i
      cases ha : answers i with
      | error f =>
        rw [ha, ho] at hi
        cases hi.1
      | ok a =>
        rw [ha, ho] at hi
        obtain ⟨⟨o', known, heq, rfl⟩, _⟩ := hi
        obtain rfl := Except.ok.inj heq
        exact ⟨known, rfl⟩
    sequential := ⟨order, h.nodup, h.sequential⟩ }

/-- Whatever the order of their turns, the calls lose and double nothing; and they can have them in any
order. -/
theorem settled_of_run [Fintype ι] (hn : r.ids.Nodup) (he : r.find id = .ok e) (calls : ι → Call) :
    (∀ c answers, Run id calls r c → (∀ i, c.progress i = .returned (answers i)) →
      ∃ new shares, Settled id calls r e c.registry answers new shares) ∧
    ∀ order : List ι, order.Nodup → (∀ i, i ∈ order) →
      ∃ (c : Shared ι) (answers : ι → Except Failure Answer), Run id calls r c ∧
        (∀ i, c.progress i = .returned (answers i)) ∧
        c.registry = order.foldl (fun r i => r.after ((calls i).operation id)) r := by
  constructor
  · intro c answers hrun hdone
    obtain ⟨order, shares, h⟩ := account_of_run hn he hrun
    exact ⟨_, shares, h.settled hdone⟩
  · intro order hnodup hall
    obtain ⟨c, hrun, hregistry, hprogress⟩ := exists_run hn he calls hnodup
    have hreturned (i : ι) : ∃ a, c.progress i = .returned a := by
      have hi := hprogress i
      rwa [if_pos (hall i)] at hi
    obtain ⟨answers, hanswers⟩ := Classical.axiomOfChoice hreturned
    exact ⟨c, answers, hrun, hanswers, hregistry⟩

/-- Two extractions and an insertion come for one and the same declaration. One of them adds it. -/
theorem settled_of_run_rivals : ∃ (r : Registry) (e : Entry) (calls : Fin 3 → Call),
    r.find "t" = .ok e ∧ e.declarations = [] ∧
    (∀ (c : Shared (Fin 3)) (answers : Fin 3 → Except Failure Answer), Run "t" calls r c →
      (∀ i, c.progress i = .returned (answers i)) → ∑ i, credited (answers i) = 1) ∧
    ∃ (c : Shared (Fin 3)) (answers : Fin 3 → Except Failure Answer), Run "t" calls r c ∧
      ∀ i, c.progress i = .returned (answers i) := by
  let e : Entry := { template :=
    { id := "t", name := "t", source := "<svg><text class=\"formula\" id=\"a\">x</text></svg>" } }
  let r : Registry := { entries := [e] }
  let calls : Fin 3 → Call := ![.extract {}, .insertIfAbsent "x" "a" {}, .extract { labels := [] }]
  have hn : r.ids.Nodup := List.nodup_singleton _
  have he : r.find "t" = .ok e := by decide +kernel
  have hoffered : ∀ i, ((calls i).offered r "t").map Declaration.key = [("x", "a", "t")] := by
    decide +kernel
  obtain ⟨hsettled, hexists⟩ := settled_of_run hn he calls
  refine ⟨r, e, calls, he, rfl, fun c answers hrun hdone => ?_, ?_⟩
  · obtain ⟨new, shares, h⟩ := hsettled c answers hrun hdone
    have hkeys : (new.map Declaration.key).Perm [("x", "a", "t")] := by
      refine (List.perm_ext_iff_of_nodup h.distinct (List.nodup_singleton _)).2 fun k => ?_
      have hk := h.keys k
      simp only [hoffered] at hk
      simpa [e] using hk
    rw [h.total, ← List.length_map Declaration.key, hkeys.length_eq]
    rfl
  · obtain ⟨c, answers, hrun, hdone, -⟩ := hexists [2, 0, 1] (by decide) (by decide)
    exact ⟨c, answers, hrun, hdone⟩

end Settled

end Registry

end FormulaDrawing
