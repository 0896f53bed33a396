import FormulaDrawing.Proofs.Binding.Resolution
import FormulaDrawing.Proofs.Text.Blank

/-! Which bindings count. Custom ones have their turn before the others; a name keeps the first number that
it is given, and a value that is no number is dropped if the name has none at its turn. -/

namespace FormulaDrawing

open Text

namespace Binding

/-- The custom ones and then the others, each in the order of the list. -/
def inTurn (bs : List Binding) : List Binding := bs.filter (·.custom) ++ bs.filter (!·.custom)

/-- The binding stands for the name and its value is a number. -/
def gives (n : String) (b : Binding) : Bool := b.varName.map trimmed == some n && b.number?.isSome

def source? (bs : List Binding) (n : String) : Option Binding :=
  (bs.find? fun b => b.custom && b.gives n).or (bs.find? fun b => !b.custom && b.gives n)

/-- What is dropped at the turn of a binding, behind the `earlier` ones. -/
def dropped? (referenced : List String) (earlier : List Binding) (b : Binding) : Option Dropped :=
  (b.varName.map trimmed).bind fun n =>
    if n ≠ "" ∧ n ∈ referenced ∧ b.number? = none ∧ ∀ b' ∈ earlier, b'.gives n = false then
      some { name := n, attr := b.attr, value := b.value }
    else none

variable {b : Binding} {bs : List Binding} {n : String}

theorem bind_nonBlank?_eq_some_iff {o : Option String} :
    o.bind nonBlank? = some n ↔ n ≠ "" ∧ o.map trimmed = some n := by
  cases o with
  | none => simp
  | some s => simp [nonBlank?_eq_some_iff]

theorem gives_eq_true_iff :
    b.gives n = true ↔ b.varName.map trimmed = some n ∧ b.number?.isSome = true := by
  rw [gives, Bool.and_eq_true, beq_iff_eq]

theorem valueFor?_eq (hn : n ≠ "") (b : Binding) :
    b.valueFor? n = if b.gives n then b.number? else none := by
  unfold valueFor?
  by_cases hname : b.varName.map trimmed = some n
  · rw [if_pos (bind_nonBlank?_eq_some_iff.2 ⟨hn, hname⟩)]
    cases hx : b.number? with
    | none => rw [ite_self]
    | some x => rw [if_pos (gives_eq_true_iff.2 ⟨hname, by rw [hx]; rfl⟩)]
  · rw [if_neg fun h => hname (bind_nonBlank?_eq_some_iff.1 h).2,
      if_neg fun h => hname (gives_eq_true_iff.1 h).1]

theorem isSome_valueFor?_iff (hn : n ≠ "") : (b.valueFor? n).isSome = true ↔ b.gives n = true := by
  rw [valueFor?_eq hn]
  split
  next h => exact iff_of_true (gives_eq_true_iff.1 h).2 h
  next h => exact iff_of_false nofun h

theorem valueFor?_empty (b : Binding) : b.valueFor? "" = none := by
  rw [valueFor?, if_neg fun h => (bind_nonBlank?_eq_some_iff.1 h).1 rfl]

theorem findSome?_valueFor? (hn : n ≠ "") (bs : List Binding) :
    bs.findSome? (·.valueFor? n) = (bs.find? (·.gives n)).bind (·.number?) := by
  induction bs with
  | nil => rfl
  | cons b bs ih =>
    rw [List.findSome?_cons, List.find?_cons, valueFor?_eq hn]
    cases h : b.gives n with
    | false => simpa using ih
    | true =>
      obtain ⟨x, hx⟩ := Option.isSome_iff_exists.1 (gives_eq_true_iff.1 h).2
      simp [hx]

theorem find?_inTurn (bs : List Binding) (n : String) :
    (inTurn bs).find? (·.gives n) = source? bs n := by
  simp only [inTurn, List.find?_append, List.find?_filter, Bool.decide_and, Bool.decide_eq_true,
    source?]

end Binding

namespace Resolution

open Binding

variable {referenced : List String} {earlier bs : List Binding} {r : Resolution} {n : String}

/-- What is bound are the referenced names that the bindings so far give a number. -/
def Binds (referenced : List String) (earlier : List Binding) (r : Resolution) : Prop :=
  ∀ n, n ≠ "" → n ∈ referenced → (r.vars.binds n = true ↔ ∃ b ∈ earlier, b.gives n = true)

theorem Binds.take (h : Binds referenced earlier r) (b : Binding) :
    Binds referenced (earlier ++ [b]) (Resolution.take referenced r b) := by
  intro n hn href
  have hold := h n hn href
  rw [Variables.binds] at hold
  rw [Variables.binds, find?_take, if_pos href, Option.isSome_or, Bool.or_eq_true, hold,
    Option.isSome_map, isSome_valueFor?_iff hn]
  simp only [List.mem_append, List.mem_singleton, or_and_right, exists_or, exists_eq_left]

theorem dropped_take (h : Binds referenced earlier r) (b : Binding) :
    (Resolution.take referenced r b).dropped =
      r.dropped ++ (b.dropped? referenced earlier).toList := by
  unfold Resolution.take dropped?
  cases hname : b.varName.bind nonBlank? with
  | none =>
    cases hv : b.varName with
    | none => simp
    | some s =>
      have hblank : trimmed s = "" := by
        by_contra hne
        have hsome := nonBlank?_eq_some_iff.2 ⟨hne, rfl⟩
        rw [hv, Option.bind_some, hsome] at hname
        cases hname
      simp [hblank]
  | some name =>
    obtain ⟨hne, hmap⟩ := bind_nonBlank?_eq_some_iff.1 hname
    rw [hmap, Option.bind_some]
    by_cases href : name ∈ referenced
    · have hb := h name hne href
      -- `h` says what is bound in terms of the earlier bindings, which is how `dropped?` asks for it.
      by_cases hbound : r.vars.binds name = true
      · obtain ⟨b', hb', hgives⟩ := hb.1 hbound
        have hnot : ¬ ∀ b' ∈ earlier, b'.gives name = false := fun hall => by
          simp [hall b' hb'] at hgives
        simp [hbound, hnot]
      · have hall : ∀ b' ∈ earlier, b'.gives name = false := fun b' hb' => by
          by_contra hgives
          exact hbound (hb.2 ⟨b', hb', by simpa using hgives⟩)
        cases hx : b.number? with
        | none =>
          rw [if_pos ⟨hne, href, rfl, hall⟩]
          simp [href, hbound]
        | some x => simp [href, hbound]
    · simp [href]

theorem dropped_foldl (h : Binds referenced earlier r) (bs : List Binding) :
    (bs.foldl (Resolution.take referenced) r).dropped = r.dropped ++
      (bs.inits.zip bs).filterMap fun p => p.2.dropped? referenced (earlier ++ p.1) := by
  induction bs generalizing earlier r with
  | nil => simp
  | cons b bs ih =>
    rw [List.foldl_cons, ih (h.take b), dropped_take h, List.inits_cons, List.zip_cons_cons,
      List.filterMap_cons, List.zip_map_left, List.filterMap_map, List.append_nil, List.append_assoc]
    simp only [Function.comp_def, Prod.map, id, List.append_assoc, List.singleton_append]
    cases b.dropped? referenced earlier <;> rfl

theorem dropped_ofBindings (bs : List Binding) (referenced : List String) :
    (ofBindings bs referenced).dropped =
      ((inTurn bs).inits.zip (inTurn bs)).filterMap fun p => p.2.dropped? referenced p.1 := by
  have hnone : Binds referenced [] {} := fun n _ _ => ⟨nofun, fun ⟨_, hb, _⟩ => absurd hb List.not_mem_nil⟩
  exact dropped_foldl hnone (inTurn bs)

theorem find?_ofBindings_eq (bs : List Binding) (referenced : List String) (n : String) :
    (ofBindings bs referenced).vars.find? n =
      if n ≠ "" ∧ n ∈ referenced then
        ((source? bs n).bind (·.number?)).map .number
      else none := by
  rw [find?_ofBindings]
  by_cases hn : n = ""
  · have hnone : (bs.filter (·.custom) ++ bs.filter (!·.custom)).findSome? (·.valueFor? "") = none :=
      List.findSome?_eq_none_iff.2 fun b _ => valueFor?_empty b
    simp [hn, hnone]
  · rw [findSome?_valueFor? hn, ← inTurn, find?_inTurn]
    simp [hn]

/-- A name is bound if it is referenced and not empty and some binding gives it a number. Its value is
that of the first custom one that does, or else of the first other one. Dropped is each binding of a
referenced name whose value is no number, unless one before it has given the name a number, where the
custom ones come first. The order of a custom binding and another one does not matter. -/
theorem precedence (bs : List Binding) (referenced : List String) :
    (∀ n, (ofBindings bs referenced).vars.binds n = true ↔ n ≠ "" ∧ n ∈ referenced ∧
      ∃ b ∈ bs, b.varName.map trimmed = some n ∧ b.number?.isSome = true) ∧
    (∀ n v, (ofBindings bs referenced).vars.find? n = some v ↔ n ≠ "" ∧ n ∈ referenced ∧
      ∃ b x, source? bs n = some b ∧ b.number? = some x ∧ v = .number x) ∧
    (ofBindings bs referenced).dropped =
      ((inTurn bs).inits.zip (inTurn bs)).filterMap (fun p => p.2.dropped? referenced p.1) ∧
    ∀ bs' : List Binding, bs'.filter (·.custom) = bs.filter (·.custom) →
      bs'.filter (!·.custom) = bs.filter (!·.custom) →
      ofBindings bs' referenced = ofBindings bs referenced := by
  refine ⟨fun n => ?_, fun n v => ?_, dropped_ofBindings bs referenced, fun bs' hcustom hother => ?_⟩
  · rw [binds_ofBindings_iff, and_left_comm]
    refine and_congr_right fun _ => ⟨fun ⟨b, hb, hx⟩ => ?_, fun ⟨hn, b, hb, hx⟩ => ?_⟩
    · have hn : n ≠ "" := by
        rintro rfl
        rw [valueFor?_empty] at hx
        cases hx
      exact ⟨hn, b, hb, gives_eq_true_iff.1 ((isSome_valueFor?_iff hn).1 hx)⟩
    · exact ⟨b, hb, (isSome_valueFor?_iff hn).2 (gives_eq_true_iff.2 hx)⟩
  · rw [find?_ofBindings_eq]
    split
    next h =>
      simp only [Option.map_eq_some_iff, Option.bind_eq_some_iff, h.1, h.2, ne_eq, not_false_eq_true,
        true_and]
      constructor
      · rintro ⟨x, ⟨b, hb, hx⟩, rfl⟩
        exact ⟨b, x, hb, hx, rfl⟩
      · rintro ⟨b, x, hb, hx, rfl⟩
        exact ⟨x, ⟨b, hb, hx⟩, rfl⟩
    next h => exact ⟨nofun, fun ⟨hn, href, _⟩ => absurd ⟨hn, href⟩ h⟩
  · rw [ofBindings, ofBindings, hcustom, hother]

/-- A custom value that is no number gives way to another one, a second number does not count, and a
value that is no number is not dropped behind one that is; also where the list is put in turn. -/
theorem precedence_fallback :
    let bs : List Binding := [{ attr := "w", value := " 1000 ", varName := some " a" },
      { attr := "w", value := "N/A", varName := some "a", custom := true },
      { attr := "v", value := "2", varName := some "a " },
      { attr := "u", value := "x", varName := some "a" }]
    let r := Resolution.ofBindings bs ["a"]
    r.vars.find? "a" = some (.number 1000) ∧
      r.dropped = [{ name := "a", attr := "w", value := "N/A" }] ∧
      Resolution.ofBindings (inTurn bs) ["a"] = r := by
  intro bs r
  obtain ⟨-, hvalue, hdropped, horder⟩ := precedence bs ["a"]
  refine ⟨(hvalue "a" (.number 1000)).2 ⟨by decide, by decide, bs[0], 1000, ?_, ?_, rfl⟩, ?_, ?_⟩
  · decide +kernel
  · decide +kernel
  · rw [hdropped]
    decide +kernel
  · exact horder (inTurn bs) (by decide) (by decide)

/-- The empty name is bound by nothing, also where it is referenced and a blank name stands for it. -/
theorem empty_name_unbound : ∃ (b : Binding) (referenced : List String) (n : String),
    n ∈ referenced ∧ b.varName.map trimmed = some n ∧ b.number?.isSome = true ∧
      (ofBindings [b] referenced).vars.binds n = false :=
  ⟨{ attr := "w", value := "1", varName := some " " }, [""], "", by decide +kernel⟩

end Resolution

end FormulaDrawing
