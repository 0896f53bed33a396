import FormulaDrawing.Proofs.Drawing.Order
import FormulaDrawing.Proofs.Template.Shares

/-! What an extraction makes of each marked element. A declaration is found at the first element of its key
and added if no such key is registered; every other marked element is skipped, for one reason. -/

namespace FormulaDrawing

theorem Drawing.marked_eq {d : Drawing} {source : String} (hread : read source = .ok d) (c : String) :
    d.marked c = (List.range d.nodes.size).filter fun h => (d.element? h).any (·.hasClass c) := by
  obtain ⟨hroot, helement, -, -, -, -, -, hdescendants, -⟩ := document_order hread
  have hpos : d.nodes.size ≠ 0 := by
    intro hnone
    rw [element?, content?, node?, Array.getElem?_eq_none (by omega)] at helement
    cases helement
  obtain ⟨n, hn⟩ := Nat.exists_eq_succ_of_ne_zero hpos
  have hrange : List.range d.nodes.size = 0 :: List.range' 1 (d.nodes.size - 1) := by
    rw [hn, List.range_eq_range', List.range'_succ, Nat.succ_sub_one]
  have helements : d.elements = (List.range d.nodes.size).filter fun h => (d.element? h).isSome := by
    rw [elements, descendantElements, hdescendants, hroot, hrange, List.filter_cons, if_pos helement]
  rw [marked, helements, List.filter_filter]
  refine List.filter_congr fun h _ => ?_
  cases d.element? h <;> simp

theorem Declaration.listed_push {known : List Declaration} {d e : Declaration} (h : d.key ≠ e.key) :
    e.listed (known ++ [d]) = e.listed known := by
  simp [listed, h]

theorem foldl_merge_of_distinct {ds : List Declaration} (hn : (ds.map Declaration.key).Nodup)
    (known : List Declaration) (x : Extraction) :
    ds.foldl Registry.merge (known, x) =
      (known ++ ds.filter fun d => !d.listed known,
        { x with
          added := x.added + (ds.filter fun d => !d.listed known).length
          skipped := x.skipped ++
            (ds.filter (·.listed known)).map fun d => .duplicate d.name d.id }) := by
  induction ds generalizing known x with
  | nil => simp
  | cons d ds ih =>
    rw [List.map_cons, List.nodup_cons] at hn
    rw [List.foldl_cons, Registry.merge]
    by_cases h : d.listed known = true
    · rw [if_pos h, ih hn.2]
      simp [h]
    · have hsame : ∀ e ∈ ds, e.listed (known ++ [d]) = e.listed known := fun e he =>
        Declaration.listed_push fun hkey => hn.1 (hkey ▸ List.mem_map_of_mem he)
      have hnew : (ds.filter fun e => !e.listed (known ++ [d])) = ds.filter fun e => !e.listed known :=
        List.filter_congr fun e he => by rw [hsame e he]
      rw [if_neg h, ih hn.2, hnew, List.filter_congr hsame]
      simp [h, Nat.add_assoc, Nat.add_comm 1]

namespace Extraction

/-- What becomes of one marked element. -/
inductive Fate where
  | nameless (id : Option String)
  | unidentified (name : String)
  /-- An earlier marked element has the same key. -/
  | repeated (found : Declaration)
  /-- It is the first of its key, which is registered already. -/
  | registered (found : Declaration)
  | added (found : Declaration)

namespace Fate

def declared? : Fate → Option Declaration
  | registered found => some found
  | added found => some found
  | _ => none

def added? : Fate → Option Declaration
  | added found => some found
  | _ => none

/-- What is skipped before the registered declarations are looked at. -/
def missed? : Fate → Option Skipped
  | nameless id => some (.missingName id)
  | unidentified name => some (.missingId name)
  | repeated found => some (.duplicate found.name found.id)
  | _ => none

def known? : Fate → Option Skipped
  | registered found => some (.duplicate found.name found.id)
  | _ => none

def skipped? (f : Fate) : Option Skipped := f.missed?.or f.known?

theorem length_eq (fs : List Fate) :
    fs.length = (fs.filterMap added?).length + (fs.filterMap skipped?).length := by
  induction fs with
  | nil => rfl
  | cons f fs ih =>
    rw [List.length_cons, ih]
    cases f with
    | added found => exact (Nat.succ_add _ _).symm
    | nameless id => rfl
    | unidentified name => rfl
    | repeated found => rfl
    | registered found => rfl

theorem perm_skipped (fs : List Fate) :
    (fs.filterMap missed? ++ fs.filterMap known?).Perm (fs.filterMap skipped?) := by
  induction fs with
  | nil => exact .nil
  | cons f fs ih =>
    cases f with
    | nameless id => exact ih.cons _
    | unidentified name => exact ih.cons _
    | repeated found => exact ih.cons _
    | registered found => exact List.perm_middle.trans (ih.cons _)
    | added found => exact ih

end Fate

section Definitions

variable (s : Settings) (template : String) (d : Drawing)

/-- What an element declares, if it has a name and an identifier. -/
def declaration? (h : Handle) : Option Declaration :=
  match d.formulaName? s.labels h, d.id? h with
  | some name, some id => some { name, id, template, style := s.resolver.resolve d h }
  | _, _ => none

/-- The first marked element of a key. -/
def first? (k : String × String × String) : Option Handle :=
  (d.marked s.markerClass).find? fun h => (declaration? s template d h).map Declaration.key = some k

def fate (known : List Declaration) (h : Handle) : Fate :=
  match declaration? s template d h, d.formulaName? s.labels h with
  | some found, _ =>
    if first? s template d found.key ≠ some h then .repeated found
    else if found.listed known then .registered found
    else .added found
  | none, some name => .unidentified name
  | none, none => .nameless (d.id? h)

end Definitions

variable {s : Settings} {template : String} {d : Drawing} {known : List Declaration} {x : Extraction}
  {h : Handle} {before hs : List Handle} {found : Declaration} {k : String × String × String}

theorem declaration?_eq_some_iff : declaration? s template d h = some found ↔
    d.formulaName? s.labels h = some found.name ∧ d.id? h = some found.id ∧
      found.template = template ∧ found.style = s.resolver.resolve d h := by
  obtain ⟨name, id, owner, style⟩ := found
  unfold declaration?
  cases d.formulaName? s.labels h <;> cases d.id? h <;> simp [eq_comm]

theorem of_first?_eq_some (hk : first? s template d k = some h) : h ∈ d.marked s.markerClass ∧
    ∃ found, declaration? s template d h = some found ∧ found.key = k := by
  rw [first?] at hk
  exact ⟨List.mem_of_find?_eq_some hk, by simpa using List.find?_some hk⟩

theorem fate_of_none (hd : declaration? s template d h = none) :
    (fate s template d known h).declared? = none ∧ (fate s template d known h).added? = none ∧
      (fate s template d known h).known? = none := by
  unfold fate
  rw [hd]
  cases d.formulaName? s.labels h <;> exact ⟨rfl, rfl, rfl⟩

theorem fate_of_some (hd : declaration? s template d h = some found) :
    fate s template d known h =
      if first? s template d found.key ≠ some h then .repeated found
      else if found.listed known then .registered found
      else .added found := by
  unfold fate
  rw [hd]

theorem declared?_fate : (fate s template d known h).declared? = some found ↔
    declaration? s template d h = some found ∧ first? s template d found.key = some h := by
  cases hd : declaration? s template d h with
  | none => simp [(fate_of_none hd).1]
  | some f =>
    rw [fate_of_some hd, Option.some.injEq]
    by_cases hfirst : first? s template d f.key = some h
    · rw [if_neg (not_not.2 hfirst)]
      have hf : ∀ y, f = y ↔ f = y ∧ first? s template d y.key = some h :=
        fun y => ⟨fun hy => ⟨hy, hy ▸ hfirst⟩, And.left⟩
      split <;> rw [Fate.declared?, Option.some.injEq] <;> exact hf found
    · rw [if_pos hfirst]
      refine iff_of_false nofun ?_
      rintro ⟨rfl, hf⟩
      exact hfirst hf

theorem added?_fate : (fate s template d known h).added? =
    ((fate s template d known h).declared?).filter fun y => !y.listed known := by
  cases hd : declaration? s template d h with
  | none => rw [(fate_of_none hd).1, (fate_of_none hd).2.1]; rfl
  | some f =>
    rw [fate_of_some hd]
    split_ifs with hfirst hl
    · rfl
    · simp [Fate.added?, Fate.declared?, Option.filter, hl]
    · simp [Fate.added?, Fate.declared?, Option.filter, hl]

theorem known?_fate : (fate s template d known h).known? =
    (((fate s template d known h).declared?).filter fun y => y.listed known).map
      fun y => .duplicate y.name y.id := by
  cases hd : declaration? s template d h with
  | none => rw [(fate_of_none hd).1, (fate_of_none hd).2.2]; rfl
  | some f =>
    rw [fate_of_some hd]
    split_ifs with hfirst hl
    · rfl
    · simp [Fate.known?, Fate.declared?, Option.filter, hl]
    · simp [Fate.known?, Fate.declared?, Option.filter, hl]

variable (known) in
theorem take_eq (hx : x.template = template)
    (hfirst : ∀ found, declaration? s template d h = some found →
      (found.listed x.declarations = true ↔ first? s template d found.key ≠ some h)) :
    take s d x h = { x with
      declarations := x.declarations ++ (fate s template d known h).declared?.toList
      skipped := x.skipped ++ (fate s template d known h).missed?.toList } := by
  subst hx
  unfold take fate
  cases hname : d.formulaName? s.labels h with
  | none =>
    have hnone : declaration? s x.template d h = none := by rw [declaration?, hname]
    simp [hnone, Fate.declared?, Fate.missed?]
  | some name =>
    cases hid : d.id? h with
    | none =>
      have hnone : declaration? s x.template d h = none := by rw [declaration?, hname, hid]
      simp [hnone, Fate.declared?, Fate.missed?]
    | some id =>
      have hsome : declaration? s x.template d h =
          some { name, id, template := x.template, style := s.resolver.resolve d h } := by
        rw [declaration?, hname, hid]
      have hlisted := hfirst _ hsome
      rw [hsome]
      dsimp only
      by_cases hl : first? s x.template d
          (Declaration.key { name, id, template := x.template, style := s.resolver.resolve d h }) ≠ some h
      · rw [if_pos hl, if_pos (hlisted.2 hl)]
        simp only [Fate.declared?, Fate.missed?, Option.toList_none, Option.toList_some, List.append_nil]
      · rw [if_neg hl, if_neg fun hl' => hl (hlisted.1 hl')]
        split <;> simp only [Fate.declared?, Fate.missed?, Option.toList_none, Option.toList_some,
          List.append_nil]

theorem find?_behind {α : Type} {p : α → Bool} {front back : List α} {a : α}
    (hn : (front ++ a :: back).Nodup) (ha : p a = true) :
    (front ++ a :: back).find? p = some a ↔ ∀ b ∈ front, ¬ p b = true := by
  rw [List.find?_append, List.find?_cons_of_pos ha]
  cases hb : front.find? p with
  | none => exact iff_of_true rfl (List.find?_eq_none.1 hb)
  | some b =>
    have hmem := List.mem_of_find?_eq_some hb
    refine iff_of_false (fun he => ?_) fun hall => hall b hmem (List.find?_some hb)
    obtain rfl : b = a := Option.some.inj he
    exact List.disjoint_of_nodup_append hn hmem List.mem_cons_self

/-- The declarations found so far have the keys of the elements that came before. -/
structure Covers (s : Settings) (template : String) (d : Drawing) (before : List Handle)
    (x : Extraction) : Prop where
  owner : x.template = template
  keys : ∀ k, k ∈ x.declarations.map Declaration.key ↔
    ∃ h ∈ before, (declaration? s template d h).map Declaration.key = some k

theorem Covers.listed_iff (hx : Covers s template d before x) (hn : (d.marked s.markerClass).Nodup)
    (hall : before ++ h :: hs = d.marked s.markerClass)
    (hfound : declaration? s template d h = some found) :
    found.listed x.declarations = true ↔ first? s template d found.key ≠ some h := by
  have hself : decide ((declaration? s template d h).map Declaration.key = some found.key) = true :=
    decide_eq_true (by rw [hfound]; rfl)
  have hbehind := find?_behind (hall ▸ hn) (p := fun j =>
    decide ((declaration? s template d j).map Declaration.key = some found.key)) hself
  rw [first?, ← hall, ne_eq, hbehind, Declaration.listed_iff_mem_keys, hx.keys]
  simp

theorem Covers.take (hx : Covers s template d before x) (hn : (d.marked s.markerClass).Nodup)
    (hall : before ++ h :: hs = d.marked s.markerClass) :
    Covers s template d (before ++ [h]) (take s d x h) where
  owner := (template_take s d x h).trans hx.owner
  keys := fun k => by
    rw [take_eq [] hx.owner fun found hfound => hx.listed_iff hn hall hfound,
      List.map_append, List.mem_append, hx.keys]
    constructor
    · rintro (⟨j, hj, hk⟩ | hk)
      · exact ⟨j, List.mem_append_left _ hj, hk⟩
      · obtain ⟨y, hy, rfl⟩ := List.mem_map.1 hk
        obtain ⟨hfound, -⟩ := declared?_fate.1 (Option.mem_toList.1 hy)
        exact ⟨h, by simp, by rw [hfound]; rfl⟩
    · rintro ⟨j, hj, hk⟩
      rcases List.mem_append.1 hj with hj | hj
      · exact .inl ⟨j, hj, hk⟩
      obtain rfl := List.mem_singleton.1 hj
      obtain ⟨y, hfound, rfl⟩ := Option.map_eq_some_iff.1 hk
      by_cases hfirst : first? s template d y.key = some j
      · refine .inr (List.mem_map_of_mem (Option.mem_toList.2 ?_))
        exact declared?_fate.2 ⟨hfound, hfirst⟩
      · exact .inl ((hx.keys _).1 (Declaration.listed_iff_mem_keys.1
          ((hx.listed_iff hn hall hfound).2 hfirst)))

variable (known) in
theorem foldl_take_eq (hn : (d.marked s.markerClass).Nodup) (hall : before ++ hs = d.marked s.markerClass)
    (hx : Covers s template d before x) :
    hs.foldl (take s d) x = { x with
      declarations := x.declarations ++ (hs.map (fate s template d known)).filterMap Fate.declared?
      skipped := x.skipped ++ (hs.map (fate s template d known)).filterMap Fate.missed? } := by
  induction hs generalizing before x with
  | nil => simp
  | cons h hs ih =>
    have hrest : before ++ [h] ++ hs = d.marked s.markerClass := by rw [← hall]; simp
    rw [List.foldl_cons, ih hrest (hx.take hn hall),
      take_eq known hx.owner fun found hfound => hx.listed_iff hn hall hfound]
    cases hd : (fate s template d known h).declared? <;>
      cases hm : (fate s template d known h).missed? <;> simp [hd, hm]

variable {source : String}

theorem nodup_marked (hread : Drawing.read source = .ok d) (c : String) : (d.marked c).Nodup := by
  rw [Drawing.marked_eq hread]
  exact List.nodup_range.filter _

theorem ofDrawing_eq (hn : (d.marked s.markerClass).Nodup) (template : String) (known : List Declaration) :
    ofDrawing s template d =
      { template
        declarations := ((d.marked s.markerClass).map (fate s template d known)).filterMap Fate.declared?
        skipped := ((d.marked s.markerClass).map (fate s template d known)).filterMap Fate.missed? } := by
  have hstart : Covers s template d [] { template } := ⟨rfl, fun k => by simp⟩
  rw [ofDrawing, foldl_take_eq known hn (List.nil_append _) hstart]
  simp

variable (template known) in
theorem nodup_keys_declared (hn : (d.marked s.markerClass).Nodup) :
    ((((d.marked s.markerClass).map (fate s template d known)).filterMap Fate.declared?).map
      Declaration.key).Nodup := by
  rw [List.filterMap_map, List.map_filterMap]
  refine hn.filterMap fun i j k hi hj => ?_
  obtain ⟨y, hy, rfl⟩ := Option.map_eq_some_iff.1 (Option.mem_def.1 hi)
  obtain ⟨z, hz, hkey⟩ := Option.map_eq_some_iff.1 (Option.mem_def.1 hj)
  have hfirst := (declared?_fate.1 hz).2
  rw [hkey, (declared?_fate.1 hy).2] at hfirst
  exact Option.some.inj hfirst

variable (s template d known) in
theorem filter_declared (hs : List Handle) :
    (((hs.map (fate s template d known)).filterMap Fate.declared?).filter fun y => !y.listed known) =
        (hs.map (fate s template d known)).filterMap Fate.added? ∧
      ((((hs.map (fate s template d known)).filterMap Fate.declared?).filter (·.listed known)).map
          fun y => .duplicate y.name y.id) = (hs.map (fate s template d known)).filterMap Fate.known? := by
  rw [List.filter_filterMap, List.filter_filterMap, List.map_filterMap, List.filterMap_map,
    List.filterMap_map, List.filterMap_map, List.filterMap_map]
  refine ⟨List.filterMap_congr fun h _ => ?_, List.filterMap_congr fun h _ => ?_⟩
  · rw [Function.comp_apply, Function.comp_apply, added?_fate]
  · rw [Function.comp_apply, Function.comp_apply, known?_fate]

theorem exists_first (hh : h ∈ d.marked s.markerClass) {name id : String}
    (hname : d.formulaName? s.labels h = some name) (hid : d.id? h = some id) :
    ∃ j, first? s template d (name, id, template) = some j ∧
      { name, id, template, style := s.resolver.resolve d j } ∈
        ((d.marked s.markerClass).map (fate s template d known)).filterMap Fate.declared? := by
  have hsome : (first? s template d (name, id, template)).isSome := by
    rw [first?, List.find?_isSome]
    exact ⟨h, hh, by simp [declaration?, hname, hid, Declaration.key]⟩
  obtain ⟨j, hj⟩ := Option.isSome_iff_exists.1 hsome
  obtain ⟨hmem, found, hfound, hkey⟩ := of_first?_eq_some hj
  obtain ⟨-, -, howner, hstyle⟩ := declaration?_eq_some_iff.1 hfound
  obtain ⟨foundName, foundId, owner, style⟩ := found
  obtain ⟨rfl, rfl, -⟩ : foundName = name ∧ foundId = id ∧ owner = template := by
    simpa [Declaration.key] using hkey
  obtain rfl : owner = template := howner
  obtain rfl : style = s.resolver.resolve d j := hstyle
  refine ⟨j, hj, ?_⟩
  rw [List.filterMap_map, List.mem_filterMap]
  exact ⟨j, hmem, declared?_fate.2 ⟨hfound, hj⟩⟩

end Extraction

namespace Registry

open Extraction

variable {r : Registry} {id source : String} {e : Entry} {d : Drawing}

theorem extract_eq (hfind : r.find id = .ok e) (hread : Drawing.read e.template.source = .ok d)
    (s : Settings) {known : List Declaration} {x : Extraction}
    (hfold : (ofDrawing s id d).declarations.foldl merge (e.declarations, ofDrawing s id d) = (known, x)) :
    r.extract s id = .ok (r.modify id fun e => { e with declarations := known }, x) := by
  rw [extract, hfind]
  dsimp only [bind, Except.bind, readDrawing]
  rw [hread]
  dsimp only [Except.mapError]
  rw [hfold]
  rfl

/-- Of a template that can be read an extraction accounts for every marked element, in the order of the
document: it is skipped for lack of a name or of an identifier, because an earlier one has its key, or
because its key is registered, or else it is added. Found are the first elements of their keys, with the
styles they have there. -/
theorem extract_accounts (hfind : r.find id = .ok e) (hread : Drawing.read e.template.source = .ok d)
    (s : Settings) :
    ∃ r' x, r.extract s id = .ok (r', x) ∧
      d.marked s.markerClass =
        ((List.range d.nodes.size).filter fun h => (d.element? h).any (·.hasClass s.markerClass)) ∧
      ∃ fates, fates = (d.marked s.markerClass).map (fate s id d e.declarations) ∧
        (d.marked s.markerClass).length = x.added + x.skipped.length ∧
        x.declarations = fates.filterMap Fate.declared? ∧
        (x.declarations.map Declaration.key).Nodup ∧
        (∀ h ∈ d.marked s.markerClass, ∀ name i, d.formulaName? s.labels h = some name →
          d.id? h = some i → ∃ j, first? s id d (name, i, id) = some j ∧
            { name, id := i, template := id, style := s.resolver.resolve d j } ∈ x.declarations) ∧
        x.skipped.Perm (fates.filterMap Fate.skipped?) ∧
        x.added = (fates.filterMap Fate.added?).length ∧
        r'.declarations id = .ok (e.declarations ++ fates.filterMap Fate.added?) := by
  have hn := nodup_marked hread s.markerClass
  obtain ⟨hadded, hknown⟩ := filter_declared s id d e.declarations (d.marked s.markerClass)
  obtain ⟨fates, hfates⟩ : ∃ fates, fates = (d.marked s.markerClass).map (fate s id d e.declarations) :=
    ⟨_, rfl⟩
  have hdistinct := nodup_keys_declared id e.declarations hn
  rw [← hfates] at hadded hknown hdistinct
  have hfound := ofDrawing_eq hn id e.declarations
  rw [← hfates] at hfound
  -- The registry merges one declaration after another; with distinct keys that is a filter.
  have hfold : (ofDrawing s id d).declarations.foldl merge (e.declarations, ofDrawing s id d) =
      (e.declarations ++ fates.filterMap Fate.added?,
        { template := id
          declarations := fates.filterMap Fate.declared?
          added := (fates.filterMap Fate.added?).length
          skipped := fates.filterMap Fate.missed? ++ fates.filterMap Fate.known? }) := by
    rw [hfound, foldl_merge_of_distinct hdistinct, hadded, hknown, Nat.zero_add]
  have hextract := extract_eq hfind hread s hfold
  have hlength := Fate.length_eq fates
  have hperm := Fate.perm_skipped fates
  refine ⟨_, _, hextract, Drawing.marked_eq hread _, fates, hfates, ?_, rfl, hdistinct,
    fun h hh name i hname hi => ?_, hperm, rfl, ?_⟩
  · calc
      (d.marked s.markerClass).length = fates.length := by rw [hfates, List.length_map]
      _ = _ := by rw [hlength, hperm.length_eq]
  · rw [hfates]
    exact exists_first hh hname hi
  · have hentry := find_modify (f := fun y =>
      { y with declarations := e.declarations ++ fates.filterMap Fate.added? }) (fun _ => rfl) hfind
    rw [declarations, hentry]
    rfl

/-- One marked element of each fate, where the one that is repeated has another style. -/
theorem extract_accounts_mixed :
    let e : Entry :=
      { template :=
          { id := "t", name := "t", formulas := [],
            source := "<svg><text class=\"formula\" id=\"a\">f</text>" ++
              "<text class=\"formula\" id=\"b\"/><text class=\"formula\">g</text>" ++
              "<text class=\"formula\" id=\"a\" fill=\"red\">f</text>" ++
              "<text class=\"formula\" id=\"c\">h</text></svg>" }
        declarations := [{ name := "h", id := "c", template := "t" }] }
    ∃ d r' x, Drawing.read e.template.source = .ok d ∧
      extract { entries := [e] } {} "t" = .ok (r', x) ∧ (d.marked "formula").length = 5 ∧
      x = { template := "t"
            declarations := [{ name := "f", id := "a", template := "t" },
              { name := "h", id := "c", template := "t" }]
            added := 1
            skipped :=
              [.missingName (some "b"), .missingId "g", .duplicate "f" "a", .duplicate "h" "c"] } := by
  intro e
  have hresult : (extract { entries := [e] } {} "t").toOption.map Prod.snd = some
      { template := "t"
        declarations := [{ name := "f", id := "a", template := "t" },
          { name := "h", id := "c", template := "t" }]
        added := 1
        skipped :=
          [.missingName (some "b"), .missingId "g", .duplicate "f" "a", .duplicate "h" "c"] } := by
    decide +kernel
  have hfind : find { entries := [e] } "t" = .ok e := by rfl
  have hok : (Drawing.read e.template.source).toOption.isSome = true := by decide +kernel
  cases hread : Drawing.read e.template.source with
  | error cause => rw [hread] at hok; cases hok
  | ok d =>
    obtain ⟨r', x, hextract, -, -, -, hlength, -⟩ := extract_accounts hfind hread {}
    rw [hextract] at hresult
    obtain rfl := Option.some.inj hresult
    exact ⟨d, r', _, rfl, hextract, hlength, rfl⟩

end Registry

end FormulaDrawing
